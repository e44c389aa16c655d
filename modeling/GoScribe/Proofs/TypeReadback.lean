import GoScribe.Proofs.ExprReadback
import GoScribe.Proofs.GoTypeExpr

/-!
# Types can be read back

The text of a type is read by Go's grammar as the tree that was rendered.  The tree keeps the symbols
that names resolve to, the names and types of fields and the signatures of methods.  It does not keep
what is not written: the names of parameters and results, the names of the source language, how a struct
is passed and what methods it has, and embedded interfaces while they are not shown.

Structs and interfaces spread over lines, but the tokens of a type do not depend on where it stands.
-/

namespace GoScribe

open Go (Alphabet Token)

/-! ## Types and their trees -/

namespace Env

/-- The qualified name resolves to a name of Go, in a package with a name of Go if in any. -/
def namesSymbol (env : Env) (A : Alphabet) (qualifiedName : String) : Bool :=
  (env.resolve qualifiedName).any fun s => A.isIdentifier s.name && s.pkg.all A.isIdentifier

/-- The symbol that a qualified name stands for. -/
def symbolOf (env : Env) (qualifiedName : String) : Symbol :=
  (env.resolve qualifiedName).getD ⟨none, qualifiedName⟩

mutual

/-- The tree that Go has for a type. -/
def typeTree (env : Env) : GoType → Go.TypeExpr
  | .named qualifiedName => .name (env.symbolOf qualifiedName)
  | .array elem => .array (env.typeTree elem)
  | .pointer target => .pointer (env.typeTree target)
  | .func params results _ => .func (env.typeTrees params) (env.typeTrees results)
  | .struct embeds fields _ _ => .struct embeds (env.fieldTrees fields)
  | .interface embeds methods _ =>
    .interface ((env.shownEmbeds embeds).map env.symbolOf) (env.methodTrees methods)
  | .empty | .unresolved _ => .name ⟨none, "_"⟩

/-- The trees of the types of parameters or results. -/
def typeTrees (env : Env) : List Binding → List Go.TypeExpr
  | [] => []
  | ⟨_, _, _, ty⟩ :: bs => env.typeTree ty :: env.typeTrees bs

/-- The fields of a struct with the trees of their types. -/
def fieldTrees (env : Env) : List Binding → List Go.Field
  | [] => []
  | ⟨name, _, _, ty⟩ :: bs => ⟨name, env.typeTree ty⟩ :: env.fieldTrees bs

/-- The methods of an interface with the trees of their signatures. -/
def methodTrees (env : Env) : List Binding → List Go.Method
  | [] => []
  | ⟨name, _, _, .func params results _⟩ :: bs =>
    ⟨name, env.typeTrees params, env.typeTrees results⟩ :: env.methodTrees bs
  | _ :: bs => env.methodTrees bs

end

end Env

/-- The types over names that resolve.  Functions have no bodies, interfaces are no type variables, and
members have no comments. -/
inductive GoType.IsPlain (env : Env) (A : Alphabet) : GoType → Prop
  | named {qualifiedName : String} : env.namesSymbol A qualifiedName → IsPlain env A (.named qualifiedName)
  | array {elem : GoType} : IsPlain env A elem → IsPlain env A (.array elem)
  | pointer {target : GoType} : IsPlain env A target → IsPlain env A (.pointer target)
  | func {params results : List Binding} : (∀ p ∈ params, IsPlain env A p.type) →
      (∀ r ∈ results, IsPlain env A r.type) → IsPlain env A (.func params results none)
  | struct {embeds : List String} {fields : List Binding} (byPointer : Bool) (methods : List Binding) :
      (∀ e ∈ embeds, A.isIdentifier e) → (∀ f ∈ fields, A.isIdentifier f.name) →
      (∀ f ∈ fields, f.comments = []) → (∀ f ∈ fields, IsPlain env A f.type) →
      IsPlain env A (.struct embeds fields byPointer methods)
  | interface {embeds : List String} {methods : List Binding} :
      (∀ e ∈ env.shownEmbeds embeds, env.namesSymbol A e) → (∀ m ∈ methods, A.isIdentifier m.name) →
      (∀ m ∈ methods, m.comments = []) → (∀ m ∈ methods, m.type.isFunc) →
      (∀ m ∈ methods, IsPlain env A m.type) → IsPlain env A (.interface embeds methods false)

/-! ## The tokens of a type -/

/-- The tokens of results, which stand alone only if there is one. -/
def resultTokens : List (List Token) → List Token
  | [ts] => ts
  | tss => .symbol ['('] :: (Text.joinWith [.symbol [',']] tss ++ [.symbol [')']])

/-- The tokens of parameters behind their opening parenthesis, and of results. -/
def signatureTokens (pss rss : List (List Token)) : List Token :=
  Text.joinWith [.symbol [',']] pss ++ .symbol [')'] :: resultTokens rss

namespace Env

mutual

/-- The tokens of a type. -/
def typeTokens (env : Env) : GoType → List Token
  | .named qualifiedName => Go.symbolTokens (env.symbolOf qualifiedName)
  | .array elem => .symbol ['['] :: .symbol [']'] :: env.typeTokens elem
  | .pointer target => .symbol ['*'] :: env.typeTokens target
  | .func params results _ =>
    .keyword "func" :: .symbol ['('] ::
      signatureTokens (env.typeTokenLists params) (env.typeTokenLists results)
  | .struct embeds fields _ _ =>
    .keyword "struct" :: Go.memberTokens (embeds.map (fun e => [.name e]) ++ env.fieldTokens fields)
  | .interface embeds methods _ =>
    .keyword "interface" :: Go.memberTokens
      ((env.shownEmbeds embeds).map (fun e => Go.symbolTokens (env.symbolOf e)) ++
        env.methodTokens methods)
  | .empty | .unresolved _ => []

/-- The tokens of the types of parameters or results. -/
def typeTokenLists (env : Env) : List Binding → List (List Token)
  | [] => []
  | ⟨_, _, _, ty⟩ :: bs => env.typeTokens ty :: env.typeTokenLists bs

/-- The tokens of the lines of fields. -/
def fieldTokens (env : Env) : List Binding → List (List Token)
  | [] => []
  | ⟨name, _, _, ty⟩ :: bs => (.name name :: env.typeTokens ty) :: env.fieldTokens bs

/-- The tokens of the lines of methods. -/
def methodTokens (env : Env) : List Binding → List (List Token)
  | [] => []
  | ⟨name, _, _, .func params results _⟩ :: bs =>
    (.name name :: .symbol ['('] ::
      signatureTokens (env.typeTokenLists params) (env.typeTokenLists results)) :: env.methodTokens bs
  | _ :: bs => env.methodTokens bs

end

theorem typeTrees_eq_map (env : Env) (bs : List Binding) :
    env.typeTrees bs = bs.map fun b => env.typeTree b.type := by
  induction bs with
  | nil => rfl
  | cons b bs ih =>
    obtain ⟨name, sourceName, comments, ty⟩ := b
    rw [typeTrees, ih, List.map_cons]

theorem typeTokenLists_eq_map (env : Env) (bs : List Binding) :
    env.typeTokenLists bs = bs.map fun b => env.typeTokens b.type := by
  induction bs with
  | nil => rfl
  | cons b bs ih =>
    obtain ⟨name, sourceName, comments, ty⟩ := b
    rw [typeTokenLists, ih, List.map_cons]

/-- Without names, parameters and results are written as their types. -/
theorem bindingTypes_eq_map (env : Env) (i : Indent) (bs : List Binding) :
    env.bindingTypes i false bs = bs.map (env.bindingType i) := by
  induction bs with
  | nil => rfl
  | cons b bs ih =>
    obtain ⟨name, sourceName, comments, ty⟩ := b
    rw [bindingTypes, ih, List.map_cons]
    rfl

end Env

/-! ## Spelling names, signatures and members -/

namespace Go.Alphabet

variable {A : Alphabet}

/-- An identifier is not empty. -/
theorem ne_empty_of_isIdentifier {s : String} (hs : A.isIdentifier s) : s ≠ "" := by
  rintro rfl
  cases hs

theorem spellsOperand_symbol (env : Env) {s : Symbol} (hname : A.isIdentifier s.name)
    (hpkg : s.pkg.all A.isIdentifier) : A.SpellsOperand (env.symbol s).chars (symbolTokens s) := by
  obtain ⟨pkg, name⟩ := s
  rw [isIdentifier_iff] at hname
  have hspells := spellsOperand_word hname.1 hname.2
  cases pkg with
  | none =>
    show A.SpellsOperand (Doc.str name).chars [.name name]
    rw [Doc.chars_str]
    exact hspells
  | some p =>
    rw [Option.all_some] at hpkg
    intro rest hrest
    have hdot : A.EndsWord ('.' :: (name.toList ++ rest)) := by
      intro c hc
      cases hc
      rfl
    rw [Env.chars_symbol_some env (ne_empty_of_isIdentifier hpkg), List.append_assoc]
    rw [isIdentifier_iff] at hpkg
    have hword := spellsOperand_word hpkg.1 hpkg.2 _ hdot
    exact hword.trans (lexes_dot hname.1 (hspells rest hrest))

theorem symbol_starts (env : Env) {s : Symbol} (hname : A.isIdentifier s.name)
    (hpkg : s.pkg.all A.isIdentifier) :
    ∃ c cs, (env.symbol s).chars = c :: cs ∧ c ∉ ['=', '+', '&', '^'] := by
  obtain ⟨pkg, name⟩ := s
  cases pkg with
  | none =>
    obtain ⟨c, cs, hcs, hc, _⟩ := isWord_starts (isIdentifier_iff.mp hname).1
    refine ⟨c, cs, ?_, hc⟩
    show (Doc.str name).chars = _
    rw [Doc.chars_str, hcs]
  | some p =>
    rw [Option.all_some] at hpkg
    obtain ⟨c, cs, hcs, hc, _⟩ := isWord_starts (isIdentifier_iff.mp hpkg).1
    refine ⟨c, cs ++ '.' :: name.toList, ?_, hc⟩
    rw [Env.chars_symbol_some env (ne_empty_of_isIdentifier hpkg), hcs, List.cons_append]

/-- A keyword with the lines of its members between braces, or with an empty pair of them. -/
theorem spells_members {word : String} (hword : A.isWord word) (hkey : word ∈ keywords)
    {cs : List Char} {tss : List (List Token)}
    (h : ∀ rest, A.Lexes (cs ++ rest) (lineTokens tss) rest) (k : Nat) :
    A.SpellsOperand
      (word.toList ++ if tss.isEmpty then ['\x7b', '\x7d']
        else ' ' :: '\x7b' :: '\n' :: (cs ++ (List.replicate k '\t' ++ ['\x7d'])))
      (.keyword word :: memberTokens tss) := by
  intro rest _
  have hbrace : A.Lexes ('\x7d' :: rest) [.symbol ['\x7d']] rest :=
    lexes_bracket A (by decide) (.refl A rest)
  unfold memberTokens
  split
  · rw [List.append_assoc]
    have hend : A.EndsWord ('\x7b' :: '\x7d' :: rest) := (endsNumber_cons A (by decide) _).endsWord
    exact lexes_keyword hword hkey hend (lexes_bracket A (by decide) hbrace)
  · have hlines := (h (List.replicate k '\t' ++ '\x7d' :: rest)).trans (.tabs k hbrace)
    simp only [List.append_assoc, List.cons_append, List.nil_append]
    exact .keyword hword hkey (lexes_bracket A (by decide) (lexes_lineEnd hlines))

/-- One line for each element. -/
theorem lexes_flatMap {α : Type} {xs : List α} {line : α → Doc} {ts : α → List Token}
    (h : ∀ x ∈ xs, ∀ rest, A.Lexes ((line x).chars ++ rest) (ts x ++ [.lineEnd]) rest)
    (rest : List Char) :
    A.Lexes (Doc.chars (xs.flatMap line) ++ rest) (lineTokens (xs.map ts)) rest := by
  induction xs with
  | nil => exact .refl A rest
  | cons x xs ih =>
    rw [List.forall_mem_cons] at h
    rw [List.flatMap_cons, Doc.chars_append, List.append_assoc, List.map_cons, lineTokens,
      List.flatMap_cons]
    exact (h.1 _).trans (ih h.2)

end Go.Alphabet

theorem Go.isEmpty_append {α : Type} (xs ys : List α) :
    (xs ++ ys).isEmpty = (xs.isEmpty && ys.isEmpty) := by
  cases xs <;> rfl

/-! ## One case for each kind of type -/

/-- A type has its tokens wherever it stands, and they are read as its tree. -/
structure Env.LegibleType (env : Env) (A : Alphabet) (t : GoType) : Prop where
  reads : Go.ReadsType (env.typeTokens t) (env.typeTree t)
  spells : ∀ i owner, A.SpellsOperand (env.type i owner t).chars (env.typeTokens t)
  starts : ∀ i owner, ∃ c cs, (env.type i owner t).chars = c :: cs ∧ c ∉ ['=', '+', '&', '^']
  /-- The parameters and results of a function type, which a method has without the type. -/
  signature : ∀ ps rs body, t = .func ps rs body →
    Go.ReadsSignature (signatureTokens (env.typeTokenLists ps) (env.typeTokenLists rs))
      (env.typeTrees ps) (env.typeTrees rs) ∧
    ∀ i, A.SpellsOperand (env.signature i false ps rs).chars
      (.symbol ['('] :: signatureTokens (env.typeTokenLists ps) (env.typeTokenLists rs))

namespace Env.LegibleType

variable {env : Env} {A : Alphabet}

theorem named {qualifiedName : String} (h : env.namesSymbol A qualifiedName) :
    env.LegibleType A (.named qualifiedName) := by
  rw [namesSymbol, Option.any_eq_true] at h
  obtain ⟨s, hs, h⟩ := h
  rw [Bool.and_eq_true] at h
  have hsymbol : env.symbolOf qualifiedName = s := by rw [symbolOf, hs, Option.getD_some]
  have htype : ∀ i owner, env.type i owner (.named qualifiedName) = env.symbol s := by
    intro i owner
    rw [type, typeName, hs]
  have htokens : env.typeTokens (.named qualifiedName) = Go.symbolTokens s := by
    rw [typeTokens, hsymbol]
  refine ⟨?_, ?_, ?_, fun _ _ _ heq => by cases heq⟩
  · rw [htokens, typeTree, hsymbol]
    exact Go.readsType_symbolTokens s
  · intro i owner
    rw [htokens, htype]
    exact Go.Alphabet.spellsOperand_symbol env h.1 h.2
  · intro i owner
    rw [htype]
    exact Go.Alphabet.symbol_starts env h.1 h.2

theorem array {elem : GoType} (h : env.LegibleType A elem) : env.LegibleType A (.array elem) := by
  refine ⟨h.reads.array, ?_, ?_, fun _ _ _ heq => by cases heq⟩
  · intro i owner rest hrest
    have helem := h.spells i "" rest hrest
    rw [type, Doc.chars_append, Doc.chars_str, List.append_assoc]
    exact Go.Alphabet.lexes_bracket A (by decide) (Go.Alphabet.lexes_bracket A (by decide) helem)
  · intro i owner
    rw [type, Doc.chars_append, Doc.chars_str]
    exact ⟨'[', _, rfl, by decide⟩

theorem pointer {target : GoType} (h : env.LegibleType A target) :
    env.LegibleType A (.pointer target) := by
  refine ⟨h.reads.pointer, ?_, ?_, fun _ _ _ heq => by cases heq⟩
  · intro i owner rest hrest
    have htarget := h.spells i "" rest hrest
    obtain ⟨c, cs, hcs, hc⟩ := h.starts i ""
    rw [type, Doc.chars_append, Doc.chars_str, List.append_assoc]
    rw [hcs] at htarget ⊢
    exact Go.Alphabet.lexes_unaryOp A .deref hc (fun heq => by cases heq) htarget
  · intro i owner
    rw [type, Doc.chars_append, Doc.chars_str]
    exact ⟨'*', _, rfl, by decide⟩

/-! ### Functions -/

/-- The types of parameters or results. -/
theorem reads_bindings {bs : List Binding} (h : ∀ b ∈ bs, env.LegibleType A b.type) :
    List.Forall₂ Go.ReadsType (env.typeTokenLists bs) (env.typeTrees bs) := by
  rw [typeTokenLists_eq_map, typeTrees_eq_map, List.forall₂_map_left_iff, List.forall₂_map_right_iff,
    List.forall₂_same]
  exact fun b hb => (h b hb).reads

theorem spells_bindings {bs : List Binding} (h : ∀ b ∈ bs, env.LegibleType A b.type) (i : Indent) :
    List.Forall₂ A.Spells ((env.bindingTypes i false bs).map Doc.chars) (env.typeTokenLists bs) := by
  rw [bindingTypes_eq_map, typeTokenLists_eq_map, List.map_map, List.forall₂_map_left_iff,
    List.forall₂_map_right_iff, List.forall₂_same]
  exact fun b hb => ((h b hb).spells i b.sourceName).spells

/-- Results: one without parentheses, any other number with them. -/
theorem reads_results {rs : List Binding} (h : ∀ r ∈ rs, env.LegibleType A r.type) :
    Go.ReadsResults (resultTokens (env.typeTokenLists rs)) (env.typeTrees rs) := by
  have hreads := reads_bindings h
  match rs with
  | [] => exact Go.readsResults_paren hreads
  | [r] =>
    rw [typeTokenLists_eq_map, typeTrees_eq_map]
    exact (h r (List.mem_singleton_self r)).reads.results
  | _ :: _ :: _ =>
    rw [typeTokenLists_eq_map] at hreads ⊢
    exact Go.readsResults_paren hreads

theorem spells_results {rs : List Binding} (h : ∀ r ∈ rs, env.LegibleType A r.type) (i : Indent) :
    A.SpellsOperand
      (Doc.enclose (resultsNeedParens false rs) (Doc.commaSep (env.bindingTypes i false rs))).chars
      (resultTokens (env.typeTokenLists rs)) := by
  have hparen := (Go.Alphabet.spells_joinWith (spells_bindings h i)).bracketed
    (o := '(') (c := ')') (by decide) (by decide)
  rw [Doc.chars_enclose, Doc.chars_commaSep]
  match rs with
  | [] => exact hparen
  | [r] =>
    rw [bindingTypes_eq_map, typeTokenLists_eq_map]
    exact (h r (List.mem_singleton_self r)).spells i r.sourceName
  | _ :: _ :: _ =>
    rw [typeTokenLists_eq_map] at hparen ⊢
    exact hparen

theorem spells_signature {ps rs : List Binding} (hps : ∀ p ∈ ps, env.LegibleType A p.type)
    (hrs : ∀ r ∈ rs, env.LegibleType A r.type) (i : Indent) :
    A.SpellsOperand (env.signature i false ps rs).chars
      (.symbol ['('] :: signatureTokens (env.typeTokenLists ps) (env.typeTokenLists rs)) := by
  intro rest hrest
  have hparams := (Go.Alphabet.spells_joinWith (spells_bindings hps i)).bracketed
    (o := '(') (c := ')') (by decide) (by decide)
  have hresults := spells_results hrs i rest hrest
  simp only [Env.signature, signatureDoc, Doc.chars_append, Doc.chars_enclose true, if_true,
    Doc.chars_commaSep (env.bindingTypes i false ps), Doc.chars_space, List.append_assoc]
  have hblank := Go.Alphabet.endsNumber_cons A (c := ' ') (by decide)
    ((Doc.enclose (resultsNeedParens false rs) (Doc.commaSep (env.bindingTypes i false rs))).chars ++ rest)
  have htokens : Token.symbol ['('] :: signatureTokens (env.typeTokenLists ps) (env.typeTokenLists rs) =
      (.symbol ['('] :: (Text.joinWith [.symbol [',']] (env.typeTokenLists ps) ++ [.symbol [')']])) ++
        resultTokens (env.typeTokenLists rs) := by
    simp [signatureTokens]
  rw [htokens]
  exact (hparams _ hblank.endsWord).trans (.space rfl hresults)

/-- A name in front of parameters ends there. -/
theorem endsWord_signature (i : Indent) (ps rs : List Binding) (rest : List Char) :
    A.EndsWord ((env.signature i false ps rs).chars ++ rest) := by
  rw [Env.signature, signatureDoc, Doc.chars_append, Doc.chars_append, Doc.chars_enclose, if_pos rfl]
  exact (Go.Alphabet.endsNumber_cons A (by decide) _).endsWord

theorem func {ps rs : List Binding} (hps : ∀ p ∈ ps, env.LegibleType A p.type)
    (hrs : ∀ r ∈ rs, env.LegibleType A r.type) : env.LegibleType A (.func ps rs none) := by
  have hsignature := Go.readsSignature (reads_bindings hps) (reads_results hrs)
  have hchars : ∀ i owner, (env.type i owner (.func ps rs none)).chars =
      "func".toList ++ (env.signature i false ps rs).chars := by
    intro i owner
    rw [type, Doc.chars_append, Doc.chars_str]
    rfl
  refine ⟨hsignature.type, ?_, ?_, ?_⟩
  · intro i owner rest hrest
    rw [hchars, List.append_assoc]
    exact Go.Alphabet.lexes_keyword rfl (by decide) (endsWord_signature i ps rs rest)
      (spells_signature hps hrs i rest hrest)
  · intro i owner
    rw [hchars]
    exact ⟨'f', _, rfl, by decide⟩
  · rintro _ _ _ ⟨⟩
    exact ⟨hsignature, spells_signature hps hrs⟩

/-! ### Structs -/

/-- No comments, no lines of them. -/
theorem comments_nil (env : Env) (i : Indent) : env.comments i [] = [] := by
  unfold Env.comments
  split <;> rfl

/-- A name padded with blanks, and a type behind it. -/
theorem spells_field {name : String} (hname : A.isIdentifier name) {t : GoType}
    (h : env.LegibleType A t) (i : Indent) (owner : String) (width : Nat) :
    A.Spells (Text.padRight name.toList width ++ ' ' :: (env.type i owner t).chars)
      (.name name :: env.typeTokens t) := by
  intro rest hrest
  rw [Go.Alphabet.isIdentifier_iff] at hname
  have htype := h.spells i owner rest hrest.endsWord
  have hblanks : A.EndsWord (List.replicate (width - name.toList.length) ' ' ++
      ' ' :: ((env.type i owner t).chars ++ rest)) := by
    cases width - name.toList.length with
    | zero => exact (Go.Alphabet.endsNumber_cons A (by decide) _).endsWord
    | succ n => exact (Go.Alphabet.endsNumber_cons A (by decide) _).endsWord
  rw [Text.padRight, List.append_assoc, List.append_assoc]
  have hword := Go.Alphabet.spellsOperand_word hname.1 hname.2 _ hblanks
  refine hword.trans (.blanks (fun c hc => ?_) (.space rfl htype))
  rw [List.eq_of_mem_replicate hc]
  rfl

theorem isEmpty_fieldTokens (fields : List Binding) :
    (env.fieldTokens fields).isEmpty = fields.isEmpty := by
  cases fields with
  | nil => rfl
  | cons f fields =>
    obtain ⟨name, sourceName, comments, ty⟩ := f
    rfl

theorem reads_fields {fields : List Binding} (h : ∀ f ∈ fields, env.LegibleType A f.type) :
    List.Forall₂ (Go.ReadsMember Go.structLine) (env.fieldTokens fields)
      ((env.fieldTrees fields).map .inr) := by
  induction fields with
  | nil => exact .nil
  | cons f fields ih =>
    obtain ⟨name, sourceName, comments, ty⟩ := f
    rw [List.forall_mem_cons] at h
    exact .cons (h.1.reads.field name) (ih h.2)

theorem lexes_fields {fields : List Binding} (hname : ∀ f ∈ fields, A.isIdentifier f.name)
    (hcomments : ∀ f ∈ fields, f.comments = []) (h : ∀ f ∈ fields, env.LegibleType A f.type)
    (i : Indent) (width : Nat) (rest : List Char) :
    A.Lexes ((env.fieldLines i width fields).chars ++ rest)
      (Go.lineTokens (env.fieldTokens fields)) rest := by
  induction fields with
  | nil => exact .refl A rest
  | cons f fields ih =>
    obtain ⟨name, sourceName, comments, ty⟩ := f
    rw [List.forall_mem_cons] at hname hcomments h
    obtain rfl : comments = [] := hcomments.1
    have hline := (spells_field hname.1 h.1 i sourceName width).line i.tabs
      ((env.fieldLines i width fields).chars ++ rest)
    have hlater := ih hname.2 hcomments.2 h.2
    simpa only [fieldLines, fieldTokens, Go.lineTokens, List.flatMap_cons, comments_nil,
      Doc.chars_append, Doc.chars_tabs, Doc.chars_str, String.toList_ofList, Doc.chars_space,
      Doc.chars_newline, List.append_assoc, List.cons_append, List.nil_append]
      using hline.trans hlater

/-- Of members that are told apart, those of the first kind. -/
theorem filterMap_getLeft? {α β : Type} (as : List α) (bs : List β) :
    (as.map Sum.inl ++ bs.map Sum.inr).filterMap Sum.getLeft? = as := by
  simp [List.filterMap_append, List.filterMap_map, Function.comp_def]

/-- Of members that are told apart, those of the second kind. -/
theorem filterMap_getRight? {α β : Type} (as : List α) (bs : List β) :
    (as.map Sum.inl ++ bs.map Sum.inr).filterMap Sum.getRight? = bs := by
  simp [List.filterMap_append, List.filterMap_map, Function.comp_def]

/-- The text of a struct: its lines are those that its tokens stand for. -/
theorem chars_struct (i : Indent) (owner : String) (embeds : List String) (fields : List Binding)
    (byPointer : Bool) (methods : List Binding) :
    (env.type i owner (.struct embeds fields byPointer methods)).chars =
      "struct".toList ++
        if (embeds.map (fun e => [Token.name e]) ++ env.fieldTokens fields).isEmpty then
          ['\x7b', '\x7d']
        else ' ' :: '\x7b' :: '\n' ::
          ((Doc.chars (embeds.flatMap fun e => Doc.tabs i.deeper ++ Doc.line e) ++
            (env.fieldLines i.deeper (nameWidth fields) fields).chars) ++
              (List.replicate i.tabs '\t' ++ ['\x7d'])) := by
  have hempty : (embeds.map (fun e => [Token.name e]) ++ env.fieldTokens fields).isEmpty =
      (embeds.isEmpty && fields.isEmpty) := by
    rw [Go.isEmpty_append, List.isEmpty_map, isEmpty_fieldTokens]
  rw [type, hempty, apply_ite Doc.chars]
  split
  · rfl
  · simp only [Doc.chars_append, Doc.chars_str, Doc.chars_newline, Doc.chars_tabs,
      List.append_assoc]
    rfl

theorem lexes_structLines {embeds : List String} {fields : List Binding}
    (hembeds : ∀ e ∈ embeds, A.isIdentifier e) (hname : ∀ f ∈ fields, A.isIdentifier f.name)
    (hcomments : ∀ f ∈ fields, f.comments = []) (h : ∀ f ∈ fields, env.LegibleType A f.type)
    (i : Indent) (rest : List Char) :
    A.Lexes
      ((Doc.chars (embeds.flatMap fun e => Doc.tabs i ++ Doc.line e) ++
        (env.fieldLines i (nameWidth fields) fields).chars) ++ rest)
      (Go.lineTokens (embeds.map (fun e => [Token.name e]) ++ env.fieldTokens fields)) rest := by
  rw [List.append_assoc, Go.lineTokens, List.flatMap_append]
  refine (Go.Alphabet.lexes_flatMap ?_ _).trans (lexes_fields hname hcomments h i _ rest)
  intro e he rest
  have hword := Go.Alphabet.isIdentifier_iff.mp (hembeds e he)
  have hline := (Go.Alphabet.spellsOperand_word hword.1 hword.2).spells.line i.tabs rest
  simpa only [Doc.chars_append, Doc.chars_tabs, Doc.chars_line, List.append_assoc, List.cons_append,
    List.nil_append] using hline

theorem struct {embeds : List String} {fields : List Binding} (byPointer : Bool)
    (methods : List Binding) (hembeds : ∀ e ∈ embeds, A.isIdentifier e)
    (hname : ∀ f ∈ fields, A.isIdentifier f.name) (hcomments : ∀ f ∈ fields, f.comments = [])
    (h : ∀ f ∈ fields, env.LegibleType A f.type) :
    env.LegibleType A (.struct embeds fields byPointer methods) := by
  refine ⟨?_, ?_, ?_, fun _ _ _ heq => by cases heq⟩
  · have hreads : List.Forall₂ (Go.ReadsMember Go.structLine)
        (embeds.map (fun e => [Token.name e]) ++ env.fieldTokens fields)
        (embeds.map .inl ++ (env.fieldTrees fields).map .inr) := by
      refine List.rel_append ?_ (reads_fields h)
      rw [List.forall₂_map_left_iff, List.forall₂_map_right_iff, List.forall₂_same]
      exact fun e _ => Go.readsMember_embed e
    have htype := Go.readsType_struct hreads
    rwa [filterMap_getLeft?, filterMap_getRight?] at htype
  · intro i owner
    rw [chars_struct]
    exact Go.Alphabet.spells_members rfl (by decide) (lexes_structLines hembeds hname hcomments h i.deeper)
      i.tabs
  · intro i owner
    rw [chars_struct]
    exact ⟨'s', _, rfl, by decide⟩

/-! ### Interfaces -/

theorem reads_methods {methods : List Binding} (hfunc : ∀ m ∈ methods, m.type.isFunc)
    (h : ∀ m ∈ methods, env.LegibleType A m.type) :
    List.Forall₂ (Go.ReadsMember Go.interfaceLine) (env.methodTokens methods)
      ((env.methodTrees methods).map .inr) := by
  induction methods with
  | nil => exact .nil
  | cons m methods ih =>
    obtain ⟨name, sourceName, comments, ty⟩ := m
    rw [List.forall_mem_cons] at hfunc h
    cases ty with
    | func params results body =>
      obtain ⟨hsignature, _⟩ := h.1.signature params results body rfl
      exact .cons (hsignature.method name) (ih hfunc.2 h.2)
    | _ => cases hfunc.1

theorem isEmpty_methodTokens {methods : List Binding} (hfunc : ∀ m ∈ methods, m.type.isFunc) :
    (env.methodTokens methods).isEmpty = methods.isEmpty := by
  cases methods with
  | nil => rfl
  | cons m methods =>
    obtain ⟨name, sourceName, comments, ty⟩ := m
    have hty := hfunc _ List.mem_cons_self
    cases ty with
    | func params results body => rfl
    | _ => cases hty

/-- A name with a signature behind it. -/
theorem spells_method {name : String} (hname : A.isIdentifier name) {i : Indent}
    {params results : List Binding} {ts : List Token}
    (h : A.SpellsOperand (env.signature i false params results).chars ts) :
    A.Spells (name.toList ++ (env.signature i false params results).chars) (.name name :: ts) := by
  intro rest hrest
  rw [Go.Alphabet.isIdentifier_iff] at hname
  rw [List.append_assoc]
  exact (Go.Alphabet.spellsOperand_word hname.1 hname.2 _
    (endsWord_signature i params results rest)).trans (h rest hrest.endsWord)

theorem lexes_methods {methods : List Binding} (hname : ∀ m ∈ methods, A.isIdentifier m.name)
    (hcomments : ∀ m ∈ methods, m.comments = []) (hfunc : ∀ m ∈ methods, m.type.isFunc)
    (h : ∀ m ∈ methods, env.LegibleType A m.type) (i : Indent) (owner : String) (rest : List Char) :
    A.Lexes ((env.methodLines i owner methods).chars ++ rest)
      (Go.lineTokens (env.methodTokens methods)) rest := by
  induction methods with
  | nil => exact .refl A rest
  | cons m methods ih =>
    obtain ⟨name, sourceName, comments, ty⟩ := m
    rw [List.forall_mem_cons] at hname hcomments hfunc h
    obtain rfl : comments = [] := hcomments.1
    cases ty with
    | func params results body =>
      obtain ⟨_, hsignature⟩ := h.1.signature params results body rfl
      have hline := (spells_method hname.1 (hsignature i)).line i.tabs
        ((env.methodLines i owner methods).chars ++ rest)
      have hlater := ih hname.2 hcomments.2 hfunc.2 h.2
      simpa only [methodLines, methodTokens, Go.lineTokens, List.flatMap_cons, comments_nil,
        Env.signature, Doc.chars_append, Doc.chars_tabs, Doc.chars_str, Doc.chars_newline,
        List.append_assoc, List.cons_append, List.nil_append] using hline.trans hlater
    | _ => cases hfunc.1

/-- The text of an interface: its lines are those that its tokens stand for. -/
theorem chars_interface {methods : List Binding} (hfunc : ∀ m ∈ methods, m.type.isFunc) (i : Indent)
    (owner : String) (embeds : List String) :
    (env.type i owner (.interface embeds methods false)).chars =
      "interface".toList ++
        if ((env.shownEmbeds embeds).map (fun e => Go.symbolTokens (env.symbolOf e)) ++
            env.methodTokens methods).isEmpty then
          ['\x7b', '\x7d']
        else ' ' :: '\x7b' :: '\n' ::
          (((env.embedLines i.deeper (env.shownEmbeds embeds)).chars ++
            (env.methodLines i.deeper owner methods).chars) ++
              (List.replicate i.tabs '\t' ++ ['\x7d'])) := by
  rw [type, Go.isEmpty_append, List.isEmpty_map, isEmpty_methodTokens hfunc, apply_ite Doc.chars]
  split
  · rfl
  · simp only [Doc.chars_append, Doc.chars_str, Doc.chars_newline, Doc.chars_tabs,
      List.append_assoc]
    rfl

theorem lexes_interfaceLines {embeds : List String} {methods : List Binding}
    (hembeds : ∀ e ∈ embeds, env.namesSymbol A e) (hname : ∀ m ∈ methods, A.isIdentifier m.name)
    (hcomments : ∀ m ∈ methods, m.comments = []) (hfunc : ∀ m ∈ methods, m.type.isFunc)
    (h : ∀ m ∈ methods, env.LegibleType A m.type) (i : Indent) (owner : String) (rest : List Char) :
    A.Lexes (((env.embedLines i embeds).chars ++ (env.methodLines i owner methods).chars) ++ rest)
      (Go.lineTokens (embeds.map (fun e => Go.symbolTokens (env.symbolOf e)) ++
        env.methodTokens methods)) rest := by
  rw [List.append_assoc, Go.lineTokens, List.flatMap_append]
  refine (Go.Alphabet.lexes_flatMap ?_ _).trans (lexes_methods hname hcomments hfunc h i owner rest)
  intro e he rest
  have hline := ((named (hembeds e he)).spells i owner).spells.line i.tabs rest
  simpa only [type, typeTokens, Doc.chars_append, Doc.chars_tabs, Doc.chars_newline,
    List.append_assoc, List.cons_append, List.nil_append] using hline

theorem interface {embeds : List String} {methods : List Binding}
    (hembeds : ∀ e ∈ env.shownEmbeds embeds, env.namesSymbol A e)
    (hname : ∀ m ∈ methods, A.isIdentifier m.name) (hcomments : ∀ m ∈ methods, m.comments = [])
    (hfunc : ∀ m ∈ methods, m.type.isFunc) (h : ∀ m ∈ methods, env.LegibleType A m.type) :
    env.LegibleType A (.interface embeds methods false) := by
  refine ⟨?_, ?_, ?_, fun _ _ _ heq => by cases heq⟩
  · have hreads : List.Forall₂ (Go.ReadsMember Go.interfaceLine)
        ((env.shownEmbeds embeds).map (fun e => Go.symbolTokens (env.symbolOf e)) ++
          env.methodTokens methods)
        (((env.shownEmbeds embeds).map env.symbolOf).map .inl ++
          (env.methodTrees methods).map .inr) := by
      refine List.rel_append ?_ (reads_methods hfunc h)
      rw [List.map_map, List.forall₂_map_left_iff, List.forall₂_map_right_iff, List.forall₂_same]
      exact fun e _ => Go.readsMember_symbolTokens (env.symbolOf e)
    have htype := Go.readsType_interface hreads
    rwa [filterMap_getLeft?, filterMap_getRight?] at htype
  · intro i owner
    rw [chars_interface hfunc]
    exact Go.Alphabet.spells_members rfl (by decide)
      (lexes_interfaceLines hembeds hname hcomments hfunc h i.deeper owner) i.tabs
  · intro i owner
    rw [chars_interface hfunc]
    exact ⟨'i', _, rfl, by decide⟩

end Env.LegibleType

/-! ## Types with the same text -/

namespace GoType

variable {env : Env} {A : Alphabet} {t u : GoType}

theorem IsPlain.legible (h : t.IsPlain env A) : env.LegibleType A t := by
  induction h with
  | named h => exact .named h
  | array _ ih => exact ih.array
  | pointer _ ih => exact ih.pointer
  | func _ _ ihparams ihresults => exact .func ihparams ihresults
  | struct byPointer methods hembeds hname hcomments _ ih =>
    exact .struct byPointer methods hembeds hname hcomments ih
  | interface hembeds hname hcomments hfunc _ ih =>
    exact .interface hembeds hname hcomments hfunc ih

/-- The text of a type is read as its tree, at whatever depth it stands. -/
theorem IsPlain.readType?_text (h : t.IsPlain env A) (i : Indent) (owner : String) :
    A.readType? (env.type i owner t).text = some (env.typeTree t) := by
  have hlex := h.legible.spells i owner [] (Go.Alphabet.endsNumber_nil A).endsWord
  rw [List.append_nil] at hlex
  apply h.legible.reads.readType?
  rw [Doc.text, String.toList_ofList]
  exact hlex.tokens_eq

/-- Types with the same text have the same tree. -/
theorem typeTree_eq_of_text_eq (ht : t.IsPlain env A) (hu : u.IsPlain env A) (i : Indent)
    (owner owner' : String) (h : (env.type i owner t).text = (env.type i owner' u).text) :
    env.typeTree t = env.typeTree u := by
  have hread := ht.readType?_text i owner
  rw [h, hu.readType?_text i owner', Option.some.injEq] at hread
  exact hread.symm

/-- A struct with an embedded name, a function of one result and an interface. -/
def worker (box param : String) (byPointer : Bool) : GoType :=
  .struct ["Base"]
    [.named "Run" (.func [.named param (.named box) []] [.unnamed (.pointer (.named box))] none) [],
      .named "Log" (.interface [box] [.named "Close" (.func [] [] none) []] false) []]
    byPointer []

theorem worker_typeTree_eq :
    let A : Alphabet := ⟨fun _ => false, fun _ => false⟩
    let env : Env := ⟨.empty "main" "Main", .importTable, { overlappingInterfaces := true }⟩
    (worker "Box" "x" false).IsPlain env A ∧ (worker "Main.Box" "y" true).IsPlain env A ∧
      (env.type (.level 1) "" (worker "Box" "x" false)).text =
        (env.type (.level 1) "" (worker "Main.Box" "y" true)).text ∧
      env.typeTree (worker "Box" "x" false) = env.typeTree (worker "Main.Box" "y" true) := by
  intro A env
  have hword : A.isIdentifier "Run" ∧ A.isIdentifier "Log" ∧ A.isIdentifier "Close" := by decide
  have hplain : ∀ box param byPointer, env.namesSymbol A box →
      (worker box param byPointer).IsPlain env A := by
    intro box param byPointer hbox
    refine .struct byPointer [] (by decide) ?_ ?_ ?_
    · simp only [List.forall_mem_cons]
      exact ⟨hword.1, hword.2.1, by simp⟩
    · simp only [List.forall_mem_cons]
      exact ⟨rfl, rfl, by simp⟩
    simp only [List.forall_mem_cons]
    refine ⟨?_, ?_, by simp⟩
    · refine .func ?_ ?_ <;> rw [List.forall_mem_singleton]
      · exact .named hbox
      · exact .pointer (.named hbox)
    · have hshown : env.shownEmbeds [box] = [box] := rfl
      refine .interface ?_ ?_ ?_ ?_ ?_ <;> simp only [hshown, List.forall_mem_singleton]
      · exact hbox
      · exact hword.2.2
      · rfl
      · rfl
      · exact .func (by simp) (by simp)
  have hbox := hplain "Box" "x" false (by decide +kernel)
  have hmain := hplain "Main.Box" "y" true (by decide +kernel)
  have htext : (env.type (.level 1) "" (worker "Box" "x" false)).text =
      (env.type (.level 1) "" (worker "Main.Box" "y" true)).text := by decide +kernel
  exact ⟨hbox, hmain, htext, typeTree_eq_of_text_eq hbox hmain (.level 1) "" "" htext⟩

end GoType

end GoScribe
