import GoScribe.Proofs.ExprReadback
import GoScribe.Proofs.GoBrackets
import GoScribe.Proofs.Positions
import GoScribe.Proofs.Splitting

/-!
# Layouts

How a rendering is put together from texts that the tree supplies.  `TextLayout` gives the few ways there
are: a text stands inside a line, or it makes up whole lines, and what is inside a line may hold a block
with lines of its own, one tab further in.  `Env.layout_type` says that every type stands inside a line.

The texts that the tree supplies keep clear of `reserved`, some of the characters that delimit parts of a
Go file.  Where statements are kept out of the places of expressions, so are whole lines out of the inside
of a line; otherwise the layout is `loose`.
-/

namespace GoScribe

/-! ## Texts that keep clear of some characters -/

namespace Text

/-- The brackets, the quotes, the slash and the line feed. -/
def delimiters : List Char := '\n' :: Go.codeBreaks

/-- A text has none of the characters of `reserved`. -/
def avoids (reserved cs : List Char) : Bool :=
  cs.all fun c => !reserved.contains c

theorem avoids_iff {reserved cs : List Char} : avoids reserved cs ↔ ∀ c ∈ cs, c ∉ reserved := by
  simp [avoids]

theorem not_mem_of_avoids {reserved cs : List Char} (h : avoids reserved cs) {c : Char}
    (hc : c ∈ reserved) : c ∉ cs :=
  fun hmem => avoids_iff.mp h c hmem hc

theorem avoids_append {reserved cs ds : List Char} (hcs : avoids reserved cs)
    (hds : avoids reserved ds) : avoids reserved (cs ++ ds) := by
  rw [avoids, List.all_append, Bool.and_eq_true]
  exact ⟨hcs, hds⟩

theorem avoids_cons {reserved cs : List Char} {c : Char} (hc : c ∉ reserved)
    (hcs : avoids reserved cs) : avoids reserved (c :: cs) := by
  rw [avoids_iff, List.forall_mem_cons]
  exact ⟨hc, avoids_iff.mp hcs⟩

/-- What keeps clear of more characters keeps clear of fewer. -/
theorem avoids_mono {reserved reserved' cs : List Char} (h : reserved ⊆ reserved')
    (hcs : avoids reserved' cs) : avoids reserved cs := by
  rw [avoids_iff] at *
  exact fun c hc hmem => hcs c hc (h hmem)

/-- No digit is a delimiter. -/
theorem avoids_of_isDigit {cs : List Char} (hcs : ∀ c ∈ cs, c.isDigit) :
    avoids delimiters cs := by
  have hnone : delimiters.all fun d => !d.isDigit := by decide
  rw [List.all_eq_true] at hnone
  rw [avoids_iff]
  intro c hc hmem
  have hno := hnone c hmem
  rw [hcs c hc] at hno
  cases hno

end Text

/-! ## The texts of a position -/

/-- The text of a comment. -/
def Comment.text : Comment → String
  | line text | block text => text

/-- The name of a binding and the texts of its comments. -/
def Binding.texts (b : Binding) : List String :=
  b.name :: b.comments.map Comment.text

/-- The texts of a type beside those of the types inside it. -/
def GoType.texts : GoType → List String
  | .named qualifiedName => [qualifiedName]
  | .struct embeds fields _ _ => embeds ++ fields.flatMap Binding.texts
  | .func params results _ => (params ++ results).map Binding.name
  | _ => []

/-- The texts of a node beside those of the types and nodes inside it, string literals apart.  The source
name of a function value is written only if a placeholder stands for it. -/
def Node.texts : Node → List String
  | .litObj _ fields => fields.filterMap FieldValue.name
  | .const d _ => d.texts
  | .var d _ ok => d.texts ++ ok.toList.map OkBinding.okName
  | .forRange item _ _ => [item]
  | .forClassic init _ _ _ => init.map LoopVar.name
  | .comments cs => cs.map Comment.text
  | .sym name => [name]
  | .pkgSym pkg symbol => symbol :: pkg.toList
  | .func signature =>
    if signature.type.isFunc then signature.name :: signature.type.texts else [signature.sourceName]
  | .isType value typeName => [value, typeName]
  | .unsupported kind detail => [kind, detail]
  | _ => []

/-- The nodes that a node holds in the places of expressions. -/
def Node.operands : Node → List Node
  | .litArr _ elems => elems
  | .litObj _ fields => fields.map FieldValue.value
  | .const _ value => [value]
  | .var _ value _ => value.toList
  | .ifElse cond _ _ => [cond]
  | .forRange _ items _ => [items]
  | .forClassic init cond step _ =>
    init.map LoopVar.value ++ cond.toList ++ step.map LoopStep.left ++ step.map LoopStep.right
  | .forWhile cond _ => [cond]
  | .set left right => [left, right]
  | .ret value => value.toList
  | .panic arg => [arg]
  | .call callee args => callee :: args
  | .dot left right | .index left right | .op2 _ left right => [left, right]
  | .toType expr _ => [expr]
  | .op1 _ operand => [operand]
  | _ => []

namespace Position

/-- The texts that are written at a position as they are. -/
def texts : Position → List String
  | node n => n.texts
  | type t => t.texts
  | embed qualifiedName => [qualifiedName]
  | method _ m => m.texts
  | methodDef _ m => m.texts ++ m.type.texts
  | funcDef d => d.texts ++ d.type.texts

/-- No statement stands in the place of an expression. -/
def isSorted : Position → Bool
  | node n => n.operands.all fun o => !o.isStatement
  | _ => true

/-- The texts of a position keep clear of `reserved`, and unless the layout may be loose no statement
stands in the place of an expression. -/
structure Fits (loose : Bool) (reserved : List Char) (p : Position) : Prop where
  texts : ∀ s ∈ p.texts, Text.avoids reserved s.toList
  sorted : loose = false → p.isSorted

end Position

/-- Names that keep clear of `reserved` resolve to symbols that do, and so does the marker of type
variables. -/
structure Env.Avoids (env : Env) (reserved : List Char) : Prop where
  name : ∀ q s, Text.avoids reserved q.toList → env.resolve q = some s →
    Text.avoids reserved s.name.toList
  pkg : ∀ q s, Text.avoids reserved q.toList → env.resolve q = some s →
    ∀ p ∈ s.pkg, Text.avoids reserved p.toList
  markerAlias : Text.avoids reserved env.options.typeVar.packageAlias.toList
  markerSymbol : Text.avoids reserved env.options.typeVar.symbol.toList

/-- An import table resolves names into packages that it names, so the names of its packages are enough. -/
theorem Env.avoids_importTable {m : Module} {options : Options} {reserved : List Char}
    (himports : ∀ i ∈ m.imports, Text.avoids reserved i.goName.toList)
    (halias : Text.avoids reserved options.typeVar.packageAlias.toList)
    (hsymbol : Text.avoids reserved options.typeVar.symbol.toList) :
    Env.Avoids ⟨m, .importTable, options⟩ reserved := by
  have hresolve : ∀ q s, Text.avoids reserved q.toList → Resolver.importTable m q = some s →
      Text.avoids reserved s.name.toList ∧ ∀ p ∈ s.pkg, Text.avoids reserved p.toList := by
    intro q s hq hs
    unfold Resolver.importTable at hs
    split at hs
    · cases hs
      exact ⟨hq, by simp⟩
    · next before after hsplit =>
      have hafter : Text.avoids reserved (String.ofList after).toList := by
        rw [Text.splitLast?_eq_some hsplit] at hq
        rw [String.toList_ofList]
        rw [Text.avoids_iff] at hq ⊢
        intro c hc
        exact hq c (List.mem_append_right _ (List.mem_cons_of_mem _ hc))
      dsimp only at hs
      split at hs
      · cases hs
        exact ⟨hafter, by simp⟩
      · split at hs
        · next i hfound =>
          cases hs
          have hmem : i ∈ m.imports := by
            rw [Option.orElse_eq_orElse, Option.orElse_eq_or, Option.or_eq_some_iff] at hfound
            rcases hfound with hsource | ⟨-, hname⟩
            · exact List.mem_of_find?_eq_some hsource
            · exact List.mem_of_find?_eq_some hname
          refine ⟨hafter, ?_⟩
          rintro p ⟨⟩
          exact himports i hmem
        · cases hs
  exact ⟨fun q s hq hs => (hresolve q s hq hs).1, fun q s hq hs => (hresolve q s hq hs).2, halias,
    hsymbol⟩

/-! ## Layouts -/

/-- Where a text stands: inside a line, or as whole lines. -/
inductive Placement where
  | inside
  | lines
deriving DecidableEq, Repr

/-- The ways to put together a rendering. -/
inductive TextLayout (loose : Bool) (reserved : List Char) : Placement → (Indent → List Char) → Prop
  | text {s : List Char} : Text.avoids reserved s → TextLayout loose reserved .inside fun _ => s
  | quoted (s : List Char) : TextLayout loose reserved .inside fun _ => Text.quote s
  | division : TextLayout loose reserved .inside fun _ => [' ', '/', ' ']
  | comment {s : List Char} : Text.avoids reserved s →
      TextLayout loose reserved .inside fun _ => '/' :: '*' :: (s ++ ['*', '/'])
  | bracketed {o c : Char} {D : Indent → List Char} : (o, c) ∈ Go.brackets →
      TextLayout loose reserved .inside D → TextLayout loose reserved .inside fun i => o :: (D i ++ [c])
  | append {D E : Indent → List Char} : TextLayout loose reserved .inside D →
      TextLayout loose reserved .inside E → TextLayout loose reserved .inside fun i => D i ++ E i
  | block {D : Indent → List Char} : TextLayout loose reserved .lines D →
      TextLayout loose reserved .inside fun i =>
        '\x7b' :: '\n' :: (D i.deeper ++ ((Doc.tabs i).chars ++ ['\x7d']))
  /-- Whole lines inside a line. -/
  | loosely {D : Indent → List Char} : loose = true → TextLayout loose reserved .lines D →
      TextLayout loose reserved .inside D
  | none : TextLayout loose reserved .lines fun _ => []
  | more {D E : Indent → List Char} : TextLayout loose reserved .lines D →
      TextLayout loose reserved .lines E → TextLayout loose reserved .lines fun i => D i ++ E i
  | row {D : Indent → List Char} : TextLayout loose reserved .inside D →
      TextLayout loose reserved .lines fun i => (Doc.tabs i).chars ++ (D i ++ ['\n'])
  /-- A line that ends only in statement position. -/
  | statement {D : Indent → List Char} : TextLayout loose reserved .inside D →
      TextLayout loose reserved .lines fun i => (Doc.tabs i).chars ++ (D i ++ (Doc.endStatement i).chars)
  | lineComment {s : List Char} : Text.avoids reserved s →
      TextLayout loose reserved .lines fun i => (Doc.tabs i).chars ++ '/' :: '/' :: (s ++ ['\n'])

namespace TextLayout

variable {loose : Bool} {reserved : List Char} {D E : Indent → List Char}

theorem of_eq {p : Placement} (h : TextLayout loose reserved p D) (heq : ∀ i, E i = D i) :
    TextLayout loose reserved p E := by
  obtain rfl : E = D := funext heq
  exact h

theorem empty : TextLayout loose reserved .inside fun _ => [] :=
  .text rfl

/-- A text of the renderer's own. -/
theorem fixed (hreserved : reserved ⊆ Text.delimiters) (s : String)
    (hs : Text.avoids Text.delimiters s.toList) :
    TextLayout loose reserved .inside fun _ => s.toList :=
  .text (Text.avoids_mono hreserved hs)

theorem braced (h : TextLayout loose reserved .inside D) :
    TextLayout loose reserved .inside fun i => '\x7b' :: (D i ++ ['\x7d']) :=
  .bracketed (by decide) h

theorem parenthesized (h : TextLayout loose reserved .inside D) :
    TextLayout loose reserved .inside fun i => '(' :: (D i ++ [')']) :=
  .bracketed (by decide) h

/-- A text in parentheses, if `b` asks for them. -/
theorem enclosed (b : Bool) (h : TextLayout loose reserved .inside D) :
    TextLayout loose reserved .inside fun i => if b then '(' :: (D i ++ [')']) else D i := by
  cases b with
  | false => exact h
  | true => exact h.parenthesized

/-- Each of several documents stands inside a line. -/
def All (loose : Bool) (reserved : List Char) (docs : Indent → List Doc) : Prop :=
  ∃ Ds : List (Indent → List Char), (∀ D ∈ Ds, TextLayout loose reserved .inside D) ∧
    ∀ i, (docs i).map Doc.chars = Ds.map fun D => D i

theorem all_nil : All loose reserved fun _ => [] :=
  ⟨[], by simp, fun _ => rfl⟩

theorem all_cons {doc : Indent → Doc} {docs : Indent → List Doc}
    (h : TextLayout loose reserved .inside fun i => (doc i).chars) (hs : All loose reserved docs) :
    All loose reserved fun i => doc i :: docs i := by
  obtain ⟨Ds, hDs, heq⟩ := hs
  refine ⟨(fun i => (doc i).chars) :: Ds, ?_, ?_⟩
  · rw [List.forall_mem_cons]
    exact ⟨h, hDs⟩
  · intro i
    rw [List.map_cons, List.map_cons, heq]

/-- Texts with commas between them. -/
theorem joined (hreserved : reserved ⊆ Text.delimiters) {Ds : List (Indent → List Char)}
    (h : ∀ D ∈ Ds, TextLayout loose reserved .inside D) :
    TextLayout loose reserved .inside fun i => Text.joinWith [',', ' '] (Ds.map fun D => D i) := by
  induction Ds with
  | nil => exact empty
  | cons D Ds ih =>
    rw [List.forall_mem_cons] at h
    cases Ds with
    | nil => exact h.1
    | cons E Ds =>
      exact .append (.append h.1 (.fixed hreserved ", " (by decide))) (ih h.2)

theorem commaSep (hreserved : reserved ⊆ Text.delimiters) {docs : Indent → List Doc}
    (h : All loose reserved docs) :
    TextLayout loose reserved .inside fun i => (Doc.commaSep (docs i)).chars := by
  obtain ⟨Ds, hDs, heq⟩ := h
  refine (joined hreserved hDs).of_eq fun i => ?_
  rw [Doc.chars_commaSep, heq]

end TextLayout

/-! ## Types -/

namespace Env

variable {env : Env} {loose : Bool} {reserved : List Char}

theorem layout_comments (env : Env) {cs : List Comment}
    (hcs : ∀ c ∈ cs, Text.avoids reserved c.text.toList) :
    TextLayout loose reserved .lines fun i => (env.comments i cs).chars := by
  unfold comments
  split
  · induction cs with
    | nil => exact .none
    | cons c cs ih =>
      rw [List.forall_mem_cons] at hcs
      cases c with
      | line s =>
        refine ((TextLayout.lineComment hcs.1).more (ih hcs.2)).of_eq fun i => ?_
        simp only [List.flatMap_cons, Doc.chars_append, Doc.chars_str, Doc.chars_newline,
          List.append_assoc, List.cons_append]
        rfl
      | block s =>
        refine ((TextLayout.statement (.comment hcs.1)).more (ih hcs.2)).of_eq fun i => ?_
        simp only [List.flatMap_cons, Doc.chars_append, Doc.chars_str, List.append_assoc,
          List.cons_append]
        rfl
  · exact .none

section

variable (hreserved : reserved ⊆ Text.delimiters)

include hreserved

theorem layout_symbol {s : Symbol} (hname : Text.avoids reserved s.name.toList)
    (hpkg : ∀ p ∈ s.pkg, Text.avoids reserved p.toList) :
    TextLayout loose reserved .inside fun _ => (env.symbol s).chars := by
  obtain ⟨pkg, name⟩ := s
  have hplain : TextLayout loose reserved .inside fun _ => (Doc.str name).chars := by
    refine (TextLayout.text hname).of_eq fun _ => ?_
    rw [Doc.chars_str]
  cases pkg with
  | none => exact hplain
  | some p =>
    by_cases hp : p = ""
    · subst hp
      exact hplain
    · refine ((TextLayout.text (hpkg p rfl)).append
        (.append (.fixed hreserved "." (by decide)) (.text hname))).of_eq fun _ => ?_
      exact env.chars_symbol_some hp name

/-- An empty interface with a comment in it. -/
theorem layout_annotated {note : List Char} (hnote : Text.avoids reserved note) :
    TextLayout loose reserved .inside fun _ =>
      "interface".toList ++ '\x7b' :: '/' :: '*' :: (note ++ ['*', '/', '\x7d']) := by
  refine ((TextLayout.fixed hreserved "interface" (by decide)).append
    (.braced (.comment hnote))).of_eq fun _ => ?_
  simp only [List.append_assoc, List.cons_append, List.nil_append]

/-- The comment for a type that is not known. -/
theorem layout_unknown {s : List Char} (hs : Text.avoids reserved s) :
    TextLayout loose reserved .inside fun _ =>
      "interface\x7b/*UNKNOWN:".toList ++ (s ++ "*/\x7d".toList) := by
  have hnote : Text.avoids reserved ("UNKNOWN:".toList ++ s) :=
    Text.avoids_append (Text.avoids_mono hreserved (by decide)) hs
  refine (layout_annotated hreserved hnote).of_eq fun _ => ?_
  rw [List.append_assoc]
  rfl

/-- The parameters or results of a function, given those of their types. -/
theorem layout_signatureDoc {params results : Indent → List Doc}
    (hparams : TextLayout.All loose reserved params)
    (hresults : TextLayout.All loose reserved results) (withNames : Bool) (rs : List Binding) :
    TextLayout loose reserved .inside fun i =>
      (signatureDoc withNames rs (params i) (results i)).chars := by
  refine (((TextLayout.commaSep hreserved hparams).enclosed true).append
    ((TextLayout.fixed hreserved " " (by decide)).append
      ((TextLayout.commaSep hreserved hresults).enclosed (resultsNeedParens withNames rs)))).of_eq
        fun i => ?_
  simp only [signatureDoc, Doc.chars_append, Doc.chars_enclose, Doc.chars_space, List.append_assoc]
  rfl

/-- A struct, given the layout of its fields. -/
theorem layout_struct {owner : String} {embeds : List String} {fields : List Binding}
    (byPointer : Bool) (methods : List Binding) (hembeds : ∀ e ∈ embeds, Text.avoids reserved e.toList)
    (hfields : TextLayout loose reserved .lines fun i =>
      (env.fieldLines i (nameWidth fields) fields).chars) :
    TextLayout loose reserved .inside fun i =>
      (env.type i owner (.struct embeds fields byPointer methods)).chars := by
  have hnames : TextLayout loose reserved .lines fun i =>
      Doc.chars (embeds.flatMap fun e => Doc.tabs i ++ Doc.line e) := by
    induction embeds with
    | nil => exact .none
    | cons e embeds ih =>
      rw [List.forall_mem_cons] at hembeds
      refine ((TextLayout.row (.text hembeds.1)).more (ih hembeds.2)).of_eq fun i => ?_
      simp only [List.flatMap_cons, Doc.chars_append, Doc.chars_line, List.append_assoc]
  simp only [type]
  split
  · exact (TextLayout.fixed hreserved "struct" (by decide)).append
      (.braced .empty)
  · refine ((TextLayout.fixed hreserved "struct " (by decide)).append
      (.block (hnames.more hfields))).of_eq fun i => ?_
    simp only [Doc.chars_append, Doc.chars_str, Doc.chars_newline, List.append_assoc]
    rfl

variable (henv : env.Avoids reserved)

include henv

theorem layout_typeName {qualifiedName : String}
    (h : Text.avoids reserved qualifiedName.toList) :
    TextLayout loose reserved .inside fun _ => (env.typeName qualifiedName).chars := by
  unfold typeName
  split
  · next s hs => exact layout_symbol hreserved (henv.name _ s h hs) (henv.pkg _ s h hs)
  · refine (layout_unknown hreserved h).of_eq fun _ => ?_
    simp only [Doc.chars_append, Doc.chars_note, Doc.chars_str, String.toList_append,
      List.append_assoc, List.nil_append]

theorem layout_typeVar : TextLayout loose reserved .inside fun _ => env.typeVar.chars := by
  refine ((TextLayout.text henv.markerAlias).append
    (.append (.fixed hreserved "." (by decide)) (.text henv.markerSymbol))).of_eq fun _ => ?_
  simp only [typeVar, Doc.chars_append, Doc.chars_str]
  simp [Doc.chars, Piece.chars]

theorem layout_embedLines {embeds : List String}
    (h : ∀ e ∈ embeds, Text.avoids reserved e.toList) :
    TextLayout loose reserved .lines fun i => (env.embedLines i embeds).chars := by
  induction embeds with
  | nil => exact .none
  | cons e embeds ih =>
    rw [List.forall_mem_cons] at h
    refine ((TextLayout.row (layout_typeName hreserved henv h.1)).more (ih h.2)).of_eq fun i => ?_
    simp only [embedLines, List.flatMap_cons, Doc.chars_append, Doc.chars_newline, List.append_assoc]

/-- An interface, given the layout of its methods. -/
theorem layout_interface {owner : String} {embeds : List String} {methods : List Binding}
    (isTypeVar : Bool) (hembeds : ∀ e ∈ env.shownEmbeds embeds, Text.avoids reserved e.toList)
    (hmethods : TextLayout loose reserved .lines fun i => (env.methodLines i owner methods).chars) :
    TextLayout loose reserved .inside fun i =>
      (env.type i owner (.interface embeds methods isTypeVar)).chars := by
  simp only [type]
  split
  · cases isTypeVar with
    | true => exact layout_typeVar hreserved henv
    | false =>
      exact (TextLayout.fixed hreserved "interface" (by decide)).append
        (.braced .empty)
  · refine ((TextLayout.fixed hreserved "interface " (by decide)).append
      (.block ((layout_embedLines hreserved henv hembeds).more hmethods))).of_eq fun i => ?_
    simp only [Doc.chars_append, Doc.chars_str, Doc.chars_newline, List.append_assoc]
    rfl

end

mutual

/-- A type stands inside a line. -/
theorem layout_type (hreserved : reserved ⊆ Text.delimiters) (henv : env.Avoids reserved)
    (owner : String) : (t : GoType) →
    (∀ p ∈ t.positions env.options.overlappingInterfaces owner, p.Fits loose reserved) →
    TextLayout loose reserved .inside fun i => (env.type i owner t).chars
  | .empty, _ => by
    have hnote : Text.avoids reserved "EMPTY".toList := Text.avoids_mono hreserved (by decide)
    refine (layout_annotated hreserved hnote).of_eq fun i => ?_
    rw [type, Doc.chars_str]
    rfl
  | .named qualifiedName, h => by
    have hname := (h (.type (.named qualifiedName)) List.mem_cons_self).texts
    simp only [type]
    exact layout_typeName hreserved henv (hname qualifiedName List.mem_cons_self)
  | .unresolved id, _ => by
    have hdigits := Text.avoids_mono hreserved (Text.avoids_of_isDigit fun c =>
      Go.Alphabet.isDigit_of_mem_toDigits (c := c) (n := id.toNat))
    have hid : (toString id.toNat).toList = Nat.toDigits 10 id.toNat := Nat.toList_repr
    refine (layout_unknown hreserved hdigits).of_eq fun i => ?_
    simp only [type, Doc.chars_append, Doc.chars_note, Doc.chars_str, String.toList_append,
      List.append_assoc, List.nil_append, hid]
  | .array elem, h => by
    rw [GoType.positions, List.forall_mem_cons] at h
    refine ((TextLayout.bracketed (o := '[') (c := ']') (by decide) .empty).append
      (layout_type hreserved henv "" elem h.2)).of_eq fun i => ?_
    rw [type, Doc.chars_append, Doc.chars_str]
    rfl
  | .pointer target, h => by
    rw [GoType.positions, List.forall_mem_cons] at h
    refine ((TextLayout.fixed hreserved "*" (by decide)).append
      (layout_type hreserved henv "" target h.2)).of_eq fun i => ?_
    rw [type, Doc.chars_append, Doc.chars_str]
  | .interface embeds methods isTypeVar, h => by
    rw [GoType.positions, List.forall_mem_cons, List.forall_mem_append] at h
    refine layout_interface hreserved henv isTypeVar ?_
      (layout_methodLines hreserved henv owner methods h.2.2)
    intro e he
    unfold shownEmbeds at he
    split at he
    · next hshown =>
      rw [if_pos hshown] at h
      exact (h.2.1 _ (List.mem_map_of_mem he)).texts e List.mem_cons_self
    · cases he
  | .struct embeds fields byPointer methods, h => by
    rw [GoType.positions, List.forall_mem_cons] at h
    have htexts := h.1.texts
    simp only [Position.texts, GoType.texts, List.forall_mem_append] at htexts
    exact layout_struct hreserved byPointer methods htexts.1
      (layout_fieldLines hreserved henv (nameWidth fields) fields htexts.2 h.2)
  | .func params results body, h => by
    rw [GoType.positions, List.forall_mem_cons, List.forall_mem_append] at h
    have htexts := h.1.texts
    simp only [Position.texts, GoType.texts, List.map_append, List.forall_mem_append] at htexts
    have hparams := layout_bindingTypes hreserved henv body.isSome params (fun _ => htexts.1) h.2.1
    have hresults := layout_bindingTypes hreserved henv body.isSome results (fun _ => htexts.2) h.2.2
    refine ((TextLayout.fixed hreserved "func" (by decide)).append
      (layout_signatureDoc hreserved hparams hresults body.isSome results)).of_eq fun i => ?_
    rw [type, Doc.chars_append, Doc.chars_str]

/-- Parameters or results. -/
theorem layout_bindingTypes (hreserved : reserved ⊆ Text.delimiters) (henv : env.Avoids reserved)
    (withNames : Bool) : (bs : List Binding) →
    (withNames → ∀ s ∈ bs.map Binding.name, Text.avoids reserved s.toList) →
    (∀ p ∈ bindingPositions env.options.overlappingInterfaces bs, p.Fits loose reserved) →
    TextLayout.All loose reserved fun i => env.bindingTypes i withNames bs
  | [], _, _ => by
    simp only [bindingTypes]
    exact TextLayout.all_nil
  | ⟨name, sourceName, _, t⟩ :: bs, hnames, h => by
    simp only [List.map_cons, List.forall_mem_cons] at hnames
    rw [bindingPositions, List.forall_mem_append] at h
    have hname : TextLayout loose reserved .inside fun _ => (nameBefore withNames name).chars := by
      unfold nameBefore
      split
      · next hshown =>
        rw [Bool.and_eq_true] at hshown
        refine ((TextLayout.text (hnames hshown.1).1).append
          (.fixed hreserved " " (by decide))).of_eq fun _ => ?_
        rw [Doc.chars_append, Doc.chars_str]
        rfl
      · exact .empty
    simp only [bindingTypes]
    refine TextLayout.all_cons ?_
      (layout_bindingTypes hreserved henv withNames bs (fun hshown => (hnames hshown).2) h.2)
    refine (hname.append (layout_type hreserved henv sourceName t h.1)).of_eq fun i => ?_
    rw [Doc.chars_append]

/-- The methods of an interface are whole lines. -/
theorem layout_methodLines (hreserved : reserved ⊆ Text.delimiters) (henv : env.Avoids reserved)
    (owner : String) : (bs : List Binding) →
    (∀ p ∈ methodPositions env.options.overlappingInterfaces owner bs, p.Fits loose reserved) →
    TextLayout loose reserved .lines fun i => (env.methodLines i owner bs).chars
  | [], _ => by
    simp only [methodLines]
    exact .none
  | ⟨name, sourceName, comments, .func params results body⟩ :: bs, h => by
    rw [methodPositions, List.forall_mem_cons, List.forall_mem_append, List.forall_mem_append] at h
    have htexts := h.1.texts
    simp only [Position.texts, Binding.texts, List.forall_mem_cons, List.forall_mem_map] at htexts
    have hparams := layout_bindingTypes hreserved henv false params (fun hno => by cases hno) h.2.1.1
    have hresults := layout_bindingTypes hreserved henv false results (fun hno => by cases hno) h.2.1.2
    have hline := (TextLayout.text htexts.1).append
      (layout_signatureDoc hreserved hparams hresults false results)
    refine ((layout_comments env htexts.2).more (.more (.row hline)
      (layout_methodLines hreserved henv owner bs h.2.2))).of_eq fun i => ?_
    simp only [methodLines, Doc.chars_append, Doc.chars_str, Doc.chars_newline, List.append_assoc]
  | ⟨_, _, _, .empty⟩ :: bs, h | ⟨_, _, _, .named _⟩ :: bs, h | ⟨_, _, _, .unresolved _⟩ :: bs, h
  | ⟨_, _, _, .array _⟩ :: bs, h | ⟨_, _, _, .pointer _⟩ :: bs, h
  | ⟨_, _, _, .interface ..⟩ :: bs, h | ⟨_, _, _, .struct ..⟩ :: bs, h => by
    simp only [methodPositions, List.forall_mem_cons] at h
    refine (layout_methodLines hreserved henv owner bs h.2).of_eq fun i => ?_
    simp only [methodLines, Doc.chars_append, Doc.chars_refuse, List.nil_append]

/-- The fields of a struct are whole lines. -/
theorem layout_fieldLines (hreserved : reserved ⊆ Text.delimiters) (henv : env.Avoids reserved)
    (width : Nat) : (bs : List Binding) →
    (∀ s ∈ bs.flatMap Binding.texts, Text.avoids reserved s.toList) →
    (∀ p ∈ bindingPositions env.options.overlappingInterfaces bs, p.Fits loose reserved) →
    TextLayout loose reserved .lines fun i => (env.fieldLines i width bs).chars
  | [], _, _ => by
    simp only [fieldLines]
    exact .none
  | ⟨name, sourceName, comments, t⟩ :: bs, htexts, h => by
    simp only [List.flatMap_cons, Binding.texts, List.forall_mem_append, List.forall_mem_cons,
      List.forall_mem_map] at htexts
    rw [bindingPositions, List.forall_mem_append] at h
    have hname : Text.avoids reserved (Text.padRight name.toList width) := by
      refine Text.avoids_append htexts.1.1 (Text.avoids_mono hreserved ?_)
      rw [Text.avoids_iff]
      intro c hc
      rw [List.eq_of_mem_replicate hc]
      decide
    have hline := (TextLayout.text hname).append ((TextLayout.fixed hreserved " " (by decide)).append
      (layout_type hreserved henv sourceName t h.1))
    refine ((layout_comments env htexts.1.2).more (.more (.row hline)
      (layout_fieldLines hreserved henv width bs htexts.2 h.2))).of_eq fun i => ?_
    simp only [fieldLines, Doc.chars_append, Doc.chars_str, String.toList_ofList, Doc.chars_space,
      Doc.chars_newline, List.append_assoc]
    rfl

end

end Env

end GoScribe
