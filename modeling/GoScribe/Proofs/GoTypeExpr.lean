import GoScribe.Proofs.GoExpr
import GoScribe.Render.Env

/-!
# Types of Go

The part of Go's type grammar that names, slices, pointers, functions, structs and interfaces make up.
The members of a struct or an interface stand on lines of their own; the parameters and results of a
function have no names.

`Alphabet.readType?` reads a text as a type and takes all of it.
-/

namespace GoScribe.Go

/-! ## Trees -/

mutual

/-- The tree of a type. -/
inductive TypeExpr where
  | name (s : Symbol)
  | array (elem : TypeExpr)
  | pointer (target : TypeExpr)
  | func (params results : List TypeExpr)
  | struct (embeds : List String) (fields : List Field)
  | interface (embeds : List Symbol) (methods : List Method)

/-- A field of a struct. -/
structure Field where
  name : String
  type : TypeExpr

/-- A method of an interface. -/
structure Method where
  name : String
  params : List TypeExpr
  results : List TypeExpr

end

/-! ## The grammar -/

/-- A name, qualified by a package or not. -/
def typeName : Parser Symbol
  | .name p :: .symbol ['.'] :: .name s :: ts => some (⟨some p, s⟩, ts)
  | .name s :: ts => some (⟨none, s⟩, ts)
  | _ => none

section

variable {α : Type} (line : Parser α)

/-- What `line` reads, once a line, up to the closing brace. -/
def memberLines (ts : List Token) : Option (List α × List Token) :=
  match ts with
  | .symbol ['\x7d'] :: rest => some ([], rest)
  | ts =>
    match line ts with
    | some (a, .lineEnd :: rest) =>
      if rest.length < ts.length then
        (memberLines rest).map fun (as, rest) => (a :: as, rest)
      else none
    | _ => none
termination_by ts.length

/-- The members between braces: none, or lines of them. -/
def memberList : Parser (List α)
  | .symbol ['\x7b'] :: .symbol ['\x7d'] :: ts => some ([], ts)
  | .symbol ['\x7b'] :: .lineEnd :: ts => memberLines line ts
  | _ => none

end

section

variable (inner : Parser TypeExpr)

/-- Types with commas between them, behind an opening parenthesis and up to the closing one. -/
def parameters : Parser (List TypeExpr)
  | .symbol [')'] :: ts => some ([], ts)
  | ts =>
    match commaList inner ts with
    | some (types, .symbol [')'] :: rest) => some (types, rest)
    | _ => none

/-- Results: in parentheses, or one, or none. -/
def results : Parser (List TypeExpr)
  | .symbol ['('] :: ts => parameters inner ts
  | ts =>
    match inner ts with
    | some (t, rest) => some ([t], rest)
    | none => some ([], ts)

/-- Parameters and results. -/
def signature : Parser (List TypeExpr × List TypeExpr)
  | .symbol ['('] :: ts =>
    match parameters inner ts with
    | some (ps, mid) => (results inner mid).map fun (rs, rest) => ((ps, rs), rest)
    | none => none
  | _ => none

/-- A line of a struct: an embedded name, or a field. -/
def structLine : Parser (String ⊕ Field)
  | .name s :: .lineEnd :: ts => some (.inl s, .lineEnd :: ts)
  | .name s :: ts => (inner ts).map fun (t, rest) => (.inr ⟨s, t⟩, rest)
  | _ => none

/-- A line of an interface: an embedded name, or a method. -/
def interfaceLine : Parser (Symbol ⊕ Method)
  | .name s :: .symbol ['('] :: ts =>
    (signature inner (.symbol ['('] :: ts)).map fun ((ps, rs), rest) => (.inr ⟨s, ps, rs⟩, rest)
  | ts => (typeName ts).map fun (s, rest) => (.inl s, rest)

end

/-- Types that are at most `depth` deep. -/
def typeExpr : Nat → Parser TypeExpr
  | 0, _ => none
  | depth + 1, .symbol ['['] :: .symbol [']'] :: ts =>
    (typeExpr depth ts).map fun (t, rest) => (.array t, rest)
  | depth + 1, .symbol ['*'] :: ts => (typeExpr depth ts).map fun (t, rest) => (.pointer t, rest)
  | depth + 1, .keyword "func" :: ts =>
    (signature (typeExpr depth) ts).map fun ((ps, rs), rest) => (.func ps rs, rest)
  | depth + 1, .keyword "struct" :: ts =>
    (memberList (structLine (typeExpr depth)) ts).map fun (ms, rest) =>
      (.struct (ms.filterMap Sum.getLeft?) (ms.filterMap Sum.getRight?), rest)
  | depth + 1, .keyword "interface" :: ts =>
    (memberList (interfaceLine (typeExpr depth)) ts).map fun (ms, rest) =>
      (.interface (ms.filterMap Sum.getLeft?) (ms.filterMap Sum.getRight?), rest)
  | _ + 1, ts => (typeName ts).map fun (s, rest) => (.name s, rest)

/-- The type that a text is.  There are no more types inside each other than tokens. -/
def Alphabet.readType? (A : Alphabet) (text : String) : Option TypeExpr :=
  match A.tokens text.toList with
  | none => none
  | some ts =>
    match typeExpr (ts.length + 1) ts with
    | some (t, []) => some t
    | _ => none

/-! ## Equations of the grammar -/

/-- No qualified name goes on into `rest`. -/
def EndsType (rest : List Token) : Prop :=
  rest.head? ≠ some (.symbol ['.'])

/-- A type starts with none of these. -/
theorem typeExpr_eq_none {t : Token}
    (ht : t ∈ [.symbol ['('], .symbol [')'], .symbol [','], .lineEnd]) (depth : Nat)
    (ts : List Token) : typeExpr depth (t :: ts) = none := by
  simp only [List.mem_cons, List.not_mem_nil, or_false] at ht
  cases depth with
  | zero => rfl
  | succ depth => rcases ht with rfl | rfl | rfl | rfl <;> rfl

/-- The tokens of a symbol. -/
def symbolTokens (s : Symbol) : List Token :=
  match s.pkg with
  | none => [.name s.name]
  | some p => [.name p, .symbol ['.'], .name s.name]

theorem typeName_symbolTokens (s : Symbol) {rest : List Token} (hrest : EndsType rest) :
    typeName (symbolTokens s ++ rest) = some (s, rest) := by
  obtain ⟨pkg, name⟩ := s
  cases pkg with
  | some p => rfl
  | none =>
    show typeName (.name name :: rest) = _
    unfold typeName
    split
    · next heq =>
      rw [List.cons.injEq] at heq
      rw [heq.2] at hrest
      exact absurd rfl hrest
    · next heq =>
      rw [List.cons.injEq, Token.name.injEq] at heq
      rw [heq.1, heq.2]
    · next hno => exact absurd rfl (hno name rest)

section

variable {α : Type} {line : Parser α}

/-- The tokens `ts` are read as `a` in front of a line end. -/
def ReadsLine (line : Parser α) (ts : List Token) (a : α) : Prop :=
  ∀ rest, line (ts ++ .lineEnd :: rest) = some (a, .lineEnd :: rest)

/-- Tokens on lines of their own. -/
def lineTokens (tss : List (List Token)) : List Token :=
  tss.flatMap (· ++ [.lineEnd])

/-- Lines are read up to the closing brace, which starts none of them. -/
theorem memberLines_lineTokens (hclose : ∀ ts, line (.symbol ['\x7d'] :: ts) = none)
    {tss : List (List Token)} {as : List α} (h : List.Forall₂ (ReadsLine line) tss as)
    (rest : List Token) :
    memberLines line (lineTokens tss ++ .symbol ['\x7d'] :: rest) = some (as, rest) := by
  induction h with
  | nil =>
    show memberLines line (.symbol ['\x7d'] :: rest) = _
    rw [memberLines]
  | @cons ts a tss as hline _ ih =>
    have hshape : lineTokens (ts :: tss) ++ .symbol ['\x7d'] :: rest =
        ts ++ .lineEnd :: (lineTokens tss ++ .symbol ['\x7d'] :: rest) := by
      simp [lineTokens]
    rw [hshape]
    generalize lineTokens tss ++ .symbol ['\x7d'] :: rest = later at ih ⊢
    have hread := hline later
    have hlen : later.length < (ts ++ .lineEnd :: later).length := by
      rw [List.length_append, List.length_cons]
      omega
    generalize ts ++ .lineEnd :: later = us at hread hlen ⊢
    unfold memberLines
    split
    · rw [hclose] at hread
      cases hread
    · rw [hread]
      show (if _ then _ else _) = _
      rw [if_pos hlen, ih]
      rfl

end

section

variable {inner : Parser TypeExpr}

/-- A list in parentheses is what stands between them, if no type starts with the closing one. -/
theorem parameters_of_commaList (hclose : ∀ ts, inner (.symbol [')'] :: ts) = none)
    {ts rest : List Token} {types : List TypeExpr}
    (h : commaList inner ts = some (types, .symbol [')'] :: rest)) :
    parameters inner ts = some (types, rest) := by
  unfold parameters
  split
  · rw [commaList, hclose] at h
    cases h
  · rw [h]
    rfl

/-- A result that stands alone. -/
theorem results_of_inner (hopen : ∀ ts, inner (.symbol ['('] :: ts) = none)
    {ts rest : List Token} {t : TypeExpr} (h : inner ts = some (t, rest)) :
    results inner ts = some ([t], rest) := by
  unfold results
  split
  · rw [hopen] at h
    cases h
  · rw [h]

/-- A field is a name with a type behind it, and no type starts with a line end. -/
theorem structLine_of_inner (hend : ∀ ts, inner (.lineEnd :: ts) = none) (s : String)
    {ts rest : List Token} {t : TypeExpr} (h : inner ts = some (t, rest)) :
    structLine inner (.name s :: ts) = some (.inr ⟨s, t⟩, rest) := by
  unfold structLine
  split
  · next heq =>
    rw [List.cons.injEq] at heq
    rw [heq.2, hend] at h
    cases h
  · next heq =>
    rw [List.cons.injEq, Token.name.injEq] at heq
    rw [← heq.1, ← heq.2, h]
    rfl
  · next hno => exact absurd rfl (hno s ts)

/-- An embedded name stands alone in its line. -/
theorem interfaceLine_symbolTokens (s : Symbol) (rest : List Token) :
    interfaceLine inner (symbolTokens s ++ .lineEnd :: rest) = some (.inl s, .lineEnd :: rest) := by
  have hend : EndsType (.lineEnd :: rest) := by
    intro h
    cases h
  have hname := typeName_symbolTokens s hend
  unfold interfaceLine
  split
  · next heq =>
    obtain ⟨pkg, name⟩ := s
    cases pkg <;> cases heq
  · rw [hname]
    rfl

end

/-! ## Tokens that read as a tree -/

/-- The tokens `ts` are read as `t`, whatever stands behind them that no name goes on into. -/
def ReadsType (ts : List Token) (t : TypeExpr) : Prop :=
  ∀ depth rest, ts.length ≤ depth → EndsType rest →
    typeExpr (depth + 1) (ts ++ rest) = some (t, rest)

/-- The tokens `ts` are read as the results `rs`. -/
def ReadsResults (ts : List Token) (rs : List TypeExpr) : Prop :=
  ∀ depth rest, ts.length ≤ depth → EndsType rest →
    results (typeExpr (depth + 1)) (ts ++ rest) = some (rs, rest)

/-- The tokens `ts` behind an opening parenthesis are read as parameters `ps` and results `rs`. -/
def ReadsSignature (ts : List Token) (ps rs : List TypeExpr) : Prop :=
  ∀ depth rest, ts.length ≤ depth → EndsType rest →
    signature (typeExpr (depth + 1)) (.symbol ['('] :: (ts ++ rest)) = some ((ps, rs), rest)

/-- The tokens `ts` are read as a line of a struct or of an interface. -/
def ReadsMember {α : Type} (line : Parser TypeExpr → Parser α) (ts : List Token) (a : α) : Prop :=
  ∀ depth, ts.length ≤ depth → ReadsLine (line (typeExpr (depth + 1))) ts a

theorem endsType_symbol {c : Char} (hc : c ≠ '.') (ts : List Token) :
    EndsType (.symbol [c] :: ts) := by
  intro h
  simp only [List.head?_cons, Option.some.injEq, Token.symbol.injEq, List.cons.injEq] at h
  exact hc h.1

theorem endsType_lineEnd (ts : List Token) : EndsType (.lineEnd :: ts) := by
  intro h
  cases h

theorem readsType_symbolTokens (s : Symbol) : ReadsType (symbolTokens s) (.name s) := by
  intro depth rest _ hrest
  have hname := typeName_symbolTokens s hrest
  obtain ⟨pkg, name⟩ := s
  cases pkg with
  | none =>
    show (typeName (symbolTokens ⟨none, name⟩ ++ rest)).map _ = _
    rw [hname]
    rfl
  | some p => rfl

theorem ReadsType.array {ts : List Token} {t : TypeExpr} (h : ReadsType ts t) :
    ReadsType (.symbol ['['] :: .symbol [']'] :: ts) (.array t) := by
  intro depth rest hdepth hrest
  simp only [List.length_cons] at hdepth
  obtain ⟨d, rfl⟩ : ∃ d, depth = d + 1 := ⟨depth - 1, by omega⟩
  show (typeExpr (d + 1) (ts ++ rest)).map _ = _
  rw [h d rest (by omega) hrest]
  rfl

theorem ReadsType.pointer {ts : List Token} {t : TypeExpr} (h : ReadsType ts t) :
    ReadsType (.symbol ['*'] :: ts) (.pointer t) := by
  intro depth rest hdepth hrest
  rw [List.length_cons] at hdepth
  obtain ⟨d, rfl⟩ : ∃ d, depth = d + 1 := ⟨depth - 1, by omega⟩
  show (typeExpr (d + 1) (ts ++ rest)).map _ = _
  rw [h d rest (by omega) hrest]
  rfl

/-- Types are the items of a list in front of its closing parenthesis. -/
theorem ReadsType.items {tss : List (List Token)} {types : List TypeExpr}
    (h : List.Forall₂ ReadsType tss types) {depth : Nat} (hdepth : ∀ ts ∈ tss, ts.length ≤ depth) :
    List.Forall₂ (ReadsItem (typeExpr (depth + 1)) (.symbol [')'])) tss types := by
  induction h with
  | nil => exact .nil
  | @cons ts t tss types h _ ih =>
    rw [List.forall_mem_cons] at hdepth
    refine .cons ?_ (ih hdepth.2)
    rintro u rest (rfl | rfl) <;>
      exact h depth _ hdepth.1 (endsType_symbol (by decide) rest)

/-- Types with commas between them are read up to the closing parenthesis. -/
theorem parameters_joinWith {tss : List (List Token)} {types : List TypeExpr}
    (h : List.Forall₂ ReadsType tss types) (depth : Nat)
    (hdepth : (Text.joinWith [.symbol [',']] tss).length ≤ depth) (rest : List Token) :
    parameters (typeExpr (depth + 1))
      (Text.joinWith [.symbol [',']] tss ++ .symbol [')'] :: rest) = some (types, rest) := by
  have hlen : ∀ ts ∈ tss, ts.length ≤ depth := by
    intro ts hts
    have := length_le_joinWith [.symbol [',']] hts
    omega
  have hitems := ReadsType.items h hlen
  cases hitems with
  | nil => rfl
  | cons hitem hitems =>
    apply parameters_of_commaList (typeExpr_eq_none (by decide) (depth + 1))
    exact commaList_joinWith (by decide) hitem hitems rest

/-- A result that stands alone. -/
theorem ReadsType.results {ts : List Token} {t : TypeExpr} (h : ReadsType ts t) :
    ReadsResults ts [t] := by
  intro depth rest hdepth hrest
  exact results_of_inner (typeExpr_eq_none (by decide) (depth + 1)) (h depth rest hdepth hrest)

/-- Results in parentheses. -/
theorem readsResults_paren {tss : List (List Token)} {types : List TypeExpr}
    (h : List.Forall₂ ReadsType tss types) :
    ReadsResults (.symbol ['('] :: (Text.joinWith [.symbol [',']] tss ++ [.symbol [')']])) types := by
  intro depth rest hdepth _
  simp only [List.length_cons, List.length_append, List.length_nil] at hdepth
  rw [List.cons_append, List.append_assoc]
  exact parameters_joinWith h depth (by omega) rest

/-- Parameters with results behind them. -/
theorem readsSignature {pss : List (List Token)} {ps rs : List TypeExpr} {us : List Token}
    (hps : List.Forall₂ ReadsType pss ps) (hrs : ReadsResults us rs) :
    ReadsSignature (Text.joinWith [.symbol [',']] pss ++ .symbol [')'] :: us) ps rs := by
  intro depth rest hdepth hrest
  simp only [List.length_append, List.length_cons] at hdepth
  have hparams := parameters_joinWith hps depth (by omega) (us ++ rest)
  rw [List.append_assoc, List.cons_append, signature, hparams]
  show (results _ _).map _ = _
  rw [hrs depth rest (by omega) hrest]
  rfl

theorem ReadsSignature.type {ts : List Token} {ps rs : List TypeExpr} (h : ReadsSignature ts ps rs) :
    ReadsType (.keyword "func" :: .symbol ['('] :: ts) (.func ps rs) := by
  intro depth rest hdepth hrest
  simp only [List.length_cons] at hdepth
  obtain ⟨d, rfl⟩ : ∃ d, depth = d + 1 := ⟨depth - 1, by omega⟩
  show (signature (typeExpr (d + 1)) (.symbol ['('] :: (ts ++ rest))).map _ = _
  rw [h d rest (by omega) hrest]
  rfl

/-! ## Members -/

theorem readsMember_embed (s : String) : ReadsMember structLine [.name s] (.inl s) := by
  intro depth _ rest
  rfl

theorem ReadsType.field {ts : List Token} {t : TypeExpr} (h : ReadsType ts t) (s : String) :
    ReadsMember structLine (.name s :: ts) (.inr ⟨s, t⟩) := by
  intro depth hdepth rest
  rw [List.length_cons] at hdepth
  exact structLine_of_inner (typeExpr_eq_none (by decide) (depth + 1)) s
    (h depth _ (by omega) (endsType_lineEnd rest))

theorem readsMember_symbolTokens (s : Symbol) :
    ReadsMember interfaceLine (symbolTokens s) (.inl s) :=
  fun _ _ rest => interfaceLine_symbolTokens s rest

theorem ReadsSignature.method {ts : List Token} {ps rs : List TypeExpr}
    (h : ReadsSignature ts ps rs) (s : String) :
    ReadsMember interfaceLine (.name s :: .symbol ['('] :: ts) (.inr ⟨s, ps, rs⟩) := by
  intro depth hdepth rest
  simp only [List.length_cons] at hdepth
  show (signature (typeExpr (depth + 1)) (.symbol ['('] :: (ts ++ .lineEnd :: rest))).map _ = _
  rw [h depth _ (by omega) (endsType_lineEnd rest)]
  rfl

/-- The tokens of members: an empty pair of braces, or lines between braces. -/
def memberTokens (tss : List (List Token)) : List Token :=
  if tss.isEmpty then [.symbol ['\x7b'], .symbol ['\x7d']]
  else .symbol ['\x7b'] :: .lineEnd :: (lineTokens tss ++ [.symbol ['\x7d']])

theorem ReadsMember.lines {α : Type} {line : Parser TypeExpr → Parser α}
    {tss : List (List Token)} {as : List α} (h : List.Forall₂ (ReadsMember line) tss as)
    (depth : Nat) (hdepth : (lineTokens tss).length ≤ depth) :
    List.Forall₂ (ReadsLine (line (typeExpr (depth + 1)))) tss as := by
  induction h with
  | nil => exact .nil
  | @cons ts a tss as h _ ih =>
    have hlen : (lineTokens (ts :: tss)).length = ts.length + 1 + (lineTokens tss).length := by
      rw [lineTokens, List.flatMap_cons, List.length_append, List.length_append]
      rfl
    exact .cons (h depth (by omega)) (ih (by omega))

/-- The members between braces. -/
theorem memberList_memberTokens {α : Type} {line : Parser TypeExpr → Parser α}
    (hclose : ∀ inner ts, line inner (.symbol ['\x7d'] :: ts) = none) {tss : List (List Token)}
    {as : List α} (h : List.Forall₂ (ReadsMember line) tss as) {depth : Nat}
    (hdepth : (memberTokens tss).length ≤ depth) (rest : List Token) :
    memberList (line (typeExpr depth)) (memberTokens tss ++ rest) = some (as, rest) := by
  by_cases hempty : tss = []
  · subst hempty
    cases h
    rfl
  · have htokens : memberTokens tss =
        .symbol ['\x7b'] :: .lineEnd :: (lineTokens tss ++ [.symbol ['\x7d']]) :=
      if_neg (by simpa using hempty)
    rw [htokens] at hdepth ⊢
    simp only [List.length_cons, List.length_append, List.length_nil] at hdepth
    obtain ⟨d, rfl⟩ : ∃ d, depth = d + 1 := ⟨depth - 1, by omega⟩
    have hlines := ReadsMember.lines h d (by omega)
    rw [List.cons_append, List.cons_append, List.append_assoc]
    exact memberLines_lineTokens (hclose _) hlines rest

theorem readsType_struct {tss : List (List Token)} {ms : List (String ⊕ Field)}
    (h : List.Forall₂ (ReadsMember structLine) tss ms) :
    ReadsType (.keyword "struct" :: memberTokens tss)
      (.struct (ms.filterMap Sum.getLeft?) (ms.filterMap Sum.getRight?)) := by
  intro depth rest hdepth _
  rw [List.length_cons] at hdepth
  show (memberList (structLine (typeExpr depth)) (memberTokens tss ++ rest)).map _ = _
  rw [memberList_memberTokens (fun _ _ => rfl) h (by omega) rest]
  rfl

theorem readsType_interface {tss : List (List Token)} {ms : List (Symbol ⊕ Method)}
    (h : List.Forall₂ (ReadsMember interfaceLine) tss ms) :
    ReadsType (.keyword "interface" :: memberTokens tss)
      (.interface (ms.filterMap Sum.getLeft?) (ms.filterMap Sum.getRight?)) := by
  intro depth rest hdepth _
  rw [List.length_cons] at hdepth
  show (memberList (interfaceLine (typeExpr depth)) (memberTokens tss ++ rest)).map _ = _
  rw [memberList_memberTokens (fun _ _ => rfl) h (by omega) rest]
  rfl

/-- A text whose tokens are read as `t` is read as `t`. -/
theorem ReadsType.readType? {A : Alphabet} {text : String} {ts : List Token} {t : TypeExpr}
    (h : ReadsType ts t) (htext : A.tokens text.toList = some ts) : A.readType? text = some t := by
  have hend : EndsType [] := by
    intro heq
    cases heq
  have hread := h ts.length [] (Nat.le_refl _) hend
  rw [List.append_nil] at hread
  simp only [Alphabet.readType?, htext, hread]

end GoScribe.Go
