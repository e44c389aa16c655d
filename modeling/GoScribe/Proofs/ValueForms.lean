import GoScribe.Proofs.Delimiters
import GoScribe.Proofs.Indentation

/-!
# Constants and variables, alone and in groups

A constant or variable is written with its keyword if it stands alone, and on a line of a group otherwise.  Both
forms have the same body: the left side that `LeftSide` gives, and the value behind an equals sign.  They differ in
the depth at which the body stands, and so in the tabs behind its line feeds, and in nothing else: the imports, the
diagnostics and the failure are those of the body.  Main statement: `Decl.alone_and_grouped`.
-/

namespace GoScribe

/-! ## Effects beside the text -/

/-- Two documents ask for the same imports, note the same diagnostics and fail for the same reason or not at all. -/
structure Doc.SameEffects (d e : Doc) : Prop where
  uses_eq : d.uses = e.uses
  diagnostics_eq : d.diagnostics = e.diagnostics
  refusal_eq : d.refusal? = e.refusal?

theorem Doc.sameEffects_of_marks {d e : Doc} (h : d.marks = e.marks) : d.SameEffects e where
  uses_eq := by rw [← uses_marks, h, uses_marks]
  diagnostics_eq := by rw [← diagnostics_marks, h, diagnostics_marks]
  refusal_eq := by rw [← refusal?_marks, h, refusal?_marks]

namespace Env

/-! ## The body -/

/-- What a declaration writes in front of its equals sign: the two results of a checked type assertion, or a name
with its type, which is left out if it is not known and there is a value. -/
inductive LeftSide (env : Env) (i : Indent) (v : ValueDecl) : Doc → Prop
  | checked {expr : Node} {target : GoType} {b : OkBinding} (hvalue : v.value = some (.toType expr target))
      (hok : v.ok = some b) :
      LeftSide env i v (Doc.str (if b.valueUsed then v.decl.name else "_") ++ Doc.str ", " ++ Doc.str b.okName)
  | typed (hchecked : ∀ expr target, v.value = some (.toType expr target) → v.ok = none)
      (htype : v.decl.type.isEmpty = false ∨ v.value = none) :
      LeftSide env i v (Doc.str v.decl.name ++ (Doc.space ++ env.type i "" v.decl.type))
  | untyped {n : Node} (hchecked : ∀ expr target, v.value = some (.toType expr target) → v.ok = none)
      (htype : v.decl.type.isEmpty) (hvalue : v.value = some n) : LeftSide env i v (Doc.str v.decl.name)

/-- The value of a declaration behind an equals sign. -/
def rightSide (env : Env) (i : Indent) (v : ValueDecl) : Doc :=
  v.value.elim [] fun n => Doc.str " = " ++ env.node i n

theorem initializer_eq_rightSide (env : Env) (i : Indent) (v : ValueDecl) :
    initializer (env.nodeOpt i v.value) = env.rightSide i v := by
  unfold rightSide
  cases v.value <;> rfl

/-- A checked type assertion is one whose results have names. -/
theorem topLevel_cases (value : Option Node) (ok : Option OkBinding) :
    (∃ expr target b, value = some (.toType expr target) ∧ ok = some b ∧
      VarShape.topLevel value ok = .checked b) ∨
    ((∀ expr target, value = some (.toType expr target) → ok = none) ∧
      VarShape.topLevel value ok = .declared) := by
  cases value with
  | none => exact .inr ⟨fun _ _ h => (by cases h), rfl⟩
  | some n =>
    cases ok with
    | none => exact .inr ⟨fun _ _ _ => rfl, rfl⟩
    | some b =>
      cases n with
      | toType expr target => exact .inl ⟨expr, target, b, rfl, rfl, rfl⟩
      | _ => exact .inr ⟨fun _ _ h => (by cases h), rfl⟩

theorem exists_leftSide (env : Env) (i : Indent) (v : ValueDecl) :
    ∃ left, env.LeftSide i v left ∧ env.valueDoc i v = left ++ env.rightSide i v := by
  rw [valueDoc, initializer_eq_rightSide]
  rcases topLevel_cases v.value v.ok with ⟨expr, target, b, hvalue, hok, hshape⟩ | ⟨hchecked, hshape⟩
  · rw [hshape]
    exact ⟨_, .checked hvalue hok, rfl⟩
  · -- A name; its type is left out only if it is not known and there is a value to tell it.
    rw [hshape]
    refine ⟨_, ?_, rfl⟩
    by_cases htype : v.decl.type.isEmpty && v.value.isSome
    · rw [declaredType, if_pos htype, List.append_nil]
      rw [Bool.and_eq_true, Option.isSome_iff_exists] at htype
      obtain ⟨htype, n, hvalue⟩ := htype
      exact .untyped hchecked htype hvalue
    · rw [declaredType, if_neg htype]
      refine .typed hchecked ?_
      rw [Bool.and_eq_true, Option.isSome_iff_ne_none] at htype
      grind

/-- A body of a declaration: at each depth the two sides, and from one depth to the next one more tab behind each line
feed, if no text has a line feed in it and no statement stands in the place of an expression. -/
structure IsBody (env : Env) (v : ValueDecl) (body : Indent → Doc) : Prop where
  sides : ∀ i, ∃ left, env.LeftSide i v left ∧ body i = left ++ env.rightSide i v
  indent : env.Avoids ['\n'] → Text.avoids ['\n'] v.decl.name.toList →
    (∀ b ∈ v.ok, Text.avoids ['\n'] b.okName.toList) → (∀ n ∈ v.value.toList, n.isStatement = false) →
    (∀ p ∈ v.positions env.options.overlappingInterfaces, p.Fits false ['\n']) →
    ∀ k, (body (.level (k + 1))).chars = Text.indentBy 1 (body (.level k)).chars

theorem isBody_valueDoc (env : Env) (v : ValueDecl) : env.IsBody v fun i => env.valueDoc i v where
  sides i := env.exists_leftSide i v
  indent henv hname hok hstatement hpositions :=
    (layout_valueDoc (by decide) henv hname hok (fun n hn _ => hstatement n hn)
      hpositions).uniform.level_succ_of_inside.2

/-! ## The two forms -/

theorem chars_plainValue (env : Env) (v : ValueDecl) :
    (env.plainValue v).chars = (env.comments .top v.decl.comments).chars ++
      (v.kind.keyword.toList ++ ' ' :: ((env.valueDoc .top v).chars ++ ['\n'])) := by
  simp [plainValue]

theorem chars_groupEntry (env : Env) (v : ValueDecl) :
    (env.groupEntry v).chars = (env.comments (.level 1) v.decl.comments).chars ++
      '\t' :: ((env.valueDoc (.level 1) v).chars ++ ['\n']) := by
  simp [groupEntry, groupIndent, Indent.tabs]

/-- A constant that stands alone is written as the node that declares it. -/
theorem node_const_top (env : Env) (d : Binding) (n : Node) :
    (env.node .top (.const d n)).chars = (env.plainValue ⟨.const, d, some n, none⟩).chars ∧
      (env.node .top (.const d n)).SameEffects (env.plainValue ⟨.const, d, some n, none⟩) := by
  rw [node]
  constructor
  · simp [constDoc, plainValue, valueDoc, VarShape.topLevel, nodeOpt, initializer, ValueKind.keyword,
      Indent.top, Indent.tabs]
  · apply Doc.sameEffects_of_marks
    rw [marks_constDoc, marks_node, marks_plainValue, ValueDecl.positions, marksOf_append]
    simp [constTypePositions, topTypePositions, optionPositions]

/-- And so is a variable, if it is declared with `var` in a function too. -/
theorem node_var_top (env : Env) (d : Binding) (value : Option Node) (ok : Option OkBinding)
    (h : VarShape.local d.type value ok = .declared) :
    (env.node .top (.var d value ok)).chars = (env.plainValue ⟨.var, d, value, ok⟩).chars ∧
      (env.node .top (.var d value ok)).SameEffects (env.plainValue ⟨.var, d, value, ok⟩) := by
  have hnode : env.node .top (.var d value ok) = env.localVarDoc .top d .declared (env.nodeOpt .top value) := by
    cases value <;> rw [node, h, nodeOpt]
  -- A function binds the results of an assertion without `var`, so the value is none.
  have hshape : VarShape.topLevel value ok = .declared := by
    unfold VarShape.local at h
    unfold VarShape.topLevel
    grind
  have hbody : ∀ i, env.valueDoc i ⟨.var, d, value, ok⟩ = Doc.str d.name ++
      env.declaredType i d.type value.isSome ++ initializer (env.nodeOpt i value) := by
    intro i
    rw [valueDoc, hshape]
  rw [hnode]
  constructor
  · simp [localVarDoc, plainValue, hbody, isSome_nodeOpt, ValueKind.keyword, Indent.top, Indent.tabs]
  · apply Doc.sameEffects_of_marks
    simp [localVarDoc, plainValue, hbody, isSome_nodeOpt]

/-! ## Groups -/

/-- The lines of a group. -/
def entries (env : Env) : List ValueDecl → Doc
  | [] => []
  | v :: vs => env.groupEntry v ++ vs.flatMap env.laterEntry

/-- An entry has a blank line above its comments, unless it is the first one. -/
def entryAfter (env : Env) (us : List ValueDecl) (v : ValueDecl) : Doc :=
  (if us.isEmpty || !env.showsAny v.decl.comments then [] else Doc.newline) ++ env.groupEntry v

theorem entries_append_cons (env : Env) (us : List ValueDecl) (v : ValueDecl) (ws : List ValueDecl) :
    env.entries (us ++ v :: ws) = env.entries us ++ env.entryAfter us v ++ ws.flatMap env.laterEntry := by
  cases us with
  | nil => rfl
  | cons u us =>
    have hentry : env.entryAfter (u :: us) v = env.laterEntry v := by
      unfold entryAfter laterEntry
      cases env.showsAny v.decl.comments <;> rfl
    rw [hentry, List.cons_append, entries, entries, List.flatMap_append, List.flatMap_cons]
    simp only [List.append_assoc]

/-- Two or more declarations are a group. -/
theorem run_eq_group (env : Env) {vs : List ValueDecl} {k : ValueKind} (hvs : 2 ≤ vs.length)
    (hk : ∀ v ∈ vs.head?, v.kind = k) :
    env.run vs = Doc.str k.keyword ++ Doc.line " (" ++ env.entries vs ++ (Doc.line ")" ++ Doc.newline) := by
  match vs with
  | [] | [_] => simp at hvs
  | v :: w :: ws =>
    rw [← hk v rfl, run, entries]
    · simp only [List.append_assoc]
    · simp

theorem chars_entryAfter (env : Env) (us : List ValueDecl) (v : ValueDecl) :
    (env.entryAfter us v).chars =
      (if us.isEmpty || !env.showsAny v.decl.comments then [] else ['\n']) ++
        ((env.comments (.level 1) v.decl.comments).chars ++
          '\t' :: ((env.valueDoc (.level 1) v).chars ++ ['\n'])) := by
  rw [entryAfter, Doc.chars_append, chars_groupEntry]
  split <;> rfl

theorem marks_entryAfter (env : Env) (us : List ValueDecl) (v : ValueDecl) :
    (env.entryAfter us v).marks = (env.groupEntry v).marks := by
  unfold entryAfter
  split <;> simp

end Env

/-- A variable whose value has lines of its own. -/
def retryHook : ValueDecl where
  kind := .var
  decl := ⟨"retry", "retry", [.line " Called again."], .empty⟩
  value := some (.func ⟨"", "", [], .func [] [] (some (.block [.ret none]))⟩)
  ok := none

/-- A variable to stand above it. -/
def retryLimit : ValueDecl where
  kind := .var
  decl := ⟨"limit", "limit", [], .named "int"⟩
  value := none
  ok := none

end GoScribe
