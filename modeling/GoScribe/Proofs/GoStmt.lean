import GoScribe.Proofs.GoExpr

/-!
# Statements of Go

The part of Go's statement grammar that blocks, conditions, loops, assignments, returns and expressions
on their own make up.  A line end behind a statement ends it; inside a statement, lines end only behind
the opening brace of a block and behind each statement of the block.

`Alphabet.readStmt?` reads a text as one statement with its line end and takes all of it.
`Stmt.Regroup` relates the trees that differ only in how chains of one associative operator are grouped
in their expressions.
-/

namespace GoScribe.Go

/-! ## Trees -/

/-- The tree of a statement.  The branches of a condition and the body of a loop are blocks; a branch
may also be a further condition. -/
inductive Stmt where
  | expr (e : Expr)
  | panic (e : Expr)
  | define (names : List String) (values : List Expr)
  | assign (lefts rights : List Expr)
  | ret (value : Option Expr)
  | block (ss : List Stmt)
  | ifElse (cond : Expr) (thenBranch : Stmt) (elseBranch : Option Stmt)
  | forRange (names : List String) (items : Expr) (body : Stmt)
  | forWhile (cond : Expr) (body : Stmt)
  | forClauses (init : Option Stmt) (cond : Option Expr) (step : Option Stmt) (body : Stmt)

/-- The trees that differ only in the grouping of chains of one operator. -/
inductive Stmt.Regroup : Stmt → Stmt → Prop
  | refl (s : Stmt) : Regroup s s
  | symm {s s' : Stmt} : Regroup s s' → Regroup s' s
  | trans {s s' s'' : Stmt} : Regroup s s' → Regroup s' s'' → Regroup s s''
  | expr {e e' : Expr} : e.Regroup e' → Regroup (.expr e) (.expr e')
  | panic {e e' : Expr} : e.Regroup e' → Regroup (.panic e) (.panic e')
  | define (names : List String) {values values' : List Expr} :
      List.Forall₂ Expr.Regroup values values' →
      Regroup (.define names values) (.define names values')
  | assign {lefts lefts' rights rights' : List Expr} : List.Forall₂ Expr.Regroup lefts lefts' →
      List.Forall₂ Expr.Regroup rights rights' →
      Regroup (.assign lefts rights) (.assign lefts' rights')
  | ret {value value' : Option Expr} : Option.Rel Expr.Regroup value value' →
      Regroup (.ret value) (.ret value')
  | block {ss ss' : List Stmt} : List.Forall₂ Regroup ss ss' → Regroup (.block ss) (.block ss')
  | ifElse {cond cond' : Expr} {thenBranch thenBranch' : Stmt}
      {elseBranch elseBranch' : Option Stmt} : cond.Regroup cond' →
      Regroup thenBranch thenBranch' → Option.Rel Regroup elseBranch elseBranch' →
      Regroup (.ifElse cond thenBranch elseBranch) (.ifElse cond' thenBranch' elseBranch')
  | forRange (names : List String) {items items' : Expr} {body body' : Stmt} :
      items.Regroup items' → Regroup body body' →
      Regroup (.forRange names items body) (.forRange names items' body')
  | forWhile {cond cond' : Expr} {body body' : Stmt} : cond.Regroup cond' → Regroup body body' →
      Regroup (.forWhile cond body) (.forWhile cond' body')
  | forClauses {init init' : Option Stmt} {cond cond' : Option Expr} {step step' : Option Stmt}
      {body body' : Stmt} : Option.Rel Regroup init init' → Option.Rel Expr.Regroup cond cond' →
      Option.Rel Regroup step step' → Regroup body body' →
      Regroup (.forClauses init cond step body) (.forClauses init' cond' step' body')

/-! ## The grammar -/

/-- A call of `panic` is a statement of its own kind. -/
def exprStmt : Expr → Stmt
  | .call (.name "panic") [e] => .panic e
  | e => .expr e

/-- The names that expressions are, if all of them are names. -/
def names? : List Expr → Option (List String)
  | [] => some []
  | .name s :: es => (names? es).map (s :: ·)
  | _ => none

section

variable (expr : Parser Expr) (stmt : Parser Stmt)

/-- An expression or an assignment. -/
def simpleStmt (ts : List Token) : Option (Stmt × List Token) :=
  match commaList expr ts with
  | some (ls, .symbol ['='] :: rest) =>
    (commaList expr rest).map fun (rs, rest) => (.assign ls rs, rest)
  | some ([e], rest) => some (exprStmt e, rest)
  | _ => none

/-- What is returned, up to the end of the line. -/
def returnStmt : Parser Stmt
  | .lineEnd :: ts => some (.ret none, .lineEnd :: ts)
  | ts => (expr ts).map fun (e, rest) => (.ret (some e), rest)

/-- Statements with a line end behind each, up to the closing brace. -/
def stmtLines (ts : List Token) : Option (List Stmt × List Token) :=
  match ts with
  | .symbol ['\x7d'] :: rest => some ([], rest)
  | ts =>
    match stmt ts with
    | some (s, .lineEnd :: rest) =>
      if rest.length < ts.length then (stmtLines rest).map fun (ss, rest) => (s :: ss, rest)
      else none
    | _ => none
termination_by ts.length

/-- A block with its braces. -/
def block : Parser Stmt
  | .symbol ['\x7b'] :: .symbol ['\x7d'] :: ts => some (.block [], ts)
  | .symbol ['\x7b'] :: .lineEnd :: ts =>
    (stmtLines stmt ts).map fun (ss, rest) => (.block ss, rest)
  | _ => none

/-- The branch behind a condition's block, which may be missing. -/
def elseClause : Parser (Option Stmt)
  | .keyword "else" :: .keyword "if" :: ts =>
    (stmt (.keyword "if" :: ts)).map fun (s, rest) => (some s, rest)
  | .keyword "else" :: ts => (block stmt ts).map fun (s, rest) => (some s, rest)
  | ts => some (none, ts)

/-- A condition whose keyword was read. -/
def ifStmt (ts : List Token) : Option (Stmt × List Token) :=
  (expr ts).bind fun (c, ts) =>
    (block stmt ts).bind fun (b, ts) =>
      (elseClause stmt ts).map fun (e, rest) => (.ifElse c b e, rest)

/-- The condition of a loop with clauses, up to its semicolon. -/
def loopCondition : Parser (Option Expr)
  | .symbol [';'] :: ts => some (none, ts)
  | ts =>
    match expr ts with
    | some (c, .symbol [';'] :: rest) => some (some c, rest)
    | _ => none

/-- The step of a loop with clauses, up to the body. -/
def loopStep : Parser (Option Stmt)
  | .symbol ['\x7b'] :: ts => some (none, .symbol ['\x7b'] :: ts)
  | ts => (simpleStmt expr ts).map fun (s, rest) => (some s, rest)

/-- What stands behind the first semicolon of a loop with clauses. -/
def loopClauses (init : Option Stmt) (ts : List Token) : Option (Stmt × List Token) :=
  (loopCondition expr ts).bind fun (c, ts) =>
    (loopStep expr ts).bind fun (s, ts) =>
      (block stmt ts).map fun (b, rest) => (.forClauses init c s b, rest)

/-- A loop whose variables were read: over a range or with clauses. -/
def definedLoop (names : List String) : Parser Stmt
  | .keyword "range" :: ts =>
    (expr ts).bind fun (e, ts) =>
      (block stmt ts).map fun (b, rest) => (.forRange names e b, rest)
  | ts =>
    match commaList expr ts with
    | some (vs, .symbol [';'] :: rest) => loopClauses expr stmt (some (.define names vs)) rest
    | _ => none

/-- A loop that starts with expressions: its variables, or its only condition. -/
def headedLoop (ts : List Token) : Option (Stmt × List Token) :=
  match commaList expr ts with
  | some (ls, .symbol [':', '='] :: rest) =>
    (names? ls).bind fun names => definedLoop expr stmt names rest
  | some ([c], rest) => (block stmt rest).map fun (b, rest) => (.forWhile c b, rest)
  | _ => none

/-- A loop whose keyword was read. -/
def forStmt : Parser Stmt
  | .symbol ['\x7b'] :: ts =>
    (block stmt (.symbol ['\x7b'] :: ts)).map fun (b, rest) =>
      (.forClauses none none none b, rest)
  | .symbol [';'] :: ts => loopClauses expr stmt none ts
  | ts => headedLoop expr stmt ts

end

/-- Statements with blocks and brackets at most `depth` deep. -/
def statement : Nat → Parser Stmt
  | 0, _ => none
  | depth + 1, ts =>
    match ts with
    | .keyword "if" :: ts => ifStmt (expression (depth + 1)) (statement depth) ts
    | .keyword "for" :: ts => forStmt (expression (depth + 1)) (statement depth) ts
    | .keyword "return" :: ts => returnStmt (expression (depth + 1)) ts
    | .symbol ['\x7b'] :: ts => block (statement depth) (.symbol ['\x7b'] :: ts)
    | ts => simpleStmt (expression (depth + 1)) ts

/-- The statement that a text with a line end behind it is. -/
def Alphabet.readStmt? (A : Alphabet) (text : String) : Option Stmt :=
  match A.tokens text.toList with
  | none => none
  | some ts =>
    match statement (ts.length + 1) ts with
    | some (s, [.lineEnd]) => some s
    | _ => none

/-! ## Where expressions in a statement end -/

/-- The tokens that stand behind the expressions of a statement. -/
def isStop : Token → Bool
  | .symbol cs => cs ∈ [['='], [':', '='], [';'], ['\x7b']]
  | .lineEnd => true
  | _ => false

/-- Expressions end in front of these tokens. -/
theorem ends_of_isStop {t : Token} (h : isStop t) (ts : List Token) :
    EndsOperand (t :: ts) ∧ EndsLevel 1 (t :: ts) := by
  cases t with
  | symbol cs =>
    simp only [isStop, List.mem_cons, List.not_mem_nil, or_false, decide_eq_true_eq] at h
    rcases h with rfl | rfl | rfl | rfl <;> exact ends_of_symbol _ (by decide) rfl ts
  | lineEnd =>
    constructor
    · intro c _ heq
      cases heq
    · intro cs op heq
      cases heq
  | _ => cases h

/-- Lists of expressions end in front of these tokens too. -/
theorem ne_comma_of_isStop {t : Token} (h : isStop t) : t ≠ .symbol [','] := by
  rintro rfl
  cases h

/-! ## Tokens that read as a tree

Each judgment says what the grammar makes of the tokens `ts` in front of any `rest` that can follow
them, when blocks and brackets may be as deep as there are tokens. -/

/-- The tokens are expressions with commas between them. -/
def ReadsList (ts : List Token) (es : List Expr) : Prop :=
  ∀ depth t rest, ts.length ≤ depth → isStop t →
    commaList (expression (depth + 1)) (ts ++ t :: rest) = some (es, t :: rest)

/-- The tokens are a statement. -/
def ReadsStmt (ts : List Token) (s : Stmt) : Prop :=
  ∀ depth rest, ts.length ≤ depth →
    statement (depth + 1) (ts ++ .lineEnd :: rest) = some (s, .lineEnd :: rest)

/-- The tokens are a block. -/
def ReadsBlock (ts : List Token) (s : Stmt) : Prop :=
  ∀ depth rest, ts.length ≤ depth → block (statement depth) (ts ++ rest) = some (s, rest)

/-- The tokens are what stands behind a condition's block. -/
def ReadsElse (ts : List Token) (s : Option Stmt) : Prop :=
  ∀ depth rest, ts.length ≤ depth →
    elseClause (statement depth) (ts ++ .lineEnd :: rest) = some (s, .lineEnd :: rest)

/-- The tokens are the condition of a loop with clauses. -/
def ReadsCondition (ts : List Token) (c : Option Expr) : Prop :=
  ∀ depth rest, ts.length ≤ depth →
    loopCondition (expression (depth + 1)) (ts ++ .symbol [';'] :: rest) = some (c, rest)

/-- The tokens are the step of a loop with clauses. -/
def ReadsStep (ts : List Token) (s : Option Stmt) : Prop :=
  ∀ depth rest, ts.length ≤ depth →
    loopStep (expression (depth + 1)) (ts ++ .symbol ['\x7b'] :: rest) =
      some (s, .symbol ['\x7b'] :: rest)

/-! ### Expressions in statements -/

/-- An expression ends in front of a stop. -/
theorem Reads.before_stop {ts : List Token} {e : Expr} (h : Reads ts e) (depth : Nat)
    (hdepth : ts.length ≤ depth) {t : Token} (ht : isStop t) (rest : List Token) :
    expression (depth + 1) (ts ++ t :: rest) = some (e, t :: rest) := by
  obtain ⟨hend, hlevel⟩ := ends_of_isStop ht rest
  exact h depth (t :: rest) hdepth hend hlevel

/-- Expressions are the items of a list in front of a stop. -/
theorem Reads.items {tss : List (List Token)} {es : List Expr} (h : List.Forall₂ Reads tss es)
    {depth : Nat} (hdepth : ∀ ts ∈ tss, ts.length ≤ depth) {t : Token} (ht : isStop t) :
    List.Forall₂ (ReadsItem (expression (depth + 1)) t) tss es := by
  induction h with
  | nil => exact .nil
  | @cons ts e tss es h _ ih =>
    rw [List.forall_mem_cons] at hdepth
    refine .cons ?_ (ih hdepth.2)
    rintro u rest (rfl | rfl)
    · obtain ⟨hend, hlevel⟩ := ends_of_symbol [','] (by decide) rfl rest
      exact h depth _ hdepth.1 hend hlevel
    · exact h.before_stop depth hdepth.1 ht rest

/-- Expressions with commas between them. -/
theorem readsList_joinWith {ts : List Token} {tss : List (List Token)} {e : Expr} {es : List Expr}
    (h : Reads ts e) (hs : List.Forall₂ Reads tss es) :
    ReadsList (Text.joinWith [.symbol [',']] (ts :: tss)) (e :: es) := by
  intro depth t rest hdepth ht
  have hlen : ∀ us ∈ ts :: tss, us.length ≤ depth := by
    intro us hus
    have := length_le_joinWith [.symbol [',']] hus
    omega
  have hitems := Reads.items (.cons h hs) hlen ht
  cases hitems with
  | cons hitem hitems => exact commaList_joinWith (ne_comma_of_isStop ht) hitem hitems rest

theorem Reads.list {ts : List Token} {e : Expr} (h : Reads ts e) : ReadsList ts [e] :=
  readsList_joinWith h .nil

/-- A list of expressions has a first token, which an expression may start with. -/
theorem ReadsList.starts {ts : List Token} {es : List Expr} (h : ReadsList ts es) :
    ∃ t us, ts = t :: us ∧ startsExpr t := by
  have hread := h ts.length .lineEnd [] (Nat.le_refl _) rfl
  -- Otherwise not even the first expression of the list could be read.
  have hnone : ∀ t us, startsExpr t = false → ¬ ∃ r, commaList (expression (ts.length + 1)) (t :: us) = some r := by
    rintro t us hstart ⟨r, hr⟩
    rw [commaList, expression_eq_none hstart] at hr
    cases hr
  cases ts with
  | nil => exact absurd ⟨_, hread⟩ (hnone .lineEnd [] rfl)
  | cons t us =>
    refine ⟨t, us, rfl, ?_⟩
    by_contra hstart
    rw [Bool.not_eq_true] at hstart
    exact hnone t _ hstart ⟨_, hread⟩

/-- Names are read as names. -/
theorem names?_map_name (names : List String) : names? (names.map .name) = some names := by
  induction names with
  | nil => rfl
  | cons s names ih => rw [List.map_cons, names?, ih]; rfl

/-! ### Simple statements -/

/-- A statement without a keyword or a brace in front is a simple one. -/
theorem statement_of_startsExpr {t : Token} (h : startsExpr t) (depth : Nat) (ts : List Token) :
    statement (depth + 1) (t :: ts) = simpleStmt (expression (depth + 1)) (t :: ts) := by
  rw [statement.eq_def]
  dsimp only
  split
  · next heq => cases heq; cases h
  · next heq => cases heq; cases h
  · next heq => cases heq; cases h
  · next heq => cases heq; cases h
  · rfl

/-- An assignment. -/
theorem simpleStmt_assign {ts us : List Token} {ls rs : List Expr} (hl : ReadsList ts ls)
    (hr : ReadsList us rs) {depth : Nat} (hdepth : (ts ++ .symbol ['='] :: us).length ≤ depth)
    {t : Token} (ht : isStop t) (rest : List Token) :
    simpleStmt (expression (depth + 1)) (ts ++ .symbol ['='] :: us ++ t :: rest) =
      some (.assign ls rs, t :: rest) := by
  rw [List.length_append, List.length_cons] at hdepth
  have hleft := hl depth (.symbol ['=']) (us ++ t :: rest) (by omega) rfl
  have hright := hr depth t rest (by omega) ht
  rw [List.append_assoc, List.cons_append, simpleStmt, hleft]
  simp only [hright, Option.map_some]

theorem ReadsList.assignStmt {ts us : List Token} {ls rs : List Expr} (hl : ReadsList ts ls)
    (hr : ReadsList us rs) : ReadsStmt (ts ++ .symbol ['='] :: us) (.assign ls rs) := by
  intro depth rest hdepth
  have hread := simpleStmt_assign hl hr hdepth (t := .lineEnd) rfl rest
  obtain ⟨t, vs, rfl, hstart⟩ := hl.starts
  exact (statement_of_startsExpr hstart depth _).trans hread

/-- An expression on its own. -/
theorem Reads.stmt {ts : List Token} {e : Expr} (h : Reads ts e) : ReadsStmt ts (exprStmt e) := by
  intro depth rest hdepth
  have hread : simpleStmt (expression (depth + 1)) (ts ++ .lineEnd :: rest) =
      some (exprStmt e, .lineEnd :: rest) := by
    rw [simpleStmt, h.list depth .lineEnd rest hdepth rfl]
  obtain ⟨t, us, rfl, hstart⟩ := h.starts
  exact (statement_of_startsExpr hstart depth _).trans hread

/-- A return without a value. -/
theorem readsStmt_return : ReadsStmt [.keyword "return"] (.ret none) :=
  fun _ _ _ => rfl

/-- A return with a value. -/
theorem Reads.returned {ts : List Token} {e : Expr} (h : Reads ts e) :
    ReadsStmt (.keyword "return" :: ts) (.ret (some e)) := by
  intro depth rest hdepth
  rw [List.length_cons] at hdepth
  have hread := h.before_stop depth (by omega) (t := .lineEnd) rfl rest
  obtain ⟨t, us, rfl, hstart⟩ := h.starts
  show returnStmt (expression (depth + 1)) (t :: us ++ .lineEnd :: rest) = _
  unfold returnStmt
  split
  · next heq =>
    cases heq
    cases hstart
  · rw [hread]
    rfl

/-! ### Blocks -/

/-- No statement starts with a closing brace. -/
theorem statement_brace (depth : Nat) (ts : List Token) :
    statement depth (.symbol ['\x7d'] :: ts) = none := by
  cases depth with
  | zero => rfl
  | succ depth =>
    show simpleStmt (expression (depth + 1)) (.symbol ['\x7d'] :: ts) = none
    rw [simpleStmt, commaList, expression_eq_none rfl]

/-- A statement in front of the other lines of a block. -/
theorem stmtLines_cons {stmt : Parser Stmt} {ts rest : List Token} {s : Stmt}
    (hbrace : ∀ us, ts ≠ .symbol ['\x7d'] :: us) (hs : stmt ts = some (s, .lineEnd :: rest))
    (hlen : rest.length < ts.length) :
    stmtLines stmt ts = (stmtLines stmt rest).map fun (ss, rest) => (s :: ss, rest) := by
  rw [stmtLines.eq_def]
  split
  · next us => exact absurd rfl (hbrace us)
  · simp only [hs, if_pos hlen]

/-- The lines of a block, up to the closing brace. -/
theorem stmtLines_flatMap {tss : List (List Token)} {ss : List Stmt}
    (h : List.Forall₂ ReadsStmt tss ss) (depth : Nat) (rest : List Token)
    (hdepth : (tss.flatMap (· ++ [.lineEnd])).length ≤ depth) :
    stmtLines (statement (depth + 1)) (tss.flatMap (· ++ [.lineEnd]) ++ .symbol ['\x7d'] :: rest) =
      some (ss, rest) := by
  induction h with
  | nil => rw [List.flatMap_nil, List.nil_append, stmtLines]
  | @cons ts s tss ss h _ ih =>
    rw [List.flatMap_cons, List.length_append, List.length_append] at hdepth
    have hlater := ih (by omega)
    rw [List.flatMap_cons, List.append_assoc, List.append_assoc, List.singleton_append]
    generalize tss.flatMap (· ++ [.lineEnd]) ++ .symbol ['\x7d'] :: rest = later at hlater ⊢
    -- The line is a statement, so it is not the brace that ends the block.
    have hfirst := h depth later (by omega)
    have hbrace : ∀ us, ts ++ .lineEnd :: later ≠ .symbol ['\x7d'] :: us := by
      intro us heq
      rw [heq, statement_brace] at hfirst
      cases hfirst
    rw [stmtLines_cons hbrace hfirst (by simp only [List.length_append, List.length_cons]; omega),
      hlater]
    rfl

/-- A block without lines. -/
theorem readsBlock_empty : ReadsBlock [.symbol ['\x7b'], .symbol ['\x7d']] (.block []) :=
  fun _ _ _ => rfl

/-- A block with a line for each statement. -/
theorem readsBlock_lines {tss : List (List Token)} {ss : List Stmt}
    (h : List.Forall₂ ReadsStmt tss ss) :
    ReadsBlock
      (.symbol ['\x7b'] :: .lineEnd :: (tss.flatMap (· ++ [.lineEnd]) ++ [.symbol ['\x7d']]))
      (.block ss) := by
  intro depth rest hdepth
  simp only [List.length_cons, List.length_append, List.length_nil] at hdepth
  obtain ⟨depth, rfl⟩ : ∃ d, depth = d + 1 := ⟨depth - 1, by omega⟩
  have hlines := stmtLines_flatMap h depth rest (by omega)
  rw [List.cons_append, List.cons_append, List.append_assoc, List.singleton_append, block, hlines]
  rfl

/-- A block starts with its brace. -/
theorem ReadsBlock.starts {ts : List Token} {s : Stmt} (h : ReadsBlock ts s) :
    ∃ us, ts = .symbol ['\x7b'] :: us := by
  have hread := h ts.length [] (Nat.le_refl _)
  rw [List.append_nil] at hread
  unfold block at hread
  split at hread
  · exact ⟨_, rfl⟩
  · exact ⟨_, rfl⟩
  · cases hread

/-- A block is a statement. -/
theorem ReadsBlock.stmt {ts : List Token} {s : Stmt} (h : ReadsBlock ts s) : ReadsStmt ts s := by
  intro depth rest hdepth
  have hread := h depth (.lineEnd :: rest) hdepth
  obtain ⟨us, rfl⟩ := h.starts
  exact hread

/-- An expression ends in front of a block. -/
theorem Reads.before_block {ts us : List Token} {e : Expr} {s : Stmt} (h : Reads ts e)
    (hs : ReadsBlock us s) (depth : Nat) (hdepth : ts.length ≤ depth) (rest : List Token) :
    expression (depth + 1) (ts ++ (us ++ rest)) = some (e, us ++ rest) := by
  obtain ⟨vs, rfl⟩ := hs.starts
  exact h.before_stop depth hdepth rfl (vs ++ rest)

/-! ### Conditions -/

/-- Nothing stands behind the block. -/
theorem readsElse_none : ReadsElse [] none :=
  fun _ _ _ => rfl

/-- A block behind `else`. -/
theorem ReadsBlock.branch {ts : List Token} {s : Stmt} (h : ReadsBlock ts s) :
    ReadsElse (.keyword "else" :: ts) (some s) := by
  intro depth rest hdepth
  rw [List.length_cons] at hdepth
  have hread := h depth (.lineEnd :: rest) (by omega)
  obtain ⟨us, rfl⟩ := h.starts
  show (block (statement depth) (.symbol ['\x7b'] :: us ++ .lineEnd :: rest)).map _ = _
  rw [hread]
  rfl

/-- A further condition behind `else`. -/
theorem ReadsStmt.branch {ts : List Token} {s : Stmt} (h : ReadsStmt (.keyword "if" :: ts) s) :
    ReadsElse (.keyword "else" :: .keyword "if" :: ts) (some s) := by
  intro depth rest hdepth
  simp only [List.length_cons] at hdepth
  obtain ⟨depth, rfl⟩ : ∃ d, depth = d + 1 := ⟨depth - 1, by omega⟩
  have hread := h depth rest (by rw [List.length_cons]; omega)
  show (statement (depth + 1) (.keyword "if" :: ts ++ .lineEnd :: rest)).map _ = _
  rw [hread]
  rfl

/-- A condition with its block and what stands behind it. -/
theorem readsStmt_if {ts us vs : List Token} {c : Expr} {b : Stmt} {e : Option Stmt}
    (hc : Reads ts c) (hb : ReadsBlock us b) (he : ReadsElse vs e) :
    ReadsStmt (.keyword "if" :: (ts ++ (us ++ vs))) (.ifElse c b e) := by
  intro depth rest hdepth
  simp only [List.length_cons, List.length_append] at hdepth
  have hcond := hc.before_block hb depth (by omega) (vs ++ .lineEnd :: rest)
  have hblock := hb depth (vs ++ .lineEnd :: rest) (by omega)
  have helse := he depth rest (by omega)
  show ifStmt (expression (depth + 1)) (statement depth) (ts ++ (us ++ vs) ++ .lineEnd :: rest) = _
  rw [List.append_assoc, List.append_assoc, ifStmt]
  simp only [hcond, hblock, helse, Option.bind_some, Option.map_some]

/-! ### Loops -/

/-- A loop that starts with expressions. -/
theorem statement_headedLoop {t : Token} (h : startsExpr t) (depth : Nat) (ts : List Token) :
    statement (depth + 1) (.keyword "for" :: t :: ts) =
      headedLoop (expression (depth + 1)) (statement depth) (t :: ts) := by
  show forStmt (expression (depth + 1)) (statement depth) (t :: ts) = _
  unfold forStmt
  split
  · next heq => cases heq; cases h
  · next heq => cases heq; cases h
  · rfl

/-- A loop with a condition only. -/
theorem readsStmt_while {ts us : List Token} {c : Expr} {b : Stmt} (hc : Reads ts c)
    (hb : ReadsBlock us b) : ReadsStmt (.keyword "for" :: (ts ++ us)) (.forWhile c b) := by
  intro depth rest hdepth
  simp only [List.length_cons, List.length_append] at hdepth
  have hblock := hb depth (.lineEnd :: rest) (by omega)
  have hcond : commaList (expression (depth + 1)) (ts ++ (us ++ .lineEnd :: rest)) =
      some ([c], us ++ .lineEnd :: rest) := by
    obtain ⟨vs, rfl⟩ := hb.starts
    exact hc.list depth _ _ (by omega) rfl
  have hloop : headedLoop (expression (depth + 1)) (statement depth)
      (ts ++ (us ++ .lineEnd :: rest)) = some (.forWhile c b, .lineEnd :: rest) := by
    rw [headedLoop, hcond]
    obtain ⟨vs, rfl⟩ := hb.starts
    show (block (statement depth) (.symbol ['\x7b'] :: vs ++ .lineEnd :: rest)).map _ = _
    rw [hblock]
    rfl
  obtain ⟨t, ws, rfl, hstart⟩ := hc.starts
  rw [List.cons_append, List.append_assoc]
  exact (statement_headedLoop hstart depth _).trans hloop

/-- A loop that starts with variables. -/
theorem statement_definedLoop {ts : List Token} {names : List String}
    (h : ReadsList ts (names.map .name)) {depth : Nat} (hdepth : ts.length ≤ depth)
    (rest : List Token) :
    statement (depth + 1) (.keyword "for" :: (ts ++ .symbol [':', '='] :: rest)) =
      definedLoop (expression (depth + 1)) (statement depth) names rest := by
  have hloop : headedLoop (expression (depth + 1)) (statement depth)
      (ts ++ .symbol [':', '='] :: rest) =
        definedLoop (expression (depth + 1)) (statement depth) names rest := by
    rw [headedLoop, h depth _ rest hdepth rfl]
    show (names? (names.map .name)).bind _ = _
    rw [names?_map_name]
    rfl
  obtain ⟨t, ws, rfl, hstart⟩ := h.starts
  exact (statement_headedLoop hstart depth _).trans hloop

/-- A loop over a range. -/
theorem readsStmt_range {ts us vs : List Token} {names : List String} {e : Expr} {b : Stmt}
    (hnames : ReadsList ts (names.map .name)) (he : Reads us e) (hb : ReadsBlock vs b) :
    ReadsStmt (.keyword "for" :: (ts ++ .symbol [':', '='] :: .keyword "range" :: (us ++ vs)))
      (.forRange names e b) := by
  intro depth rest hdepth
  simp only [List.length_cons, List.length_append] at hdepth
  have hblock := hb depth (.lineEnd :: rest) (by omega)
  have hitems := he.before_block hb depth (by omega) (.lineEnd :: rest)
  rw [List.cons_append, List.append_assoc, List.cons_append, List.cons_append, List.append_assoc]
  refine (statement_definedLoop hnames (by omega) _).trans ?_
  rw [definedLoop]
  simp only [hitems, hblock, Option.bind_some, Option.map_some]

/-- A loop without clauses. -/
theorem readsStmt_forever {ts : List Token} {b : Stmt} (hb : ReadsBlock ts b) :
    ReadsStmt (.keyword "for" :: ts) (.forClauses none none none b) := by
  intro depth rest hdepth
  rw [List.length_cons] at hdepth
  have hblock := hb depth (.lineEnd :: rest) (by omega)
  obtain ⟨us, rfl⟩ := hb.starts
  show (block (statement depth) (.symbol ['\x7b'] :: us ++ .lineEnd :: rest)).map _ = _
  rw [hblock]
  rfl

/-- A condition is left out. -/
theorem readsCondition_none : ReadsCondition [] none :=
  fun _ _ _ => rfl

/-- A condition in front of the second semicolon. -/
theorem Reads.condition {ts : List Token} {c : Expr} (h : Reads ts c) :
    ReadsCondition ts (some c) := by
  intro depth rest hdepth
  have hread := h.before_stop depth hdepth (t := .symbol [';']) rfl rest
  obtain ⟨t, us, rfl, hstart⟩ := h.starts
  unfold loopCondition
  split
  · next heq =>
    cases heq
    cases hstart
  · rw [hread]
    rfl

/-- A step is left out. -/
theorem readsStep_none : ReadsStep [] none :=
  fun _ _ _ => rfl

/-- An assignment as the step. -/
theorem ReadsList.step {ts us : List Token} {ls rs : List Expr} (hl : ReadsList ts ls)
    (hr : ReadsList us rs) : ReadsStep (ts ++ .symbol ['='] :: us) (some (.assign ls rs)) := by
  intro depth rest hdepth
  have hread := simpleStmt_assign hl hr hdepth (t := .symbol ['\x7b']) rfl rest
  obtain ⟨t, vs, rfl, hstart⟩ := hl.starts
  unfold loopStep
  split
  · next heq =>
    cases heq
    cases hstart
  · rw [hread]
    rfl

/-- What stands behind the first semicolon of a loop with clauses. -/
theorem loopClauses_eq {ts us vs : List Token} {step : Option Stmt} {c : Option Expr} {b : Stmt}
    (hc : ReadsCondition ts c) (hs : ReadsStep us step) (hb : ReadsBlock vs b) (depth : Nat)
    (init : Option Stmt) (hdepth : (ts ++ .symbol [';'] :: (us ++ vs)).length ≤ depth) (rest : List Token) :
    loopClauses (expression (depth + 1)) (statement depth) init
        (ts ++ .symbol [';'] :: (us ++ vs) ++ rest) =
      some (.forClauses init c step b, rest) := by
  simp only [List.length_cons, List.length_append] at hdepth
  have hblock := hb depth rest (by omega)
  -- The step may be empty, and is read up to the brace of the block.
  have hstep : loopStep (expression (depth + 1)) (us ++ (vs ++ rest)) = some (step, vs ++ rest) := by
    obtain ⟨ws, rfl⟩ := hb.starts
    exact hs depth (ws ++ rest) (by omega)
  have hcond := hc depth (us ++ (vs ++ rest)) (by omega)
  rw [List.append_assoc, List.cons_append, List.append_assoc, loopClauses]
  simp only [hcond, hstep, hblock, Option.bind_some, Option.map_some]

/-- A loop with clauses and no variables. -/
theorem readsStmt_clauses {ts us vs : List Token} {c : Option Expr} {step : Option Stmt} {b : Stmt}
    (hc : ReadsCondition ts c) (hs : ReadsStep us step) (hb : ReadsBlock vs b) :
    ReadsStmt (.keyword "for" :: .symbol [';'] :: (ts ++ .symbol [';'] :: (us ++ vs)))
      (.forClauses none c step b) := by
  intro depth rest hdepth
  rw [List.length_cons, List.length_cons] at hdepth
  exact loopClauses_eq hc hs hb depth none (by omega) (.lineEnd :: rest)

/-- A loop with clauses and variables. -/
theorem readsStmt_defined {ts us vs ws xs : List Token} {names : List String} {values : List Expr}
    {c : Option Expr} {step : Option Stmt} {b : Stmt} (hnames : ReadsList ts (names.map .name))
    (hvalues : ReadsList us values) (hc : ReadsCondition vs c) (hs : ReadsStep ws step)
    (hb : ReadsBlock xs b) :
    ReadsStmt
      (.keyword "for" ::
        (ts ++ .symbol [':', '='] :: (us ++ .symbol [';'] :: (vs ++ .symbol [';'] :: (ws ++ xs)))))
      (.forClauses (some (.define names values)) c step b) := by
  intro depth rest hdepth
  simp only [List.length_cons, List.length_append] at hdepth
  have hclauses := loopClauses_eq hc hs hb depth (some (.define names values))
    (by simp only [List.length_cons, List.length_append]; omega) (.lineEnd :: rest)
  rw [List.cons_append, List.append_assoc, List.cons_append, List.append_assoc, List.cons_append]
  generalize vs ++ .symbol [';'] :: (ws ++ xs) ++ .lineEnd :: rest = later at hclauses ⊢
  have hread := hvalues depth (.symbol [';']) later (by omega) rfl
  refine (statement_definedLoop hnames (by omega) _).trans ?_
  -- The values start an expression, so this is no loop over a range.
  obtain ⟨t, ys, rfl, hstart⟩ := hvalues.starts
  unfold definedLoop
  split
  · next heq =>
    cases heq
    cases hstart
  · rw [hread]
    exact hclauses

/-! ### Whole texts -/

/-- A text that is the tokens of a statement and a line end is read as that statement. -/
theorem ReadsStmt.readStmt? {A : Alphabet} {text : String} {ts : List Token} {s : Stmt}
    (h : ReadsStmt ts s) (htext : A.Lexes text.toList (ts ++ [.lineEnd]) []) :
    A.readStmt? text = some s := by
  have hread := h (ts ++ [Token.lineEnd]).length [] (by rw [List.length_append]; omega)
  simp only [Alphabet.readStmt?, htext.tokens_eq, hread]

/-! ## Calls of `panic` -/

/-- The name that an expression is. -/
def Expr.name? : Expr → Option String
  | .name s => some s
  | _ => none

/-- The name that an expression calls. -/
def Expr.calledName? : Expr → Option String
  | .call e _ => e.name?
  | _ => none

/-- Regrouping keeps names, and what is called by name. -/
theorem Expr.Regroup.names_eq {e e' : Expr} (h : e.Regroup e') :
    e.name? = e'.name? ∧ e.calledName? = e'.calledName? := by
  induction h with
  | refl => exact ⟨rfl, rfl⟩
  | symm _ ih => exact ⟨ih.1.symm, ih.2.symm⟩
  | trans _ _ ih ih' => exact ⟨ih.1.trans ih'.1, ih.2.trans ih'.2⟩
  | callee _ _ ih => exact ⟨rfl, ih.1⟩
  | _ => exact ⟨rfl, rfl⟩

/-- An expression that does not call `panic` is a statement as it stands. -/
theorem exprStmt_eq {e : Expr} (h : e.calledName? ≠ some "panic") : exprStmt e = .expr e := by
  unfold exprStmt
  split
  · exact absurd rfl h
  · rfl

/-- A call of `panic`. -/
theorem exprStmt_panic (e : Expr) : exprStmt (.call (.name "panic") [e]) = .panic e := rfl

end GoScribe.Go
