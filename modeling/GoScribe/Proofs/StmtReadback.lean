import GoScribe.Proofs.ExprReadback
import GoScribe.Proofs.GoStmt

/-!
# Statements can be read back

The lines of a statement are read by Go's grammar as the tree that was rendered, at any depth.  Besides
the grouping of chains in expressions, two things are not kept apart.  A branch or a body that is no
block is written as the only line of one, and a loop with a condition but without variables and steps
is written the same whichever kind of loop it is.
-/

namespace GoScribe

open Go (Alphabet Token)

/-! ## Statements -/

namespace Node

/-- The symbol `panic` is called. -/
def callsPanic : Node → Bool
  | call (sym name) _ => name = "panic"
  | _ => false

/-- The statements over blocks, conditions, loops, assignments, returns, calls of `panic` and
expressions.  An expression that is a statement of its own does not call the symbol `panic`. -/
inductive IsStmt (A : Alphabet) : Node → Prop
  | expr {n : Node} : IsExpr A n → n.callsPanic = false → IsStmt A n
  | panic {arg : Node} : IsExpr A arg → IsStmt A (panic arg)
  | set {left right : Node} : IsExpr A left → IsExpr A right → IsStmt A (set left right)
  | ret {value : Option Node} : (∀ v ∈ value, IsExpr A v) → IsStmt A (ret value)
  | block {stmts : List Node} : (∀ s ∈ stmts, IsStmt A s) → IsStmt A (block stmts)
  | ifElse {cond thenBranch : Node} {elseBranch : Option Node} : IsExpr A cond →
      IsStmt A thenBranch → (∀ b ∈ elseBranch, IsStmt A b) →
      IsStmt A (ifElse cond thenBranch elseBranch)
  | forRange {item : String} {items body : Node} : A.isFreeName item → IsExpr A items →
      IsStmt A body → IsStmt A (forRange item items body)
  | forClassic {init : List LoopVar} {cond : Option Node} {step : List LoopStep} {body : Node} :
      (∀ v ∈ init, A.isFreeName v.name) → (∀ v ∈ init, IsExpr A v.value) →
      (∀ c ∈ cond, IsExpr A c) → (∀ s ∈ step, IsExpr A s.left) → (∀ s ∈ step, IsExpr A s.right) →
      IsStmt A body → IsStmt A (forClassic init cond step body)
  | forWhile {cond body : Node} : IsExpr A cond → IsStmt A body → IsStmt A (forWhile cond body)

/-- The tree of a node where a block is wanted: what is no block becomes the only line of one. -/
def asBody (n : Node) (s : Go.Stmt) : Go.Stmt :=
  match n with
  | block _ => s
  | _ => .block [s]

/-- The tree of a node behind `else`, where a further condition stands for itself. -/
def asBranch (n : Node) (s : Go.Stmt) : Go.Stmt :=
  match n with
  | ifElse .. => s
  | _ => n.asBody s

end Node

/-- The tree of a loop with clauses.  Without variables and steps it has only a condition, or no clause
at all. -/
def loopTree (names : List String) (values : List Go.Expr) (cond : Option Go.Expr)
    (lefts rights : List Go.Expr) (body : Go.Stmt) : Go.Stmt :=
  if names.isEmpty && lefts.isEmpty then
    match cond with
    | some c => .forWhile c body
    | none => .forClauses none none none body
  else
    .forClauses (if names.isEmpty then none else some (.define names values)) cond
      (if lefts.isEmpty then none else some (.assign lefts rights)) body

/-- A loop with variables or steps shows all of its clauses. -/
theorem loopTree_eq {names : List String} {lefts : List Go.Expr}
    (h : (names.isEmpty && lefts.isEmpty) = false) (values : List Go.Expr) (cond : Option Go.Expr)
    (rights : List Go.Expr) (body : Go.Stmt) :
    loopTree names values cond lefts rights body =
      .forClauses (if names.isEmpty then none else some (.define names values)) cond
        (if lefts.isEmpty then none else some (.assign lefts rights)) body := by
  unfold loopTree
  rw [if_neg (by rw [h]; decide)]

namespace Node

mutual

/-- The tree that Go has for a statement. -/
def stmt : Node → Go.Stmt
  | .panic arg => .panic arg.tree
  | .set left right => .assign [left.tree] [right.tree]
  | .ret value => .ret (value.map tree)
  | .block ss => .block (stmts ss)
  | .ifElse cond thenBranch elseBranch =>
    .ifElse cond.tree (thenBranch.asBody thenBranch.stmt) (branch elseBranch)
  | .forRange item items body => .forRange ["_", item] items.tree (body.asBody body.stmt)
  | .forClassic init cond step body =>
    loopTree (init.map LoopVar.name) (trees (init.map LoopVar.value)) (cond.map tree)
      (trees (step.map LoopStep.left)) (trees (step.map LoopStep.right)) (body.asBody body.stmt)
  | .forWhile cond body => .forWhile cond.tree (body.asBody body.stmt)
  | n => .expr n.tree

/-- The trees of several statements. -/
def stmts : List Node → List Go.Stmt
  | [] => []
  | n :: ns => n.stmt :: stmts ns

/-- The tree of what stands behind a condition's block. -/
def branch : Option Node → Option Go.Stmt
  | none => none
  | some n => some (n.asBranch n.stmt)

end

end Node

/-! ## Expressions at any depth -/

/-- The place of an expression does not show in its text. -/
theorem Node.IsExpr.node_eq {A : Alphabet} {n : Node} (h : n.IsExpr A) (env : Env) (i : Indent) :
    env.node i n = env.node .inline n := by
  induction h with
  | sym | nil | litBool | litInt | litStr => rw [Env.node, Env.node]
  | op1 op _ ih => rw [Env.node, Env.node, ih]
  | op2 op _ _ ihl ihr => rw [Env.node, Env.node, ihl, ihr]
  | @call callee args _ _ _ ih ihargs =>
    -- The hypothesis covers the arguments of the call, so the list shrinks below them.
    have hargs : ∀ as ⊆ args, env.nodes i as = env.nodes .inline as := by
      intro as has
      induction as with
      | nil => rw [Env.nodes, Env.nodes]
      | cons a as ih =>
        rw [List.cons_subset] at has
        rw [Env.nodes, Env.nodes, ihargs a has.1, ih has.2]
    rw [Env.node, Env.node, ih, hargs args (List.Subset.refl _)]
  | dot _ _ _ _ ih => rw [Env.node, Env.node, ih, Env.node, Env.node]
  | index _ _ _ _ ihl ihr => rw [Env.node, Env.node, ihl, ihr]

/-- The text of an expression is cut into its tokens, wherever it stands. -/
theorem Node.IsExpr.spells {A : Alphabet} {n : Node} (h : n.IsExpr A) (env : Env) (i : Indent) :
    A.Spells (env.node i n).chars n.tokens := by
  rw [h.node_eq env i]
  exact (h.spelled env).spells

/-- Several expressions with commas between them. -/
theorem Node.IsExpr.spells_nodes {A : Alphabet} {ns : List Node} (h : ∀ n ∈ ns, n.IsExpr A)
    (env : Env) (i : Indent) :
    A.Spells (Doc.commaSep (env.nodes i ns)).chars
      (Text.joinWith [.symbol [',']] (tokenLists ns)) := by
  have hnodes : env.nodes i ns = env.nodes .inline ns := by
    induction ns with
    | nil => rw [Env.nodes, Env.nodes]
    | cons n ns ih =>
      rw [List.forall_mem_cons] at h
      rw [Env.nodes, Env.nodes, h.1.node_eq env i, ih h.2]
  rw [hnodes]
  exact Env.Spelled.args fun n hn => (h n hn).spelled env

/-- Several expressions are read one after another. -/
theorem Node.IsExpr.reads_nodes {A : Alphabet} {n : Node} {ns : List Node}
    (h : ∀ m ∈ n :: ns, m.IsExpr A) :
    ∃ es, List.Forall₂ Go.Expr.Regroup (trees (n :: ns)) es ∧
      Go.ReadsList (Text.joinWith [.symbol [',']] (tokenLists (n :: ns))) es := by
  obtain ⟨es, htrees, hreads⟩ := Readable.args fun m hm => (h m hm).readable
  refine ⟨es, htrees, ?_⟩
  rw [tokenLists] at hreads ⊢
  cases hreads with
  | cons hread hreads => exact Go.readsList_joinWith hread hreads

/-- Names with commas between them. -/
theorem Go.Alphabet.spells_names {A : Alphabet} {names : List String}
    (h : ∀ s ∈ names, A.isFreeName s) :
    A.Spells (Doc.commaSep (names.map Doc.str)).chars
      (Text.joinWith [.symbol [',']] (names.map fun s => [.name s])) := by
  rw [Doc.chars_commaSep]
  apply spells_joinWith
  induction names with
  | nil => exact .nil
  | cons s names ih =>
    rw [List.forall_mem_cons, isFreeName_iff, isIdentifier_iff] at h
    simp only [List.map_cons, Doc.chars_str]
    exact .cons (spellsOperand_word h.1.1.1 h.1.1.2).spells (ih h.2)

/-- Names are read one after another. -/
theorem Go.readsList_names {A : Alphabet} {s : String} {names : List String}
    (h : ∀ n ∈ s :: names, A.isFreeName n) :
    ReadsList (Text.joinWith [.symbol [',']] ((s :: names).map fun s => [.name s]))
      ((s :: names).map .name) := by
  have hread : ∀ n ∈ s :: names, Reads [.name n] (.name n) := by
    intro n hn
    rw [← nameExpr_of_isFreeName (h n hn)]
    exact (readsPrimary_name n).unary.reads
  rw [List.forall_mem_cons] at hread
  refine readsList_joinWith hread.1 ?_
  have hrest := hread.2
  clear h hread
  induction names with
  | nil => exact .nil
  | cons n names ih =>
    rw [List.forall_mem_cons] at hrest
    exact .cons hrest.1 (ih hrest.2)

/-- Only a symbol has a name for its tree. -/
theorem Node.IsExpr.eq_sym_of_name? {A : Alphabet} {n : Node} (h : n.IsExpr A) {s : String}
    (hs : n.tree.name? = some s) : n = .sym s := by
  cases h with
  | sym =>
    rw [tree] at hs
    cases hs
    rfl
  | litInt =>
    rw [tree] at hs
    split at hs <;> cases hs
  | _ =>
    rw [tree] at hs
    cases hs

/-- Only a call of the symbol `panic` has a call of the name `panic` for its tree. -/
theorem Node.IsExpr.callsPanic_of_calledName? {A : Alphabet} {n : Node} (h : n.IsExpr A)
    (hs : n.tree.calledName? = some "panic") : n.callsPanic := by
  cases h with
  | call hcallee =>
    rw [tree] at hs
    rw [hcallee.eq_sym_of_name? hs]
    rfl
  | litInt =>
    rw [tree] at hs
    split at hs <;> cases hs
  | _ =>
    rw [tree] at hs
    cases hs

namespace Env

/-- The values that a loop starts with are nodes in one line. -/
theorem loopValues_eq (env : Env) (i : Indent) (init : List LoopVar) :
    env.loopValues i init = env.nodes i (init.map LoopVar.value) := by
  induction init with
  | nil => rw [loopValues, List.map_nil, nodes]
  | cons v init ih =>
    obtain ⟨name, value⟩ := v
    rw [loopValues, List.map_cons, nodes, ih]

/-- The left sides of a loop's steps are nodes in one line. -/
theorem stepLefts_eq (env : Env) (i : Indent) (step : List LoopStep) :
    env.stepLefts i step = env.nodes i (step.map LoopStep.left) := by
  induction step with
  | nil => rw [stepLefts, List.map_nil, nodes]
  | cons s step ih =>
    obtain ⟨left, right⟩ := s
    rw [stepLefts, List.map_cons, nodes, ih]

/-- The right sides of a loop's steps are nodes in one line. -/
theorem stepRights_eq (env : Env) (i : Indent) (step : List LoopStep) :
    env.stepRights i step = env.nodes i (step.map LoopStep.right) := by
  induction step with
  | nil => rw [stepRights, List.map_nil, nodes]
  | cons s step ih =>
    obtain ⟨left, right⟩ := s
    rw [stepRights, List.map_cons, nodes, ih]

/-! ## Lines, bodies and branches -/

/-- The line of a node in a block at `k` tabs. -/
def lineAt (env : Env) (k : Nat) (n : Node) : Doc :=
  statementLine (.level k) n (env.node (.level k) n)

/-- A statement node brings its tabs and its line end with it. -/
theorem lineAt_of_isStatement {n : Node} (h : n.isStatement) (env : Env) (k : Nat) :
    env.lineAt k n = env.node (.level k) n :=
  if_pos h

end Env

/-- How a statement is read in each of its places: as a line of a block, where a block is wanted, and
behind `else`.  The tokens do not depend on the depth. -/
structure Env.Legible (env : Env) (A : Alphabet) (n : Node) : Prop where
  line : ∃ ts s, n.stmt.Regroup s ∧ Go.ReadsStmt ts s ∧
    ∀ k rest, A.Lexes ((env.lineAt k n).chars ++ rest) (ts ++ [.lineEnd]) rest
  body : ∃ ts s, (n.asBody n.stmt).Regroup s ∧ Go.ReadsBlock ts s ∧
    ∀ k rest, A.Lexes ((env.body (.level k) n).chars ++ rest) ts rest
  branch : ∃ ts s, (n.asBranch n.stmt).Regroup s ∧ Go.ReadsElse ts (some s) ∧
    ∀ k rest, A.Lexes ((env.elseDoc (.level k) (some n)).chars ++ rest) ts rest

namespace Go.Alphabet

variable {A : Alphabet}

/-- The sign between variables and their values, with the blanks around it. -/
theorem lexes_define {cs rest : List Char} {ts : List Token} (h : A.Lexes cs ts rest) :
    A.Lexes (' ' :: ':' :: '=' :: ' ' :: cs) (.symbol [':', '='] :: ts) rest :=
  .space rfl (.next rfl rfl (.space rfl h))

/-- The sign of an assignment, with the blanks around it. -/
theorem lexes_assign {cs rest : List Char} {ts : List Token} (h : A.Lexes cs ts rest) :
    A.Lexes (' ' :: '=' :: ' ' :: cs) (.symbol ['='] :: ts) rest :=
  .space rfl (.next rfl rfl (.space rfl h))

/-- The lines of a block between its braces. -/
theorem lexes_braces {d : Doc} {ts : List Token} (k : Nat)
    (h : ∀ rest, A.Lexes (d.chars ++ rest) ts rest) (rest : List Char) :
    A.Lexes ((braces (.level k) d).chars ++ rest)
      (.symbol ['\x7b'] :: .lineEnd :: (ts ++ [.symbol ['\x7d']])) rest := by
  have hclose : A.Lexes (List.replicate k '\t' ++ '\x7d' :: rest) [.symbol ['\x7d']] rest :=
    .tabs k (lexes_bracket A (by decide) (.refl A rest))
  have hlines := (h (List.replicate k '\t' ++ '\x7d' :: rest)).trans hclose
  simp only [braces, Doc.chars_append, Doc.chars_str, Doc.chars_newline, Doc.chars_tabs,
    List.append_assoc]
  exact lexes_bracket A (by decide) (lexes_lineEnd hlines)

end Go.Alphabet

namespace Env.Legible

variable {env : Env} {A : Alphabet} {n : Node}

/-- What is no block is written as the only line of one. -/
theorem body_of_line (hblock : ∀ ss, n ≠ .block ss)
    (h : ∃ ts s, n.stmt.Regroup s ∧ Go.ReadsStmt ts s ∧
      ∀ k rest, A.Lexes ((env.lineAt k n).chars ++ rest) (ts ++ [.lineEnd]) rest) :
    ∃ ts s, (n.asBody n.stmt).Regroup s ∧ Go.ReadsBlock ts s ∧
      ∀ k rest, A.Lexes ((env.body (.level k) n).chars ++ rest) ts rest := by
  obtain ⟨ts, s, htree, hread, hlex⟩ := h
  have hwrapped : n.asBody n.stmt = .block [n.stmt] := by
    cases n with
    | block ss => exact absurd rfl (hblock ss)
    | _ => rfl
  have hbody : ∀ k, env.body (.level k) n = braces (.level k) (env.lineAt (k + 1) n) := by
    intro k
    cases n with
    | block ss => exact absurd rfl (hblock ss)
    | _ => rfl
  refine ⟨_, .block [s], ?_, Go.readsBlock_lines (.cons hread .nil), ?_⟩
  · rw [hwrapped]
    exact .block (.cons htree .nil)
  · intro k rest
    rw [hbody]
    have hbraces := Go.Alphabet.lexes_braces k (hlex (k + 1)) rest
    simpa only [List.flatMap_cons, List.flatMap_nil, List.append_nil] using hbraces

/-- What is no condition is written behind `else` as a block. -/
theorem branch_of_body (hif : ∀ c t e, n ≠ .ifElse c t e)
    (h : ∃ ts s, (n.asBody n.stmt).Regroup s ∧ Go.ReadsBlock ts s ∧
      ∀ k rest, A.Lexes ((env.body (.level k) n).chars ++ rest) ts rest) :
    ∃ ts s, (n.asBranch n.stmt).Regroup s ∧ Go.ReadsElse ts (some s) ∧
      ∀ k rest, A.Lexes ((env.elseDoc (.level k) (some n)).chars ++ rest) ts rest := by
  obtain ⟨ts, s, htree, hread, hlex⟩ := h
  have hbranch : n.asBranch n.stmt = n.asBody n.stmt := by
    cases n with
    | ifElse c t e => exact absurd rfl (hif c t e)
    | _ => rfl
  have helse : ∀ k, env.elseDoc (.level k) (some n) = Doc.str " else " ++ env.body (.level k) n := by
    intro k
    rw [elseDoc]
    · rfl
    · exact hif
  refine ⟨.keyword "else" :: ts, s, ?_, hread.branch, ?_⟩
  · rw [hbranch]
    exact htree
  · intro k rest
    rw [helse, Doc.chars_append, Doc.chars_str, List.append_assoc]
    exact .space rfl (.keyword (s := "else") rfl (by decide) (hlex k rest))

/-- A statement that is neither a block nor a condition. -/
theorem of_line (hblock : ∀ ss, n ≠ .block ss) (hif : ∀ c t e, n ≠ .ifElse c t e)
    (h : ∃ ts s, n.stmt.Regroup s ∧ Go.ReadsStmt ts s ∧
      ∀ k rest, A.Lexes ((env.lineAt k n).chars ++ rest) (ts ++ [.lineEnd]) rest) :
    env.Legible A n :=
  ⟨h, body_of_line hblock h, branch_of_body hif (body_of_line hblock h)⟩

/-- A statement that writes `core` between its tabs and its line end. -/
theorem of_core {ts : List Token} {s : Go.Stmt} (hblock : ∀ ss, n ≠ .block ss)
    (hif : ∀ c t e, n ≠ .ifElse c t e) (htree : n.stmt.Regroup s) (hread : Go.ReadsStmt ts s)
    (core : Nat → List Char)
    (hchars : ∀ k, (env.lineAt k n).chars = List.replicate k '\t' ++ core k ++ ['\n'])
    (hspells : ∀ k, A.Spells (core k) ts) : env.Legible A n := by
  refine of_line hblock hif ⟨ts, s, htree, hread, fun k rest => ?_⟩
  rw [hchars, List.append_assoc, List.singleton_append]
  exact (hspells k).line k rest

/-- An expression on its own. -/
theorem expr (h : n.IsExpr A) (hpanic : n.callsPanic = false) : env.Legible A n := by
  obtain ⟨t, htree, hread⟩ := h.readable.whole
  have hstatement : n.isStatement = false := by
    cases h <;> rfl
  have hstmt : n.stmt = .expr n.tree := by
    cases h <;> simp only [Node.stmt]
  have hcalled : t.calledName? ≠ some "panic" := by
    intro hname
    rw [← htree.names_eq.2] at hname
    rw [h.callsPanic_of_calledName? hname] at hpanic
    cases hpanic
  refine of_core ?_ ?_ ?_ hread.stmt (fun k => (env.node (.level k) n).chars) ?_ ?_
  · rintro ss rfl
    cases h
  · rintro c t e rfl
    cases h
  · rw [Go.exprStmt_eq hcalled, hstmt]
    exact .expr htree
  · intro k
    rw [lineAt, statementLine, hstatement]
    simp [Indent.tabs]
  · exact fun k => h.spells env (.level k)

/-- A call of `panic`. -/
theorem panic (h : n.IsExpr A) : env.Legible A (.panic n) := by
  obtain ⟨t, htree, hread⟩ := h.readable.whole
  have hcall : Go.Reads (.name "panic" :: .symbol ['('] :: (n.tokens ++ [.symbol [')']]))
      (.call (.name "panic") [t]) :=
    ((Go.readsPrimary_name "panic").call (.cons hread .nil)).unary.reads
  refine of_core (by simp) (by simp) ?_ hcall.stmt
    (fun k => "panic".toList ++ '(' :: ((env.node (.level k) n).chars ++ [')'])) ?_ ?_
  · rw [Node.stmt, Go.exprStmt_panic]
    exact .panic htree
  · intro k
    rw [lineAt_of_isStatement rfl, Env.node]
    simp only [Doc.chars_append, Doc.chars_tabs, Doc.chars_str, Doc.chars_endStatement_level,
      List.append_assoc, List.cons_append]
    rfl
  · intro k rest hrest
    have hword : A.SpellsOperand "panic".toList [.name "panic"] :=
      Go.Alphabet.spellsOperand_word rfl (by decide)
    have harg := (h.spells env (.level k)).bracketed (o := '(') (c := ')') (by decide) (by decide)
    rw [List.append_assoc]
    exact (hword _ (Go.Alphabet.endsNumber_cons A (by decide) _).endsWord).trans
      (harg rest hrest.endsWord)

/-- An assignment. -/
theorem set {m : Node} (hn : n.IsExpr A) (hm : m.IsExpr A) : env.Legible A (.set n m) := by
  obtain ⟨l, hltree, hlread⟩ := hn.readable.whole
  obtain ⟨r, hrtree, hrread⟩ := hm.readable.whole
  refine of_core (by simp) (by simp) (s := .assign [l] [r]) ?_
    (hlread.list.assignStmt hrread.list)
    (fun k => (env.node (.level k) n).chars ++ ' ' :: '=' :: ' ' :: (env.node (.level k) m).chars)
    ?_ ?_
  · rw [Node.stmt]
    exact .assign (.cons hltree .nil) (.cons hrtree .nil)
  · intro k
    rw [lineAt_of_isStatement rfl, Env.node]
    simp only [Doc.chars_append, Doc.chars_tabs, Doc.chars_str, Doc.chars_endStatement_level,
      List.append_assoc, List.cons_append]
    rfl
  · intro k rest hrest
    have hright := Go.Alphabet.lexes_assign (hm.spells env (.level k) rest hrest)
    rw [List.append_assoc]
    exact (hn.spells env (.level k) _ (Go.Alphabet.endsNumber_cons A (by decide) _)).trans hright

/-- A return. -/
theorem ret {value : Option Node} (h : ∀ v ∈ value, v.IsExpr A) : env.Legible A (.ret value) := by
  cases value with
  | none =>
    refine of_core (by simp) (by simp) ?_ Go.readsStmt_return (fun _ => "return".toList) ?_ ?_
    · rw [Node.stmt]
      exact .refl _
    · intro k
      rw [lineAt_of_isStatement rfl, Env.node]
      simp only [Doc.chars_append, Doc.chars_tabs, Doc.chars_str, Doc.chars_endStatement_level]
      rfl
    · intro k rest hrest
      exact Go.Alphabet.lexes_keyword rfl (by decide) hrest.endsWord (.refl A rest)
  | some v =>
    have hv := h v rfl
    obtain ⟨t, htree, hread⟩ := hv.readable.whole
    refine of_core (by simp) (by simp) ?_ hread.returned
      (fun k => "return".toList ++ ' ' :: (env.node (.level k) v).chars) ?_ ?_
    · rw [Node.stmt]
      exact .ret (.some htree)
    · intro k
      rw [lineAt_of_isStatement rfl, Env.node]
      simp only [Doc.chars_append, Doc.chars_tabs, Doc.chars_str, Doc.chars_space,
        Doc.chars_endStatement_level, List.append_assoc]
      rfl
    · intro k rest hrest
      rw [List.append_assoc]
      exact .keyword (s := "return") rfl (by decide) (hv.spells env (.level k) rest hrest)

/-- A loop with a condition only. -/
theorem forWhile {b : Node} (hn : n.IsExpr A) (hb : env.Legible A b) :
    env.Legible A (.forWhile n b) := by
  obtain ⟨c, hctree, hcread⟩ := hn.readable.whole
  obtain ⟨ts, s, hstree, hsread, hslex⟩ := hb.body
  refine of_core (by simp) (by simp) ?_ (Go.readsStmt_while hcread hsread)
    (fun k => "for".toList ++ ' ' :: ((env.node (.level k) n).chars ++
      ' ' :: (env.body (.level k) b).chars)) ?_ ?_
  · rw [Node.stmt]
    exact .forWhile hctree hstree
  · intro k
    rw [lineAt_of_isStatement rfl, Env.node]
    simp only [Doc.chars_append, Doc.chars_tabs, Doc.chars_str, Doc.chars_space,
      Doc.chars_endStatement_level, List.append_assoc, List.cons_append]
    rfl
  · intro k rest _
    have hcond := hn.spells env (.level k) (' ' :: ((env.body (.level k) b).chars ++ rest))
      (Go.Alphabet.endsNumber_cons A (by decide) _)
    rw [List.append_assoc, List.cons_append, List.append_assoc]
    exact .keyword (s := "for") rfl (by decide) (hcond.trans (.space rfl (hslex k rest)))

/-- A loop over a range. -/
theorem forRange {item : String} {b : Node} (hitem : A.isFreeName item) (hn : n.IsExpr A)
    (hb : env.Legible A b) : env.Legible A (.forRange item n b) := by
  obtain ⟨e, hetree, heread⟩ := hn.readable.whole
  obtain ⟨ts, s, hstree, hsread, hslex⟩ := hb.body
  have hfree : ∀ x ∈ ["_", item], A.isFreeName x := by
    simp only [List.forall_mem_cons]
    exact ⟨rfl, hitem, by simp⟩
  have hword : A.isWord item ∧ item ∉ Go.keywords := by
    rw [Go.Alphabet.isFreeName_iff, Go.Alphabet.isIdentifier_iff] at hitem
    exact hitem.1
  refine of_core (by simp) (by simp) ?_
    (Go.readsStmt_range (Go.readsList_names hfree) heread hsread)
    (fun k => "for".toList ++ ' ' :: '_' :: ',' :: ' ' :: (item.toList ++ ' ' :: ':' :: '=' :: ' ' ::
      ("range".toList ++ ' ' :: ((env.node (.level k) n).chars ++
        ' ' :: (env.body (.level k) b).chars)))) ?_ ?_
  · rw [Node.stmt]
    exact .forRange _ hetree hstree
  · intro k
    rw [lineAt_of_isStatement rfl, Env.node]
    simp only [Doc.chars_append, Doc.chars_tabs, Doc.chars_str, Doc.chars_space,
      Doc.chars_endStatement_level, List.append_assoc, List.cons_append]
    rfl
  · intro k rest _
    have hitems := hn.spells env (.level k) (' ' :: ((env.body (.level k) b).chars ++ rest))
      (Go.Alphabet.endsNumber_cons A (by decide) _)
    have hrange := Go.Alphabet.Lexes.keyword (s := "range") rfl (by decide)
      (hitems.trans (.space rfl (hslex k rest)))
    have hname := (Go.Alphabet.spellsOperand_word hword.1 hword.2 _
      (Go.Alphabet.endsNumber_cons A (by decide) _).endsWord).trans
      (Go.Alphabet.lexes_define hrange)
    simp only [List.append_assoc, List.cons_append]
    refine .keyword (s := "for") rfl (by decide) (.next rfl rfl ?_)
    exact Go.Alphabet.lexes_bracket A (by decide) (.space rfl hname)

/-- The lines of a block. -/
theorem lines {ss : List Node} (h : ∀ s ∈ ss, env.Legible A s) :
    ∃ tss ts, List.Forall₂ Go.Stmt.Regroup (Node.stmts ss) ts ∧ List.Forall₂ Go.ReadsStmt tss ts ∧
      ∀ k rest, A.Lexes ((env.statements (.level k) ss).chars ++ rest)
        (tss.flatMap (· ++ [.lineEnd])) rest := by
  induction ss with
  | nil =>
    refine ⟨[], [], ?_, .nil, fun k rest => ?_⟩
    · rw [Node.stmts]
      exact .nil
    · rw [statements]
      exact .refl A rest
  | cons s ss ih =>
    rw [List.forall_mem_cons] at h
    obtain ⟨ts, t, htree, hread, hlex⟩ := h.1.line
    obtain ⟨tss, ts', htrees, hreads, hlexs⟩ := ih h.2
    refine ⟨ts :: tss, t :: ts', ?_, .cons hread hreads, fun k rest => ?_⟩
    · rw [Node.stmts]
      exact .cons htree htrees
    · rw [statements, Doc.chars_append, List.append_assoc, List.flatMap_cons]
      exact (hlex k _).trans (hlexs k rest)

/-- A block. -/
theorem block {ss : List Node} (h : ∀ s ∈ ss, env.Legible A s) : env.Legible A (.block ss) := by
  have hbody : ∃ ts s, ((Node.block ss).asBody (Node.block ss).stmt).Regroup s ∧
      Go.ReadsBlock ts s ∧
      ∀ k rest, A.Lexes ((env.body (.level k) (.block ss)).chars ++ rest) ts rest := by
    obtain ⟨tss, ts, htrees, hreads, hlexs⟩ := lines h
    have htree : ((Node.block ss).asBody (Node.block ss).stmt).Regroup (.block ts) := by
      rw [Node.asBody, Node.stmt]
      exact .block htrees
    cases ss with
    | nil =>
      refine ⟨_, .block [], ?_, Go.readsBlock_empty, fun k rest => ?_⟩
      · rw [Node.asBody, Node.stmt, Node.stmts]
        exact .refl _
      · have hempty : (env.body (.level k) (.block [])).chars = ['\x7b', '\x7d'] := by
          rw [Env.body, bodyDoc, Env.node]
          rfl
        rw [hempty]
        exact Go.Alphabet.lexes_bracket A (by decide)
          (Go.Alphabet.lexes_bracket A (by decide) (.refl A rest))
    | cons s ss =>
      refine ⟨_, .block ts, htree, Go.readsBlock_lines hreads, fun k rest => ?_⟩
      have hlines : env.body (.level k) (.block (s :: ss)) =
          braces (.level k) (env.statements (.level (k + 1)) (s :: ss)) := by
        rw [Env.body, bodyDoc, Env.node, statements]
        rfl
      rw [hlines]
      exact Go.Alphabet.lexes_braces k (hlexs (k + 1)) rest
  refine ⟨?_, hbody, branch_of_body (by simp) hbody⟩
  obtain ⟨ts, s, htree, hread, hlex⟩ := hbody
  refine ⟨ts, s, htree, hread.stmt, fun k rest => ?_⟩
  have hline : (env.lineAt k (.block ss)).chars =
      List.replicate k '\t' ++ ((env.body (.level k) (.block ss)).chars ++ ['\n']) := by
    simp [lineAt, statementLine, Node.isStatement, Env.body, bodyDoc, Indent.tabs]
  rw [hline, List.append_assoc, List.append_assoc]
  exact .tabs k ((hlex k _).trans (Go.Alphabet.lexes_lineEnd (.refl A rest)))

/-- What stands behind a condition's block. -/
theorem elseBranch {b : Option Node} (h : ∀ m ∈ b, env.Legible A m) :
    ∃ ts s, Option.Rel Go.Stmt.Regroup (Node.branch b) s ∧ Go.ReadsElse ts s ∧
      ∀ k rest, A.Lexes ((env.elseDoc (.level k) b).chars ++ rest) ts rest := by
  cases b with
  | none =>
    refine ⟨[], none, ?_, Go.readsElse_none, fun k rest => ?_⟩
    · rw [Node.branch]
      exact .none
    · rw [elseDoc]
      exact .refl A rest
  | some m =>
    obtain ⟨ts, s, htree, hread, hlex⟩ := (h m rfl).branch
    refine ⟨ts, some s, ?_, hread, hlex⟩
    rw [Node.branch]
    exact .some htree

/-- A condition. -/
theorem ifElse {b : Node} {e : Option Node} (hn : n.IsExpr A) (hb : env.Legible A b)
    (he : ∀ m ∈ e, env.Legible A m) : env.Legible A (.ifElse n b e) := by
  obtain ⟨c, hctree, hcread⟩ := hn.readable.whole
  obtain ⟨us, s, hstree, hsread, hslex⟩ := hb.body
  obtain ⟨vs, f, hftree, hfread, hflex⟩ := elseBranch he
  have htree : (Node.ifElse n b e).stmt.Regroup (.ifElse c s f) := by
    rw [Node.stmt]
    exact .ifElse hctree hstree hftree
  have hread := Go.readsStmt_if hcread hsread hfread
  -- The text between tabs and line end is also what stands behind `else`.
  have hcore : ∀ k rest, A.Lexes ("if".toList ++ ' ' :: ((env.node (.level k) n).chars ++
      ' ' :: ((env.body (.level k) b).chars ++ ((env.elseDoc (.level k) e).chars ++ rest))))
      (.keyword "if" :: (n.tokens ++ (us ++ vs))) rest := by
    intro k rest
    have hcond := hn.spells env (.level k)
      (' ' :: ((env.body (.level k) b).chars ++ ((env.elseDoc (.level k) e).chars ++ rest)))
      (Go.Alphabet.endsNumber_cons A (by decide) _)
    have hblocks := (hslex k _).trans (hflex k rest)
    exact .keyword (s := "if") rfl (by decide) (hcond.trans (.space rfl hblocks))
  have hline : ∃ ts s, (Node.ifElse n b e).stmt.Regroup s ∧ Go.ReadsStmt ts s ∧
      ∀ k rest, A.Lexes ((env.lineAt k (.ifElse n b e)).chars ++ rest) (ts ++ [.lineEnd]) rest := by
    refine ⟨_, _, htree, hread, fun k rest => ?_⟩
    rw [lineAt_of_isStatement rfl, Env.node]
    simp only [Doc.chars_append, Doc.chars_tabs, Doc.chars_str, Doc.chars_space,
      Doc.chars_endStatement_level, List.append_assoc]
    exact .tabs k ((hcore k _).trans (Go.Alphabet.lexes_lineEnd (.refl A rest)))
  refine ⟨hline, body_of_line (by simp) hline, ⟨_, _, htree, hread.branch, fun k rest => ?_⟩⟩
  rw [elseDoc]
  simp only [Doc.chars_append, Doc.chars_str, Doc.chars_space, List.append_assoc]
  exact .space rfl (.keyword (s := "else") rfl (by decide) (hcore k rest))

/-! ### Loops with clauses -/

/-- The condition of a loop with clauses. -/
theorem condition {c : Option Node} (h : ∀ m ∈ c, m.IsExpr A) (env : Env) :
    ∃ ts e, Option.Rel Go.Expr.Regroup (c.map Node.tree) e ∧ Go.ReadsCondition ts e ∧
      ∀ i, A.Spells ((env.nodeOpt i c).getD []).chars ts := by
  cases c with
  | none =>
    refine ⟨[], none, .none, Go.readsCondition_none, fun i rest _ => ?_⟩
    rw [nodeOpt]
    exact .refl A rest
  | some m =>
    obtain ⟨t, htree, hread⟩ := (h m rfl).readable.whole
    refine ⟨m.tokens, some t, .some htree, hread.condition, fun i => ?_⟩
    rw [nodeOpt]
    exact (h m rfl).spells env i

/-- The step of a loop with clauses, as it is written behind the second semicolon. -/
def stepChars (env : Env) (i : Indent) (step : List LoopStep) : List Char :=
  if (env.stepLefts i step).isEmpty then []
  else ' ' :: ((Doc.commaSep (env.stepLefts i step)).chars ++
    ' ' :: '=' :: ' ' :: (Doc.commaSep (env.stepRights i step)).chars)

/-- What a loop with variables or steps writes between its keyword and its body. -/
theorem chars_classicClauses (env : Env) (i : Indent) (names : List String) {steps : List LoopStep}
    (h : (names.isEmpty && (env.stepLefts i steps).isEmpty) = false) (inits : List Doc)
    (cond : Option Doc) :
    (classicClauses names inits cond (env.stepLefts i steps) (env.stepRights i steps)).chars =
      (if names.isEmpty then []
        else (Doc.commaSep (names.map Doc.str)).chars ++
          ' ' :: ':' :: '=' :: ' ' :: (Doc.commaSep inits).chars) ++
      ';' :: ' ' :: ((cond.getD []).chars ++ ';' :: (stepChars env i steps ++ [' '])) := by
  unfold classicClauses stepChars
  rw [if_neg (by rw [h]; decide)]
  simp only [Doc.chars_append, apply_ite Doc.chars, Doc.chars_nil, Doc.chars_str, Doc.chars_space,
    List.append_assoc]
  rfl

/-- The step of a loop with clauses. -/
theorem step {steps : List LoopStep} (hl : ∀ s ∈ steps, s.left.IsExpr A)
    (hr : ∀ s ∈ steps, s.right.IsExpr A) (env : Env) :
    ∃ ts s, Option.Rel Go.Stmt.Regroup
        (if (Node.trees (steps.map LoopStep.left)).isEmpty then none
          else some (.assign (Node.trees (steps.map LoopStep.left))
            (Node.trees (steps.map LoopStep.right)))) s ∧
      Go.ReadsStep ts s ∧ ∀ i, A.Spells (stepChars env i steps) ts := by
  have hlefts : ∀ n ∈ steps.map LoopStep.left, n.IsExpr A := List.forall_mem_map.mpr hl
  have hrights : ∀ n ∈ steps.map LoopStep.right, n.IsExpr A := List.forall_mem_map.mpr hr
  unfold stepChars
  simp only [stepLefts_eq, stepRights_eq]
  cases steps with
  | nil =>
    refine ⟨[], none, .none, Go.readsStep_none, fun i rest _ => ?_⟩
    simp only [List.map_nil, nodes]
    exact .refl A rest
  | cons s steps =>
    rw [List.map_cons] at hlefts hrights
    obtain ⟨ls, hltrees, hlreads⟩ := Node.IsExpr.reads_nodes hlefts
    obtain ⟨rs, hrtrees, hrreads⟩ := Node.IsExpr.reads_nodes hrights
    refine ⟨_, some (.assign ls rs), .some (.assign hltrees hrtrees), hlreads.step hrreads, ?_⟩
    intro i rest hrest
    have hright := Node.IsExpr.spells_nodes hrights env i rest hrest
    have hleft := (Node.IsExpr.spells_nodes hlefts env i
      (' ' :: '=' :: ' ' :: ((Doc.commaSep (env.nodes i (s.right :: steps.map LoopStep.right))).chars
        ++ rest)) (Go.Alphabet.endsNumber_cons A (by decide) _)).trans
        (Go.Alphabet.lexes_assign hright)
    rw [if_neg (by rw [List.map_cons, nodes, List.isEmpty_cons]; decide), List.map_cons,
      List.map_cons, List.cons_append, List.append_assoc]
    exact .space rfl hleft

/-- What a loop with clauses writes from its condition on. -/
theorem lexes_clauses {ts us vs : List Token} {cond : Option Node} {steps : List LoopStep} {b : Node}
    {k : Nat} (hc : A.Spells ((env.nodeOpt (.level k) cond).getD []).chars ts)
    (hs : A.Spells (stepChars env (.level k) steps) us)
    (hb : ∀ rest, A.Lexes ((env.body (.level k) b).chars ++ rest) vs rest) (rest : List Char) :
    A.Lexes (((env.nodeOpt (.level k) cond).getD []).chars ++ ';' ::
        (stepChars env (.level k) steps ++ ' ' :: ((env.body (.level k) b).chars ++ rest)))
      (ts ++ .symbol [';'] :: (us ++ vs)) rest := by
  have hstep := (hs (' ' :: ((env.body (.level k) b).chars ++ rest))
    (Go.Alphabet.endsNumber_cons A (by decide) _)).trans (.space rfl (hb rest))
  exact (hc _ (Go.Alphabet.endsNumber_cons A (by decide) _)).trans
    (Go.Alphabet.lexes_bracket A (by decide) hstep)

/-- A loop with variables and clauses. -/
theorem forDefined {v : LoopVar} {init : List LoopVar} {cond : Option Node} {steps : List LoopStep}
    {b : Node} (hnames : ∀ w ∈ v :: init, A.isFreeName w.name)
    (hvalues : ∀ w ∈ v :: init, w.value.IsExpr A) (hcond : ∀ c ∈ cond, c.IsExpr A)
    (hlefts : ∀ s ∈ steps, s.left.IsExpr A) (hrights : ∀ s ∈ steps, s.right.IsExpr A)
    (hb : env.Legible A b) : env.Legible A (.forClassic (v :: init) cond steps b) := by
  obtain ⟨ts, c, hctree, hcread, hcspell⟩ := condition hcond env
  obtain ⟨us, s, hstree, hsread, hsspell⟩ := step hlefts hrights env
  obtain ⟨vs, t, hbtree, hbread, hblex⟩ := hb.body
  have hnames' : ∀ x ∈ v.name :: init.map LoopVar.name, A.isFreeName x := by
    rw [← List.map_cons, List.forall_mem_map]
    exact hnames
  have hvalues' : ∀ n ∈ v.value :: init.map LoopVar.value, n.IsExpr A := by
    rw [← List.map_cons, List.forall_mem_map]
    exact hvalues
  obtain ⟨es, hetrees, hereads⟩ := Node.IsExpr.reads_nodes hvalues'
  refine of_core (by simp) (by simp) ?_
    (Go.readsStmt_defined (Go.readsList_names hnames') hereads hcread hsread hbread)
    (fun k => "for".toList ++ ' ' :: ((Doc.commaSep
      ((v.name :: init.map LoopVar.name).map Doc.str)).chars ++ ' ' :: ':' :: '=' :: ' ' ::
      ((Doc.commaSep (env.nodes (.level k) (v.value :: init.map LoopVar.value))).chars ++
        ';' :: ' ' :: (((env.nodeOpt (.level k) cond).getD []).chars ++ ';' ::
          (stepChars env (.level k) steps ++ ' ' :: (env.body (.level k) b).chars))))) ?_ ?_
  · rw [Node.stmt, loopTree_eq rfl]
    exact .forClauses (.some (.define _ hetrees)) hctree hstree hbtree
  · intro k
    rw [lineAt_of_isStatement rfl, Env.node]
    simp only [Doc.chars_append, chars_classicClauses env (.level k) (v.name :: _) rfl,
      loopValues_eq, List.map_cons, List.isEmpty_cons, Bool.false_eq_true, if_false, Doc.chars_tabs,
      Doc.chars_str, Doc.chars_endStatement_level, List.append_assoc, List.cons_append]
    rfl
  · intro k rest _
    have htail := lexes_clauses (hcspell (.level k)) (hsspell (.level k)) (hblex k) rest
    have hvalue := (Node.IsExpr.spells_nodes hvalues' env (.level k) _
      (Go.Alphabet.endsNumber_cons A (by decide) _)).trans
      (Go.Alphabet.lexes_bracket A (c := ';') (by decide) (.space (c := ' ') rfl htail))
    have hname := (Go.Alphabet.spells_names hnames' _
      (Go.Alphabet.endsNumber_cons A (by decide) _)).trans (Go.Alphabet.lexes_define hvalue)
    simp only [List.append_assoc, List.cons_append]
    exact .keyword (s := "for") rfl (by decide) hname

/-- A loop with steps and no variables. -/
theorem forStepped {s : LoopStep} {steps : List LoopStep} {cond : Option Node} {b : Node}
    (hcond : ∀ c ∈ cond, c.IsExpr A) (hlefts : ∀ r ∈ s :: steps, r.left.IsExpr A)
    (hrights : ∀ r ∈ s :: steps, r.right.IsExpr A) (hb : env.Legible A b) :
    env.Legible A (.forClassic [] cond (s :: steps) b) := by
  obtain ⟨ts, c, hctree, hcread, hcspell⟩ := condition hcond env
  obtain ⟨us, u, hutree, huread, huspell⟩ := step hlefts hrights env
  obtain ⟨vs, t, hbtree, hbread, hblex⟩ := hb.body
  refine of_core (by simp) (by simp) ?_ (Go.readsStmt_clauses hcread huread hbread)
    (fun k => "for".toList ++ ' ' :: ';' :: ' ' :: (((env.nodeOpt (.level k) cond).getD []).chars ++
      ';' :: (stepChars env (.level k) (s :: steps) ++ ' ' :: (env.body (.level k) b).chars))) ?_ ?_
  · rw [Node.stmt, loopTree_eq rfl]
    exact .forClauses .none hctree hutree hbtree
  · intro k
    have hsteps : (env.stepLefts (.level k) (s :: steps)).isEmpty = false := by
      rw [stepLefts_eq, List.map_cons, nodes, List.isEmpty_cons]
    rw [lineAt_of_isStatement rfl, Env.node]
    simp only [Doc.chars_append, List.map_nil,
      chars_classicClauses env (.level k) [] hsteps, List.isEmpty_nil, if_true,
      Doc.chars_tabs, Doc.chars_str, Doc.chars_endStatement_level, List.nil_append,
      List.append_assoc, List.cons_append]
    rfl
  · intro k rest _
    have htail := lexes_clauses (hcspell (.level k)) (huspell (.level k)) (hblex k) rest
    simp only [List.append_assoc, List.cons_append]
    refine .keyword (s := "for") rfl (by decide) ?_
    exact Go.Alphabet.lexes_bracket A (by decide) (.space rfl htail)

/-- A loop without clauses. -/
theorem forever {b : Node} (hb : env.Legible A b) :
    env.Legible A (.forClassic [] none [] b) := by
  obtain ⟨ts, s, hstree, hsread, hslex⟩ := hb.body
  refine of_core (by simp) (by simp) ?_ (Go.readsStmt_forever hsread)
    (fun k => "for".toList ++ ' ' :: (env.body (.level k) b).chars) ?_ ?_
  · rw [Node.stmt]
    exact .forClauses .none .none .none hstree
  · intro k
    rw [lineAt_of_isStatement rfl, Env.node, stepLefts, stepRights, loopValues, nodeOpt]
    simp only [Doc.chars_append, Doc.chars_tabs, Doc.chars_str, Doc.chars_endStatement_level,
      List.append_assoc, List.cons_append]
    rfl
  · intro k rest _
    rw [List.append_assoc]
    exact .keyword (s := "for") rfl (by decide) (hslex k rest)

/-- A loop with a condition is read the same whichever kind of loop it is. -/
theorem forConditioned {b : Node} (hn : n.IsExpr A) (hb : env.Legible A b) :
    env.Legible A (.forClassic [] (some n) [] b) := by
  have hwhile : env.Legible A (.forWhile n b) := forWhile hn hb
  refine of_line (by simp) (by simp) ?_
  have hstmt : (Node.forClassic [] (some n) [] b).stmt = (Node.forWhile n b).stmt := by
    rw [Node.stmt, Node.stmt]
    rfl
  have hline : ∀ k, env.lineAt k (.forClassic [] (some n) [] b) = env.lineAt k (.forWhile n b) := by
    intro k
    have hclauses : ∀ d, classicClauses [] [] (some d) [] [] = d ++ Doc.space := fun d => rfl
    rw [lineAt_of_isStatement rfl, lineAt_of_isStatement rfl, Env.node, Env.node, stepLefts,
      stepRights, loopValues, nodeOpt, List.map_nil, hclauses]
    simp only [List.append_assoc]
  simp only [hstmt, hline]
  exact hwhile.line

/-- A loop with clauses. -/
theorem forClassic {init : List LoopVar} {cond : Option Node} {steps : List LoopStep} {b : Node}
    (hnames : ∀ v ∈ init, A.isFreeName v.name) (hvalues : ∀ v ∈ init, v.value.IsExpr A)
    (hcond : ∀ c ∈ cond, c.IsExpr A) (hlefts : ∀ s ∈ steps, s.left.IsExpr A)
    (hrights : ∀ s ∈ steps, s.right.IsExpr A) (hb : env.Legible A b) :
    env.Legible A (.forClassic init cond steps b) := by
  cases init with
  | cons v init => exact forDefined hnames hvalues hcond hlefts hrights hb
  | nil =>
    cases steps with
    | cons s steps => exact forStepped hcond hlefts hrights hb
    | nil =>
      cases cond with
      | none => exact forever hb
      | some c => exact forConditioned (hcond c rfl) hb

end Env.Legible

/-! ## Reading back -/

/-- A statement is read in each of its places. -/
theorem Node.IsStmt.legible {A : Alphabet} {n : Node} (h : n.IsStmt A) (env : Env) :
    env.Legible A n := by
  induction h with
  | expr h hpanic => exact .expr h hpanic
  | panic h => exact .panic h
  | set hl hr => exact .set hl hr
  | ret h => exact .ret h
  | block _ ih => exact .block ih
  | ifElse hc _ _ ih ihelse => exact .ifElse hc ih ihelse
  | forRange hitem hitems _ ih => exact .forRange hitem hitems ih
  | forClassic hnames hvalues hcond hlefts hrights _ ih =>
    exact .forClassic hnames hvalues hcond hlefts hrights ih
  | forWhile hc _ ih => exact .forWhile hc ih

/-- The line of a statement is read as its tree. -/
theorem Node.IsStmt.readStmt?_text {A : Alphabet} {n : Node} (h : n.IsStmt A) (env : Env) (k : Nat) :
    ∃ s, A.readStmt? (env.statements (.level k) [n]).text = some s ∧ n.stmt.Regroup s := by
  obtain ⟨ts, s, htree, hread, hlex⟩ := (h.legible env).line
  refine ⟨s, hread.readStmt? ?_, htree⟩
  have hline := hlex k []
  rw [List.append_nil] at hline
  rw [Doc.text, String.toList_ofList, Env.statements, Env.statements, List.append_nil]
  exact hline

/-- **Statements with one text are the same.**  Two statements that are written as the same lines of a
block, at any depth, differ at most in the grouping of chains of one associative operator, once every
branch and body is a block and a loop with a condition only is of one kind. -/
theorem Node.stmt_regroup_of_text_eq {A : Alphabet} {n m : Node} (hn : n.IsStmt A) (hm : m.IsStmt A)
    (env : Env) (k : Nat)
    (h : (env.statements (.level k) [n]).text = (env.statements (.level k) [m]).text) :
    n.stmt.Regroup m.stmt := by
  obtain ⟨s, hs, hns⟩ := hn.readStmt?_text env k
  obtain ⟨t, ht, hmt⟩ := hm.readStmt?_text env k
  rw [h, ht, Option.some.injEq] at hs
  subst hs
  exact hns.trans hmt.symm

/-- A chain of conditions that ends in a loop, with bodies that are no blocks. -/
def Node.looseChain : Node :=
  .ifElse (.op2 .add (.sym "a") (.op2 .add (.sym "b") (.litInt 1))) (.ret none)
    (some (.ifElse (.sym "c") (.block [])
      (some (.forClassic [] (some (.sym "d")) [] (.panic (.litInt (-1)))))))

/-- The same chain with every body a block, other groupings and another kind of loop. -/
def Node.tightChain : Node :=
  .ifElse (.op2 .add (.op2 .add (.sym "a") (.sym "b")) (.litInt 1)) (.block [.ret none])
    (some (.ifElse (.sym "c") (.block [])
      (some (.block [.forWhile (.sym "d") (.block [.panic (.op1 .neg (.litInt 1))])]))))

theorem Node.looseChain_regroup_tightChain :
    let A : Alphabet := ⟨fun _ => false, fun _ => false⟩
    let env : Env := ⟨.empty "main" "Main", .importTable, {}⟩
    looseChain.IsStmt A ∧ tightChain.IsStmt A ∧
      (env.statements (.level 1) [looseChain]).text = (env.statements (.level 1) [tightChain]).text ∧
      looseChain.stmt.Regroup tightChain.stmt := by
  intro A env
  have hsym : ∀ s ∈ ["a", "b", "c", "d"], (Node.sym s).IsExpr A := by
    simp only [List.forall_mem_cons]
    exact ⟨.sym (by decide), .sym (by decide), .sym (by decide), .sym (by decide), by simp⟩
  simp only [List.forall_mem_cons] at hsym
  obtain ⟨ha, hb, hc, hd, _⟩ := hsym
  have hloose : looseChain.IsStmt A := by
    refine .ifElse (.op2 .add ha (.op2 .add hb (.litInt 1))) (.ret (by simp)) ?_
    rintro _ ⟨⟩
    refine .ifElse hc (.block (by simp)) ?_
    rintro _ ⟨⟩
    refine .forClassic (by simp) (by simp) ?_ (by simp) (by simp) (.panic (.litInt (-1)))
    rintro _ ⟨⟩
    exact hd
  have htight : tightChain.IsStmt A := by
    refine .ifElse (.op2 .add (.op2 .add ha hb) (.litInt 1)) (.block ?_) ?_
    · simp only [List.forall_mem_singleton]
      exact .ret (by simp)
    rintro _ ⟨⟩
    refine .ifElse hc (.block (by simp)) ?_
    rintro _ ⟨⟩
    refine .block ?_
    simp only [List.forall_mem_singleton]
    refine .forWhile hd (.block ?_)
    simp only [List.forall_mem_singleton]
    exact .panic (.op1 .neg (.litInt 1))
  have htext : (env.statements (.level 1) [looseChain]).text =
      (env.statements (.level 1) [tightChain]).text := by decide +kernel
  exact ⟨hloose, htight, htext, stmt_regroup_of_text_eq hloose htight env 1 htext⟩

end GoScribe
