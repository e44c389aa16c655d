import GoScribe.Ast.Operator
import GoScribe.Proofs.GoTokens
import GoScribe.Text.Split
import Mathlib.Data.List.Forall2

/-!
# Expressions of Go

The part of Go's expression grammar that operators, calls, selectors, indexing and assertions of a
named type make up.  Selectors, calls, indexing and assertions bind tightest, then the prefix operators,
then the binary operators on five levels; operators of one level group to the left.

`Alphabet.readExpr?` reads a text as an expression and takes all of it.  `Expr.Regroup` relates the
trees that differ only in how chains of one associative operator are grouped.
-/

namespace GoScribe.Go

/-! ## Trees -/

/-- The tree of an expression.  Parentheses leave no trace in it, and numbers have no sign. -/
inductive Expr where
  | name (s : String)
  | nil
  | bool (b : Bool)
  | int (n : Nat)
  | str (s : String)
  | unary (op : UnaryOp) (e : Expr)
  | binary (op : BinaryOp) (l r : Expr)
  | call (callee : Expr) (args : List Expr)
  | select (e : Expr) (name : String)
  | index (e i : Expr)
  | assert (e : Expr) (typeName : String)

/-- The operators whose chains mean the same however they are grouped. -/
def chainOperators : List BinaryOp := [.add, .mul, .and, .bitAnd, .or, .bitOr]

/-- The trees that differ only in the grouping of chains of one operator. -/
inductive Expr.Regroup : Expr → Expr → Prop
  | refl (e : Expr) : Regroup e e
  | symm {e e' : Expr} : Regroup e e' → Regroup e' e
  | trans {e e' e'' : Expr} : Regroup e e' → Regroup e' e'' → Regroup e e''
  | assoc {op : BinaryOp} (a b c : Expr) : op ∈ chainOperators →
      Regroup (.binary op (.binary op a b) c) (.binary op a (.binary op b c))
  | unary {e e' : Expr} (op : UnaryOp) : Regroup e e' → Regroup (.unary op e) (.unary op e')
  | binary {l l' r r' : Expr} (op : BinaryOp) :
      Regroup l l' → Regroup r r' → Regroup (.binary op l r) (.binary op l' r')
  | callee {e e' : Expr} (args : List Expr) :
      Regroup e e' → Regroup (.call e args) (.call e' args)
  | arg {a a' : Expr} (e : Expr) (before after : List Expr) :
      Regroup a a' → Regroup (.call e (before ++ a :: after)) (.call e (before ++ a' :: after))
  | select {e e' : Expr} (name : String) : Regroup e e' → Regroup (.select e name) (.select e' name)
  | index {e e' i i' : Expr} :
      Regroup e e' → Regroup i i' → Regroup (.index e i) (.index e' i')
  | assert {e e' : Expr} (typeName : String) :
      Regroup e e' → Regroup (.assert e typeName) (.assert e' typeName)

/-! ## The grammar -/

/-- A reader of tokens, which gives what it read and the tokens behind it. -/
abbrev Parser (α : Type) := List Token → Option (α × List Token)

/-- The operator that a symbol is in front of its operand. -/
def unaryOp? : List Char → Option UnaryOp
  | ['!'] => some .not
  | ['-'] => some .neg
  | ['+'] => some .plus
  | ['^'] => some .complement
  | ['*'] => some .deref
  | ['&'] => some .addressOf
  | _ => none

/-- The operator that a symbol is between two operands. -/
def binaryOp? : List Char → Option BinaryOp
  | ['+'] => some .add
  | ['-'] => some .sub
  | ['*'] => some .mul
  | ['/'] => some .div
  | ['%'] => some .rem
  | ['&', '&'] => some .and
  | ['|', '|'] => some .or
  | ['&'] => some .bitAnd
  | ['|'] => some .bitOr
  | ['^'] => some .bitXor
  | ['&', '^'] => some .bitClear
  | ['<', '<'] => some .shl
  | ['>', '>'] => some .shr
  | ['=', '='] => some .eq
  | ['!', '='] => some .ne
  | ['<'] => some .lt
  | ['<', '='] => some .le
  | ['>'] => some .gt
  | ['>', '='] => some .ge
  | _ => none

/-- The level of a binary operator; a higher one binds tighter. -/
def level : BinaryOp → Nat
  | .mul | .div | .rem | .shl | .shr | .bitAnd | .bitClear => 5
  | .add | .sub | .bitOr | .bitXor => 4
  | .eq | .ne | .lt | .le | .gt | .ge => 3
  | .and => 2
  | .or => 1

/-- The constants that are written as names. -/
def constantNames : List String := ["nil", "true", "false"]

/-- A name that is neither a keyword nor a constant. -/
def Alphabet.isFreeName (A : Alphabet) (s : String) : Bool :=
  A.isWord s && s ∉ keywords && s ∉ constantNames

/-- A name that is no keyword. -/
def Alphabet.isIdentifier (A : Alphabet) (s : String) : Bool :=
  A.isWord s && s ∉ keywords

theorem Alphabet.isIdentifier_iff {A : Alphabet} {s : String} :
    A.isIdentifier s ↔ A.isWord s ∧ s ∉ keywords := by
  simp [isIdentifier]

theorem Alphabet.isFreeName_iff {A : Alphabet} {s : String} :
    A.isFreeName s ↔ A.isIdentifier s ∧ s ∉ constantNames := by
  simp [isFreeName, isIdentifier]

/-- A name, or one of the constants that are written as names. -/
def nameExpr (s : String) : Expr :=
  if s = "nil" then .nil
  else if s = "true" then .bool true
  else if s = "false" then .bool false
  else .name s

section

variable (inner : Parser Expr)

/-- An operand: a name, a literal or an expression in parentheses. -/
def operand : Parser Expr
  | .name s :: ts => some (nameExpr s, ts)
  | .int n :: ts => some (.int n, ts)
  | .str s :: ts => some (.str s, ts)
  | .symbol ['('] :: ts =>
    match inner ts with
    | some (e, .symbol [')'] :: rest) => some (e, rest)
    | _ => none
  | _ => none

/-- Arguments with commas between them, up to the closing parenthesis. -/
def arguments (ts : List Token) : Option (List Expr × List Token) :=
  match inner ts with
  | some (e, .symbol [')'] :: rest) => some ([e], rest)
  | some (e, .symbol [','] :: rest) =>
    if rest.length < ts.length then
      (arguments rest).map fun (es, rest) => (e :: es, rest)
    else none
  | _ => none
termination_by ts.length

/-- The arguments of a call whose opening parenthesis was read. -/
def callArguments : Parser (List Expr)
  | .symbol [')'] :: ts => some ([], ts)
  | ts => arguments inner ts

/-- The selectors, assertions, indices and calls behind the operand `e`. -/
def postfixes (e : Expr) (ts : List Token) : Option (Expr × List Token) :=
  match ts with
  | .symbol ['.'] :: .name s :: ts => postfixes (.select e s) ts
  | .symbol ['.'] :: .symbol ['('] :: .name s :: .symbol [')'] :: ts => postfixes (.assert e s) ts
  | .symbol ['['] :: ts =>
    match inner ts with
    | some (i, .symbol [']'] :: rest) =>
      if rest.length < ts.length then postfixes (.index e i) rest else none
    | _ => none
  | .symbol ['('] :: ts =>
    match callArguments inner ts with
    | some (args, rest) =>
      if rest.length < ts.length then postfixes (.call e args) rest else none
    | none => none
  | ts => some (e, ts)
termination_by ts.length

/-- Prefix operators in front of an operand with what stands behind it. -/
def unaryExpr : Parser Expr
  | .symbol cs :: ts =>
    match unaryOp? cs with
    | some op => (unaryExpr ts).map fun (e, rest) => (.unary op e, rest)
    | none => (operand inner (.symbol cs :: ts)).bind fun (e, rest) => postfixes inner e rest
  | ts => (operand inner ts).bind fun (e, rest) => postfixes inner e rest

end

/-- The operators of one level and their right operands behind the left operand `l`. -/
def chain (operand : Parser Expr) (lvl : Nat) (l : Expr) (ts : List Token) :
    Option (Expr × List Token) :=
  match ts with
  | .symbol cs :: ts =>
    match binaryOp? cs with
    | some op =>
      if level op = lvl then
        match operand ts with
        | some (r, rest) =>
          if rest.length ≤ ts.length then chain operand lvl (.binary op l r) rest else none
        | none => none
      else some (l, .symbol cs :: ts)
    | none => some (l, .symbol cs :: ts)
  | ts => some (l, ts)
termination_by ts.length
decreasing_by exact Nat.lt_succ_of_le ‹_›

/-- Expressions whose operators outside parentheses are on the `n` tightest levels. -/
def binaryExpr (inner : Parser Expr) : Nat → Parser Expr
  | 0, ts => unaryExpr inner ts
  | n + 1, ts =>
    (binaryExpr inner n ts).bind fun (l, rest) => chain (binaryExpr inner n) (5 - n) l rest

/-- Expressions with brackets at most `depth` deep. -/
def expression : Nat → Parser Expr
  | 0, _ => none
  | depth + 1, ts => binaryExpr (expression depth) 5 ts

/-- The expression that a text is.  There are no more brackets inside each other than tokens. -/
def Alphabet.readExpr? (A : Alphabet) (text : String) : Option Expr :=
  match A.tokens text.toList with
  | none => none
  | some ts =>
    match expression (ts.length + 1) ts with
    | some (e, []) => some e
    | _ => none

/-! ## Where an expression ends -/

/-- No selector, assertion, index or call stands in front of `rest`. -/
def EndsOperand (rest : List Token) : Prop :=
  ∀ c ∈ ['.', '[', '('], rest.head? ≠ some (.symbol [c])

/-- No binary operator of level `lvl` or tighter stands in front of `rest`. -/
def EndsLevel (lvl : Nat) (rest : List Token) : Prop :=
  ∀ cs op, rest.head? = some (.symbol cs) → binaryOp? cs = some op → level op < lvl

theorem one_le_level (op : BinaryOp) : 1 ≤ level op := by cases op <;> decide

theorem level_le_five (op : BinaryOp) : level op ≤ 5 := by cases op <;> decide

theorem EndsLevel.mono {lvl lvl' : Nat} {rest : List Token} (h : EndsLevel lvl rest)
    (hle : lvl ≤ lvl') : EndsLevel lvl' rest :=
  fun cs op hcs hop => Nat.lt_of_lt_of_le (h cs op hcs hop) hle

/-- An expression ends in front of a symbol that is neither an operator nor the start of a selector,
an assertion, an index or a call. -/
theorem ends_of_symbol (cs : List Char) (hcs : cs ∉ [['.'], ['['], ['(']])
    (hop : binaryOp? cs = none) (ts : List Token) :
    EndsOperand (.symbol cs :: ts) ∧ EndsLevel 1 (.symbol cs :: ts) := by
  constructor
  · intro d hd heq
    simp only [List.head?_cons, Option.some.injEq, Token.symbol.injEq] at heq
    subst heq
    simp only [List.mem_cons, List.not_mem_nil, or_false] at hd
    rcases hd with rfl | rfl | rfl <;> exact hcs (by decide)
  · intro ds op hds hop'
    simp only [List.head?_cons, Option.some.injEq, Token.symbol.injEq] at hds
    rw [← hds, hop] at hop'
    cases hop'

/-- An expression ends at the end of the text. -/
theorem ends_nil : EndsOperand [] ∧ EndsLevel 1 [] := by
  constructor
  · intro c _ h
    cases h
  · intro cs op h
    cases h

/-! ## Equations of the grammar -/

section

variable {inner : Parser Expr}

/-- An operand ends where no selector, assertion, index or call follows. -/
theorem postfixes_of_ends {e : Expr} {rest : List Token} (h : EndsOperand rest) :
    postfixes inner e rest = some (e, rest) := by
  unfold postfixes
  split
  · exact absurd rfl (h '.' (by decide))
  · exact absurd rfl (h '.' (by decide))
  · exact absurd rfl (h '[' (by decide))
  · exact absurd rfl (h '(' (by decide))
  · rfl

theorem postfixes_select (e : Expr) (s : String) (ts : List Token) :
    postfixes inner e (.symbol ['.'] :: .name s :: ts) = postfixes inner (.select e s) ts := by
  rw [postfixes]

theorem postfixes_assert (e : Expr) (s : String) (ts : List Token) :
    postfixes inner e (.symbol ['.'] :: .symbol ['('] :: .name s :: .symbol [')'] :: ts) =
      postfixes inner (.assert e s) ts := by
  rw [postfixes]

theorem postfixes_index {e i : Expr} {ts rest : List Token}
    (hi : inner ts = some (i, .symbol [']'] :: rest)) (hlen : rest.length < ts.length) :
    postfixes inner e (.symbol ['['] :: ts) = postfixes inner (.index e i) rest := by
  rw [postfixes, hi]
  exact if_pos hlen

theorem arguments_last {e : Expr} {ts rest : List Token}
    (he : inner ts = some (e, .symbol [')'] :: rest)) :
    arguments inner ts = some ([e], rest) := by
  rw [arguments, he]
  rfl

theorem arguments_more {e : Expr} {ts rest : List Token}
    (he : inner ts = some (e, .symbol [','] :: rest)) (hlen : rest.length < ts.length) :
    arguments inner ts = (arguments inner rest).map fun (es, rest) => (e :: es, rest) := by
  rw [arguments, he]
  exact if_pos hlen

theorem postfixes_call {e : Expr} {args : List Expr} {ts rest : List Token}
    (hargs : callArguments inner ts = some (args, rest)) (hlen : rest.length < ts.length) :
    postfixes inner e (.symbol ['('] :: ts) = postfixes inner (.call e args) rest := by
  rw [postfixes, hargs]
  exact if_pos hlen

theorem unaryExpr_prefix {cs : List Char} {op : UnaryOp} (hop : unaryOp? cs = some op)
    (ts : List Token) :
    unaryExpr inner (.symbol cs :: ts) =
      (unaryExpr inner ts).map fun (e, rest) => (.unary op e, rest) := by
  rw [unaryExpr, hop]

theorem unaryExpr_paren {e : Expr} {ts rest : List Token}
    (he : inner ts = some (e, .symbol [')'] :: rest)) :
    unaryExpr inner (.symbol ['('] :: ts) = postfixes inner e rest := by
  have hno : unaryOp? ['('] = none := rfl
  rw [unaryExpr, hno]
  simp only [operand, he, Option.bind_some]

theorem chain_of_ends {lvl : Nat} {e : Expr} {rest : List Token} (h : EndsLevel lvl rest) :
    chain inner lvl e rest = some (e, rest) := by
  unfold chain
  split
  · split
    · next hop =>
      rw [if_neg (Nat.ne_of_lt (h _ _ rfl hop))]
    · rfl
  · rfl

theorem chain_step {cs : List Char} {op : BinaryOp} (hop : binaryOp? cs = some op) {l r : Expr}
    {ts rest : List Token} (hr : inner ts = some (r, rest)) (hlen : rest.length ≤ ts.length) :
    chain inner (level op) l (.symbol cs :: ts) = chain inner (level op) (.binary op l r) rest := by
  rw [chain, hop]
  simp only [if_true, hr, if_pos hlen]

/-- The operators of a level are read behind the operand in front of them. -/
theorem binaryExpr_level (op : BinaryOp) (ts : List Token) :
    binaryExpr inner (6 - level op) ts =
      (binaryExpr inner (5 - level op) ts).bind fun (l, rest) =>
        chain (binaryExpr inner (5 - level op)) (level op) l rest := by
  have h₁ := one_le_level op
  have h₅ := level_le_five op
  rw [show 6 - level op = (5 - level op) + 1 by omega, binaryExpr,
    show 5 - (5 - level op) = level op by omega]

/-- What is read on a level is read on the looser levels that end there. -/
theorem binaryExpr_mono {e : Expr} {ts rest : List Token} {n m : Nat}
    (h : binaryExpr inner n ts = some (e, rest)) (hnm : n ≤ m) (hm : m ≤ 5)
    (hrest : EndsLevel (6 - m) rest) : binaryExpr inner m ts = some (e, rest) := by
  induction hnm with
  | refl => exact h
  | step hnm ih =>
    have htight := ih (by omega) (hrest.mono (by omega))
    rw [binaryExpr, htight, Option.bind_some]
    exact chain_of_ends (hrest.mono (by omega))

end

/-! ## Tokens that read as a tree

Five ways in which tokens `ts` read as a tree, from the tightest to the loosest.  Each says what the
grammar makes of `ts` in front of any `rest` that does not go on with them, when brackets may be as
deep as there are tokens. -/

/-- The tokens are an operand, and selectors, assertions, indices and calls may follow. -/
def ReadsPrimary (ts : List Token) (e : Expr) : Prop :=
  ∀ depth rest, ts.length ≤ depth →
    unaryExpr (expression depth) (ts ++ rest) = postfixes (expression depth) e rest

/-- The tokens are an operand of a binary operator. -/
def ReadsUnary (ts : List Token) (e : Expr) : Prop :=
  ∀ depth rest, ts.length ≤ depth → EndsOperand rest →
    unaryExpr (expression depth) (ts ++ rest) = some (e, rest)

/-- The tokens are a chain of operators of the level of `op`, and more of them may follow. -/
def ReadsChain (op : BinaryOp) (ts : List Token) (e : Expr) : Prop :=
  ∀ depth rest, ts.length ≤ depth → EndsOperand rest → EndsLevel (level op + 1) rest →
    binaryExpr (expression depth) (6 - level op) (ts ++ rest) =
      chain (binaryExpr (expression depth) (5 - level op)) (level op) e rest

/-- The tokens with `op` in front of them go on the chain that was read as `l` to one that is read as
`e`. -/
def ReadsLink (op : BinaryOp) (l : Expr) (ts : List Token) (e : Expr) : Prop :=
  ∀ depth rest, ts.length ≤ depth → EndsOperand rest → EndsLevel (level op + 1) rest →
    chain (binaryExpr (expression depth) (5 - level op)) (level op) l
        (.symbol op.symbol.toList :: (ts ++ rest)) =
      chain (binaryExpr (expression depth) (5 - level op)) (level op) e rest

/-- The tokens are a whole expression. -/
def Reads (ts : List Token) (e : Expr) : Prop :=
  ∀ depth rest, ts.length ≤ depth → EndsOperand rest → EndsLevel 1 rest →
    expression (depth + 1) (ts ++ rest) = some (e, rest)

/-- A binary operator is read from its text. -/
theorem binaryOp?_symbol (op : BinaryOp) : binaryOp? op.symbol.toList = some op := by
  cases op <;> rfl

/-- A unary operator is read from its text. -/
theorem unaryOp?_symbol (op : UnaryOp) : unaryOp? op.symbol.toList = some op := by
  cases op <;> rfl

/-- A binary operator ends its left operand and the operators on tighter levels. -/
theorem ends_of_binaryOp (op : BinaryOp) (ts : List Token) :
    EndsOperand (.symbol op.symbol.toList :: ts) ∧
      EndsLevel (level op + 1) (.symbol op.symbol.toList :: ts) := by
  constructor
  · intro c hc heq
    simp only [List.mem_cons, List.not_mem_nil, or_false] at hc
    simp only [List.head?_cons, Option.some.injEq, Token.symbol.injEq] at heq
    have hop := binaryOp?_symbol op
    rw [heq] at hop
    rcases hc with rfl | rfl | rfl <;> cases hop
  · intro cs op' hcs hop'
    simp only [List.head?_cons, Option.some.injEq, Token.symbol.injEq] at hcs
    rw [← hcs, binaryOp?_symbol, Option.some.injEq] at hop'
    rw [hop']
    exact Nat.lt_succ_self _

theorem ReadsPrimary.unary {ts : List Token} {e : Expr} (h : ReadsPrimary ts e) :
    ReadsUnary ts e := by
  intro depth rest hdepth hrest
  rw [h depth rest hdepth, postfixes_of_ends hrest]

/-- An operand is read whole on the levels that are tighter than `op`. -/
theorem ReadsUnary.tighter {ts : List Token} {e : Expr} (h : ReadsUnary ts e) {op : BinaryOp}
    {depth : Nat} {rest : List Token} (hdepth : ts.length ≤ depth) (hend : EndsOperand rest)
    (hlevel : EndsLevel (level op + 1) rest) :
    binaryExpr (expression depth) (5 - level op) (ts ++ rest) = some (e, rest) := by
  have h₅ := level_le_five op
  refine binaryExpr_mono (n := 0) (h depth rest hdepth hend) (by omega) (by omega) ?_
  exact hlevel.mono (by omega)

theorem ReadsUnary.chain {ts : List Token} {e : Expr} (h : ReadsUnary ts e) (op : BinaryOp) :
    ReadsChain op ts e := by
  intro depth rest hdepth hend hlevel
  rw [binaryExpr_level, h.tighter hdepth hend hlevel, Option.bind_some]

theorem ReadsUnary.link {ts : List Token} {e : Expr} (h : ReadsUnary ts e) (op : BinaryOp)
    (l : Expr) : ReadsLink op l ts (.binary op l e) := by
  intro depth rest hdepth hend hlevel
  exact chain_step (binaryOp?_symbol op) (h.tighter hdepth hend hlevel) (by simp)

/-- A chain goes on with a link. -/
theorem ReadsChain.append {op : BinaryOp} {ts us : List Token} {l e : Expr}
    (h : ReadsChain op ts l) (h' : ReadsLink op l us e) :
    ReadsChain op (ts ++ .symbol op.symbol.toList :: us) e := by
  intro depth rest hdepth hend hlevel
  rw [List.length_append, List.length_cons] at hdepth
  obtain ⟨hend', hlevel'⟩ := ends_of_binaryOp op (us ++ rest)
  rw [List.append_assoc, List.cons_append, h depth _ (by omega) hend' hlevel']
  exact h' depth rest (by omega) hend hlevel

/-- Two links in a row are a link. -/
theorem ReadsLink.append {op : BinaryOp} {ts us : List Token} {l m e : Expr}
    (h : ReadsLink op l ts m) (h' : ReadsLink op m us e) :
    ReadsLink op l (ts ++ .symbol op.symbol.toList :: us) e := by
  intro depth rest hdepth hend hlevel
  rw [List.length_append, List.length_cons] at hdepth
  obtain ⟨hend', hlevel'⟩ := ends_of_binaryOp op (us ++ rest)
  rw [List.append_assoc, List.cons_append, h depth _ (by omega) hend' hlevel']
  exact h' depth rest (by omega) hend hlevel

theorem ReadsChain.reads {op : BinaryOp} {ts : List Token} {e : Expr} (h : ReadsChain op ts e) :
    Reads ts e := by
  intro depth rest hdepth hend hlevel
  have h₁ := one_le_level op
  have hchain := h depth rest hdepth hend (hlevel.mono (by omega))
  rw [chain_of_ends (hlevel.mono h₁)] at hchain
  exact binaryExpr_mono hchain (by omega) (by omega) hlevel

theorem ReadsUnary.reads {ts : List Token} {e : Expr} (h : ReadsUnary ts e) : Reads ts e :=
  (h.chain .or).reads

/-! ## Building up readings -/

/-- A name, or one of the constants that are written as names. -/
theorem readsPrimary_name (s : String) : ReadsPrimary [.name s] (nameExpr s) :=
  fun _ _ _ => rfl

/-- A number. -/
theorem readsPrimary_int (n : Nat) : ReadsPrimary [.int n] (.int n) :=
  fun _ _ _ => rfl

/-- A string. -/
theorem readsPrimary_str (s : String) : ReadsPrimary [.str s] (.str s) :=
  fun _ _ _ => rfl

/-- A free name is no constant. -/
theorem nameExpr_of_isFreeName {A : Alphabet} {s : String} (h : A.isFreeName s) :
    nameExpr s = .name s := by
  simp only [Alphabet.isFreeName, constantNames, Bool.and_eq_true, decide_eq_true_eq,
    List.mem_cons, List.not_mem_nil, or_false, not_or] at h
  obtain ⟨_, hnil, htrue, hfalse⟩ := h
  rw [nameExpr, if_neg hnil, if_neg htrue, if_neg hfalse]

/-- An expression in parentheses is an operand. -/
theorem Reads.enclosed {ts : List Token} {e : Expr} (h : Reads ts e) :
    ReadsPrimary (.symbol ['('] :: (ts ++ [.symbol [')']])) e := by
  intro depth rest hdepth
  simp only [List.length_cons, List.length_append, List.length_nil] at hdepth
  obtain ⟨depth, rfl⟩ : ∃ d, depth = d + 1 := ⟨depth - 1, by omega⟩
  obtain ⟨hend, hlevel⟩ := ends_of_symbol [')'] (by decide) rfl rest
  rw [List.cons_append, List.append_assoc]
  exact unaryExpr_paren (h depth _ (by omega) hend hlevel)

/-- An operand of a prefix operator. -/
theorem ReadsUnary.prefixed {ts : List Token} {e : Expr} (h : ReadsUnary ts e) (op : UnaryOp) :
    ReadsUnary (.symbol op.symbol.toList :: ts) (.unary op e) := by
  intro depth rest hdepth hend
  rw [List.length_cons] at hdepth
  rw [List.cons_append, unaryExpr_prefix (unaryOp?_symbol op), h depth rest (by omega) hend]
  rfl

/-- A name behind a dot. -/
theorem ReadsPrimary.select {ts : List Token} {e : Expr} (h : ReadsPrimary ts e) (s : String) :
    ReadsPrimary (ts ++ [.symbol ['.'], .name s]) (.select e s) := by
  intro depth rest hdepth
  rw [List.length_append] at hdepth
  rw [List.append_assoc, h depth _ (by omega)]
  exact postfixes_select e s rest

/-- A named type in parentheses behind a dot. -/
theorem ReadsPrimary.assert {ts : List Token} {e : Expr} (h : ReadsPrimary ts e) (s : String) :
    ReadsPrimary (ts ++ [.symbol ['.'], .symbol ['('], .name s, .symbol [')']]) (.assert e s) := by
  intro depth rest hdepth
  rw [List.length_append] at hdepth
  rw [List.append_assoc, h depth _ (by omega)]
  exact postfixes_assert e s rest

/-- An index between brackets. -/
theorem ReadsPrimary.index {ts us : List Token} {e i : Expr} (h : ReadsPrimary ts e)
    (hi : Reads us i) :
    ReadsPrimary (ts ++ .symbol ['['] :: (us ++ [.symbol [']']])) (.index e i) := by
  intro depth rest hdepth
  simp only [List.length_cons, List.length_append, List.length_nil] at hdepth
  obtain ⟨depth, rfl⟩ : ∃ d, depth = d + 1 := ⟨depth - 1, by omega⟩
  obtain ⟨hend, hlevel⟩ := ends_of_symbol [']'] (by decide) rfl rest
  have hread := hi depth _ (by omega) hend hlevel
  rw [List.append_assoc, h _ _ (by omega), List.cons_append, List.append_assoc]
  exact postfixes_index hread (by simp only [List.length_append, List.length_cons]; omega)

/-- The tokens that an expression may start with. -/
def startsExpr : Token → Bool
  | .name _ | .int _ | .str _ => true
  | .symbol cs => (unaryOp? cs).isSome || cs = ['(']
  | _ => false

/-- No prefix operator and no operand starts with any other token. -/
theorem unaryExpr_eq_none {inner : Parser Expr} {t : Token} (h : startsExpr t = false)
    (ts : List Token) : unaryExpr inner (t :: ts) = none := by
  cases t with
  | name | int | str => cases h
  | keyword | lineEnd => rfl
  | symbol cs =>
    rw [startsExpr, Bool.or_eq_false_iff, Option.isSome_eq_false_iff, Option.isNone_iff_eq_none,
      decide_eq_false_iff_not] at h
    rw [unaryExpr, h.1]
    have hoperand : operand inner (.symbol cs :: ts) = none := by
      unfold operand
      split
      · next heq => cases heq
      · next heq => cases heq
      · next heq => cases heq
      · next heq =>
        cases heq
        exact absurd rfl h.2
      · rfl
    rw [hoperand]
    rfl

/-- No expression starts with any other token. -/
theorem expression_eq_none {t : Token} (h : startsExpr t = false) (depth : Nat) (ts : List Token) :
    expression depth (t :: ts) = none := by
  cases depth with
  | zero => rfl
  | succ depth =>
    have htight : ∀ n, binaryExpr (expression depth) n (t :: ts) = none := by
      intro n
      induction n with
      | zero => exact unaryExpr_eq_none h ts
      | succ n ih => rw [binaryExpr, ih, Option.bind_none]
    exact htight 5

/-- What is read as an expression has a first token, which an expression may start with. -/
theorem Reads.starts {ts : List Token} {e : Expr} (h : Reads ts e) :
    ∃ t us, ts = t :: us ∧ startsExpr t := by
  have hread := h ts.length [] (Nat.le_refl _) ends_nil.1 ends_nil.2
  cases ts with
  | nil => cases hread
  | cons t us =>
    refine ⟨t, us, rfl, ?_⟩
    by_contra hstart
    rw [Bool.not_eq_true] at hstart
    rw [List.cons_append, expression_eq_none hstart] at hread
    cases hread

/-- Arguments with commas between them. -/
theorem arguments_joinWith {ts : List Token} {tss : List (List Token)} {e : Expr} {es : List Expr}
    (h : Reads ts e) (hs : List.Forall₂ Reads tss es) (depth : Nat) (rest : List Token)
    (hdepth : (Text.joinWith [.symbol [',']] (ts :: tss)).length ≤ depth) :
    arguments (expression (depth + 1))
        (Text.joinWith [.symbol [',']] (ts :: tss) ++ .symbol [')'] :: rest) =
      some (e :: es, rest) := by
  induction hs generalizing ts e with
  | nil =>
    obtain ⟨hend, hlevel⟩ := ends_of_symbol [')'] (by decide) rfl rest
    rw [Text.joinWith] at hdepth ⊢
    exact arguments_last (h depth _ hdepth hend hlevel)
  | @cons us f uss fs h' _ ih =>
    rw [Text.joinWith, List.append_assoc, List.length_append, List.length_append] at hdepth
    have hlater := ih h' (by omega)
    rw [Text.joinWith, List.append_assoc, List.append_assoc]
    -- What comes behind the comma matters only through `hlater`.
    generalize Text.joinWith [.symbol [',']] (us :: uss) ++ .symbol [')'] :: rest = later at hlater ⊢
    obtain ⟨hend, hlevel⟩ := ends_of_symbol [','] (by decide) rfl later
    rw [List.singleton_append,
      arguments_more (h depth _ (by omega) hend hlevel)
        (by simp only [List.length_append, List.length_cons]; omega),
      hlater]
    rfl

/-- The arguments of a call, up to the closing parenthesis. -/
theorem callArguments_joinWith {tss : List (List Token)} {es : List Expr}
    (h : List.Forall₂ Reads tss es) (depth : Nat) (rest : List Token)
    (hdepth : (Text.joinWith [.symbol [',']] tss).length ≤ depth) :
    callArguments (expression (depth + 1))
        (Text.joinWith [.symbol [',']] tss ++ .symbol [')'] :: rest) = some (es, rest) := by
  cases h with
  | nil => rfl
  | cons h hs =>
    have hread := arguments_joinWith h hs depth rest hdepth
    unfold callArguments
    split
    -- A call without arguments is told by its first token, which no argument starts with.
    · next heq =>
      rw [heq, arguments, expression_eq_none rfl] at hread
      cases hread
    · exact hread

/-- A call. -/
theorem ReadsPrimary.call {ts : List Token} {tss : List (List Token)} {e : Expr} {es : List Expr}
    (h : ReadsPrimary ts e) (hs : List.Forall₂ Reads tss es) :
    ReadsPrimary (ts ++ .symbol ['('] :: (Text.joinWith [.symbol [',']] tss ++ [.symbol [')']]))
      (.call e es) := by
  intro depth rest hdepth
  simp only [List.length_cons, List.length_append, List.length_nil] at hdepth
  obtain ⟨depth, rfl⟩ : ∃ d, depth = d + 1 := ⟨depth - 1, by omega⟩
  have hargs := callArguments_joinWith hs depth rest (by omega)
  rw [List.append_assoc, h _ _ (by omega), List.cons_append, List.append_assoc]
  exact postfixes_call hargs (by simp only [List.length_append, List.length_cons]; omega)

/-- A text that is the tokens of a whole expression is read as that expression. -/
theorem Reads.readExpr? {A : Alphabet} {text : String} {ts : List Token} {e : Expr}
    (h : Reads ts e) (htext : A.Lexes text.toList ts []) : A.readExpr? text = some e := by
  have hread := h ts.length [] (Nat.le_refl _) ends_nil.1 ends_nil.2
  rw [List.append_nil] at hread
  simp only [Alphabet.readExpr?, htext.tokens_eq, hread]

/-! ## Lists with commas -/

section

variable {α : Type} {inner : Parser α}

/-- What `inner` reads, several times with commas between. -/
def commaList (inner : Parser α) (ts : List Token) : Option (List α × List Token) :=
  match inner ts with
  | some (a, .symbol [','] :: rest) =>
    if rest.length < ts.length then
      (commaList inner rest).map fun (as, rest) => (a :: as, rest)
    else none
  | some (a, rest) => some ([a], rest)
  | none => none
termination_by ts.length

theorem commaList_last {a : α} {t : Token} {ts rest : List Token}
    (ha : inner ts = some (a, t :: rest)) (ht : t ≠ .symbol [',']) :
    commaList inner ts = some ([a], t :: rest) := by
  rw [commaList, ha]
  split
  · next heq =>
    simp only [Option.some.injEq, Prod.mk.injEq, List.cons.injEq] at heq
    exact absurd heq.2.1 ht
  · next heq =>
    simp only [Option.some.injEq, Prod.mk.injEq] at heq
    rw [heq.1, heq.2]
  · next heq => cases heq

theorem commaList_more {a : α} {ts rest : List Token}
    (ha : inner ts = some (a, .symbol [','] :: rest)) (hlen : rest.length < ts.length) :
    commaList inner ts = (commaList inner rest).map fun (as, rest) => (a :: as, rest) := by
  rw [commaList, ha]
  exact if_pos hlen

/-- The tokens `ts` are read as `a` both in front of a comma and in front of `t`. -/
def ReadsItem (inner : Parser α) (t : Token) (ts : List Token) (a : α) : Prop :=
  ∀ u rest, u = .symbol [','] ∨ u = t → inner (ts ++ u :: rest) = some (a, u :: rest)

/-- Items with commas between them are read up to the token behind the last. -/
theorem commaList_joinWith {t : Token} (ht : t ≠ .symbol [',']) {ts : List Token}
    {tss : List (List Token)} {a : α} {as : List α} (h : ReadsItem inner t ts a)
    (hs : List.Forall₂ (ReadsItem inner t) tss as) (rest : List Token) :
    commaList inner (Text.joinWith [.symbol [',']] (ts :: tss) ++ t :: rest) =
      some (a :: as, t :: rest) := by
  induction hs generalizing ts a with
  | nil =>
    rw [Text.joinWith]
    exact commaList_last (h t rest (.inr rfl)) ht
  | @cons us b uss bs h' _ ih =>
    have hlater := ih h'
    rw [Text.joinWith, List.append_assoc, List.append_assoc]
    -- What comes behind the comma matters only through `hlater`.
    generalize Text.joinWith [.symbol [',']] (us :: uss) ++ t :: rest = later at hlater ⊢
    have hfirst := h (.symbol [',']) later (.inl rfl)
    rw [List.singleton_append,
      commaList_more hfirst (by simp only [List.length_append, List.length_cons]; omega), hlater]
    rfl

end

/-- An element is no longer than the whole list with its separators. -/
theorem length_le_joinWith {α : Type} (sep : List α) {x : List α} {xs : List (List α)} (h : x ∈ xs) :
    x.length ≤ (Text.joinWith sep xs).length := by
  induction xs using Text.joinWith.induct with
  | case1 => cases h
  | case2 y =>
    obtain rfl := List.mem_singleton.mp h
    exact Nat.le_refl _
  | case3 y z ys ih =>
    rw [Text.joinWith, List.length_append, List.length_append]
    rw [List.mem_cons] at h
    rcases h with rfl | h
    · omega
    · have := ih h
      omega

/-! ## Regrouping -/

/-- Regrouped arguments make a regrouped call. -/
theorem Expr.Regroup.args {es es' : List Expr} (e : Expr) (h : List.Forall₂ Regroup es es') :
    Regroup (.call e es) (.call e es') := by
  suffices ∀ before, Regroup (.call e (before ++ es)) (.call e (before ++ es')) from this []
  induction h with
  | nil => exact fun before => .refl _
  | @cons a b es es' hab _ ih =>
    intro before
    have htail := ih (before ++ [b])
    rw [List.append_assoc, List.append_assoc] at htail
    exact (Regroup.arg e before es hab).trans htail

end GoScribe.Go
