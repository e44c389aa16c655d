import GoScribe.Proofs.DocViews
import GoScribe.Proofs.GoExpr
import GoScribe.Render.GoFile

/-!
# Expressions can be read back

The text of an expression is read by Go's grammar as the tree that was rendered: the parentheses that
are written suffice, and no two tokens run together.  Two things are not kept apart.  A negative number
is a minus sign in front of its absolute value, and a chain of one associative operator is grouped to
the left however it was grouped before.

The proof goes through the tokens of an expression.  `Node.IsExpr.spelled` says that its text is cut
into these tokens, `Node.IsExpr.readable` what the grammar makes of them.
-/

namespace GoScribe

open Go (Alphabet Token)

/-! ## Expressions -/

namespace Node

/-- A number. -/
def isNumeral : Node → Bool
  | litInt _ | litNum _ => true
  | _ => false

/-- An operator with its operands. -/
def isOperator : Node → Bool
  | op1 .. | op2 .. => true
  | _ => false

/-- What is called is put in parentheses exactly if it is an operator. -/
theorem needsParens_callee (n : Node) : n.needsParens .callee = n.isOperator := by
  cases n <;> rfl

/-- Operators are put in parentheses behind a unary operator. -/
theorem needsParens_unary {n : Node} (h : n.isOperator) (op : UnaryOp) :
    n.needsParens (.unary op) := by
  cases n with
  | op1 | op2 => rfl
  | _ => cases h

/-- Nothing but numbers and operators is put in parentheses. -/
theorem needsParens_eq_false {n : Node} (hnum : n.isNumeral = false) (hop : n.isOperator = false)
    (parent : Parent) : n.needsParens parent = false := by
  cases n with
  | op1 | op2 => cases hop
  | litInt | litNum => cases hnum
  | _ => rfl

/-- The expressions over names, literals, operators, calls, selectors and indexing.  No number is
called, and what a selector or an index stands behind is neither a number nor an operator. -/
inductive IsExpr (A : Alphabet) : Node → Prop
  | sym {name : String} : A.isFreeName name → IsExpr A (sym name)
  | nil : IsExpr A nil
  | litBool (value : Bool) : IsExpr A (litBool value)
  | litInt (value : Int64) : IsExpr A (litInt value)
  | litStr (value : String) : IsExpr A (litStr value)
  | op1 (op : UnaryOp) {operand : Node} : IsExpr A operand → IsExpr A (op1 op operand)
  | op2 (op : BinaryOp) {left right : Node} :
      IsExpr A left → IsExpr A right → IsExpr A (op2 op left right)
  | call {callee : Node} {args : List Node} : IsExpr A callee → callee.isNumeral = false →
      (∀ a ∈ args, IsExpr A a) → IsExpr A (call callee args)
  | dot {left : Node} {name : String} : IsExpr A left → left.isNumeral = false →
      left.isOperator = false → A.isFreeName name → IsExpr A (dot left (.sym name))
  | index {left right : Node} : IsExpr A left → left.isNumeral = false →
      left.isOperator = false → IsExpr A right → IsExpr A (index left right)

mutual

/-- The tree that Go has for an expression. -/
def tree : Node → Go.Expr
  | .sym name => .name name
  | .nil => .nil
  | .litBool value => .bool value
  | .litInt value =>
    if value < 0 then .unary .neg (.int value.toInt.natAbs) else .int value.toInt.natAbs
  | .litStr value => .str value
  | .op1 op operand => .unary op operand.tree
  | .op2 op left right => .binary op left.tree right.tree
  | .call callee args => .call callee.tree (trees args)
  | .dot left (.sym name) => .select left.tree name
  | .index left right => .index left.tree right.tree
  | .toType expr (.named typeName) => .assert expr.tree typeName
  | _ => .name "_"

/-- The trees of several expressions. -/
def trees : List Node → List Go.Expr
  | [] => []
  | n :: ns => n.tree :: trees ns

end

/-! ## The tokens of an expression -/

/-- Tokens between parentheses, if `b` asks for them. -/
def enclosedTokens (b : Bool) (ts : List Token) : List Token :=
  if b then .symbol ['('] :: (ts ++ [.symbol [')']]) else ts

mutual

/-- The tokens of an expression. -/
def tokens : Node → List Token
  | .sym name => [.name name]
  | .nil => [.name "nil"]
  | .litBool value => [.name (if value then "true" else "false")]
  | .litInt value =>
    if value < 0 then [.symbol ['-'], .int value.toInt.natAbs] else [.int value.toInt.natAbs]
  | .litStr value => [.str value]
  | .op1 op operand =>
    .symbol op.symbol.toList :: enclosedTokens (operand.needsParens (.unary op)) operand.tokens
  | .op2 op left right =>
    enclosedTokens (left.needsParens (.binary op)) left.tokens ++
      .symbol op.symbol.toList :: enclosedTokens (right.needsParens (.binary op)) right.tokens
  | .call callee args =>
    enclosedTokens (callee.needsParens .callee) callee.tokens ++
      .symbol ['('] :: (Text.joinWith [.symbol [',']] (tokenLists args) ++ [.symbol [')']])
  | .dot left right => left.tokens ++ .symbol ['.'] :: right.tokens
  | .index left right => left.tokens ++ .symbol ['['] :: (right.tokens ++ [.symbol [']']])
  | .toType expr (.named typeName) =>
    expr.tokens ++ [.symbol ['.'], .symbol ['('], .name typeName, .symbol [')']]
  | _ => []

/-- The tokens of several expressions. -/
def tokenLists : List Node → List (List Token)
  | [] => []
  | n :: ns => n.tokens :: tokenLists ns

end

-- The equations of both are proved here, once for all the proofs below.
attribute [local simp] tree tokens

end Node

/-! ## The text is cut into the tokens -/

namespace Go.Alphabet

/-- The characters `cs` are the tokens `ts` wherever neither a name nor a number goes on. -/
def Spells (A : Alphabet) (cs : List Char) (ts : List Token) : Prop :=
  ∀ rest, A.EndsNumber rest → A.Lexes (cs ++ rest) ts rest

/-- The characters `cs` are the tokens `ts` wherever no name goes on. -/
def SpellsOperand (A : Alphabet) (cs : List Char) (ts : List Token) : Prop :=
  ∀ rest, A.EndsWord rest → A.Lexes (cs ++ rest) ts rest

theorem EndsNumber.endsWord {A : Alphabet} {rest : List Char} (h : A.EndsNumber rest) :
    A.EndsWord rest :=
  fun c hc => (h c hc).1

theorem SpellsOperand.spells {A : Alphabet} {cs : List Char} {ts : List Token}
    (h : A.SpellsOperand cs ts) : A.Spells cs ts :=
  fun rest hrest => h rest hrest.endsWord

/-- Brackets, separators and blanks go on neither a name nor a number. -/
theorem endsNumber_cons (A : Alphabet) {c : Char}
    (hc : c ∈ [' ', '\n', '(', ')', '[', ']', '\x7b', ',', ';']) (rest : List Char) :
    A.EndsNumber (c :: rest) := by
  intro d hd
  rw [List.head?_cons, Option.mem_some_iff] at hd
  subst hd
  simp only [List.mem_cons, List.not_mem_nil, or_false] at hc
  rcases hc with rfl | rfl | rfl | rfl | rfl | rfl | rfl | rfl | rfl <;> exact ⟨rfl, by decide⟩

/-- Names and numbers end at the end of the text. -/
theorem endsNumber_nil (A : Alphabet) : A.EndsNumber [] := by
  intro c hc
  cases hc

/-- What stands between brackets may be followed by anything. -/
theorem Spells.bracketed {A : Alphabet} {cs : List Char} {ts : List Token} (h : A.Spells cs ts)
    {o c : Char} (ho : o ∈ ['(', '[']) (hc : c ∈ [')', ']']) :
    A.SpellsOperand (o :: (cs ++ [c])) (.symbol [o] :: (ts ++ [.symbol [c]])) := by
  intro rest _
  have hclose : A.Lexes ([c] ++ rest) [.symbol [c]] rest :=
    lexes_bracket A (by grind) (.refl A rest)
  have hinner := h _ (endsNumber_cons A (c := c) (by grind) rest)
  rw [List.cons_append, List.append_assoc]
  exact lexes_bracket A (by grind) (hinner.trans hclose)

/-- Texts with commas between them. -/
theorem spells_joinWith {A : Alphabet} {css : List (List Char)} {tss : List (List Token)}
    (h : List.Forall₂ A.Spells css tss) :
    A.Spells (Text.joinWith [',', ' '] css) (Text.joinWith [.symbol [',']] tss) := by
  induction h with
  | nil => exact fun rest _ => .refl A rest
  | @cons cs ts css tss h hs ih =>
    cases hs with
    | nil => exact h
    | cons h' hs =>
      intro rest hrest
      rw [Text.joinWith, Text.joinWith, List.append_assoc, List.append_assoc, List.append_assoc]
      refine (h _ (endsNumber_cons A (by decide) _)).trans ?_
      exact lexes_bracket A (by decide) (.space rfl (ih rest hrest))

/-- A text on a line of its own. -/
theorem Spells.line {A : Alphabet} {cs : List Char} {ts : List Token} (h : A.Spells cs ts)
    (k : Nat) (rest : List Char) :
    A.Lexes (List.replicate k '\t' ++ cs ++ '\n' :: rest) (ts ++ [.lineEnd]) rest := by
  rw [List.append_assoc]
  refine Lexes.tabs k ((h _ (endsNumber_cons A (by decide) rest)).trans ?_)
  exact lexes_lineEnd (.refl A rest)

/-- A keyword with a blank behind it. -/
theorem Lexes.keyword {A : Alphabet} {s : String} (hs : A.isWord s) (hkey : s ∈ keywords)
    {cs rest : List Char} {ts : List Token} (h : A.Lexes cs ts rest) :
    A.Lexes (s.toList ++ ' ' :: cs) (.keyword s :: ts) rest :=
  lexes_keyword hs hkey (endsNumber_cons A (by decide) cs).endsWord (.space rfl h)

/-- A binary operator with the blanks around it. -/
theorem lexes_binaryOp (A : Alphabet) (op : BinaryOp) {cs rest : List Char} {ts : List Token}
    (h : A.Lexes cs ts rest) :
    A.Lexes ((" " ++ op.symbol ++ " ").toList ++ cs) (.symbol op.symbol.toList :: ts) rest := by
  cases op <;> exact .space rfl (.next rfl rfl (.space rfl h))

/-- The symbol of a unary operator is one character, which no operand behind it makes longer but for
a second minus sign. -/
theorem readSymbol_unaryOp (op : UnaryOp) {c : Char} (cs : List Char)
    (hc : c ∉ ['=', '+', '&', '^']) (hneg : op = .neg → c ≠ '-') :
    readSymbol (op.symbol.toList ++ c :: cs) = some (.symbol op.symbol.toList, c :: cs) := by
  simp only [List.mem_cons, List.not_mem_nil, or_false, not_or] at hc
  obtain ⟨heq, hplus, hand, hhat⟩ := hc
  have hne : ∀ d : Char, c ≠ d → (d == c) = false := fun d hd => beq_eq_false_iff_ne.mpr hd.symm
  cases op with
  | neg =>
    show readSymbol ('-' :: c :: cs) = some (.symbol ['-'], c :: cs)
    simp [readSymbol, symbols, List.find?, List.isPrefixOf, hne _ heq, hne _ (hneg rfl)]
  | not =>
    show readSymbol ('!' :: c :: cs) = some (.symbol ['!'], c :: cs)
    simp [readSymbol, symbols, List.find?, List.isPrefixOf, hne _ heq]
  | plus =>
    show readSymbol ('+' :: c :: cs) = some (.symbol ['+'], c :: cs)
    simp [readSymbol, symbols, List.find?, List.isPrefixOf, hne _ heq, hne _ hplus]
  | complement =>
    show readSymbol ('^' :: c :: cs) = some (.symbol ['^'], c :: cs)
    simp [readSymbol, symbols, List.find?, List.isPrefixOf, hne _ heq]
  | deref =>
    show readSymbol ('*' :: c :: cs) = some (.symbol ['*'], c :: cs)
    simp [readSymbol, symbols, List.find?, List.isPrefixOf, hne _ heq]
  | addressOf =>
    show readSymbol ('&' :: c :: cs) = some (.symbol ['&'], c :: cs)
    simp [readSymbol, symbols, List.find?, List.isPrefixOf, hne _ heq, hne _ hand, hne _ hhat]

/-- A unary operator in front of an operand. -/
theorem lexes_unaryOp (A : Alphabet) (op : UnaryOp) {c : Char} {cs rest : List Char}
    {ts : List Token} (hc : c ∉ ['=', '+', '&', '^']) (hneg : op = .neg → c ≠ '-')
    (h : A.Lexes (c :: cs) ts rest) :
    A.Lexes (op.symbol.toList ++ c :: cs) (.symbol op.symbol.toList :: ts) rest := by
  have hread := readSymbol_unaryOp op cs hc hneg
  cases op <;> exact .next rfl ((nextToken_symbol A (by decide)).trans hread) h

end Go.Alphabet

/-! ## Spelling an expression -/

/-- A word that no name goes on is an operand. -/
theorem Go.Alphabet.spellsOperand_word {A : Alphabet} {s : String} (hs : A.isWord s)
    (hkey : s ∉ Go.keywords) : A.SpellsOperand s.toList [.name s] := by
  intro rest hrest
  have h := lexes_word hs hrest
  rwa [Go.wordToken, if_neg hkey] at h

/-- A word starts with none of the characters that make an operator in front of it longer. -/
theorem Go.Alphabet.isWord_starts {A : Alphabet} {s : String} (hs : A.isWord s) :
    ∃ c cs, s.toList = c :: cs ∧ c ∉ ['=', '+', '&', '^'] ∧ c ≠ '-' := by
  unfold isWord at hs
  split at hs
  · cases hs
  · next c cs heq =>
    rw [Bool.and_eq_true] at hs
    have hne : ∀ d ∈ ['=', '+', '&', '^', '-'], c ≠ d := by
      intro d hd
      simp only [List.mem_cons, List.not_mem_nil, or_false] at hd
      rcases hd with rfl | rfl | rfl | rfl | rfl <;>
        exact ne_of_startsName hs.1 (by decide) (by decide)
    refine ⟨c, cs, heq, ?_, hne '-' (by decide)⟩
    intro hc
    exact hne c (by grind) rfl

/-- The text of an integer. -/
theorem toList_toString_int (i : Int) :
    (toString i).toList =
      if i < 0 then '-' :: Nat.toDigits 10 i.natAbs else Nat.toDigits 10 i.natAbs := by
  rw [Int.toString_eq_repr, Int.repr_eq_if]
  by_cases hi : i < 0
  · rw [if_pos hi, if_neg (by omega), String.toList_append, Nat.toList_repr,
      show (-i).toNat = i.natAbs by omega]
    rfl
  · rw [if_neg hi, if_pos (by omega), Nat.toList_repr, show i.toNat = i.natAbs by omega]

/-- A symbol in a package is its name behind the name of the package and a dot. -/
theorem Env.chars_symbol_some (env : Env) {p : String} (hp : p ≠ "") (name : String) :
    (env.symbol ⟨some p, name⟩).chars = p.toList ++ '.' :: name.toList := by
  simp only [Env.symbol, if_neg hp, Env.useOf, Doc.chars_append, Doc.chars_str]
  simp [Doc.chars, Piece.chars]

/-- The text of an operand, in parentheses where `parent` asks for them. -/
def Env.operandChars (env : Env) (parent : Parent) (n : Node) : List Char :=
  (Doc.enclose (n.needsParens parent) (env.node .inline n)).chars

/-- The tokens of an operand, in parentheses where `parent` asks for them. -/
def Node.operandTokens (parent : Parent) (n : Node) : List Token :=
  Node.enclosedTokens (n.needsParens parent) n.tokens

/-- How the text of a node is cut into tokens. -/
structure Env.Spelled (env : Env) (A : Alphabet) (n : Node) : Prop where
  spells : A.Spells (env.node .inline n).chars n.tokens
  operand : n.isNumeral = false → n.isOperator = false →
    A.SpellsOperand (env.node .inline n).chars n.tokens
  starts : n.isOperator = false → ∃ c cs, (env.node .inline n).chars = c :: cs ∧
    c ∉ ['=', '+', '&', '^'] ∧ (c = '-' → n.needsParens (.unary .neg))

namespace Env.Spelled

variable {env : Env} {A : Alphabet} {n : Node}

/-- An operand that no operator in front of it runs into. -/
theorem of_operand (h : A.SpellsOperand (env.node .inline n).chars n.tokens)
    (hstarts : ∃ c cs, (env.node .inline n).chars = c :: cs ∧ c ∉ ['=', '+', '&', '^'] ∧ c ≠ '-') :
    env.Spelled A n := by
  refine ⟨h.spells, fun _ _ => h, fun _ => ?_⟩
  obtain ⟨c, cs, hcs, hc, hminus⟩ := hstarts
  exact ⟨c, cs, hcs, hc, fun heq => absurd heq hminus⟩

/-- A word that is no keyword. -/
theorem of_word {s : String} (hchars : (env.node .inline n).chars = s.toList)
    (htokens : n.tokens = [.name s]) (hs : A.isWord s) (hkey : s ∉ Go.keywords) :
    env.Spelled A n := by
  apply of_operand
  · rw [hchars, htokens]
    exact Go.Alphabet.spellsOperand_word hs hkey
  · rw [hchars]
    exact Go.Alphabet.isWord_starts hs

/-- An operand in parentheses, or without them where it needs none. -/
theorem operandSpells (h : env.Spelled A n) (parent : Parent) :
    A.Spells (env.operandChars parent n) (n.operandTokens parent) := by
  unfold Env.operandChars Node.operandTokens Node.enclosedTokens
  rw [Doc.chars_enclose]
  split
  · exact (h.spells.bracketed (by decide) (by decide)).spells
  · exact h.spells

/-- What is called may be followed by anything that is not part of a name. -/
theorem calleeSpells (h : env.Spelled A n) (hn : n.isNumeral = false) :
    A.SpellsOperand (env.operandChars .callee n) (n.operandTokens .callee) := by
  unfold Env.operandChars Node.operandTokens Node.enclosedTokens
  rw [Doc.chars_enclose]
  split
  · exact h.spells.bracketed (by decide) (by decide)
  · next hparens =>
    rw [Node.needsParens_callee, Bool.not_eq_true] at hparens
    exact h.operand hn hparens

/-- A unary operator is kept apart from its operand. -/
theorem operandStarts (h : env.Spelled A n) (op : UnaryOp) :
    ∃ c cs, env.operandChars (.unary op) n = c :: cs ∧ c ∉ ['=', '+', '&', '^'] ∧
      (op = .neg → c ≠ '-') := by
  unfold Env.operandChars
  rw [Doc.chars_enclose]
  split
  · exact ⟨'(', _, rfl, by decide, fun _ => by decide⟩
  · next hparens =>
    have hop : n.isOperator = false := by
      by_contra hop
      rw [Bool.not_eq_false] at hop
      exact hparens (Node.needsParens_unary hop op)
    obtain ⟨c, cs, hcs, hc, hminus⟩ := h.starts hop
    refine ⟨c, cs, hcs, hc, ?_⟩
    rintro rfl hc'
    exact hparens (hminus hc')

/-- A number, with its sign. -/
theorem litInt (env : Env) (A : Alphabet) (value : Int64) : env.Spelled A (.litInt value) := by
  have hsign : value < 0 ↔ value.toInt < 0 := by rw [Int64.lt_iff_toInt_lt, Int64.toInt_zero]
  have hchars : (env.node .inline (.litInt value)).chars = (toString value.toInt).toList := by
    rw [Env.node, Doc.chars_str]
  obtain ⟨d, ds, hdigits⟩ : ∃ d ds, Nat.toDigits 10 value.toInt.natAbs = d :: ds :=
    List.exists_cons_of_ne_nil Nat.toDigits_ne_nil
  obtain ⟨hd, hminus⟩ : d ∉ ['=', '+', '&', '^'] ∧ d ≠ '-' := by
    have hd : d.isDigit := Go.Alphabet.isDigit_of_mem_toDigits (n := value.toInt.natAbs)
      (by rw [hdigits]; exact List.mem_cons_self)
    constructor
    · intro hmem
      simp only [List.mem_cons, List.not_mem_nil, or_false] at hmem
      rcases hmem with rfl | rfl | rfl | rfl <;> cases hd
    · rintro rfl
      cases hd
  rw [toList_toString_int] at hchars
  by_cases hneg : value < 0
  · rw [if_pos (hsign.mp hneg)] at hchars
    refine ⟨?_, fun hnum => (by cases hnum), fun _ => ⟨'-', _, hchars, by decide, fun _ => ?_⟩⟩
    · intro rest hrest
      have hint := Go.Alphabet.lexes_int (n := value.toInt.natAbs) hrest
      rw [hdigits] at hint
      rw [hchars, Node.tokens, if_pos hneg, hdigits]
      exact Go.Alphabet.lexes_unaryOp A .neg hd (fun _ => hminus) hint
    · simp [Node.needsParens, hneg]
  · rw [if_neg (fun h => hneg (hsign.mpr h))] at hchars
    refine ⟨?_, fun hnum => (by cases hnum), fun _ => ⟨d, ds, hchars.trans hdigits, hd, ?_⟩⟩
    · intro rest hrest
      rw [hchars, Node.tokens, if_neg hneg]
      exact Go.Alphabet.lexes_int hrest
    · exact fun heq => absurd heq hminus

/-- A unary operator. -/
theorem op1 (h : env.Spelled A n) (op : UnaryOp) : env.Spelled A (.op1 op n) := by
  have hchars : (env.node .inline (.op1 op n)).chars =
      op.symbol.toList ++ env.operandChars (.unary op) n := by
    rw [Env.node, Doc.chars_append, Doc.chars_str]
    rfl
  obtain ⟨c, cs, hcs, hc, hneg⟩ := h.operandStarts op
  refine ⟨?_, fun _ hop => (by cases hop), fun hop => (by cases hop)⟩
  intro rest hrest
  have hoperand := h.operandSpells (.unary op) rest hrest
  rw [hcs] at hoperand
  rw [hchars, hcs, List.append_assoc, Node.tokens]
  exact Go.Alphabet.lexes_unaryOp A op hc hneg hoperand

/-- A binary operator. -/
theorem op2 {m : Node} (hn : env.Spelled A n) (hm : env.Spelled A m) (op : BinaryOp) :
    env.Spelled A (.op2 op n m) := by
  have hchars : (env.node .inline (.op2 op n m)).chars =
      env.operandChars (.binary op) n ++
        ((" " ++ op.symbol ++ " ").toList ++ env.operandChars (.binary op) m) := by
    rw [Env.node, Doc.chars_append, Doc.chars_append, Doc.chars_str, List.append_assoc]
    rfl
  refine ⟨?_, fun _ hop => (by cases hop), fun hop => (by cases hop)⟩
  intro rest hrest
  have hright := Go.Alphabet.lexes_binaryOp A op (hm.operandSpells (.binary op) rest hrest)
  rw [hchars, List.append_assoc, List.append_assoc, Node.tokens]
  refine (hn.operandSpells (.binary op) _ ?_).trans hright
  rw [String.toList_append, String.toList_append]
  exact Go.Alphabet.endsNumber_cons A (by decide) _

/-- Arguments with commas between them. -/
theorem args {args : List Node} (h : ∀ a ∈ args, env.Spelled A a) :
    A.Spells (Doc.commaSep (env.nodes .inline args)).chars
      (Text.joinWith [.symbol [',']] (Node.tokenLists args)) := by
  rw [Doc.chars_commaSep]
  apply Go.Alphabet.spells_joinWith
  induction args with
  | nil => exact .nil
  | cons a args ih =>
    rw [Env.nodes, Node.tokenLists, List.map_cons]
    exact .cons (h a List.mem_cons_self).spells (ih fun b hb => h b (List.mem_cons_of_mem a hb))

/-- What is called starts with none of the characters that make an operator longer. -/
theorem calleeStarts (h : env.Spelled A n) (hn : n.isNumeral = false) :
    ∃ c cs, env.operandChars .callee n = c :: cs ∧ c ∉ ['=', '+', '&', '^'] ∧ c ≠ '-' := by
  unfold Env.operandChars
  rw [Doc.chars_enclose, Node.needsParens_callee]
  split
  · exact ⟨'(', _, rfl, by decide, by decide⟩
  · next hop =>
    rw [Bool.not_eq_true] at hop
    obtain ⟨c, cs, hcs, hc, hminus⟩ := h.starts hop
    refine ⟨c, cs, hcs, hc, fun heq => ?_⟩
    have := hminus heq
    rw [Node.needsParens_eq_false hn hop] at this
    cases this

/-- A node whose text starts with an operand that may be called. -/
theorem of_callee {m : Node} (cs : List Char) {ts : List Token} (h : env.Spelled A n)
    (hn : n.isNumeral = false)
    (hchars : (env.node .inline m).chars = env.operandChars .callee n ++ cs)
    (htokens : m.tokens = n.operandTokens .callee ++ ts)
    (hcs : ∀ rest, A.EndsWord rest → A.EndsWord (cs ++ rest) ∧ A.Lexes (cs ++ rest) ts rest) :
    env.Spelled A m := by
  apply of_operand
  · intro rest hrest
    obtain ⟨hend, hlex⟩ := hcs rest hrest
    rw [hchars, htokens, List.append_assoc]
    exact (h.calleeSpells hn _ hend).trans hlex
  · obtain ⟨c, ds, hds, hc, hminus⟩ := h.calleeStarts hn
    exact ⟨c, ds ++ cs, by rw [hchars, hds]; rfl, hc, hminus⟩

/-- A call. -/
theorem call {args : List Node} (h : env.Spelled A n) (hn : n.isNumeral = false)
    (hargs : ∀ a ∈ args, env.Spelled A a) : env.Spelled A (.call n args) := by
  refine of_callee ('(' :: ((Doc.commaSep (env.nodes .inline args)).chars ++ [')'])) h hn ?_
    (by rw [Node.tokens]; rfl) ?_
  · rw [Env.node, Doc.chars_append, Doc.chars_enclose true, if_pos rfl]
    rfl
  · intro rest hrest
    refine ⟨(Go.Alphabet.endsNumber_cons A (by decide) _).endsWord, ?_⟩
    exact (Spelled.args hargs).bracketed (by decide) (by decide) rest hrest

/-- The operand of a selector or an index stands without parentheses. -/
theorem operandChars_callee (env : Env) (hop : n.isOperator = false) :
    env.operandChars .callee n = (env.node .inline n).chars ∧ n.operandTokens .callee = n.tokens := by
  unfold Env.operandChars Node.operandTokens Node.enclosedTokens
  rw [Doc.chars_enclose, Node.needsParens_callee, hop]
  exact ⟨rfl, rfl⟩

/-- A selector. -/
theorem dot {name : String} (h : env.Spelled A n) (hn : n.isNumeral = false)
    (hop : n.isOperator = false) (hname : A.isIdentifier name) :
    env.Spelled A (.dot n (.sym name)) := by
  obtain ⟨hchars, htokens⟩ := operandChars_callee env hop
  obtain ⟨hword, hkey⟩ := Go.Alphabet.isIdentifier_iff.mp hname
  refine of_callee ('.' :: name.toList) h hn ?_ (by rw [htokens, Node.tokens, Node.tokens]) ?_
  · rw [hchars, Env.node, Doc.chars_append, Doc.chars_append, Env.node, Doc.chars_str, Doc.chars_str,
      List.append_assoc]
    rfl
  · intro rest hrest
    have hlex := Go.Alphabet.spellsOperand_word hword hkey rest hrest
    refine ⟨?_, Go.Alphabet.lexes_dot hword hlex⟩
    intro c hc
    rw [List.cons_append, List.head?_cons, Option.mem_some_iff] at hc
    subst hc
    rfl

/-- An index. -/
theorem index {m : Node} (h : env.Spelled A n) (hn : n.isNumeral = false)
    (hop : n.isOperator = false) (hm : env.Spelled A m) : env.Spelled A (.index n m) := by
  obtain ⟨hchars, htokens⟩ := operandChars_callee env hop
  refine of_callee ('[' :: ((env.node .inline m).chars ++ [']'])) h hn ?_
    (by rw [htokens, Node.tokens]) ?_
  · rw [hchars, Env.node, Doc.chars_append, Doc.chars_append, Doc.chars_append, Doc.chars_str,
      Doc.chars_str, List.append_assoc, List.append_assoc]
    rfl
  · intro rest hrest
    refine ⟨(Go.Alphabet.endsNumber_cons A (by decide) _).endsWord, ?_⟩
    exact hm.spells.bracketed (by decide) (by decide) rest hrest

end Env.Spelled

namespace Node

variable {A : Alphabet}

/-- The constants are words and no keywords. -/
theorem isWord_constant {s : String} (hs : s ∈ Go.constantNames) :
    A.isWord s ∧ s ∉ Go.keywords := by
  simp only [Go.constantNames, List.mem_cons, List.not_mem_nil, or_false] at hs
  rcases hs with rfl | rfl | rfl <;> exact ⟨rfl, by decide⟩

/-- The text of an expression is cut into its tokens. -/
theorem IsExpr.spelled {n : Node} (h : n.IsExpr A) (env : Env) : env.Spelled A n := by
  induction h with
  | sym hname =>
    rw [Go.Alphabet.isFreeName_iff, Go.Alphabet.isIdentifier_iff] at hname
    exact .of_word (by rw [Env.node, Doc.chars_str]) (by rw [tokens]) hname.1.1 hname.1.2
  | nil =>
    obtain ⟨hword, hkey⟩ := isWord_constant (A := A) (s := "nil") (by decide)
    exact .of_word (by rw [Env.node, Doc.chars_str]) (by rw [tokens]) hword hkey
  | litBool value =>
    obtain ⟨hword, hkey⟩ := isWord_constant (A := A) (s := if value then "true" else "false")
      (by cases value <;> decide)
    exact .of_word (by rw [Env.node, Doc.chars_str]) (by rw [tokens]) hword hkey
  | litInt value => exact .litInt env A value
  | litStr value =>
    have hchars : (env.node .inline (.litStr value)).chars = Text.quote value.toList := by
      rw [Env.node, Doc.chars_str, String.toList_ofList]
    apply Env.Spelled.of_operand
    · rw [hchars, tokens]
      exact fun rest _ => Go.Alphabet.lexes_quote A value rest
    · rw [hchars]
      exact ⟨'"', _, rfl, by decide, by decide⟩
  | op1 op _ ih => exact ih.op1 op
  | op2 op _ _ ihl ihr => exact ihl.op2 ihr op
  | call _ hnum _ ih ihargs => exact ih.call hnum ihargs
  | dot _ hnum hop hname ih =>
    exact ih.dot hnum hop (Go.Alphabet.isFreeName_iff.mp hname).1
  | index _ hnum hop _ ihl ihr => exact ihl.index hnum hop ihr

end Node

/-! ## The grammar of the tokens -/

/-- How the grammar reads the tokens of a node, as a whole and in each position of an operand.  What is
read differs from the node's tree at most in the grouping of chains. -/
structure Node.Readable (n : Node) : Prop where
  whole : ∃ t, n.tree.Regroup t ∧ Go.Reads n.tokens t
  unary : ∀ op, ∃ t, n.tree.Regroup t ∧ Go.ReadsUnary (n.operandTokens (.unary op)) t
  callee : n.isNumeral = false → ∃ t, n.tree.Regroup t ∧ Go.ReadsPrimary (n.operandTokens .callee) t
  first : ∀ op, ∃ t, n.tree.Regroup t ∧ Go.ReadsChain op (n.operandTokens (.binary op)) t
  later : ∀ op l, ∃ t, Go.Expr.Regroup (.binary op l n.tree) t ∧
    Go.ReadsLink op l (n.operandTokens (.binary op)) t

namespace Node.Readable

variable {n : Node} {t : Go.Expr}

/-- An operand of a unary operator is in parentheses or needs none. -/
theorem unary_enclosed (h : Go.ReadsUnary n.tokens t) (b : Bool) :
    Go.ReadsUnary (enclosedTokens b n.tokens) t := by
  unfold enclosedTokens
  split
  · exact h.reads.enclosed.unary
  · exact h

/-- A node without a binary operator on top. -/
theorem of_unary (htree : n.tree.Regroup t) (h : Go.ReadsUnary n.tokens t)
    (hcallee : n.isNumeral = false → Go.ReadsPrimary (n.operandTokens .callee) t) :
    n.Readable where
  whole := ⟨t, htree, h.reads⟩
  unary _ := ⟨t, htree, unary_enclosed h _⟩
  callee hnum := ⟨t, htree, hcallee hnum⟩
  first op := ⟨t, htree, (unary_enclosed h _).chain op⟩
  later op l := ⟨.binary op l t, .binary op (.refl l) htree, (unary_enclosed h _).link op l⟩

/-- A node that is an operand. -/
theorem of_primary (htree : n.tree.Regroup t) (h : Go.ReadsPrimary n.tokens t) : n.Readable := by
  refine of_unary htree h.unary fun _ => ?_
  unfold operandTokens enclosedTokens
  split
  · exact h.unary.reads.enclosed
  · exact h

/-- A number, with its sign. -/
theorem litInt (value : Int64) : (Node.litInt value).Readable := by
  by_cases hneg : value < 0
  · refine of_unary (.refl _) ?_ fun hnum => (by cases hnum)
    rw [tree, tokens, if_pos hneg, if_pos hneg]
    exact (Go.readsPrimary_int _).unary.prefixed .neg
  · refine of_primary (.refl _) ?_
    rw [tree, tokens, if_neg hneg, if_neg hneg]
    exact Go.readsPrimary_int _

/-- A unary operator. -/
theorem op1 (h : n.Readable) (op : UnaryOp) : (Node.op1 op n).Readable := by
  obtain ⟨t, htree, hread⟩ := h.unary op
  have hprefixed : Go.ReadsUnary (Node.op1 op n).tokens (.unary op t) := by
    rw [tokens]
    exact hread.prefixed op
  refine of_unary (by rw [tree]; exact .unary op htree) hprefixed fun _ => ?_
  exact hprefixed.reads.enclosed

/-- The operators that are chained without parentheses are those whose grouping does not matter. -/
theorem mem_chainOperators {op : BinaryOp} (h : op.isAssociative) : op ∈ Go.chainOperators := by
  cases op with
  | add | mul | and | bitAnd | or | bitOr => decide
  | _ => cases h

/-- A binary operator stands without parentheses only in a chain of its own. -/
theorem eq_of_not_needsParens {op op' : BinaryOp} {l r : Node}
    (h : ¬ (Node.op2 op l r).needsParens (.binary op') = true) :
    op' = op ∧ op ∈ Go.chainOperators := by
  simp only [needsParens, Bool.or_eq_true, decide_eq_true_eq, not_or, not_not, Bool.not_eq_true,
    Bool.not_eq_false'] at h
  exact ⟨h.1, mem_chainOperators h.2⟩

/-- A binary operator. -/
theorem op2 {m : Node} (hn : n.Readable) (hm : m.Readable) (op : BinaryOp) :
    (Node.op2 op n m).Readable := by
  -- the chain of the operator's own level, from the first operand on
  obtain ⟨t₁, htree₁, hfirst⟩ := hn.first op
  obtain ⟨t, htree₂, hlater⟩ := hm.later op t₁
  have htree : (Node.op2 op n m).tree.Regroup t := by
    rw [tree]
    exact (Go.Expr.Regroup.binary op htree₁ (.refl _)).trans htree₂
  have hchain : Go.ReadsChain op (Node.op2 op n m).tokens t := by
    rw [tokens]
    exact hfirst.append hlater
  have henclosed := hchain.reads.enclosed
  refine ⟨⟨t, htree, hchain.reads⟩, fun _ => ⟨t, htree, henclosed.unary⟩,
    fun _ => ⟨t, htree, henclosed⟩, fun op' => ?_, fun op' l => ?_⟩
  · unfold operandTokens enclosedTokens
    split
    · exact ⟨t, htree, henclosed.unary.chain op'⟩
    · next hparens =>
      obtain ⟨rfl, _⟩ := eq_of_not_needsParens hparens
      exact ⟨t, htree, hchain⟩
  · unfold operandTokens enclosedTokens
    split
    · exact ⟨_, .binary op' (.refl l) htree, henclosed.unary.link op' l⟩
    · next hparens =>
      obtain ⟨rfl, hassoc⟩ := eq_of_not_needsParens hparens
      -- the operands go on the chain one after the other
      obtain ⟨u₁, hu₁, hlink₁⟩ := hn.later op' l
      obtain ⟨u, hu, hlink₂⟩ := hm.later op' u₁
      refine ⟨u, ?_, ?_⟩
      · rw [tree]
        exact (Go.Expr.Regroup.assoc l n.tree m.tree hassoc).symm.trans
          ((Go.Expr.Regroup.binary op' hu₁ (.refl _)).trans hu)
      · rw [tokens]
        exact hlink₁.append hlink₂

/-- Arguments. -/
theorem args {args : List Node} (h : ∀ a ∈ args, a.Readable) :
    ∃ ts, List.Forall₂ Go.Expr.Regroup (trees args) ts ∧
      List.Forall₂ Go.Reads (tokenLists args) ts := by
  induction args with
  | nil => exact ⟨[], .nil, .nil⟩
  | cons a args ih =>
    obtain ⟨t, htree, hread⟩ := (h a List.mem_cons_self).whole
    obtain ⟨ts, htrees, hreads⟩ := ih fun b hb => h b (List.mem_cons_of_mem a hb)
    exact ⟨t :: ts, .cons htree htrees, .cons hread hreads⟩

/-- A call. -/
theorem call {args : List Node} (h : n.Readable) (hn : n.isNumeral = false)
    (hargs : ∀ a ∈ args, a.Readable) : (Node.call n args).Readable := by
  obtain ⟨t, htree, hread⟩ := h.callee hn
  obtain ⟨ts, htrees, hreads⟩ := Readable.args hargs
  refine of_primary (t := .call t ts) ?_ ?_
  · rw [tree]
    exact (Go.Expr.Regroup.callee _ htree).trans (Go.Expr.Regroup.args t htrees)
  · rw [tokens]
    exact hread.call hreads

/-- The operand of a selector or an index. -/
theorem primary (h : n.Readable) (hn : n.isNumeral = false) (hop : n.isOperator = false) :
    ∃ t, n.tree.Regroup t ∧ Go.ReadsPrimary n.tokens t := by
  obtain ⟨t, htree, hread⟩ := h.callee hn
  rw [operandTokens, needsParens_callee, hop] at hread
  exact ⟨t, htree, hread⟩

/-- A selector. -/
theorem dot (h : n.Readable) (hn : n.isNumeral = false) (hop : n.isOperator = false)
    (name : String) : (Node.dot n (.sym name)).Readable := by
  obtain ⟨t, htree, hread⟩ := h.primary hn hop
  refine of_primary (t := .select t name) ?_ ?_
  · rw [tree]
    exact .select name htree
  · rw [tokens, tokens]
    exact hread.select name

/-- An index. -/
theorem index {m : Node} (h : n.Readable) (hn : n.isNumeral = false) (hop : n.isOperator = false)
    (hm : m.Readable) : (Node.index n m).Readable := by
  obtain ⟨t, htree, hread⟩ := h.primary hn hop
  obtain ⟨u, hutree, huread⟩ := hm.whole
  refine of_primary (t := .index t u) ?_ ?_
  · rw [tree]
    exact .index htree hutree
  · rw [tokens]
    exact hread.index huread

end Node.Readable

/-- The grammar reads the tokens of an expression as its tree. -/
theorem Node.IsExpr.readable {A : Alphabet} {n : Node} (h : n.IsExpr A) : n.Readable := by
  induction h with
  | @sym name hname =>
    refine .of_primary (.refl _) ?_
    rw [tree, tokens, ← Go.nameExpr_of_isFreeName hname]
    exact Go.readsPrimary_name name
  | nil =>
    refine .of_primary (.refl _) ?_
    rw [tree, tokens]
    exact Go.readsPrimary_name "nil"
  | litBool value =>
    refine .of_primary (.refl _) ?_
    rw [tree, tokens]
    cases value with
    | true => exact Go.readsPrimary_name "true"
    | false => exact Go.readsPrimary_name "false"
  | litInt value => exact .litInt value
  | litStr value =>
    refine .of_primary (.refl _) ?_
    rw [tree, tokens]
    exact Go.readsPrimary_str value
  | op1 op _ ih => exact ih.op1 op
  | op2 op _ _ ihl ihr => exact ihl.op2 ihr op
  | call _ hnum _ ih ihargs => exact ih.call hnum ihargs
  | @dot _ name _ hnum hop _ ih => exact ih.dot hnum hop name
  | index _ hnum hop _ ihl ihr => exact ihl.index hnum hop ihr

/-! ## Reading back -/

/-- The rendering of several nodes is text if that of each is. -/
theorem Env.marks_nodes_eq_nil {env : Env} {i : Indent} {ns : List Node}
    (h : ∀ n ∈ ns, (env.node i n).marks = []) : (env.nodes i ns).flatMap Doc.marks = [] := by
  induction ns with
  | nil => rfl
  | cons n ns ih =>
    rw [Env.nodes, List.flatMap_cons, h n List.mem_cons_self,
      ih fun m hm => h m (List.mem_cons_of_mem n hm), List.append_nil]

/-- Rendering an expression writes text and does nothing else. -/
theorem Node.IsExpr.marks_eq_nil {A : Alphabet} {n : Node} (h : n.IsExpr A) (env : Env) (i : Indent) :
    (env.node i n).marks = [] := by
  induction h with
  | sym | nil | litBool | litInt | litStr => rw [Env.node, Doc.marks_str]
  | op1 op _ ih => simp [Env.node, ih]
  | op2 op _ _ ihl ihr => simp [Env.node, ihl, ihr]
  | call _ _ _ ih ihargs =>
    rw [Env.node, Doc.marks_append, Doc.marks_enclose, Doc.marks_enclose, ih, Doc.marks_commaSep,
      Env.marks_nodes_eq_nil ihargs, List.append_nil]
  | dot _ _ _ _ ih => simp [Env.node, ih]
  | index _ _ _ _ ihl ihr => simp [Env.node, ihl, ihr]

/-- **Expressions can be read back.**  In every context an expression is rendered without fail, and
Go's grammar reads the whole of its text as its tree, up to the grouping of chains of one associative
operator. -/
theorem Node.IsExpr.text_reads_back {A : Alphabet} {n : Node} (h : n.IsExpr A) (env : Env) :
    (env.node .inline n).refusal? = none ∧
      ∃ t, A.readExpr? (env.node .inline n).text = some t ∧ n.tree.Regroup t := by
  constructor
  · rw [← Doc.refusal?_marks, h.marks_eq_nil]
    rfl
  · obtain ⟨t, htree, hread⟩ := h.readable.whole
    refine ⟨t, hread.readExpr? ?_, htree⟩
    have hlex := (h.spelled env).spells [] (Go.Alphabet.endsNumber_nil A)
    rw [List.append_nil] at hlex
    rwa [Doc.text, String.toList_ofList]

/-- A sum that is grouped to the right, `a + (-(-5) + (*f)(s[0].x, "b"))`. -/
def Node.rightSum : Node :=
  .op2 .add (.sym "a")
    (.op2 .add (.op1 .neg (.litInt (-5)))
      (.call (.op1 .deref (.sym "f")) [.dot (.index (.sym "s") (.litInt 0)) (.sym "x"), .litStr "b"]))

theorem Node.rightSum_reads_back :
    Node.rightSum.IsExpr ⟨fun _ => false, fun _ => false⟩ ∧
      (Env.node ⟨.empty "main" "Main", .importTable, {}⟩ .inline rightSum).refusal? = none ∧
      ∃ t, Go.Alphabet.readExpr? ⟨fun _ => false, fun _ => false⟩
          (Env.node ⟨.empty "main" "Main", .importTable, {}⟩ .inline rightSum).text = some t ∧
        rightSum.tree.Regroup t := by
  have hselect : IsExpr ⟨fun _ => false, fun _ => false⟩
      (.dot (.index (.sym "s") (.litInt 0)) (.sym "x")) :=
    .dot (.index (.sym (by decide)) rfl rfl (.litInt 0)) rfl rfl (by decide)
  have hsum : IsExpr ⟨fun _ => false, fun _ => false⟩ rightSum := by
    refine .op2 _ (.sym (by decide)) (.op2 _ (.op1 _ (.litInt _)) ?_)
    refine .call (.op1 _ (.sym (by decide))) rfl ?_
    simp only [List.forall_mem_cons]
    exact ⟨hselect, .litStr _, by simp⟩
  exact ⟨hsum, hsum.text_reads_back _⟩

end GoScribe
