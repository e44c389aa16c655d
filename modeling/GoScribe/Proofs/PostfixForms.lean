import GoScribe.Proofs.ExprReadback

/-!
# The operands of postfix forms

Selectors, indices and type assertions stand behind their operand and bind tighter than every operator,
but their operand is written without parentheses.  Behind an operator they therefore take hold of the
operator's last operand alone: the negation of `a` with `.x` behind it and the negation of `a.x` are
both written `-a.x`.

Where no operator is the operand of such a form, the text determines the expression up to the grouping
of chains; as soon as a single operator is let in front of a single form, it does not.
-/

namespace GoScribe

open Go (Alphabet Token)

/-- The forms that stand behind their operand and bind tighter than every operator. -/
inductive PostfixForm where
  | selector
  | index
  | assertion
deriving DecidableEq, Repr

/-- A form of each kind behind an expression. -/
def PostfixForm.behind : PostfixForm → Node → Node
  | .selector, e => .dot e (.sym "x")
  | .index, e => .index e (.sym "x")
  | .assertion, e => .toType e (.named "T")

/-- The operators that are let stand in front of each postfix form. -/
structure PostfixOperands where
  unary : PostfixForm → UnaryOp → Bool
  binary : PostfixForm → BinaryOp → Bool

namespace PostfixOperands

/-- Every operator may stand in front of every form. -/
def any : PostfixOperands := ⟨fun _ _ => true, fun _ _ => true⟩

/-- The node may stand in front of the form. -/
def admits (P : PostfixOperands) (form : PostfixForm) : Node → Bool
  | .op1 op _ => P.unary form op
  | .op2 op _ _ => P.binary form op
  | _ => true

/-- No operator may stand in front of any form. -/
def ExcludesOperators (P : PostfixOperands) : Prop :=
  ∀ form, (∀ op, P.unary form op = false) ∧ ∀ op, P.binary form op = false

/-- What stands in front of a form is no operator if none may. -/
theorem ExcludesOperators.isOperator_eq_false {P : PostfixOperands} (hP : P.ExcludesOperators) {form : PostfixForm}
    {n : Node} (h : P.admits form n) : n.isOperator = false := by
  cases n with
  | op1 op =>
    rw [admits, (hP form).1 op] at h
    cases h
  | op2 op =>
    rw [admits, (hP form).2 op] at h
    cases h
  | _ => rfl

end PostfixOperands

/-- The symbol is written without a package. -/
def Symbol.isLocal (s : Symbol) : Bool := s.pkg.getD "" = ""

theorem Env.symbol_of_isLocal (env : Env) {s : Symbol} (h : s.isLocal) :
    env.symbol s = Doc.str s.name := by
  unfold Env.symbol
  simp only [Symbol.isLocal, decide_eq_true_eq] at h
  split
  · rfl
  · next pkg hpkg =>
    rw [hpkg, Option.getD_some] at h
    rw [if_pos h]

/-- The expressions over identifiers, `nil`, operators, calls and postfix forms.  A type assertion is to
a type of the module's own package.  In front of a postfix form stands any expression, but of the
operators only those that `P` lets in. -/
inductive Node.IsPostfixExpr (env : Env) (A : Alphabet) (P : PostfixOperands) : Node → Prop
  | sym {name : String} : A.isIdentifier name → name ≠ "nil" → IsPostfixExpr env A P (sym name)
  | nil : IsPostfixExpr env A P nil
  | op1 (op : UnaryOp) {operand : Node} :
      IsPostfixExpr env A P operand → IsPostfixExpr env A P (op1 op operand)
  | op2 (op : BinaryOp) {left right : Node} : IsPostfixExpr env A P left →
      IsPostfixExpr env A P right → IsPostfixExpr env A P (op2 op left right)
  | call {callee : Node} {args : List Node} : IsPostfixExpr env A P callee →
      (∀ a ∈ args, IsPostfixExpr env A P a) → IsPostfixExpr env A P (call callee args)
  | dot {left : Node} {name : String} : IsPostfixExpr env A P left → P.admits .selector left →
      A.isIdentifier name → IsPostfixExpr env A P (dot left (.sym name))
  | index {left right : Node} : IsPostfixExpr env A P left → P.admits .index left →
      IsPostfixExpr env A P right → IsPostfixExpr env A P (index left right)
  | toType {expr : Node} {typeName : String} {s : Symbol} : IsPostfixExpr env A P expr →
      P.admits .assertion expr → env.resolve typeName = some s → s.isLocal →
      A.isIdentifier s.name → IsPostfixExpr env A P (toType expr (.named typeName))

/-! ## Names as Go has them

An asserted type is known to Go by the name of its symbol, and the identifiers `true` and `false` are
known to it as constants. -/

/-- The node for an identifier of Go. -/
def Node.ofIdentifier (name : String) : Node :=
  if name = "true" then .litBool true else if name = "false" then .litBool false else .sym name

/-- The name of a type in Go. -/
def Env.goName (env : Env) (typeName : String) : String :=
  (env.resolve typeName).elim typeName Symbol.name

theorem Env.goName_eq {env : Env} {typeName : String} {s : Symbol}
    (h : env.resolve typeName = some s) : env.goName typeName = s.name := by
  rw [goName, h]
  rfl

mutual

/-- The expression with the names that Go knows. -/
def Env.named (env : Env) : Node → Node
  | .sym name => .ofIdentifier name
  | .nil => .nil
  | .op1 op operand => .op1 op (env.named operand)
  | .op2 op left right => .op2 op (env.named left) (env.named right)
  | .call callee args => .call (env.named callee) (env.namedAll args)
  | .dot left right => .dot (env.named left) right
  | .index left right => .index (env.named left) (env.named right)
  | .toType expr (.named typeName) => .toType (env.named expr) (.named (env.goName typeName))
  | n => n

/-- The expressions with the names that Go knows. -/
def Env.namedAll (env : Env) : List Node → List Node
  | [] => []
  | n :: ns => env.named n :: env.namedAll ns

end

theorem Env.mem_namedAll {env : Env} {m : Node} {ns : List Node} (h : m ∈ env.namedAll ns) :
    ∃ n ∈ ns, env.named n = m := by
  induction ns with
  | nil => cases h
  | cons n ns ih =>
    rw [namedAll, List.mem_cons] at h
    rcases h with rfl | h
    · exact ⟨n, List.mem_cons_self, rfl⟩
    · obtain ⟨k, hk, hkm⟩ := ih h
      exact ⟨k, List.mem_cons_of_mem n hk, hkm⟩

/-- The surroundings in which a type has the name it is written with. -/
def Env.plain : Env := ⟨.empty "main" "Main", fun _ typeName => some ⟨none, typeName⟩, {}⟩

theorem Env.type_plain (i : Indent) (typeName : String) :
    Env.plain.type i "" (.named typeName) = Doc.str typeName := by
  rw [Env.type]
  rfl

/-- An identifier other than `nil` is an expression. -/
theorem Node.isExpr_ofIdentifier {A : Alphabet} {name : String} (h : A.isIdentifier name)
    (hnil : name ≠ "nil") : (ofIdentifier name).IsExpr A := by
  unfold ofIdentifier
  split_ifs with htrue hfalse
  · exact .litBool true
  · exact .litBool false
  · have hconst : name ∉ Go.constantNames := by
      simp [Go.constantNames, hnil, htrue, hfalse]
    exact .sym (Go.Alphabet.isFreeName_iff.mpr ⟨h, hconst⟩)

theorem Env.node_ofIdentifier (env : Env) (i : Indent) (name : String) :
    env.node i (.ofIdentifier name) = Doc.str name := by
  unfold Node.ofIdentifier
  split_ifs with htrue hfalse
  · rw [htrue, Env.node]
    rfl
  · rw [hfalse, Env.node]
    rfl
  · rw [Env.node]

namespace Node.IsPostfixExpr

variable {env : Env} {A : Alphabet} {P : PostfixOperands} {n : Node}

/-- The names make no number of an expression, and no operator of anything else. -/
theorem kind_named (h : n.IsPostfixExpr env A P) :
    (env.named n).isNumeral = false ∧ (env.named n).isOperator = n.isOperator := by
  cases h with
  | @sym name _ _ =>
    rw [Env.named, ofIdentifier]
    split_ifs <;> exact ⟨rfl, rfl⟩
  | _ =>
    rw [Env.named]
    exact ⟨rfl, rfl⟩

/-- The names change no parentheses. -/
theorem needsParens_named (h : n.IsPostfixExpr env A P) (parent : Parent) :
    (env.named n).needsParens parent = n.needsParens parent := by
  cases h with
  | @sym name _ _ =>
    rw [Env.named, ofIdentifier]
    split_ifs <;> rfl
  | nil => rw [Env.named]
  | _ =>
    rw [Env.named]
    rfl

/-- The text is that of the expression with the names that Go knows. -/
theorem node_named (h : n.IsPostfixExpr env A P) (i : Indent) :
    Env.plain.node i (env.named n) = env.node i n := by
  induction h with
  | @sym name _ _ => rw [Env.named, Env.node_ofIdentifier, Env.node]
  | nil => rw [Env.named, Env.node, Env.node]
  | op1 op h ih => rw [Env.named, Env.node, Env.node, h.needsParens_named, ih]
  | op2 op hl hr ihl ihr =>
    rw [Env.named, Env.node, Env.node, hl.needsParens_named, hr.needsParens_named, ihl, ihr]
  | @call callee args h _ ih ihargs =>
    -- The hypothesis covers the arguments of the call, so the list shrinks below them.
    have hargs : ∀ as ⊆ args, Env.plain.nodes i (env.namedAll as) = env.nodes i as := by
      intro as has
      induction as with
      | nil => rw [Env.namedAll, Env.nodes, Env.nodes]
      | cons a as ih =>
        rw [List.cons_subset] at has
        rw [Env.namedAll, Env.nodes, Env.nodes, ihargs a has.1, ih has.2]
    rw [Env.named, Env.node, Env.node, h.needsParens_named, ih, hargs args (List.Subset.refl _)]
  | dot _ _ _ ih => rw [Env.named, Env.node, Env.node, ih, Env.node, Env.node]
  | index _ _ _ ihl ihr => rw [Env.named, Env.node, Env.node, ihl, ihr]
  | @toType expr typeName s _ _ hs hlocal _ ih =>
    have htype : env.type i "" (.named typeName) = Doc.str s.name := by
      rw [Env.type, Env.typeName, hs]
      exact env.symbol_of_isLocal hlocal
    rw [Env.named, Env.node, Env.node, ih, Env.goName_eq hs, Env.type_plain, htype]

end Node.IsPostfixExpr

/-! ## Reading back where no operator is an operand -/

/-- A type assertion. -/
theorem Env.Spelled.toType {A : Alphabet} {n : Node} {typeName : String} (h : Env.plain.Spelled A n)
    (hn : n.isNumeral = false) (hop : n.isOperator = false) (hname : A.isIdentifier typeName) :
    Env.plain.Spelled A (.toType n (.named typeName)) := by
  obtain ⟨hchars, htokens⟩ := operandChars_callee Env.plain hop
  obtain ⟨hword, hkey⟩ := Go.Alphabet.isIdentifier_iff.mp hname
  refine of_callee ('.' :: '(' :: (typeName.toList ++ [')'])) h hn ?_
    (by rw [htokens, Node.tokens]) ?_
  · rw [hchars, Env.node, Doc.chars_append, Doc.chars_append, Doc.chars_append, Env.type_plain,
      Doc.chars_str, Doc.chars_str, Doc.chars_str, List.append_assoc, List.append_assoc]
    rfl
  · intro rest hrest
    have hspell := (Go.Alphabet.spellsOperand_word hword hkey).spells
    have hparens := hspell.bracketed (o := '(') (c := ')') (by decide) (by decide) rest hrest
    refine ⟨?_, .next rfl rfl hparens⟩
    intro c hc
    rw [List.cons_append, List.head?_cons, Option.mem_some_iff] at hc
    subst hc
    rfl

/-- A type assertion. -/
theorem Node.Readable.toType {n : Node} (h : n.Readable) (hn : n.isNumeral = false)
    (hop : n.isOperator = false) (typeName : String) :
    (Node.toType n (.named typeName)).Readable := by
  obtain ⟨t, htree, hread⟩ := h.primary hn hop
  refine of_primary (t := .assert t typeName) ?_ ?_
  · rw [tree]
    exact .assert typeName htree
  · rw [tokens]
    exact hread.assert typeName

namespace Node.IsPostfixExpr

variable {env : Env} {A : Alphabet} {P : PostfixOperands} {n : Node}

/-- The operand of a postfix form keeps to itself. -/
theorem kind_operand (hP : P.ExcludesOperators) (h : n.IsPostfixExpr env A P) {form : PostfixForm}
    (hform : P.admits form n) :
    (env.named n).isNumeral = false ∧ (env.named n).isOperator = false := by
  obtain ⟨hnum, hop⟩ := h.kind_named
  exact ⟨hnum, hop.trans (hP.isOperator_eq_false hform)⟩

/-- The text of an expression is cut into its tokens, and the grammar reads them as its tree. -/
theorem spelled_readable (hP : P.ExcludesOperators) (h : n.IsPostfixExpr env A P) :
    Env.plain.Spelled A (env.named n) ∧ (env.named n).Readable := by
  induction h with
  | sym hname hnil =>
    have hexpr := isExpr_ofIdentifier hname hnil
    rw [Env.named]
    exact ⟨hexpr.spelled _, hexpr.readable⟩
  | nil =>
    have hexpr : IsExpr A .nil := .nil
    rw [Env.named]
    exact ⟨hexpr.spelled _, hexpr.readable⟩
  | op1 op _ ih =>
    rw [Env.named]
    exact ⟨ih.1.op1 op, ih.2.op1 op⟩
  | op2 op _ _ ihl ihr =>
    rw [Env.named]
    exact ⟨ihl.1.op2 ihr.1 op, ihl.2.op2 ihr.2 op⟩
  | @call callee args h _ ih ihargs =>
    have hargs : ∀ m ∈ env.namedAll args, Env.plain.Spelled A m ∧ m.Readable := by
      intro m hm
      obtain ⟨a, ha, rfl⟩ := Env.mem_namedAll hm
      exact ihargs a ha
    have hnum := h.kind_named.1
    rw [Env.named]
    exact ⟨ih.1.call hnum fun m hm => (hargs m hm).1, ih.2.call hnum fun m hm => (hargs m hm).2⟩
  | @dot left name h hform hname ih =>
    obtain ⟨hnum, hop⟩ := h.kind_operand hP hform
    rw [Env.named]
    exact ⟨ih.1.dot hnum hop hname, ih.2.dot hnum hop name⟩
  | index h hform _ ihl ihr =>
    obtain ⟨hnum, hop⟩ := h.kind_operand hP hform
    rw [Env.named]
    exact ⟨ihl.1.index hnum hop ihr.1, ihl.2.index hnum hop ihr.2⟩
  | @toType expr typeName s h hform hs _ hname ih =>
    obtain ⟨hnum, hop⟩ := h.kind_operand hP hform
    rw [Env.named, Env.goName_eq hs]
    exact ⟨ih.1.toType hnum hop hname, ih.2.toType hnum hop s.name⟩

/-- The text of an expression is read as its tree. -/
theorem readExpr?_text (hP : P.ExcludesOperators) (h : n.IsPostfixExpr env A P) :
    ∃ t, A.readExpr? (env.node .inline n).text = some t ∧ (env.named n).tree.Regroup t := by
  obtain ⟨hspelled, hreadable⟩ := h.spelled_readable hP
  obtain ⟨t, htree, hread⟩ := hreadable.whole
  have hlex := hspelled.spells [] (Go.Alphabet.endsNumber_nil A)
  rw [List.append_nil, h.node_named] at hlex
  refine ⟨t, hread.readExpr? ?_, htree⟩
  rwa [Doc.text, String.toList_ofList]

end Node.IsPostfixExpr

/-! ## Forms behind operators -/

/-- A postfix form writes its own text behind that of its operand. -/
theorem Env.node_behind (env : Env) (i : Indent) (form : PostfixForm) :
    ∃ d, ∀ e, env.node i (form.behind e) = env.node i e ++ d := by
  cases form with
  | selector =>
    refine ⟨Doc.str "." ++ Doc.str "x", fun e => ?_⟩
    rw [PostfixForm.behind, Env.node, Env.node, List.append_assoc]
  | index =>
    refine ⟨Doc.str "[" ++ (Doc.str "x" ++ Doc.str "]"), fun e => ?_⟩
    rw [PostfixForm.behind, Env.node, Env.node, List.append_assoc, List.append_assoc]
  | assertion =>
    refine ⟨Doc.str ".(" ++ (env.type i "" (.named "T") ++ Doc.str ")"), fun e => ?_⟩
    rw [PostfixForm.behind, Env.node, List.append_assoc, List.append_assoc]

/-- A postfix form is never put in parentheses. -/
theorem PostfixForm.needsParens_behind (form : PostfixForm) (e : Node) (parent : Parent) :
    (form.behind e).needsParens parent = false := by
  cases form <;> rfl

/-- Behind a unary operator a postfix form takes hold of the operand. -/
theorem Env.node_behind_op1 (env : Env) (i : Indent) (form : PostfixForm) {op : UnaryOp} {e : Node}
    (he : e.needsParens (.unary op) = false) :
    env.node i (form.behind (.op1 op e)) = env.node i (.op1 op (form.behind e)) := by
  obtain ⟨d, hd⟩ := env.node_behind i form
  rw [hd, Env.node, Env.node, he, form.needsParens_behind, hd]
  exact List.append_assoc ..

/-- Behind a binary operator a postfix form takes hold of the right operand. -/
theorem Env.node_behind_op2 (env : Env) (i : Indent) (form : PostfixForm) {op : BinaryOp}
    (l : Node) {r : Node} (hr : r.needsParens (.binary op) = false) :
    env.node i (form.behind (.op2 op l r)) = env.node i (.op2 op l (form.behind r)) := by
  obtain ⟨d, hd⟩ := env.node_behind i form
  rw [hd, Env.node, Env.node, hr, form.needsParens_behind, hd]
  exact List.append_assoc ..

/-- The tree has an operator on top. -/
def Go.Expr.isOperation : Go.Expr → Bool
  | .unary .. | .binary .. => true
  | _ => false

/-- Regrouping leaves an operator on top, and puts none there. -/
theorem Go.Expr.Regroup.isOperation_eq {t u : Go.Expr} (h : t.Regroup u) :
    t.isOperation = u.isOperation := by
  induction h with
  | symm _ ih => exact ih.symm
  | trans _ _ ih₁ ih₂ => exact ih₁.trans ih₂
  | _ => rfl

/-- A postfix form is not the same as anything with an operator on top. -/
theorem PostfixForm.not_regroup_behind (env : Env) (form : PostfixForm) (e : Node) {t : Go.Expr}
    (ht : t.isOperation) : ¬ (env.named (form.behind e)).tree.Regroup t := by
  intro h
  have htop : (env.named (form.behind e)).tree.isOperation = false := by
    cases form <;> (rw [PostfixForm.behind, Env.named, Node.tree]; rfl)
  rw [← h.isOperation_eq, htop] at ht
  cases ht

/-- An expression with a form behind it that admits it. -/
theorem Node.IsPostfixExpr.behind {A : Alphabet} {P : PostfixOperands} {e : Node}
    (h : e.IsPostfixExpr .plain A P) (form : PostfixForm) (hform : P.admits form e) :
    (form.behind e).IsPostfixExpr .plain A P := by
  have hx : A.isIdentifier "x" := rfl
  cases form with
  | selector => exact .dot h hform hx
  | index => exact .index h hform (.sym hx (by decide))
  | assertion => exact .toType h hform rfl rfl rfl

/-- **Texts tell expressions apart exactly if no operator is the operand of a postfix form.**  If no
form admits an operator, then expressions with one text differ at most in the grouping of chains of one
associative operator, whatever the surroundings.  If a form admits an operator, be it only one, then
two different expressions have one text. -/
theorem Node.text_determines_iff (A : Alphabet) (P : PostfixOperands) :
    (∀ (env : Env) (n m : Node), n.IsPostfixExpr env A P → m.IsPostfixExpr env A P →
        (env.node .inline n).text = (env.node .inline m).text →
        (env.named n).tree.Regroup (env.named m).tree) ↔ P.ExcludesOperators := by
  constructor
  · intro h form
    have ha : (Node.sym "a").IsPostfixExpr .plain A P := .sym rfl (by decide)
    have hb : (Node.sym "b").IsPostfixExpr .plain A P := .sym rfl (by decide)
    -- The form is put behind the operator once, and once behind the operator's last operand.
    refine ⟨fun op => ?_, fun op => ?_⟩
    · by_contra hop
      rw [Bool.not_eq_false] at hop
      have htext := congrArg Doc.text
        (Env.plain.node_behind_op1 .inline form (needsParens_eq_false (n := .sym "a") rfl rfl (.unary op)))
      have hsame := h .plain _ _ ((ha.op1 op).behind form hop) ((ha.behind form rfl).op1 op) htext
      refine form.not_regroup_behind .plain _ ?_ hsame
      rw [Env.named, tree]
      rfl
    · by_contra hop
      rw [Bool.not_eq_false] at hop
      have htext := congrArg Doc.text
        (Env.plain.node_behind_op2 .inline form (.sym "a")
          (needsParens_eq_false (n := .sym "b") rfl rfl (.binary op)))
      have hsame := h .plain _ _ ((ha.op2 op hb).behind form hop) (ha.op2 op (hb.behind form rfl)) htext
      refine form.not_regroup_behind .plain _ ?_ hsame
      rw [Env.named, tree]
      rfl
  · intro hP env n m hn hm htext
    obtain ⟨t, ht, hnt⟩ := hn.readExpr?_text hP
    obtain ⟨u, hu, hmu⟩ := hm.readExpr?_text hP
    rw [htext, hu, Option.some.injEq] at ht
    subst ht
    exact hnt.trans hmu.symm

/-- The negation of `a` with `.x` behind it, and the negation of `a.x`, are different expressions with
one text. -/
theorem Node.negation_selector_text :
    let env : Env := ⟨.empty "main" "Main", .importTable, {}⟩
    let A : Alphabet := ⟨fun _ => false, fun _ => false⟩
    let n := Node.dot (.op1 .neg (.sym "a")) (.sym "x")
    let m := Node.op1 .neg (.dot (.sym "a") (.sym "x"))
    n.IsPostfixExpr env A .any ∧ m.IsPostfixExpr env A .any ∧
      (env.node .inline n).text = "-a.x" ∧ (env.node .inline m).text = "-a.x" ∧
      ¬ (env.named n).tree.Regroup (env.named m).tree := by
  intro env A n m
  have ha : (Node.sym "a").IsPostfixExpr env A .any := .sym (by decide) (by decide)
  refine ⟨.dot (.op1 .neg ha) rfl (by decide), .op1 .neg (.dot ha rfl (by decide)), ?_, ?_, ?_⟩
  · decide +kernel
  · decide +kernel
  · intro h
    cases h.isOperation_eq

end GoScribe
