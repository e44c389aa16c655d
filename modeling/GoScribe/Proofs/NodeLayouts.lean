import GoScribe.Proofs.Layouts

/-!
# Layouts of nodes

`Env.layout_node` says that every node has a layout: a statement is whole lines, and any other node stands
inside a line.
-/

namespace GoScribe

/-! ## Parts of nodes -/

/-- Statements are whole lines, everything else stands inside a line. -/
def Node.placement (n : Node) : Placement :=
  if n.isStatement then .lines else .inside

/-- Where the layout may not be loose, the operands of a node are no statements. -/
theorem Position.Fits.operand {loose : Bool} {reserved : List Char} {n o : Node}
    (h : (Position.node n).Fits loose reserved) (ho : o ∈ n.operands) (hloose : loose = false) :
    o.isStatement = false := by
  have hall := h.sorted hloose
  rw [isSorted, List.all_eq_true] at hall
  simpa using hall o ho

/-- The digits of a double are digits. -/
theorem Double.isDigit_of_mem_shortest {d : Double} {c : Char} (hc : c ∈ d.shortest.digits) :
    c.isDigit := by
  unfold shortest at hc
  split at hc
  · rw [List.mem_singleton] at hc
    rw [hc]
    rfl
  · have hmem := (List.dropWhile_sublist _).mem (List.mem_reverse.mp hc)
    exact Go.Alphabet.isDigit_of_mem_toDigits (List.mem_reverse.mp hmem)

/-- A positional decimal is written with digits and a point. -/
theorem Decimal.avoids_positional {d : Decimal} (hd : ∀ c ∈ d.digits, c.isDigit) :
    Text.avoids Text.delimiters d.positional := by
  have hzeros : ∀ n, Text.avoids Text.delimiters (List.replicate n '0') := by
    intro n
    apply Text.avoids_of_isDigit
    intro c hc
    rw [List.eq_of_mem_replicate hc]
    rfl
  have hwhole : ∀ n, Text.avoids Text.delimiters (d.digits.take n) := fun n =>
    Text.avoids_of_isDigit fun c hc => hd c (List.mem_of_mem_take hc)
  have hfraction : ∀ n, Text.avoids Text.delimiters (d.digits.drop n) := fun n =>
    Text.avoids_of_isDigit fun c hc => hd c (List.mem_of_mem_drop hc)
  unfold positional
  split
  · refine Text.avoids_cons (by decide) (Text.avoids_cons (by decide) ?_)
    exact Text.avoids_append (hzeros _) (Text.avoids_of_isDigit hd)
  · dsimp only
    split
    · exact Text.avoids_append (hwhole _) (hzeros _)
    · exact Text.avoids_append (hwhole _) (Text.avoids_cons (by decide) (hfraction _))

/-- The literal of a double adds a fraction and a sign at most. -/
theorem Double.avoids_literal (d : Double) : Text.avoids Text.delimiters d.literal := by
  have hpositional := Decimal.avoids_positional fun c (hc : c ∈ d.shortest.digits) =>
    isDigit_of_mem_shortest hc
  have htext : Text.avoids Text.delimiters
      (if d.shortest.positional.contains '.' then d.shortest.positional
        else d.shortest.positional ++ ['.', '0']) := by
    split
    · exact hpositional
    · exact Text.avoids_append hpositional (by decide)
  unfold literal
  split
  · exact Text.avoids_cons (by decide) htext
  · exact htext

/-- What breaks the comment ends of a text apart is a blank. -/
theorem avoids_splitCommentEnds {reserved cs : List Char} (hblank : ' ' ∉ reserved)
    (hcs : Text.avoids reserved cs) : Text.avoids reserved (placeholder.splitCommentEnds cs) := by
  rw [Text.avoids_iff] at *
  induction cs using placeholder.splitCommentEnds.induct with
  | case1 cs ih =>
    rw [placeholder.splitCommentEnds]
    simp only [List.forall_mem_cons] at hcs ⊢
    exact ⟨hcs.1, hblank, hcs.2.1, ih hcs.2.2⟩
  | case2 c cs hno ih =>
    rw [placeholder.splitCommentEnds]
    · rw [List.forall_mem_cons] at hcs ⊢
      exact ⟨hcs.1, ih hcs.2⟩
    · exact hno
  | case3 => exact hcs

section

variable {loose : Bool} {reserved : List Char} (hreserved : reserved ⊆ Text.delimiters)

/-- An operand stands inside a line. -/
theorem TextLayout.operand {n : Node} {D : Indent → List Char}
    (h : TextLayout loose reserved n.placement D) (hn : loose = false → n.isStatement = false) :
    TextLayout loose reserved .inside D := by
  unfold Node.placement at h
  split at h
  · next hstatement =>
    cases loose with
    | true => exact .loosely rfl h
    | false => rw [hn rfl] at hstatement; cases hstatement
  · exact h

/-- A node as a line of a block. -/
theorem layout_statementLine {n : Node} {render : Indent → Doc}
    (h : TextLayout loose reserved n.placement fun i => (render i).chars) :
    TextLayout loose reserved .lines fun i => (statementLine i n (render i)).chars := by
  unfold Node.placement at h
  unfold statementLine
  split at h
  · next hstatement =>
    simp only [hstatement, if_true]
    exact h
  · next hstatement =>
    simp only [hstatement]
    refine (TextLayout.row h).of_eq fun i => ?_
    simp only [Bool.false_eq_true, if_false, Doc.chars_append, Doc.chars_newline, List.append_assoc]

/-- Lines between braces. -/
theorem layout_braces {lines : Indent → Doc}
    (h : TextLayout loose reserved .lines fun i => (lines i).chars) :
    TextLayout loose reserved .inside fun i => (braces i (lines i.deeper)).chars := by
  refine (TextLayout.block h).of_eq fun i => ?_
  simp only [braces, Doc.chars_append, Doc.chars_str, Doc.chars_newline, List.append_assoc]
  rfl

/-- A node where a block is wanted. -/
theorem layout_bodyDoc {n : Node} {render : Indent → Doc}
    (h : TextLayout loose reserved n.placement fun i => (render i).chars) :
    TextLayout loose reserved .inside fun i => (bodyDoc i n render).chars := by
  -- Any node but a block is put into one.
  have hother := layout_braces (layout_statementLine h)
  unfold bodyDoc
  split
  · exact h
  · exact hother

include hreserved

theorem layout_placeholder {kind detail : String} (hkind : Text.avoids reserved kind.toList)
    (hdetail : Text.avoids reserved detail.toList) :
    TextLayout loose reserved .inside fun _ => (placeholder kind detail).toList := by
  have hblank : ' ' ∉ reserved := fun h => absurd (hreserved h) (by decide)
  have hstars : Text.avoids reserved "****".toList := Text.avoids_mono hreserved (by decide)
  have hcolon : Text.avoids reserved ": ".toList := Text.avoids_mono hreserved (by decide)
  have hnote := Text.avoids_append hstars (Text.avoids_append hkind (Text.avoids_append hcolon
    (Text.avoids_append (avoids_splitCommentEnds hblank hdetail) hstars)))
  refine (TextLayout.comment hnote).of_eq fun _ => ?_
  simp only [placeholder, String.toList_append, String.toList_ofList, List.append_assoc]
  rfl

/-- The names that loop variables have. -/
theorem layout_names {names : List String} (h : ∀ s ∈ names, Text.avoids reserved s.toList) :
    TextLayout loose reserved .inside fun _ => (Doc.commaSep (names.map Doc.str)).chars := by
  refine TextLayout.commaSep hreserved ?_
  induction names with
  | nil => exact TextLayout.all_nil
  | cons s names ih =>
    rw [List.forall_mem_cons] at h
    refine TextLayout.all_cons ((TextLayout.text h.1).of_eq fun _ => ?_) (ih h.2)
    rw [Doc.chars_str]

/-- The names that a checked type assertion is bound to. -/
theorem layout_checkedNames {name : String} {ok : OkBinding}
    (hname : Text.avoids reserved name.toList) (hok : Text.avoids reserved ok.okName.toList) :
    TextLayout loose reserved .inside fun _ => (checkedNames name ok).chars := by
  have hfirst : TextLayout loose reserved .inside fun _ =>
      (if ok.valueUsed then name else "_").toList := by
    split
    · exact .text hname
    · exact .fixed hreserved "_" (by decide)
  refine (hfirst.append ((TextLayout.fixed hreserved ", " (by decide)).append (.text hok))).of_eq
    fun _ => ?_
  simp only [checkedNames, Doc.chars_append, Doc.chars_str, List.append_assoc]

end

/-- The two results of an assertion are bound to the names that were asked for. -/
theorem VarShape.local_eq_checked {type : GoType} {value : Option Node} {ok : Option OkBinding}
    {b : OkBinding} (h : VarShape.local type value ok = .checked b) : ok = some b := by
  unfold VarShape.local at h
  grind

namespace Env

variable {env : Env} {loose : Bool} {reserved : List Char}

theorem isSome_nodeOpt (i : Indent) (value : Option Node) :
    (env.nodeOpt i value).isSome = value.isSome := by
  cases value <;> rfl

section

variable (hreserved : reserved ⊆ Text.delimiters)

include hreserved

theorem layout_number (d : Double) :
    TextLayout loose reserved .inside fun _ => (env.number d).chars := by
  unfold number
  split
  · refine (TextLayout.text (Text.avoids_mono hreserved d.avoids_literal)).of_eq fun _ => ?_
    rw [Doc.chars_str, String.toList_ofList]
  · -- A call of a function of the package `math` with at most a number as its argument.
    have hcall : ∀ name arg : String, Text.avoids Text.delimiters name.toList →
        Text.avoids Text.delimiters arg.toList → TextLayout loose reserved .inside fun _ =>
          "math.".toList ++ (name.toList ++ '(' :: (arg.toList ++ [')'])) := by
      intro name arg hname harg
      exact (TextLayout.fixed hreserved "math." (by decide)).append ((TextLayout.fixed hreserved name
        hname).append (.parenthesized (.fixed hreserved arg harg)))
    split
    · exact hcall "NaN" "" (by decide) (by decide)
    · split
      · exact hcall "Inf" "-1" (by decide) (by decide)
      · exact hcall "Inf" "1" (by decide) (by decide)

theorem layout_classicClauses {init : List LoopVar} {cond : Option Node} {step : List LoopStep}
    (hnames : ∀ s ∈ init.map LoopVar.name, Text.avoids reserved s.toList)
    (hinits : TextLayout.All loose reserved fun i => env.loopValues i init)
    (hcond : TextLayout loose reserved .inside fun i => ((env.nodeOpt i cond).getD []).chars)
    (hlefts : TextLayout.All loose reserved fun i => env.stepLefts i step)
    (hrights : TextLayout.All loose reserved fun i => env.stepRights i step) :
    TextLayout loose reserved .inside fun i =>
      (classicClauses (init.map LoopVar.name) (env.loopValues i init) (env.nodeOpt i cond)
        (env.stepLefts i step) (env.stepRights i step)).chars := by
  -- Which clauses are shown does not depend on where the loop stands.
  have hempty : ∀ i, (env.stepLefts i step).isEmpty = step.isEmpty := by
    intro i
    rcases step with _ | ⟨⟨_, _⟩, _⟩
    · rfl
    · rw [stepLefts, List.isEmpty_cons, List.isEmpty_cons]
  have hspace : TextLayout loose reserved .inside fun _ => " ".toList :=
    .fixed hreserved " " (by decide)
  unfold classicClauses
  simp only [hempty]
  split
  · cases cond with
    | none => exact .empty
    | some c =>
      refine (hcond.append hspace).of_eq fun i => ?_
      rw [nodeOpt, Option.getD_some, Doc.chars_append]
      rfl
  · have hintro : TextLayout loose reserved .inside fun i =>
        Doc.chars (if (init.map LoopVar.name).isEmpty then []
          else Doc.commaSep ((init.map LoopVar.name).map Doc.str) ++ Doc.str " := " ++
            Doc.commaSep (env.loopValues i init)) := by
      split
      · exact .empty
      · refine ((layout_names hreserved hnames).append
          ((TextLayout.fixed hreserved " := " (by decide)).append
            (TextLayout.commaSep hreserved hinits))).of_eq fun i => ?_
        rw [Doc.chars_append, Doc.chars_append, Doc.chars_str, List.append_assoc]
    have hstep : TextLayout loose reserved .inside fun i =>
        Doc.chars (if step.isEmpty then []
          else Doc.space ++ Doc.commaSep (env.stepLefts i step) ++ Doc.str " = " ++
            Doc.commaSep (env.stepRights i step)) := by
      split
      · exact .empty
      · refine (hspace.append ((TextLayout.commaSep hreserved hlefts).append
          ((TextLayout.fixed hreserved " = " (by decide)).append
            (TextLayout.commaSep hreserved hrights)))).of_eq fun i => ?_
        simp only [Doc.chars_append, Doc.chars_str, List.append_assoc]
        rfl
    refine (hintro.append ((TextLayout.fixed hreserved "; " (by decide)).append (hcond.append
      ((TextLayout.fixed hreserved ";" (by decide)).append (hstep.append hspace))))).of_eq fun i => ?_
    simp only [Doc.chars_append, Doc.chars_str, List.append_assoc]
    rfl

/-- A condition with its branches, behind the tabs of its line or behind another branch. -/
theorem layout_condition {cond : Node} {thenDoc elseDoc : Indent → Doc}
    (hcond : TextLayout loose reserved .inside fun i => (env.node i cond).chars)
    (hthen : TextLayout loose reserved .inside fun i => (thenDoc i).chars)
    (helse : TextLayout loose reserved .inside fun i => (elseDoc i).chars) :
    TextLayout loose reserved .inside fun i => "if ".toList ++
      ((env.node i cond).chars ++ (" ".toList ++ ((thenDoc i).chars ++ (elseDoc i).chars))) :=
  (TextLayout.fixed hreserved "if " (by decide)).append
    (hcond.append ((TextLayout.fixed hreserved " " (by decide)).append (hthen.append helse)))

theorem layout_initializer {value : Option Node}
    (hvalue : TextLayout loose reserved .inside fun i => ((env.nodeOpt i value).getD []).chars) :
    TextLayout loose reserved .inside fun i => (initializer (env.nodeOpt i value)).chars := by
  cases value with
  | none => exact .empty
  | some v =>
    refine ((TextLayout.fixed hreserved " = " (by decide)).append hvalue).of_eq fun i => ?_
    rw [nodeOpt, initializer, Doc.chars_append, Doc.chars_str]
    rfl

/-- A branch that is no condition. -/
theorem layout_elseDoc_other {n : Node}
    (h : TextLayout loose reserved n.placement fun i => (env.node i n).chars)
    (hn : ∀ c t e, n ≠ .ifElse c t e) :
    TextLayout loose reserved .inside fun i => (env.elseDoc i (some n)).chars := by
  refine ((TextLayout.fixed hreserved " else " (by decide)).append (layout_bodyDoc h)).of_eq
    fun i => ?_
  rw [elseDoc, Doc.chars_append, Doc.chars_str]
  exact hn

variable (henv : env.Avoids reserved)

include henv

theorem layout_declaredType {type : GoType} {hasValue : Bool}
    (h : (type.isEmpty && hasValue) = false →
      ∀ p ∈ type.positions env.options.overlappingInterfaces "", p.Fits loose reserved) :
    TextLayout loose reserved .inside fun i => (env.declaredType i type hasValue).chars := by
  unfold declaredType
  split
  · exact .empty
  · next hshown =>
    rw [Bool.not_eq_true] at hshown
    refine ((TextLayout.fixed hreserved " " (by decide)).append
      (layout_type hreserved henv "" type (h hshown))).of_eq fun i => ?_
    rw [Doc.chars_append]
    rfl

/-- The type of a constant, as it is shown in front of the value. -/
theorem layout_constType {type : GoType}
    (h : ∀ p ∈ constTypePositions env.options.overlappingInterfaces type, p.Fits loose reserved) :
    TextLayout loose reserved .inside fun i => (env.declaredType i type true).chars := by
  apply layout_declaredType hreserved henv
  intro hshown
  rw [Bool.and_true] at hshown
  rwa [constTypePositions, if_neg (by simp [hshown])] at h

/-- The type that a variable inside a function is declared with. -/
theorem layout_localType {type : GoType} {value : Option Node} {ok : Option OkBinding}
    (hshape : VarShape.local type value ok = .declared)
    (h : ∀ p ∈ localTypePositions env.options.overlappingInterfaces type value, p.Fits loose reserved) :
    TextLayout loose reserved .inside fun i => (env.declaredType i type value.isSome).chars := by
  apply layout_declaredType hreserved henv
  intro hshown
  rwa [localTypePositions_of_declared hshape hshown] at h

theorem layout_constDoc {d : Binding} {value : Indent → Doc}
    (hd : ∀ s ∈ d.texts, Text.avoids reserved s.toList)
    (htype : ∀ p ∈ constTypePositions env.options.overlappingInterfaces d.type, p.Fits loose reserved)
    (hvalue : TextLayout loose reserved .inside fun i => (value i).chars) :
    TextLayout loose reserved .lines fun i => (env.constDoc i d (value i)).chars := by
  rw [Binding.texts, List.forall_mem_cons, List.forall_mem_map] at hd
  have hline := (TextLayout.fixed hreserved "const " (by decide)).append ((TextLayout.text hd.1).append
    ((layout_constType hreserved henv htype).append
      ((TextLayout.fixed hreserved " = " (by decide)).append hvalue)))
  refine ((layout_comments env hd.2).more (.statement hline)).of_eq fun i => ?_
  simp only [constDoc, Doc.chars_append, Doc.chars_str, List.append_assoc]

theorem layout_localVarDoc {d : Binding} {value : Option Node} {ok : Option OkBinding}
    (hd : ∀ s ∈ d.texts, Text.avoids reserved s.toList)
    (hok : ∀ b ∈ ok, Text.avoids reserved b.okName.toList)
    (htype : ∀ p ∈ localTypePositions env.options.overlappingInterfaces d.type value,
      p.Fits loose reserved)
    (hvalue : TextLayout loose reserved .inside fun i => ((env.nodeOpt i value).getD []).chars) :
    TextLayout loose reserved .lines fun i =>
      (env.localVarDoc i d (VarShape.local d.type value ok) (env.nodeOpt i value)).chars := by
  rw [Binding.texts, List.forall_mem_cons, List.forall_mem_map] at hd
  have hcommented : ∀ line : Indent → Doc,
      (TextLayout loose reserved .inside fun i => (line i).chars) →
      TextLayout loose reserved .lines fun i =>
        Doc.chars (env.comments i d.comments ++ Doc.tabs i ++ line i ++ Doc.endStatement i) := by
    intro line hline
    refine ((layout_comments env hd.2).more (.statement hline)).of_eq fun i => ?_
    simp only [Doc.chars_append, List.append_assoc]
  have hassigned := (TextLayout.fixed hreserved " := " (by decide)).append hvalue
  cases hshape : VarShape.local d.type value ok with
  | checked b =>
    have hb := hok b (VarShape.local_eq_checked hshape)
    apply hcommented fun i => checkedNames d.name b ++ Doc.str " := " ++ (env.nodeOpt i value).getD []
    refine ((layout_checkedNames hreserved hd.1 hb).append hassigned).of_eq fun i => ?_
    simp only [Doc.chars_append, Doc.chars_str, List.append_assoc]
  | inferred =>
    apply hcommented fun i => Doc.str d.name ++ Doc.str " := " ++ (env.nodeOpt i value).getD []
    refine ((TextLayout.text hd.1).append hassigned).of_eq fun i => ?_
    simp only [Doc.chars_append, Doc.chars_str, List.append_assoc]
  | declared =>
    have hdeclared := layout_localType hreserved henv hshape htype
    apply hcommented fun i => Doc.str "var " ++ Doc.str d.name ++
      env.declaredType i d.type (env.nodeOpt i value).isSome ++ initializer (env.nodeOpt i value)
    refine ((TextLayout.fixed hreserved "var " (by decide)).append ((TextLayout.text hd.1).append
      (hdeclared.append (layout_initializer hreserved hvalue)))).of_eq fun i => ?_
    simp only [Doc.chars_append, Doc.chars_str, isSome_nodeOpt, List.append_assoc]

theorem layout_signature (withNames : Bool) {params results : List Binding}
    (hparamNames : withNames → ∀ s ∈ params.map Binding.name, Text.avoids reserved s.toList)
    (hresultNames : withNames → ∀ s ∈ results.map Binding.name, Text.avoids reserved s.toList)
    (hparams : ∀ p ∈ bindingPositions env.options.overlappingInterfaces params, p.Fits loose reserved)
    (hresults : ∀ p ∈ bindingPositions env.options.overlappingInterfaces results,
      p.Fits loose reserved) :
    TextLayout loose reserved .inside fun i => (env.signature i withNames params results).chars :=
  layout_signatureDoc hreserved (layout_bindingTypes hreserved henv withNames params hparamNames hparams)
    (layout_bindingTypes hreserved henv withNames results hresultNames hresults) withNames results

theorem layout_funcHead {name : String} (withBody : Bool) {params results : List Binding}
    (hname : Text.avoids reserved name.toList)
    (hnames : ∀ s ∈ (params ++ results).map Binding.name, Text.avoids reserved s.toList)
    (hparams : ∀ p ∈ bindingPositions env.options.overlappingInterfaces params, p.Fits loose reserved)
    (hresults : ∀ p ∈ bindingPositions env.options.overlappingInterfaces results,
      p.Fits loose reserved) :
    TextLayout loose reserved .inside fun i =>
      (env.funcHead i name withBody params results).chars := by
  rw [List.map_append, List.forall_mem_append] at hnames
  have hshown : TextLayout loose reserved .inside fun _ =>
      Doc.chars (if withBody && name ≠ "" then Doc.space ++ Doc.str name else []) := by
    split
    · refine ((TextLayout.fixed hreserved " " (by decide)).append (.text hname)).of_eq fun _ => ?_
      rw [Doc.chars_append, Doc.chars_str]
      rfl
    · exact .empty
  have hsignature := layout_signature hreserved henv withBody (fun _ => hnames.1) (fun _ => hnames.2)
    hparams hresults
  refine ((TextLayout.fixed hreserved "func" (by decide)).append (hshown.append hsignature)).of_eq
    fun i => ?_
  simp only [funcHead, Doc.chars_append, Doc.chars_str, List.append_assoc]

/-- The head of a function literal that fits its place. -/
theorem layout_literalHead {name sourceName : String} {comments : List Comment}
    {params results : List Binding} {body : Option Node} (withBody : Bool)
    (hfits : (Position.node (.func ⟨name, sourceName, comments, .func params results body⟩)).Fits loose reserved)
    (hparams : ∀ p ∈ bindingPositions env.options.overlappingInterfaces params, p.Fits loose reserved)
    (hresults : ∀ p ∈ bindingPositions env.options.overlappingInterfaces results,
      p.Fits loose reserved) :
    TextLayout loose reserved .inside fun i =>
      (env.funcHead i name withBody params results).chars := by
  have htexts : ∀ s ∈ name :: (params ++ results).map Binding.name, Text.avoids reserved s.toList :=
    hfits.texts
  rw [List.forall_mem_cons] at htexts
  exact layout_funcHead hreserved henv withBody htexts.1 htexts.2 hparams hresults

end

/-! ## Nodes -/

/-- Operators other than division have no delimiters. -/
theorem layout_binaryOp (hreserved : reserved ⊆ Text.delimiters) (op : BinaryOp) :
    TextLayout loose reserved .inside fun _ => (" " ++ op.symbol ++ " ").toList := by
  cases op with
  | div => exact .division
  | _ =>
    rw [String.toList_append, String.toList_append]
    refine .text (Text.avoids_mono hreserved (Text.avoids_append (Text.avoids_append ?_ ?_) ?_)) <;>
      decide

theorem layout_unaryOp (hreserved : reserved ⊆ Text.delimiters) (op : UnaryOp) :
    TextLayout loose reserved .inside fun _ => op.symbol.toList := by
  cases op <;> exact .fixed hreserved _ (by decide)

/-! ### Forms of nodes

Each form has a layout if its parts have one.  A part that stands for a block is asked for the layout of its
own placement, any other part stands inside a line. -/

/-- The lines of a block between its braces. -/
theorem layout_block {stmts : List Node}
    (h : TextLayout loose reserved .lines fun i => (env.statements i stmts).chars) :
    TextLayout loose reserved .inside fun i => (env.node i (.block stmts)).chars := by
  cases stmts with
  | nil =>
    simp only [node]
    exact .braced .empty
  | cons s ss =>
    simp only [node]
    exact layout_braces h

section

variable (hreserved : reserved ⊆ Text.delimiters)

include hreserved

theorem layout_litInt (value : Int64) :
    TextLayout loose reserved .inside fun i => (env.node i (.litInt value)).chars := by
  have hdigits : Text.avoids Text.delimiters (Nat.toDigits 10 value.toInt.natAbs) :=
    Text.avoids_of_isDigit fun c => Go.Alphabet.isDigit_of_mem_toDigits
  have hint : Text.avoids Text.delimiters (toString value.toInt).toList := by
    rw [toList_toString_int]
    split
    · exact Text.avoids_cons (by decide) hdigits
    · exact hdigits
  simp only [node, Doc.chars_str]
  exact .fixed hreserved _ hint

/-- The type of a composite literal, and its items between braces. -/
theorem layout_composite {type : GoType} {items : Indent → List Doc}
    (htype : TextLayout loose reserved .inside fun i => (env.type i "" type).chars)
    (hitems : TextLayout.All loose reserved items) :
    TextLayout loose reserved .inside fun i =>
      (env.type i "" type ++ Doc.str "\x7b" ++ Doc.commaSep (items i) ++ Doc.str "\x7d").chars := by
  refine (htype.append (.braced (TextLayout.commaSep hreserved hitems))).of_eq fun i => ?_
  simp only [Doc.chars_append, Doc.chars_str, List.append_assoc]
  rfl

theorem layout_ifElse {cond thenBranch : Node} {elseBranch : Option Node}
    (hcond : TextLayout loose reserved .inside fun i => (env.node i cond).chars)
    (hthen : TextLayout loose reserved thenBranch.placement fun i => (env.node i thenBranch).chars)
    (helse : TextLayout loose reserved .inside fun i => (env.elseDoc i elseBranch).chars) :
    TextLayout loose reserved .lines fun i => (env.node i (.ifElse cond thenBranch elseBranch)).chars := by
  refine (TextLayout.statement (layout_condition hreserved hcond (layout_bodyDoc hthen) helse)).of_eq
    fun i => ?_
  simp only [node, Doc.chars_append, Doc.chars_str, List.append_assoc]
  rfl

theorem layout_forRange {item : String} {items body : Node} (hitem : Text.avoids reserved item.toList)
    (hitems : TextLayout loose reserved .inside fun i => (env.node i items).chars)
    (hbody : TextLayout loose reserved body.placement fun i => (env.node i body).chars) :
    TextLayout loose reserved .lines fun i => (env.node i (.forRange item items body)).chars := by
  refine (TextLayout.statement ((TextLayout.fixed hreserved "for _, " (by decide)).append
    ((TextLayout.text hitem).append ((TextLayout.fixed hreserved " := range " (by decide)).append
      (hitems.append ((TextLayout.fixed hreserved " " (by decide)).append (layout_bodyDoc hbody))))))).of_eq
        fun i => ?_
  simp only [node, Doc.chars_append, Doc.chars_str, List.append_assoc]
  rfl

theorem layout_forClassic {init : List LoopVar} {cond : Option Node} {step : List LoopStep} {body : Node}
    (hclauses : TextLayout loose reserved .inside fun i =>
      (classicClauses (init.map LoopVar.name) (env.loopValues i init) (env.nodeOpt i cond)
        (env.stepLefts i step) (env.stepRights i step)).chars)
    (hbody : TextLayout loose reserved body.placement fun i => (env.node i body).chars) :
    TextLayout loose reserved .lines fun i => (env.node i (.forClassic init cond step body)).chars := by
  refine (TextLayout.statement ((TextLayout.fixed hreserved "for " (by decide)).append
    (hclauses.append (layout_bodyDoc hbody)))).of_eq fun i => ?_
  simp only [node, Doc.chars_append, Doc.chars_str, List.append_assoc]

theorem layout_forWhile {cond body : Node}
    (hcond : TextLayout loose reserved .inside fun i => (env.node i cond).chars)
    (hbody : TextLayout loose reserved body.placement fun i => (env.node i body).chars) :
    TextLayout loose reserved .lines fun i => (env.node i (.forWhile cond body)).chars := by
  refine (TextLayout.statement ((TextLayout.fixed hreserved "for " (by decide)).append
    (hcond.append ((TextLayout.fixed hreserved " " (by decide)).append (layout_bodyDoc hbody))))).of_eq
      fun i => ?_
  simp only [node, Doc.chars_append, Doc.chars_str, List.append_assoc]
  rfl

theorem layout_set {left right : Node}
    (hleft : TextLayout loose reserved .inside fun i => (env.node i left).chars)
    (hright : TextLayout loose reserved .inside fun i => (env.node i right).chars) :
    TextLayout loose reserved .lines fun i => (env.node i (.set left right)).chars := by
  refine (TextLayout.statement (hleft.append ((TextLayout.fixed hreserved " = " (by decide)).append
    hright))).of_eq fun i => ?_
  simp only [node, Doc.chars_append, Doc.chars_str, List.append_assoc]

theorem layout_ret {value : Option Node}
    (hvalue : TextLayout loose reserved .inside fun i => ((env.nodeOpt i value).getD []).chars) :
    TextLayout loose reserved .lines fun i => (env.node i (.ret value)).chars := by
  cases value with
  | none =>
    refine (TextLayout.statement (.fixed hreserved "return" (by decide))).of_eq fun i => ?_
    simp only [node, Doc.chars_append, Doc.chars_str, List.append_assoc]
  | some value =>
    refine (TextLayout.statement ((TextLayout.fixed hreserved "return " (by decide)).append
      hvalue)).of_eq fun i => ?_
    simp only [node, nodeOpt, Option.getD_some, Doc.chars_append, Doc.chars_str, List.append_assoc]
    rfl

theorem layout_panic {arg : Node}
    (harg : TextLayout loose reserved .inside fun i => (env.node i arg).chars) :
    TextLayout loose reserved .lines fun i => (env.node i (.panic arg)).chars := by
  refine (TextLayout.statement ((TextLayout.fixed hreserved "panic" (by decide)).append
    (.parenthesized harg))).of_eq fun i => ?_
  simp only [node, Doc.chars_append, Doc.chars_str, List.append_assoc, List.cons_append]
  rfl

theorem layout_call {callee : Node} {args : List Node}
    (hcallee : TextLayout loose reserved .inside fun i => (env.node i callee).chars)
    (hargs : TextLayout.All loose reserved fun i => env.nodes i args) :
    TextLayout loose reserved .inside fun i => (env.node i (.call callee args)).chars := by
  refine ((hcallee.enclosed (callee.needsParens .callee)).append
    ((TextLayout.commaSep hreserved hargs).enclosed true)).of_eq fun i => ?_
  simp only [node, Doc.chars_append, Doc.chars_enclose]

/-- A function literal, given the layout of its body if it has one. -/
theorem layout_funcLiteralDoc {name : String} (sourceName : String) {params results : List Binding}
    (body : Option (Indent → Doc))
    (hhead : TextLayout loose reserved .inside fun i =>
      (env.funcHead i name body.isSome params results).chars)
    (hbody : ∀ b ∈ body, TextLayout loose reserved .inside fun i => (b i).chars) :
    TextLayout loose reserved .inside fun i =>
      (env.funcLiteralDoc i name sourceName params results (body.map (· i))).chars := by
  have hspaced := hhead.append (TextLayout.fixed hreserved " " (by decide))
  cases body with
  | none =>
    refine (hspaced.append (.braced .empty)).of_eq fun i => ?_
    simp only [Option.map_none, funcLiteralDoc, Doc.chars_append, List.append_assoc]
    rfl
  | some b =>
    refine (hspaced.append (hbody b rfl)).of_eq fun i => ?_
    simp only [Option.map_some, funcLiteralDoc, Doc.chars_append, List.append_assoc]
    rfl

/-- A placeholder stands for a function value that has no function type. -/
theorem layout_func_of_not_isFunc {signature : Binding} (hfunc : signature.type.isFunc = false)
    (hname : Text.avoids reserved signature.sourceName.toList) :
    TextLayout loose reserved .inside fun i => (env.node i (.func signature)).chars := by
  have hkind : Text.avoids reserved "Func".toList := Text.avoids_mono hreserved (by decide)
  refine (layout_placeholder hreserved hkind hname).of_eq fun i => ?_
  obtain ⟨_, _, _, type⟩ := signature
  cases type with
  | func => cases hfunc
  | _ => simp only [node, Doc.chars_append, Doc.chars_note, Doc.chars_str, List.nil_append]

theorem layout_dot {left right : Node}
    (hleft : TextLayout loose reserved .inside fun i => (env.node i left).chars)
    (hright : TextLayout loose reserved .inside fun i => (env.node i right).chars) :
    TextLayout loose reserved .inside fun i => (env.node i (.dot left right)).chars := by
  refine (hleft.append ((TextLayout.fixed hreserved "." (by decide)).append hright)).of_eq fun i => ?_
  simp only [node, Doc.chars_append, Doc.chars_str, List.append_assoc]

omit hreserved in
theorem layout_index {left right : Node}
    (hleft : TextLayout loose reserved .inside fun i => (env.node i left).chars)
    (hright : TextLayout loose reserved .inside fun i => (env.node i right).chars) :
    TextLayout loose reserved .inside fun i => (env.node i (.index left right)).chars := by
  refine (hleft.append (.bracketed (o := '[') (c := ']') (by decide) hright)).of_eq fun i => ?_
  simp only [node, Doc.chars_append, Doc.chars_str, List.append_assoc]
  rfl

theorem layout_toType {expr : Node} {target : GoType}
    (hexpr : TextLayout loose reserved .inside fun i => (env.node i expr).chars)
    (htarget : TextLayout loose reserved .inside fun i => (env.type i "" target).chars) :
    TextLayout loose reserved .inside fun i => (env.node i (.toType expr target)).chars := by
  refine (hexpr.append ((TextLayout.fixed hreserved "." (by decide)).append
    (.parenthesized htarget))).of_eq fun i => ?_
  simp only [node, Doc.chars_append, Doc.chars_str, List.append_assoc]
  rfl

theorem layout_isType {value typeName : String} (hvalue : Text.avoids reserved value.toList)
    (htype : Text.avoids reserved typeName.toList) :
    TextLayout loose reserved .inside fun i => (env.node i (.isType value typeName)).chars := by
  refine ((TextLayout.fixed hreserved "ː" (by decide)).append ((TextLayout.text hvalue).append
    ((TextLayout.fixed hreserved "ᐧ" (by decide)).append (.text htype)))).of_eq fun i => ?_
  simp only [node, Doc.chars_append, Doc.chars_note, Doc.chars_str, String.toList_append,
    List.append_assoc, List.nil_append]

theorem layout_op1 (op : UnaryOp) {operand : Node}
    (h : TextLayout loose reserved .inside fun i => (env.node i operand).chars) :
    TextLayout loose reserved .inside fun i => (env.node i (.op1 op operand)).chars := by
  refine ((layout_unaryOp hreserved op).append (h.enclosed (operand.needsParens (.unary op)))).of_eq
    fun i => ?_
  simp only [node, Doc.chars_append, Doc.chars_str, Doc.chars_enclose]

theorem layout_op2 (op : BinaryOp) {left right : Node}
    (hleft : TextLayout loose reserved .inside fun i => (env.node i left).chars)
    (hright : TextLayout loose reserved .inside fun i => (env.node i right).chars) :
    TextLayout loose reserved .inside fun i => (env.node i (.op2 op left right)).chars := by
  refine ((hleft.enclosed (left.needsParens (.binary op))).append ((layout_binaryOp hreserved op).append
    (hright.enclosed (right.needsParens (.binary op))))).of_eq fun i => ?_
  simp only [node, Doc.chars_append, Doc.chars_str, Doc.chars_enclose, List.append_assoc]

theorem layout_unsupported {kind detail : String} (hkind : Text.avoids reserved kind.toList)
    (hdetail : Text.avoids reserved detail.toList) :
    TextLayout loose reserved .inside fun i => (env.node i (.unsupported kind detail)).chars := by
  refine (layout_placeholder hreserved hkind hdetail).of_eq fun i => ?_
  simp only [node, Doc.chars_append, Doc.chars_note, Doc.chars_str, List.nil_append]

end

/-! ### All nodes -/

mutual

/-- A statement is whole lines, and any other node stands inside a line. -/
theorem layout_node (hreserved : reserved ⊆ Text.delimiters) (henv : env.Avoids reserved) :
    (n : Node) → (∀ p ∈ n.positions env.options.overlappingInterfaces, p.Fits loose reserved) →
    TextLayout loose reserved n.placement fun i => (env.node i n).chars
  | .litStr value, _ => by
    refine (TextLayout.quoted value.toList).of_eq fun i => ?_
    rw [node, Doc.chars_str, String.toList_ofList]
  | .litBool value, _ => by
    simp only [node, Doc.chars_str]
    cases value <;> exact .fixed hreserved _ (by decide)
  | .litNum value, _ => by
    simp only [node]
    exact layout_number hreserved value
  | .litInt value, _ => layout_litInt hreserved value
  | .litArr type elems, h => by
    rw [Node.positions, List.forall_mem_cons, List.forall_mem_append] at h
    simp only [node]
    exact layout_composite hreserved (layout_type hreserved henv "" type.type h.2.1)
      (layout_nodes hreserved henv elems (fun n hn => h.1.operand hn) h.2.2)
  | .litObj type fields, h => by
    rw [Node.positions, List.forall_mem_cons, List.forall_mem_append] at h
    simp only [node]
    exact layout_composite hreserved (layout_type hreserved henv "" type.type h.2.1)
      (layout_fieldValues hreserved henv fields h.1.texts (fun n hn => h.1.operand hn) h.2.2)
  | .const d value, h => by
    rw [Node.positions, List.forall_mem_cons, List.forall_mem_append] at h
    have hvalue := (layout_node hreserved henv value h.2.2).operand
      (h.1.operand List.mem_cons_self)
    simp only [node]
    exact layout_constDoc hreserved henv h.1.texts h.2.1 hvalue
  | .var d value ok, h => by
    rw [Node.positions, List.forall_mem_cons, List.forall_mem_append] at h
    have htexts := h.1.texts
    simp only [Position.texts, Node.texts, List.forall_mem_append, List.forall_mem_map,
      Option.mem_toList] at htexts
    have hvalue := layout_nodeOpt hreserved henv value (fun n hn => h.1.operand hn) h.2.2
    refine (layout_localVarDoc hreserved henv htexts.1 htexts.2 h.2.1 hvalue).of_eq fun i => ?_
    cases value <;> rw [node] <;> rfl
  | .block stmts, h => by
    rw [Node.positions, List.forall_mem_cons] at h
    exact layout_block (layout_statements hreserved henv stmts h.2)
  | .ifElse cond thenBranch elseBranch, h => by
    rw [Node.positions, List.forall_mem_cons, List.forall_mem_append, List.forall_mem_append] at h
    have hcond := (layout_node hreserved henv cond h.2.1.1).operand (h.1.operand List.mem_cons_self)
    exact layout_ifElse hreserved hcond (layout_node hreserved henv thenBranch h.2.1.2)
      (layout_elseDoc hreserved henv elseBranch h.2.2)
  | .forRange item items body, h => by
    rw [Node.positions, List.forall_mem_cons, List.forall_mem_append] at h
    have hitems := (layout_node hreserved henv items h.2.1).operand (h.1.operand List.mem_cons_self)
    exact layout_forRange hreserved (h.1.texts item List.mem_cons_self) hitems
      (layout_node hreserved henv body h.2.2)
  | .forClassic init cond step body, h => by
    simp only [Node.positions, List.forall_mem_cons, List.forall_mem_append] at h
    obtain ⟨hfits, ⟨⟨⟨hinit, hcond⟩, hlefts⟩, hrights⟩, hbody⟩ := h
    have hclauses := layout_classicClauses hreserved hfits.texts
      (layout_loopValues hreserved henv init (fun n hn => hfits.operand (by simp [Node.operands, hn])) hinit)
      (layout_nodeOpt hreserved henv cond (fun n hn => hfits.operand (by simp_all [Node.operands])) hcond)
      (layout_stepLefts hreserved henv step (fun n hn => hfits.operand (by simp [Node.operands, hn])) hlefts)
      (layout_stepRights hreserved henv step (fun n hn => hfits.operand (by simp [Node.operands, hn])) hrights)
    exact layout_forClassic hreserved hclauses (layout_node hreserved henv body hbody)
  | .forWhile cond body, h => by
    rw [Node.positions, List.forall_mem_cons, List.forall_mem_append] at h
    have hcond := (layout_node hreserved henv cond h.2.1).operand (h.1.operand List.mem_cons_self)
    exact layout_forWhile hreserved hcond (layout_node hreserved henv body h.2.2)
  | .set left right, h => by
    rw [Node.positions, List.forall_mem_cons, List.forall_mem_append] at h
    exact layout_set hreserved
      ((layout_node hreserved henv left h.2.1).operand (h.1.operand (by simp [Node.operands])))
      ((layout_node hreserved henv right h.2.2).operand (h.1.operand (by simp [Node.operands])))
  | .ret value, h => by
    rw [Node.positions, List.forall_mem_cons] at h
    exact layout_ret hreserved (layout_nodeOpt hreserved henv value (fun n hn => h.1.operand hn) h.2)
  | .panic arg, h => by
    rw [Node.positions, List.forall_mem_cons] at h
    exact layout_panic hreserved
      ((layout_node hreserved henv arg h.2).operand (h.1.operand List.mem_cons_self))
  | .comments cs, h => by
    have htexts := (h (.node (.comments cs)) List.mem_cons_self).texts
    simp only [Position.texts, Node.texts, List.forall_mem_map] at htexts
    simp only [node]
    exact layout_comments env htexts
  | .sym name, h => by
    have hname := (h (.node (.sym name)) List.mem_cons_self).texts name List.mem_cons_self
    simp only [node, Doc.chars_str]
    exact .text hname
  | .pkgSym pkg symbol, h => by
    have htexts := (h (.node (.pkgSym pkg symbol)) List.mem_cons_self).texts
    simp only [Position.texts, Node.texts, List.forall_mem_cons, Option.mem_toList] at htexts
    simp only [node]
    exact layout_symbol hreserved htexts.1 htexts.2
  | .nil, _ => by
    simp only [node, Doc.chars_str]
    exact .fixed hreserved "nil" (by decide)
  | .call callee args, h => by
    rw [Node.positions, List.forall_mem_cons, List.forall_mem_append] at h
    have hcallee := (layout_node hreserved henv callee h.2.1).operand (h.1.operand List.mem_cons_self)
    exact layout_call hreserved hcallee (layout_nodes hreserved henv args
      (fun n hn => h.1.operand (List.mem_cons_of_mem _ hn)) h.2.2)
  | .func ⟨name, sourceName, _, .func params results (some body)⟩, h => by
    rw [Node.positions, List.forall_mem_append, List.forall_mem_append, List.forall_mem_cons,
      optionPositions] at h
    have hhead := layout_literalHead hreserved henv true h.2.1 h.1.1 h.1.2
    have hbody := layout_bodyDoc (layout_node hreserved henv body h.2.2)
    simp only [node]
    exact layout_funcLiteralDoc hreserved sourceName (some _) hhead (by rintro _ ⟨⟩; exact hbody)
  | .func ⟨name, sourceName, _, .func params results none⟩, h => by
    rw [Node.positions, List.forall_mem_append, List.forall_mem_append, List.forall_mem_cons] at h
    have hhead := layout_literalHead hreserved henv false h.2.1 h.1.1 h.1.2
    simp only [node]
    exact layout_funcLiteralDoc hreserved sourceName none hhead (by rintro _ ⟨⟩)
  | .func ⟨_, sourceName, _, .empty⟩, h | .func ⟨_, sourceName, _, .named _⟩, h
  | .func ⟨_, sourceName, _, .unresolved _⟩, h | .func ⟨_, sourceName, _, .array _⟩, h
  | .func ⟨_, sourceName, _, .pointer _⟩, h | .func ⟨_, sourceName, _, .interface ..⟩, h
  | .func ⟨_, sourceName, _, .struct ..⟩, h => by
    simp only [Node.positions, List.forall_mem_singleton] at h
    exact layout_func_of_not_isFunc hreserved rfl (h.texts sourceName List.mem_cons_self)
  | .dot left right, h => by
    rw [Node.positions, List.forall_mem_cons, List.forall_mem_append] at h
    exact layout_dot hreserved
      ((layout_node hreserved henv left h.2.1).operand (h.1.operand (by simp [Node.operands])))
      ((layout_node hreserved henv right h.2.2).operand (h.1.operand (by simp [Node.operands])))
  | .index left right, h => by
    rw [Node.positions, List.forall_mem_cons, List.forall_mem_append] at h
    exact layout_index
      ((layout_node hreserved henv left h.2.1).operand (h.1.operand (by simp [Node.operands])))
      ((layout_node hreserved henv right h.2.2).operand (h.1.operand (by simp [Node.operands])))
  | .toType expr target, h => by
    rw [Node.positions, List.forall_mem_cons, List.forall_mem_append] at h
    have hexpr := (layout_node hreserved henv expr h.2.1).operand (h.1.operand List.mem_cons_self)
    exact layout_toType hreserved hexpr (layout_type hreserved henv "" target h.2.2)
  | .isType value typeName, h => by
    have htexts := (h (.node (.isType value typeName)) List.mem_cons_self).texts
    simp only [Position.texts, Node.texts, List.forall_mem_cons] at htexts
    exact layout_isType hreserved htexts.1 htexts.2.1
  | .op1 op operand, h => by
    rw [Node.positions, List.forall_mem_cons] at h
    exact layout_op1 hreserved op
      ((layout_node hreserved henv operand h.2).operand (h.1.operand List.mem_cons_self))
  | .op2 op left right, h => by
    rw [Node.positions, List.forall_mem_cons, List.forall_mem_append] at h
    exact layout_op2 hreserved op
      ((layout_node hreserved henv left h.2.1).operand (h.1.operand (by simp [Node.operands])))
      ((layout_node hreserved henv right h.2.2).operand (h.1.operand (by simp [Node.operands])))
  | .unsupported kind detail, h => by
    have htexts := (h (.node (.unsupported kind detail)) List.mem_cons_self).texts
    simp only [Position.texts, Node.texts, List.forall_mem_cons] at htexts
    exact layout_unsupported hreserved htexts.1 htexts.2.1

/-- Nodes in one line. -/
theorem layout_nodes (hreserved : reserved ⊆ Text.delimiters) (henv : env.Avoids reserved) :
    (ns : List Node) → (∀ n ∈ ns, loose = false → n.isStatement = false) →
    (∀ p ∈ nodePositions env.options.overlappingInterfaces ns, p.Fits loose reserved) →
    TextLayout.All loose reserved fun i => env.nodes i ns
  | [], _, _ => by
    simp only [nodes]
    exact TextLayout.all_nil
  | n :: ns, hns, h => by
    rw [List.forall_mem_cons] at hns
    rw [nodePositions, List.forall_mem_append] at h
    simp only [nodes]
    exact TextLayout.all_cons ((layout_node hreserved henv n h.1).operand hns.1)
      (layout_nodes hreserved henv ns hns.2 h.2)

/-- A node that may be missing. -/
theorem layout_nodeOpt (hreserved : reserved ⊆ Text.delimiters) (henv : env.Avoids reserved) :
    (n : Option Node) → (∀ m ∈ n.toList, loose = false → m.isStatement = false) →
    (∀ p ∈ optionPositions env.options.overlappingInterfaces n, p.Fits loose reserved) →
    TextLayout loose reserved .inside fun i => ((env.nodeOpt i n).getD []).chars
  | none, _, _ => by
    simp only [nodeOpt]
    exact .empty
  | some n, hn, h => by
    rw [optionPositions] at h
    simp only [nodeOpt]
    exact (layout_node hreserved henv n h).operand (hn n List.mem_cons_self)

/-- The lines of a block. -/
theorem layout_statements (hreserved : reserved ⊆ Text.delimiters) (henv : env.Avoids reserved) :
    (ns : List Node) →
    (∀ p ∈ nodePositions env.options.overlappingInterfaces ns, p.Fits loose reserved) →
    TextLayout loose reserved .lines fun i => (env.statements i ns).chars
  | [], _ => by
    simp only [statements]
    exact .none
  | n :: ns, h => by
    rw [nodePositions, List.forall_mem_append] at h
    refine ((layout_statementLine (layout_node hreserved henv n h.1)).more
      (layout_statements hreserved henv ns h.2)).of_eq fun i => ?_
    rw [statements, Doc.chars_append]

/-- The branch behind a condition's block. -/
theorem layout_elseDoc (hreserved : reserved ⊆ Text.delimiters) (henv : env.Avoids reserved) :
    (n : Option Node) →
    (∀ p ∈ optionPositions env.options.overlappingInterfaces n, p.Fits loose reserved) →
    TextLayout loose reserved .inside fun i => (env.elseDoc i n).chars
  | none, _ => by
    simp only [elseDoc]
    exact .empty
  | some n, h => by
    rw [optionPositions] at h
    have hother := layout_elseDoc_other hreserved (layout_node hreserved henv n h)
    cases n with
    | ifElse cond thenBranch elseBranch =>
      rw [Node.positions, List.forall_mem_cons, List.forall_mem_append, List.forall_mem_append] at h
      have hcond := (layout_node hreserved henv cond h.2.1.1).operand
        (h.1.operand List.mem_cons_self)
      have hthen := layout_bodyDoc (layout_node hreserved henv thenBranch h.2.1.2)
      have helse := layout_elseDoc hreserved henv elseBranch h.2.2
      -- The condition goes on in the line of the brace, without the tabs and the line end of a statement.
      refine ((TextLayout.fixed hreserved " else " (by decide)).append
        (layout_condition hreserved hcond hthen helse)).of_eq fun i => ?_
      simp only [elseDoc, Doc.chars_append, Doc.chars_str, List.append_assoc]
      rfl
    | _ => exact hother (by rintro _ _ _ ⟨⟩)

/-- The values of a composite literal. -/
theorem layout_fieldValues (hreserved : reserved ⊆ Text.delimiters) (henv : env.Avoids reserved) :
    (fs : List FieldValue) →
    (∀ s ∈ fs.filterMap FieldValue.name, Text.avoids reserved s.toList) →
    (∀ n ∈ fs.map FieldValue.value, loose = false → n.isStatement = false) →
    (∀ p ∈ fieldPositions env.options.overlappingInterfaces fs, p.Fits loose reserved) →
    TextLayout.All loose reserved fun i => env.fieldValues i fs
  | [], _, _, _ => by
    simp only [fieldValues]
    exact TextLayout.all_nil
  | ⟨none, value⟩ :: fs, hnames, hfs, h => by
    rw [List.map_cons, List.forall_mem_cons] at hfs
    rw [fieldPositions, List.forall_mem_append] at h
    simp only [fieldValues]
    exact TextLayout.all_cons ((layout_node hreserved henv value h.1).operand hfs.1)
      (layout_fieldValues hreserved henv fs hnames hfs.2 h.2)
  | ⟨some name, value⟩ :: fs, hnames, hfs, h => by
    rw [List.map_cons, List.forall_mem_cons] at hfs
    have hnames : ∀ s ∈ name :: fs.filterMap FieldValue.name, Text.avoids reserved s.toList := hnames
    rw [List.forall_mem_cons] at hnames
    rw [fieldPositions, List.forall_mem_append] at h
    simp only [fieldValues]
    refine TextLayout.all_cons ?_ (layout_fieldValues hreserved henv fs hnames.2 hfs.2 h.2)
    refine ((TextLayout.text hnames.1).append ((TextLayout.fixed hreserved ": " (by decide)).append
      ((layout_node hreserved henv value h.1).operand hfs.1))).of_eq fun i => ?_
    simp only [Doc.chars_append, Doc.chars_str, List.append_assoc]

/-- The values of the variables that a loop introduces. -/
theorem layout_loopValues (hreserved : reserved ⊆ Text.delimiters) (henv : env.Avoids reserved) :
    (vs : List LoopVar) → (∀ n ∈ vs.map LoopVar.value, loose = false → n.isStatement = false) →
    (∀ p ∈ initPositions env.options.overlappingInterfaces vs, p.Fits loose reserved) →
    TextLayout.All loose reserved fun i => env.loopValues i vs
  | [], _, _ => by
    simp only [loopValues]
    exact TextLayout.all_nil
  | ⟨_, value⟩ :: vs, hvs, h => by
    rw [List.map_cons, List.forall_mem_cons] at hvs
    rw [initPositions, List.forall_mem_append] at h
    simp only [loopValues]
    exact TextLayout.all_cons ((layout_node hreserved henv value h.1).operand hvs.1)
      (layout_loopValues hreserved henv vs hvs.2 h.2)

/-- The left sides of a step clause. -/
theorem layout_stepLefts (hreserved : reserved ⊆ Text.delimiters) (henv : env.Avoids reserved) :
    (ss : List LoopStep) → (∀ n ∈ ss.map LoopStep.left, loose = false → n.isStatement = false) →
    (∀ p ∈ leftPositions env.options.overlappingInterfaces ss, p.Fits loose reserved) →
    TextLayout.All loose reserved fun i => env.stepLefts i ss
  | [], _, _ => by
    simp only [stepLefts]
    exact TextLayout.all_nil
  | ⟨left, _⟩ :: ss, hss, h => by
    rw [List.map_cons, List.forall_mem_cons] at hss
    rw [leftPositions, List.forall_mem_append] at h
    simp only [stepLefts]
    exact TextLayout.all_cons ((layout_node hreserved henv left h.1).operand hss.1)
      (layout_stepLefts hreserved henv ss hss.2 h.2)

/-- The right sides of a step clause. -/
theorem layout_stepRights (hreserved : reserved ⊆ Text.delimiters) (henv : env.Avoids reserved) :
    (ss : List LoopStep) → (∀ n ∈ ss.map LoopStep.right, loose = false → n.isStatement = false) →
    (∀ p ∈ rightPositions env.options.overlappingInterfaces ss, p.Fits loose reserved) →
    TextLayout.All loose reserved fun i => env.stepRights i ss
  | [], _, _ => by
    simp only [stepRights]
    exact TextLayout.all_nil
  | ⟨_, right⟩ :: ss, hss, h => by
    rw [List.map_cons, List.forall_mem_cons] at hss
    rw [rightPositions, List.forall_mem_append] at h
    simp only [stepRights]
    exact TextLayout.all_cons ((layout_node hreserved henv right h.1).operand hss.1)
      (layout_stepRights hreserved henv ss hss.2 h.2)

end

end Env

end GoScribe
