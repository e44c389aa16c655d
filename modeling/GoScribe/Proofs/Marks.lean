import GoScribe.Proofs.Positions

/-!
# Marks of renderings

The marks of a rendering are those of its positions, one after another: whatever the layout, each
position is written once, and nothing is marked between two of them.  Main statement:
`marks_moduleBody`.
-/

namespace GoScribe

/-! ## Parts without recursion -/

namespace Env

@[simp] theorem marks_comments (env : Env) (i : Indent) (cs : List Comment) :
    (env.comments i cs).marks = [] := by
  unfold comments
  split
  · rw [Doc.marks_flatMap, List.flatMap_eq_nil_iff]
    intro c _
    cases c <;> simp
  · rfl

theorem marks_embedLines (env : Env) (i : Indent) (names : List String) :
    (env.embedLines i names).marks = env.marksOf (names.map .embed) := by
  simp [embedLines, marksOf, List.flatMap_map, marksAt]

end Env

@[simp] theorem marks_nameBefore (withNames : Bool) (name : String) :
    (nameBefore withNames name).marks = [] := by
  unfold nameBefore
  split <;> simp

@[simp] theorem marks_signatureDoc (withNames : Bool) (results : List Binding)
    (paramDocs resultDocs : List Doc) :
    (signatureDoc withNames results paramDocs resultDocs).marks =
      paramDocs.flatMap Doc.marks ++ resultDocs.flatMap Doc.marks := by
  simp [signatureDoc]

/-! ## Marks of types -/

variable (env : Env)

namespace Env

/-- The marks of an interface, given those of its methods. -/
theorem marks_interface (i : Indent) (owner : String) (names : List String) (methods : List Binding)
    (isTypeVar : Bool)
    (hmethods : (env.methodLines i.deeper owner methods).marks =
      env.marksOf (GoScribe.methodPositions env.options.overlappingInterfaces owner methods)) :
    (env.type i owner (.interface names methods isTypeVar)).marks =
      env.marksOf ((GoType.interface names methods isTypeVar).positions
        env.options.overlappingInterfaces owner) := by
  have hnames : (if env.options.overlappingInterfaces then names.map Position.embed else []) =
      (env.shownEmbeds names).map .embed := by
    unfold shownEmbeds
    split <;> rfl
  rw [type, GoType.positions, hnames, marksOf_cons, marksOf_append, marksAt]
  by_cases hempty : (env.shownEmbeds names).isEmpty && methods.isEmpty
  · rw [if_pos hempty, hempty, Bool.true_and]
    rw [Bool.and_eq_true, List.isEmpty_iff, List.isEmpty_iff] at hempty
    rw [hempty.1, hempty.2, GoScribe.methodPositions]
    cases isTypeVar <;> simp
  · rw [if_neg hempty, if_neg (by simp [hempty])]
    simp [marks_embedLines, hmethods]

mutual

/-- The marks of a type are those of its positions. -/
theorem marks_type (i : Indent) (owner : String) : (t : GoType) →
    (env.type i owner t).marks =
      env.marksOf (t.positions env.options.overlappingInterfaces owner)
  | .empty => by simp [type, GoType.positions, marksAt]
  | .named _ => by simp [type, GoType.positions, marksAt]
  | .unresolved _ => by
    rw [type, GoType.positions, marksOf_cons, marksAt, Doc.marks_append, Doc.marks_str]
    rfl
  | .array elem => by
    rw [type, GoType.positions, marksOf_cons, ← marks_type i "" elem]
    rfl
  | .pointer target => by
    rw [type, GoType.positions, marksOf_cons, ← marks_type i "" target]
    rfl
  | .interface names methods isTypeVar =>
    marks_interface env i owner names methods isTypeVar (marks_methodLines i.deeper owner methods)
  | .struct names fields byPointer methods => by
    have hfields := marks_fieldLines i.deeper (nameWidth fields) fields
    simp only [type, GoType.positions, marksOf_cons, marksAt, List.nil_append, ← hfields]
    split
    · next hempty =>
      rw [Bool.and_eq_true, List.isEmpty_iff, List.isEmpty_iff] at hempty
      rw [hempty.2]
      rfl
    · simp
  | .func params results body => by
    have hparams := marks_bindingTypes i body.isSome params
    have hresults := marks_bindingTypes i body.isSome results
    simp [type, GoType.positions, marksAt, hparams, hresults]

/-- The marks of parameters or results. -/
theorem marks_bindingTypes (i : Indent) (withNames : Bool) : (bs : List Binding) →
    (env.bindingTypes i withNames bs).flatMap Doc.marks =
      env.marksOf (bindingPositions env.options.overlappingInterfaces bs)
  | [] => rfl
  | ⟨name, sourceName, _, t⟩ :: bs => by
    rw [bindingTypes, bindingPositions, marksOf_append, ← marks_type i sourceName t,
      ← marks_bindingTypes i withNames bs, List.flatMap_cons, Doc.marks_append, marks_nameBefore,
      List.nil_append]

/-- The marks of the methods of an interface. -/
theorem marks_methodLines (i : Indent) (owner : String) : (bs : List Binding) →
    (env.methodLines i owner bs).marks =
      env.marksOf (methodPositions env.options.overlappingInterfaces owner bs)
  | [] => rfl
  | ⟨name, sourceName, comments, .func params results body⟩ :: bs => by
    rw [methodLines, methodPositions, marksOf_cons, marksOf_append, marksOf_append, marksAt,
      ← marks_methodLines i owner bs, ← marks_bindingTypes i false params,
      ← marks_bindingTypes i false results]
    simp [GoType.isFunc]
  | ⟨_, _, _, .empty⟩ :: bs | ⟨_, _, _, .named _⟩ :: bs | ⟨_, _, _, .unresolved _⟩ :: bs
  | ⟨_, _, _, .array _⟩ :: bs | ⟨_, _, _, .pointer _⟩ :: bs | ⟨_, _, _, .interface ..⟩ :: bs
  | ⟨_, _, _, .struct ..⟩ :: bs => by
    rw [methodLines, methodPositions, marksOf_cons, marksAt, ← marks_methodLines i owner bs]
    · rfl
    · intros; contradiction
    · intros; contradiction

/-- The marks of the fields of a struct. -/
theorem marks_fieldLines (i : Indent) (width : Nat) : (bs : List Binding) →
    (env.fieldLines i width bs).marks =
      env.marksOf (bindingPositions env.options.overlappingInterfaces bs)
  | [] => rfl
  | ⟨name, sourceName, comments, t⟩ :: bs => by
    rw [fieldLines, bindingPositions, marksOf_append, ← marks_type i sourceName t,
      ← marks_fieldLines i width bs]
    simp

end

end Env

/-! ## Parts of nodes -/

@[simp] theorem marks_braces (i : Indent) (lines : Doc) : (braces i lines).marks = lines.marks := by
  simp [braces]

@[simp] theorem marks_statementLine (i : Indent) (n : Node) (text : Doc) :
    (statementLine i n text).marks = text.marks := by
  unfold statementLine
  split <;> simp

/-- A body has the marks of its node, which do not depend on the place. -/
theorem marks_bodyDoc {i : Indent} {n : Node} {render : Indent → Doc} {ms : Doc}
    (h : ∀ j, (render j).marks = ms) : (bodyDoc i n render).marks = ms := by
  unfold bodyDoc
  split
  · exact h i
  · rw [marks_braces, marks_statementLine, h]

/-- The clauses of a loop show everything they are given, if names come with values and left sides
with right sides. -/
theorem marks_classicClauses {names : List String} {inits : List Doc} (cond : Option Doc)
    {lefts rights : List Doc} (hinits : names.isEmpty = inits.isEmpty)
    (hsteps : lefts.isEmpty = rights.isEmpty) :
    (classicClauses names inits cond lefts rights).marks =
      inits.flatMap Doc.marks ++ (cond.getD []).marks ++ lefts.flatMap Doc.marks ++
        rights.flatMap Doc.marks := by
  have hnames : (Doc.commaSep (names.map Doc.str)).marks = [] := by
    rw [Doc.marks_commaSep, List.flatMap_map, List.flatMap_eq_nil_iff]
    intro s _
    rfl
  unfold classicClauses
  rw [hinits]
  -- A clause that is left out has nothing to show, because both of its parts are empty.
  cases inits <;> cases lefts <;> cases rights <;> cases cond <;> simp_all

namespace Env

@[simp] theorem marks_declaredType (i : Indent) (type : GoType) (hasValue : Bool) :
    (env.declaredType i type hasValue).marks =
      if type.isEmpty && hasValue then []
      else env.marksOf (type.positions env.options.overlappingInterfaces "") := by
  unfold declaredType
  split
  · rfl
  · rw [Doc.marks_append, Doc.marks_space, marks_type, List.nil_append]

@[simp] theorem marks_initializer (value : Option Doc) :
    (initializer value).marks = (value.getD []).marks := by
  cases value with
  | none => rfl
  | some v => rw [initializer, Doc.marks_append, Doc.marks_str, List.nil_append, Option.getD_some]

theorem marks_constDoc (i : Indent) (d : Binding) (value : Doc) :
    (env.constDoc i d value).marks =
      env.marksOf (constTypePositions env.options.overlappingInterfaces d.type) ++ value.marks := by
  unfold constDoc constTypePositions
  by_cases hempty : d.type.isEmpty <;> simp [hempty]

theorem marks_localVarDoc (i : Indent) (d : Binding) (value : Option Node) (ok : Option OkBinding)
    (text : Option Doc) (htext : text.isSome = value.isSome) :
    (env.localVarDoc i d (VarShape.local d.type value ok) text).marks =
      env.marksOf (localTypePositions env.options.overlappingInterfaces d.type value) ++
        (text.getD []).marks := by
  unfold localVarDoc
  cases value with
  | none => simp [VarShape.local, localTypePositions, htext]
  | some v =>
    -- The three shapes: two results or an inferred type show no type, a declared one does.
    by_cases hassertion : v.isAssertion
    · cases ok <;> simp [VarShape.local, localTypePositions, hassertion, checkedNames]
    by_cases hfunc : d.type.isFunc || v.isFuncLiteral
    · have hnone : localTypePositions env.options.overlappingInterfaces d.type (some v) = [] := by
        rw [localTypePositions, if_pos]
        grind
      simp [VarShape.local, hassertion, hfunc, hnone]
    · rw [Bool.or_eq_true, not_or] at hfunc
      by_cases hempty : d.type.isEmpty <;>
        simp [VarShape.local, localTypePositions, hassertion, hfunc, hempty, htext]

@[simp] theorem marks_signature (i : Indent) (withNames : Bool) (params results : List Binding) :
    (env.signature i withNames params results).marks =
      env.marksOf (bindingPositions env.options.overlappingInterfaces params) ++
        env.marksOf (bindingPositions env.options.overlappingInterfaces results) := by
  rw [signature, marks_signatureDoc, marks_bindingTypes, marks_bindingTypes]

@[simp] theorem marks_funcHead (i : Indent) (name : String) (withBody : Bool)
    (params results : List Binding) :
    (env.funcHead i name withBody params results).marks =
      env.marksOf (bindingPositions env.options.overlappingInterfaces params) ++
        env.marksOf (bindingPositions env.options.overlappingInterfaces results) := by
  have hname : (if withBody && name ≠ "" then Doc.space ++ Doc.str name else []).marks = [] := by
    split <;> simp
  rw [funcHead, Doc.marks_append, Doc.marks_append, Doc.marks_str, hname, marks_signature]
  rfl


/-! ## Marks of nodes -/

theorem isEmpty_loopValues (i : Indent) (init : List LoopVar) :
    (env.loopValues i init).isEmpty = init.isEmpty := by
  rcases init with _ | ⟨⟨_, _⟩, _⟩
  · rfl
  · rw [loopValues, List.isEmpty_cons, List.isEmpty_cons]

theorem isEmpty_stepLefts (i : Indent) (step : List LoopStep) :
    (env.stepLefts i step).isEmpty = (env.stepRights i step).isEmpty := by
  rcases step with _ | ⟨⟨_, _⟩, _⟩
  · rfl
  · rw [stepLefts, stepRights, List.isEmpty_cons, List.isEmpty_cons]

/-- A branch has the marks of its node, although a condition goes on in the same line. -/
theorem marks_elseDoc_some {i : Indent} {n : Node} {ms : Doc} (h : ∀ j, (env.node j n).marks = ms) :
    (env.elseDoc i (some n)).marks = ms := by
  cases n with
  | ifElse cond thenBranch elseBranch =>
    rw [← h i]
    simp [elseDoc, node]
  | _ =>
    rw [elseDoc, Doc.marks_append, Doc.marks_str, List.nil_append, marks_bodyDoc h]
    intros
    contradiction

mutual

/-- The marks of a node are those of its positions. -/
theorem marks_node (i : Indent) : (n : Node) →
    (env.node i n).marks = env.marksOf (n.positions env.options.overlappingInterfaces)
  | .litStr _ | .litBool _ | .litNum _ | .litInt _ | .comments _ | .sym _ | .pkgSym .. | .nil => by
    simp [node, Node.positions, marksAt]
  | .isType .. | .unsupported .. => by
    simp only [node, Node.positions, marksOf_cons, marksAt]
    rfl
  | .litArr type elems => by
    simp [node, Node.positions, marksAt, marks_type, marks_nodes i elems]
  | .litObj type fields => by
    simp [node, Node.positions, marksAt, marks_type, marks_fieldValues i fields]
  | .const d value => by
    simp [node, Node.positions, marksAt, marks_constDoc, marks_node i value]
  | .var d none ok => by
    simp [node, Node.positions, marksAt, marks_localVarDoc, optionPositions]
  | .var d (some value) ok => by
    simp [node, Node.positions, marksAt, marks_localVarDoc, optionPositions, marks_node i value]
  | .block [] => by simp [node, Node.positions, marksAt, nodePositions]
  | .block (s :: ss) => by
    simp [node, Node.positions, marksAt, nodePositions, marks_node i.deeper s,
      marks_statements i.deeper ss]
  | .ifElse cond thenBranch elseBranch => by
    have hthen := marks_bodyDoc (i := i) (n := thenBranch) (fun j => marks_node j thenBranch)
    simp [node, Node.positions, marksAt, marks_node i cond, hthen, marks_elseDoc i elseBranch]
  | .forRange item items body => by
    have hbody := marks_bodyDoc (i := i) (n := body) (fun j => marks_node j body)
    simp [node, Node.positions, marksAt, marks_node i items, hbody]
  | .forClassic init cond step body => by
    have hbody := marks_bodyDoc (i := i) (n := body) (fun j => marks_node j body)
    have hinits : (init.map LoopVar.name).isEmpty = (env.loopValues i init).isEmpty := by
      rw [List.isEmpty_map, isEmpty_loopValues]
    simp [node, Node.positions, marksAt, marks_classicClauses _ hinits (env.isEmpty_stepLefts i step),
      marks_loopValues i init, marks_nodeOpt i cond, marks_stepLefts i step, marks_stepRights i step,
      hbody]
  | .forWhile cond body => by
    have hbody := marks_bodyDoc (i := i) (n := body) (fun j => marks_node j body)
    simp [node, Node.positions, marksAt, marks_node i cond, hbody]
  | .set left right => by
    simp [node, Node.positions, marksAt, marks_node i left, marks_node i right]
  | .ret none => by simp [node, Node.positions, marksAt, optionPositions]
  | .ret (some value) => by
    simp [node, Node.positions, marksAt, optionPositions, marks_node i value]
  | .panic arg => by simp [node, Node.positions, marksAt, marks_node i arg]
  | .call callee args => by
    simp [node, Node.positions, marksAt, marks_node i callee, marks_nodes i args]
  | .func ⟨name, sourceName, _, .func params results (some body)⟩ => by
    have hbody := marks_bodyDoc (i := i) (n := body) (fun j => marks_node j body)
    simp [node, Node.positions, marksAt, funcLiteralDoc, optionPositions, hbody]
  -- The note about a missing body comes behind the signature, where the body would be.
  | .func ⟨name, sourceName, _, .func params results none⟩ => by
    simp [node, Node.positions, marksAt, funcLiteralDoc, optionPositions]
    rfl
  | .func ⟨_, _, _, .empty⟩ | .func ⟨_, _, _, .named _⟩ | .func ⟨_, _, _, .unresolved _⟩
  | .func ⟨_, _, _, .array _⟩ | .func ⟨_, _, _, .pointer _⟩ | .func ⟨_, _, _, .interface ..⟩
  | .func ⟨_, _, _, .struct ..⟩ => by
    simp only [node, Node.positions, marksOf_cons, marksAt]
    rfl
  | .dot left right => by
    simp [node, Node.positions, marksAt, marks_node i left, marks_node i right]
  | .index left right => by
    simp [node, Node.positions, marksAt, marks_node i left, marks_node i right]
  | .toType expr target => by
    simp [node, Node.positions, marksAt, marks_node i expr, marks_type]
  | .op1 op operand => by simp [node, Node.positions, marksAt, marks_node i operand]
  | .op2 op left right => by
    simp [node, Node.positions, marksAt, marks_node i left, marks_node i right]

/-- The marks of nodes in one line. -/
theorem marks_nodes (i : Indent) : (ns : List Node) →
    (env.nodes i ns).flatMap Doc.marks =
      env.marksOf (nodePositions env.options.overlappingInterfaces ns)
  | [] => rfl
  | n :: ns => by simp [nodes, nodePositions, marks_node i n, marks_nodes i ns]

/-- The marks of a node that may be missing. -/
theorem marks_nodeOpt (i : Indent) : (n : Option Node) →
    ((env.nodeOpt i n).getD []).marks =
      env.marksOf (optionPositions env.options.overlappingInterfaces n)
  | none => rfl
  | some n => by simp [nodeOpt, optionPositions, marks_node i n]

/-- The marks of the lines of a block. -/
theorem marks_statements (i : Indent) : (ns : List Node) →
    (env.statements i ns).marks = env.marksOf (nodePositions env.options.overlappingInterfaces ns)
  | [] => rfl
  | n :: ns => by simp [statements, nodePositions, marks_node i n, marks_statements i ns]

/-- The marks of the branch behind a condition's block. -/
theorem marks_elseDoc (i : Indent) : (n : Option Node) →
    (env.elseDoc i n).marks = env.marksOf (optionPositions env.options.overlappingInterfaces n)
  | none => rfl
  | some n => by rw [optionPositions, marks_elseDoc_some env fun j => marks_node j n]

/-- The marks of the values of a composite literal. -/
theorem marks_fieldValues (i : Indent) : (fs : List FieldValue) →
    (env.fieldValues i fs).flatMap Doc.marks =
      env.marksOf (fieldPositions env.options.overlappingInterfaces fs)
  | [] => rfl
  | ⟨none, value⟩ :: fs => by
    simp [fieldValues, fieldPositions, marks_node i value, marks_fieldValues i fs]
  | ⟨some name, value⟩ :: fs => by
    simp [fieldValues, fieldPositions, marks_node i value, marks_fieldValues i fs]

/-- The marks of the values that a loop starts with. -/
theorem marks_loopValues (i : Indent) : (vs : List LoopVar) →
    (env.loopValues i vs).flatMap Doc.marks =
      env.marksOf (initPositions env.options.overlappingInterfaces vs)
  | [] => rfl
  | ⟨_, value⟩ :: vs => by
    simp [loopValues, initPositions, marks_node i value, marks_loopValues i vs]

/-- The marks of the left sides of a step clause. -/
theorem marks_stepLefts (i : Indent) : (ss : List LoopStep) →
    (env.stepLefts i ss).flatMap Doc.marks =
      env.marksOf (leftPositions env.options.overlappingInterfaces ss)
  | [] => rfl
  | ⟨left, _⟩ :: ss => by
    simp [stepLefts, leftPositions, marks_node i left, marks_stepLefts i ss]

/-- The marks of the right sides of a step clause. -/
theorem marks_stepRights (i : Indent) : (ss : List LoopStep) →
    (env.stepRights i ss).flatMap Doc.marks =
      env.marksOf (rightPositions env.options.overlappingInterfaces ss)
  | [] => rfl
  | ⟨_, right⟩ :: ss => by
    simp [stepRights, rightPositions, marks_node i right, marks_stepRights i ss]

end

theorem marks_body (i : Indent) (n : Node) :
    (env.body i n).marks = env.marksOf (n.positions env.options.overlappingInterfaces) :=
  marks_bodyDoc fun j => env.marks_node j n

end Env

/-! ## Constants and variables at top level -/

/-- The positions of a constant or variable. -/
def ValueDecl.positions (embeds : Bool) (v : ValueDecl) : List Position :=
  topTypePositions embeds v.decl.type v.value v.ok ++ optionPositions embeds v.value

/-- Runs only divide a list. -/
theorem ValueDecl.flatten_runs (vs : List ValueDecl) : (runs vs).flatten = vs := by
  induction vs with
  | nil => rfl
  | cons v vs ih =>
    unfold runs
    split
    · next hruns =>
      rw [hruns] at ih
      split <;> simp [← ih]
    · simp [ih]

namespace Env

theorem marks_valueDoc (i : Indent) (v : ValueDecl) :
    (env.valueDoc i v).marks = env.marksOf (v.positions env.options.overlappingInterfaces) := by
  obtain ⟨kind, decl, value, ok⟩ := v
  rw [valueDoc, ValueDecl.positions, Doc.marks_append, marks_initializer, marks_nodeOpt,
    marksOf_append]
  congr 1
  cases value with
  | none => simp [VarShape.topLevel, topTypePositions]
  | some n =>
    cases ok with
    | none => by_cases hempty : decl.type.isEmpty <;> simp [VarShape.topLevel, topTypePositions, hempty]
    | some ok =>
      by_cases hassertion : n.isAssertion
      · simp [VarShape.topLevel, topTypePositions, hassertion, checkedNames]
      · by_cases hempty : decl.type.isEmpty <;>
          simp [VarShape.topLevel, topTypePositions, hassertion, hempty]

theorem marks_plainValue (v : ValueDecl) :
    (env.plainValue v).marks = env.marksOf (v.positions env.options.overlappingInterfaces) := by
  simp [plainValue, marks_valueDoc]

theorem marks_groupEntry (v : ValueDecl) :
    (env.groupEntry v).marks = env.marksOf (v.positions env.options.overlappingInterfaces) := by
  simp [groupEntry, marks_valueDoc]

theorem marks_laterEntry (v : ValueDecl) : (env.laterEntry v).marks = (env.groupEntry v).marks := by
  unfold laterEntry
  split <;> simp

/-- A run has the marks of its declarations, alone or grouped. -/
theorem marks_run (vs : List ValueDecl) :
    (env.run vs).marks =
      env.marksOf (vs.flatMap fun v => v.positions env.options.overlappingInterfaces) := by
  match vs with
  | [] => rfl
  | [v] => simp [run, marks_plainValue]
  | v :: w :: ws =>
    simp [run, marks_laterEntry, marks_groupEntry, marksOf, List.flatMap_assoc]

/-! ## Marks of modules -/

/-- The marks of one part of a file: the declarations that `select` picks, each written by `render`. -/
theorem marks_section {α : Type} {select : Decl → Option α} {render : α → Doc}
    {positions : Decl → List Position}
    (h : ∀ d, (select d).elim [] (fun a => (render a).marks) = env.marksOf (positions d))
    (ds : List Decl) :
    Doc.marks ((ds.filterMap select).flatMap render) = env.marksOf (ds.flatMap positions) := by
  induction ds with
  | nil => rfl
  | cons d ds ih =>
    rw [List.flatMap_cons, marksOf_append, ← ih, ← h d, List.filterMap_cons]
    cases select d <;> simp

/-- Neither the grouping nor the place of a declaration changes its marks. -/
theorem marks_values (ds : List Decl) :
    (env.values ds).marks = Doc.marks ((ds.filterMap Decl.value?).flatMap (env.valueDoc .top)) := by
  have hrun (vs : List ValueDecl) : (env.run vs).marks =
      vs.flatMap fun v => (env.valueDoc .top v).marks := by
    simp only [marks_run, marks_valueDoc, marksOf, List.flatMap_assoc]
  rw [values, Doc.marks_flatMap, Doc.marks_flatMap]
  conv_rhs => rw [← ValueDecl.flatten_runs (ds.filterMap Decl.value?)]
  simp only [hrun, List.flatMap_def, List.map_flatten, List.flatten_flatten, List.map_map]
  rfl

theorem marks_typeDecl (d : Decl) :
    d.typeDef?.elim [] (fun b => (env.typeDef b).marks) =
      env.marksOf (d.typePositions env.options.overlappingInterfaces) := by
  cases d with
  | type b => simp [Decl.typeDef?, Decl.typePositions, typeDef, bindingType, marks_type]
  | _ => rfl

theorem marks_valueDecl (d : Decl) :
    d.value?.elim [] (fun v => (env.valueDoc .top v).marks) =
      env.marksOf (d.valuePositions env.options.overlappingInterfaces) := by
  cases d with
  | const b value =>
    simp [Decl.value?, Decl.valuePositions, marks_valueDoc, ValueDecl.positions, topTypePositions,
      constTypePositions, optionPositions]
  | var b value ok =>
    simp [Decl.value?, Decl.valuePositions, marks_valueDoc, ValueDecl.positions]
  | _ => rfl

theorem marks_method (b : Binding) (byPointer : Bool) (m : Binding) :
    (env.method b byPointer m).marks =
      env.marksOf (implementationPositions env.options.overlappingInterfaces
        (.methodDef b.sourceName m) m.type) := by
  unfold method implementationPositions
  cases himpl : m.type.implementation? with
  | none =>
    simp only [marksOf_cons, marksAt, himpl]
    rfl
  | some impl => simp [marksAt, himpl, marks_body]

theorem marks_funcDef (b : Binding) :
    (env.funcDef b).marks =
      env.marksOf (implementationPositions env.options.overlappingInterfaces (.funcDef b) b.type) := by
  unfold funcDef implementationPositions
  cases himpl : b.type.implementation? with
  | none =>
    simp only [marksOf_cons, marksAt, himpl]
    rfl
  | some impl => simp [marksAt, himpl, marks_body]

theorem marks_methodDecl (d : Decl) :
    d.typeDef?.elim [] (fun b => (env.methodSet b).marks) =
      env.marksOf (d.methodPositions env.options.overlappingInterfaces) := by
  match d with
  | .type ⟨name, sourceName, comments, .struct names fields byPointer methods⟩ =>
    have hmethods : (env.methodSet
        ⟨name, sourceName, comments, .struct names fields byPointer methods⟩).marks =
          methods.flatMap fun m => (env.method
            ⟨name, sourceName, comments, .struct names fields byPointer methods⟩ byPointer m).marks := by
      cases methods <;> simp [methodSet]
    simp only [Decl.typeDef?, Option.elim, hmethods, marks_method, Decl.methodPositions, marksOf,
      List.flatMap_assoc]
  | .type ⟨_, _, _, .empty⟩ | .type ⟨_, _, _, .named _⟩ | .type ⟨_, _, _, .unresolved _⟩
  | .type ⟨_, _, _, .array _⟩ | .type ⟨_, _, _, .pointer _⟩ | .type ⟨_, _, _, .interface ..⟩
  | .type ⟨_, _, _, .func ..⟩ | .const .. | .var .. | .func _ => rfl

theorem marks_funcDecl (d : Decl) :
    d.funcDef?.elim [] (fun b => (env.funcDef b).marks) =
      env.marksOf (d.funcPositions env.options.overlappingInterfaces) := by
  cases d with
  | func b => exact env.marks_funcDef b
  | _ => rfl

/-- The marks of a file are those of its positions. -/
theorem marks_moduleBody : env.moduleBody.marks = env.marksOf env.positions := by
  rw [moduleBody, Doc.marks_append, Doc.marks_append, Doc.marks_append, marks_values,
    Module.typeDefs, Module.funcDefs, env.marks_section env.marks_typeDecl,
    env.marks_section env.marks_valueDecl, env.marks_section env.marks_methodDecl,
    env.marks_section env.marks_funcDecl, positions, Module.positions, marksOf_append,
    marksOf_append, marksOf_append]

/-- A view of the body that skips text is put together from the positions. -/
theorem filterMap_moduleBody {α : Type} {view : Piece → Option α} (h : ∀ s, view (.text s) = none) :
    env.moduleBody.filterMap view = env.positions.flatMap fun p => (env.marksAt p).filterMap view := by
  rw [← Doc.filterMap_marks h, marks_moduleBody, marksOf, List.filterMap_flatMap]

/-- A file that is written is made of its body. -/
theorem eq_of_file_eq_ok {f : GoFile} (h : env.file = .ok f) :
    f = ⟨env.assemble env.moduleBody, (ImportUsage.ofMarks env.moduleBody.uses).sorted,
      env.moduleBody.diagnostics⟩ := by
  unfold file at h
  simp only at h
  split at h
  · cases h
  · split at h
    · cases h
    · cases h
      rfl

/-- What a file says about its body. -/
theorem file_eq_ok {f : GoFile} (h : env.file = .ok f) :
    f.imports = (ImportUsage.ofMarks env.moduleBody.uses).sorted ∧
      f.diagnostics = env.moduleBody.diagnostics := by
  rw [env.eq_of_file_eq_ok h]
  exact ⟨rfl, rfl⟩

end Env

end GoScribe
