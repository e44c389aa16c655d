import GoScribe.Proofs.Marks
import Mathlib.Data.List.Basic

/-!
# Rendering reads the names at the rendered positions

Two ways to render one tree under the same options give the same document as soon as they write the
same for every name that stands at a rendered position.  What they would write for other names makes no
difference.  Main statement: `Env.AgreeAt.moduleBody`.
-/

namespace GoScribe

/-- The positions of a declaration among the constants and variables are those of its value. -/
theorem Decl.valuePositions_of_value? {embeds : Bool} {d : Decl} {v : ValueDecl}
    (h : d.value? = some v) : d.valuePositions embeds = v.positions embeds := by
  cases d with
  | const b value =>
    cases h
    simp [valuePositions, ValueDecl.positions, constTypePositions, topTypePositions, optionPositions]
  | var b value ok =>
    cases h
    rfl
  | _ => cases h

namespace Env

/-- What is written for the name that stands at a position. -/
def nameAt (env : Env) : Position → Doc
  | .node (.litNum value) => env.number value
  | .node (.pkgSym pkg symbol) => env.symbol ⟨pkg, symbol⟩
  | .type (.named qualifiedName) => env.typeName qualifiedName
  | .embed qualifiedName => env.typeName qualifiedName
  | _ => []

/-- The names at some positions are written in the same way. -/
def AgreeAt (env env' : Env) (ps : List Position) : Prop :=
  ∀ p ∈ ps, env'.nameAt p = env.nameAt p

namespace AgreeAt

variable {env env' : Env}

theorem cons_iff {p : Position} {ps : List Position} :
    AgreeAt env env' (p :: ps) ↔ env'.nameAt p = env.nameAt p ∧ AgreeAt env env' ps :=
  List.forall_mem_cons

theorem append_iff {ps qs : List Position} :
    AgreeAt env env' (ps ++ qs) ↔ AgreeAt env env' ps ∧ AgreeAt env env' qs :=
  List.forall_mem_append

/-- What comes behind a position. -/
theorem tail {p : Position} {ps : List Position} (h : AgreeAt env env' (p :: ps)) :
    AgreeAt env env' ps :=
  (cons_iff.mp h).2

/-- The two parts behind a position. -/
theorem parts {p : Position} {ps qs : List Position} (h : AgreeAt env env' (p :: (ps ++ qs))) :
    AgreeAt env env' ps ∧ AgreeAt env env' qs :=
  append_iff.mp h.tail

end AgreeAt

/-! ## What the options decide -/

section

variable {env env' : Env} (ho : env'.options = env.options)

include ho

theorem comments_of_options (i : Indent) (cs : List Comment) :
    env'.comments i cs = env.comments i cs := by
  rw [comments, comments, ho]

theorem showsAny_of_options (cs : List Comment) : env'.showsAny cs = env.showsAny cs := by
  rw [showsAny, showsAny, ho]

theorem shownEmbeds_of_options (names : List String) :
    env'.shownEmbeds names = env.shownEmbeds names := by
  rw [shownEmbeds, shownEmbeds, ho]

theorem typeVar_of_options : env'.typeVar = env.typeVar := by
  rw [typeVar, typeVar, ho]

end

namespace AgreeAt

variable {env env' : Env}

/-! ## Types -/

theorem embedLines {names : List String} (h : AgreeAt env env' (names.map .embed)) (i : Indent) :
    env'.embedLines i names = env.embedLines i names := by
  unfold Env.embedLines
  apply List.flatMap_congr
  intro name hname
  have hdoc : env'.typeName name = env.typeName name := h (.embed name) (List.mem_map_of_mem hname)
  rw [hdoc]

mutual

/-- A type is written in the same way. -/
theorem type (ho : env'.options = env.options) (i : Indent) (owner : String) : (t : GoType) →
    AgreeAt env env' (t.positions env.options.overlappingInterfaces owner) →
    env'.type i owner t = env.type i owner t
  | .empty, _ | .unresolved _, _ => rfl
  | .named qualifiedName, h => h (.type (.named qualifiedName)) List.mem_cons_self
  | .array elem, h => by rw [Env.type, Env.type, type ho i "" elem h.tail]
  | .pointer target, h => by rw [Env.type, Env.type, type ho i "" target h.tail]
  | .interface names methods isTypeVar, h => by
    obtain ⟨hnames, hmethods⟩ := h.parts
    have hembeds : AgreeAt env env' ((env.shownEmbeds names).map .embed) := by
      unfold shownEmbeds
      split
      · rwa [if_pos ‹_›] at hnames
      · rintro p ⟨⟩
    rw [Env.type, Env.type, shownEmbeds_of_options ho, typeVar_of_options ho, hembeds.embedLines,
      methodLines ho i.deeper owner methods hmethods]
  | .struct names fields _ _, h => by
    rw [Env.type, Env.type, fieldLines ho i.deeper (nameWidth fields) fields h.tail]
  | .func params results body, h => by
    rw [Env.type, Env.type, bindingTypes ho i body.isSome params h.parts.1,
      bindingTypes ho i body.isSome results h.parts.2]

theorem bindingTypes (ho : env'.options = env.options) (i : Indent) (withNames : Bool) :
    (bs : List Binding) →
    AgreeAt env env' (bindingPositions env.options.overlappingInterfaces bs) →
    env'.bindingTypes i withNames bs = env.bindingTypes i withNames bs
  | [], _ => rfl
  | ⟨_, sourceName, _, t⟩ :: bs, h => by
    rw [bindingPositions, append_iff] at h
    rw [Env.bindingTypes, Env.bindingTypes, type ho i sourceName t h.1,
      bindingTypes ho i withNames bs h.2]

theorem methodLines (ho : env'.options = env.options) (i : Indent) (owner : String) :
    (bs : List Binding) →
    AgreeAt env env' (methodPositions env.options.overlappingInterfaces owner bs) →
    env'.methodLines i owner bs = env.methodLines i owner bs
  | [], _ => rfl
  | ⟨_, _, comments, .func params results _⟩ :: bs, h => by
    rw [methodPositions, cons_iff, append_iff, append_iff] at h
    rw [Env.methodLines, Env.methodLines, comments_of_options ho,
      bindingTypes ho i false params h.2.1.1, bindingTypes ho i false results h.2.1.2,
      methodLines ho i owner bs h.2.2]
  | ⟨_, _, _, .empty⟩ :: bs, h | ⟨_, _, _, .named _⟩ :: bs, h | ⟨_, _, _, .unresolved _⟩ :: bs, h
  | ⟨_, _, _, .array _⟩ :: bs, h | ⟨_, _, _, .pointer _⟩ :: bs, h | ⟨_, _, _, .interface ..⟩ :: bs, h
  | ⟨_, _, _, .struct ..⟩ :: bs, h =>
    congrArg (_ :: ·) (methodLines ho i owner bs (tail h))

theorem fieldLines (ho : env'.options = env.options) (i : Indent) (width : Nat) :
    (bs : List Binding) →
    AgreeAt env env' (bindingPositions env.options.overlappingInterfaces bs) →
    env'.fieldLines i width bs = env.fieldLines i width bs
  | [], _ => rfl
  | ⟨_, sourceName, comments, t⟩ :: bs, h => by
    rw [bindingPositions, append_iff] at h
    rw [Env.fieldLines, Env.fieldLines, comments_of_options ho, type ho i sourceName t h.1,
      fieldLines ho i width bs h.2]

end

/-! ## Nodes -/

section

variable (ho : env'.options = env.options)

include ho

/-- A declared type is written in the same way, if it is written at all. -/
theorem declaredType (i : Indent) (t : GoType) (hasValue : Bool)
    (h : (t.isEmpty && hasValue) = false →
      AgreeAt env env' (t.positions env.options.overlappingInterfaces "")) :
    env'.declaredType i t hasValue = env.declaredType i t hasValue := by
  unfold Env.declaredType
  split
  · rfl
  · next hshown => rw [type ho i "" t (h (Bool.not_eq_true _ ▸ hshown))]

theorem constDoc (i : Indent) (d : Binding) (value : Doc)
    (h : AgreeAt env env' (constTypePositions env.options.overlappingInterfaces d.type)) :
    env'.constDoc i d value = env.constDoc i d value := by
  have htype := declaredType ho i d.type true fun hshown => by
    rw [Bool.and_true] at hshown
    rwa [constTypePositions, if_neg (by simp [hshown])] at h
  rw [Env.constDoc, Env.constDoc, comments_of_options ho, htype]

theorem localVarDoc (i : Indent) (d : Binding) (value : Option Node) (ok : Option OkBinding)
    (text : Option Doc) (htext : text.isSome = value.isSome)
    (h : AgreeAt env env' (localTypePositions env.options.overlappingInterfaces d.type value)) :
    env'.localVarDoc i d (VarShape.local d.type value ok) text =
      env.localVarDoc i d (VarShape.local d.type value ok) text := by
  unfold Env.localVarDoc
  rw [comments_of_options ho]
  cases hshape : VarShape.local d.type value ok with
  | checked _ => rfl
  | inferred => rfl
  | declared =>
    have htype := declaredType ho i d.type text.isSome fun hshown => by
      rw [htext] at hshown
      rwa [localTypePositions_of_declared hshape hshown] at h
    simp only [htype]

theorem signature (i : Indent) (withNames : Bool) (params results : List Binding)
    (hparams : AgreeAt env env' (bindingPositions env.options.overlappingInterfaces params))
    (hresults : AgreeAt env env' (bindingPositions env.options.overlappingInterfaces results)) :
    env'.signature i withNames params results = env.signature i withNames params results := by
  rw [Env.signature, Env.signature, bindingTypes ho i withNames params hparams,
    bindingTypes ho i withNames results hresults]

theorem funcLiteralDoc (i : Indent) (name sourceName : String) (params results : List Binding)
    (body : Option Doc)
    (hparams : AgreeAt env env' (bindingPositions env.options.overlappingInterfaces params))
    (hresults : AgreeAt env env' (bindingPositions env.options.overlappingInterfaces results)) :
    env'.funcLiteralDoc i name sourceName params results body =
      env.funcLiteralDoc i name sourceName params results body := by
  unfold Env.funcLiteralDoc
  rw [funcHead, funcHead, signature ho i body.isSome params results hparams hresults]

end

mutual

/-- A node is written in the same way. -/
theorem node (ho : env'.options = env.options) (i : Indent) : (n : Node) →
    AgreeAt env env' (n.positions env.options.overlappingInterfaces) →
    env'.node i n = env.node i n
  | .litStr _, _ | .litBool _, _ | .litInt _, _ | .sym _, _ | .nil, _ | .isType .., _
  | .unsupported .., _ => rfl
  | .litNum value, h => h (.node (.litNum value)) List.mem_cons_self
  | .pkgSym pkg symbol, h => h (.node (.pkgSym pkg symbol)) List.mem_cons_self
  | .comments cs, _ => comments_of_options ho i cs
  | .litArr t elems, h => by
    rw [Env.node, Env.node, type ho i "" t.type h.parts.1, nodes ho i elems h.parts.2]
  | .litObj t fields, h => by
    rw [Env.node, Env.node, type ho i "" t.type h.parts.1, fieldValues ho i fields h.parts.2]
  | .const d value, h => by
    rw [Env.node, Env.node, constDoc ho i d _ h.parts.1, node ho i value h.parts.2]
  | .var d none ok, h => by
    rw [Env.node, Env.node, localVarDoc ho i d none ok none rfl h.parts.1]
  | .var d (some value) ok, h => by
    rw [Env.node, Env.node, localVarDoc ho i d (some value) ok _ rfl h.parts.1,
      node ho i value h.parts.2]
  | .block [], _ => rfl
  | .block (s :: ss), h => by
    rw [Node.positions, cons_iff, nodePositions, append_iff] at h
    rw [Env.node, Env.node, node ho i.deeper s h.2.1, statements ho i.deeper ss h.2.2]
  | .ifElse cond thenBranch elseBranch, h => by
    obtain ⟨hhead, helse⟩ := h.parts
    rw [append_iff] at hhead
    simp only [Env.node, node ho i cond hhead.1, fun j => node ho j thenBranch hhead.2,
      elseDoc ho i elseBranch helse]
  | .forRange item items body, h => by
    simp only [Env.node, node ho i items h.parts.1, fun j => node ho j body h.parts.2]
  | .forClassic init cond step body, h => by
    obtain ⟨hclauses, hbody⟩ := h.parts
    rw [append_iff, append_iff, append_iff] at hclauses
    obtain ⟨⟨⟨hinit, hcond⟩, hlefts⟩, hrights⟩ := hclauses
    simp only [Env.node, loopValues ho i init hinit, nodeOpt ho i cond hcond,
      stepLefts ho i step hlefts, stepRights ho i step hrights, fun j => node ho j body hbody]
  | .forWhile cond body, h => by
    simp only [Env.node, node ho i cond h.parts.1, fun j => node ho j body h.parts.2]
  | .set left right, h => by
    rw [Env.node, Env.node, node ho i left h.parts.1, node ho i right h.parts.2]
  | .ret none, _ => rfl
  | .ret (some value), h => by rw [Env.node, Env.node, node ho i value h.tail]
  | .panic arg, h => by rw [Env.node, Env.node, node ho i arg h.tail]
  | .call callee args, h => by
    rw [Env.node, Env.node, node ho i callee h.parts.1, nodes ho i args h.parts.2]
  | .func ⟨name, sourceName, _, .func params results (some body)⟩, h => by
    rw [Node.positions, append_iff, append_iff, cons_iff, optionPositions] at h
    simp only [Env.node, fun j => node ho j body h.2.2,
      funcLiteralDoc ho i name sourceName params results _ h.1.1 h.1.2]
  | .func ⟨name, sourceName, _, .func params results none⟩, h => by
    rw [Node.positions, append_iff, append_iff] at h
    rw [Env.node, Env.node, funcLiteralDoc ho i name sourceName params results none h.1.1 h.1.2]
  | .func ⟨_, _, _, .empty⟩, _ | .func ⟨_, _, _, .named _⟩, _ | .func ⟨_, _, _, .unresolved _⟩, _
  | .func ⟨_, _, _, .array _⟩, _ | .func ⟨_, _, _, .pointer _⟩, _
  | .func ⟨_, _, _, .interface ..⟩, _ | .func ⟨_, _, _, .struct ..⟩, _ => rfl
  | .dot left right, h => by
    rw [Env.node, Env.node, node ho i left h.parts.1, node ho i right h.parts.2]
  | .index left right, h => by
    rw [Env.node, Env.node, node ho i left h.parts.1, node ho i right h.parts.2]
  | .toType expr target, h => by
    rw [Env.node, Env.node, node ho i expr h.parts.1, type ho i "" target h.parts.2]
  | .op1 op operand, h => by rw [Env.node, Env.node, node ho i operand h.tail]
  | .op2 op left right, h => by
    rw [Env.node, Env.node, node ho i left h.parts.1, node ho i right h.parts.2]

theorem nodes (ho : env'.options = env.options) (i : Indent) : (ns : List Node) →
    AgreeAt env env' (nodePositions env.options.overlappingInterfaces ns) →
    env'.nodes i ns = env.nodes i ns
  | [], _ => rfl
  | n :: ns, h => by
    rw [nodePositions, append_iff] at h
    rw [Env.nodes, Env.nodes, node ho i n h.1, nodes ho i ns h.2]

theorem nodeOpt (ho : env'.options = env.options) (i : Indent) : (n : Option Node) →
    AgreeAt env env' (optionPositions env.options.overlappingInterfaces n) →
    env'.nodeOpt i n = env.nodeOpt i n
  | none, _ => rfl
  | some n, h => by rw [Env.nodeOpt, Env.nodeOpt, node ho i n h]

theorem statements (ho : env'.options = env.options) (i : Indent) : (ns : List Node) →
    AgreeAt env env' (nodePositions env.options.overlappingInterfaces ns) →
    env'.statements i ns = env.statements i ns
  | [], _ => rfl
  | n :: ns, h => by
    rw [nodePositions, append_iff] at h
    rw [Env.statements, Env.statements, node ho i n h.1, statements ho i ns h.2]

theorem elseDoc (ho : env'.options = env.options) (i : Indent) : (n : Option Node) →
    AgreeAt env env' (optionPositions env.options.overlappingInterfaces n) →
    env'.elseDoc i n = env.elseDoc i n
  | none, _ => rfl
  | some n, h => by
    have hbody : bodyDoc i n (fun j => env'.node j n) = bodyDoc i n (fun j => env.node j n) := by
      simp only [fun j => node ho j n h]
    cases n with
    | ifElse cond thenBranch elseBranch =>
      obtain ⟨hhead, helse⟩ := parts h
      rw [append_iff] at hhead
      simp only [Env.elseDoc, node ho i cond hhead.1, fun j => node ho j thenBranch hhead.2,
        elseDoc ho i elseBranch helse]
    | _ => exact congrArg (Doc.str " else " ++ ·) hbody

theorem fieldValues (ho : env'.options = env.options) (i : Indent) : (fs : List FieldValue) →
    AgreeAt env env' (fieldPositions env.options.overlappingInterfaces fs) →
    env'.fieldValues i fs = env.fieldValues i fs
  | [], _ => rfl
  | ⟨none, value⟩ :: fs, h => by
    rw [fieldPositions, append_iff] at h
    rw [Env.fieldValues, Env.fieldValues, node ho i value h.1, fieldValues ho i fs h.2]
  | ⟨some _, value⟩ :: fs, h => by
    rw [fieldPositions, append_iff] at h
    rw [Env.fieldValues, Env.fieldValues, node ho i value h.1, fieldValues ho i fs h.2]

theorem loopValues (ho : env'.options = env.options) (i : Indent) : (vs : List LoopVar) →
    AgreeAt env env' (initPositions env.options.overlappingInterfaces vs) →
    env'.loopValues i vs = env.loopValues i vs
  | [], _ => rfl
  | ⟨_, value⟩ :: vs, h => by
    rw [initPositions, append_iff] at h
    rw [Env.loopValues, Env.loopValues, node ho i value h.1, loopValues ho i vs h.2]

theorem stepLefts (ho : env'.options = env.options) (i : Indent) : (ss : List LoopStep) →
    AgreeAt env env' (leftPositions env.options.overlappingInterfaces ss) →
    env'.stepLefts i ss = env.stepLefts i ss
  | [], _ => rfl
  | ⟨left, _⟩ :: ss, h => by
    rw [leftPositions, append_iff] at h
    rw [Env.stepLefts, Env.stepLefts, node ho i left h.1, stepLefts ho i ss h.2]

theorem stepRights (ho : env'.options = env.options) (i : Indent) : (ss : List LoopStep) →
    AgreeAt env env' (rightPositions env.options.overlappingInterfaces ss) →
    env'.stepRights i ss = env.stepRights i ss
  | [], _ => rfl
  | ⟨_, right⟩ :: ss, h => by
    rw [rightPositions, append_iff] at h
    rw [Env.stepRights, Env.stepRights, node ho i right h.1, stepRights ho i ss h.2]

end

/-! ## Declarations -/

section

variable (ho : env'.options = env.options)

include ho

theorem body (i : Indent) (n : Node)
    (h : AgreeAt env env' (n.positions env.options.overlappingInterfaces)) :
    env'.body i n = env.body i n := by
  simp only [Env.body, fun j => node ho j n h]

theorem typeDef (d : Binding)
    (h : AgreeAt env env' (d.type.positions env.options.overlappingInterfaces d.sourceName)) :
    env'.typeDef d = env.typeDef d := by
  rw [Env.typeDef, Env.typeDef, bindingType, bindingType, comments_of_options ho, type ho _ _ _ h]

theorem method (d : Binding) (byPointer : Bool) (m : Binding)
    (h : AgreeAt env env' (implementationPositions env.options.overlappingInterfaces
      (.methodDef d.sourceName m) m.type)) :
    env'.method d byPointer m = env.method d byPointer m := by
  rw [Env.method, Env.method]
  unfold implementationPositions at h
  cases himpl : m.type.implementation? with
  | none => rfl
  | some impl =>
    rw [himpl] at h
    obtain ⟨hsignature, hbody⟩ := parts h
    rw [append_iff] at hsignature
    simp only [comments_of_options ho, signature ho _ _ _ _ hsignature.1 hsignature.2,
      body ho _ _ hbody]

theorem funcDef (d : Binding)
    (h : AgreeAt env env' (implementationPositions env.options.overlappingInterfaces
      (.funcDef d) d.type)) :
    env'.funcDef d = env.funcDef d := by
  rw [Env.funcDef, Env.funcDef]
  unfold implementationPositions at h
  cases himpl : d.type.implementation? with
  | none => rfl
  | some impl =>
    rw [himpl] at h
    obtain ⟨hsignature, hbody⟩ := parts h
    rw [append_iff] at hsignature
    simp only [comments_of_options ho, funcHead, signature ho _ _ _ _ hsignature.1 hsignature.2,
      body ho _ _ hbody]

theorem methodSet (d : Binding)
    (h : AgreeAt env env' ((Decl.type d).methodPositions env.options.overlappingInterfaces)) :
    env'.methodSet d = env.methodSet d := by
  obtain ⟨name, sourceName, comments, t⟩ := d
  cases t with
  | struct names fields byPointer methods =>
    have hmethods : methods.flatMap (env'.method
          ⟨name, sourceName, comments, .struct names fields byPointer methods⟩ byPointer) =
        methods.flatMap (env.method
          ⟨name, sourceName, comments, .struct names fields byPointer methods⟩ byPointer) := by
      apply List.flatMap_congr
      intro m hm
      refine method ho _ byPointer m fun p hp => h p ?_
      exact List.mem_flatMap.mpr ⟨m, hm, hp⟩
    simp only [Env.methodSet, hmethods]
  | _ => rfl

theorem valueDoc (i : Indent) (v : ValueDecl)
    (h : AgreeAt env env' (v.positions env.options.overlappingInterfaces)) :
    env'.valueDoc i v = env.valueDoc i v := by
  obtain ⟨kind, d, value, ok⟩ := v
  rw [ValueDecl.positions, append_iff] at h
  rw [Env.valueDoc, Env.valueDoc, nodeOpt ho i value h.2]
  have htype (hshape : ∀ b, VarShape.topLevel value ok ≠ .checked b) :
      env'.declaredType i d.type value.isSome = env.declaredType i d.type value.isSome :=
    declaredType ho i d.type value.isSome fun hshown => by
      have htype := h.1
      rwa [topTypePositions_of_not_checked hshape hshown] at htype
  cases hshape : VarShape.topLevel value ok with
  | checked _ => rfl
  | inferred => simp only [htype (by simp [hshape])]
  | declared => simp only [htype (by simp [hshape])]

theorem run (vs : List ValueDecl)
    (h : ∀ v ∈ vs, AgreeAt env env' (v.positions env.options.overlappingInterfaces)) :
    env'.run vs = env.run vs := by
  have hentry : ∀ v ∈ vs, env'.groupEntry v = env.groupEntry v := by
    intro v hv
    rw [groupEntry, groupEntry, comments_of_options ho, valueDoc ho _ v (h v hv)]
  have hlater : ∀ v ∈ vs, env'.laterEntry v = env.laterEntry v := by
    intro v hv
    rw [laterEntry, laterEntry, showsAny_of_options ho, hentry v hv]
  rcases vs with _ | ⟨v, _ | ⟨w, ws⟩⟩
  · rfl
  · rw [Env.run, Env.run, plainValue, plainValue, comments_of_options ho,
      valueDoc ho _ v (h v List.mem_cons_self)]
  · rw [Env.run, Env.run, hentry v List.mem_cons_self,
      List.flatMap_congr fun u hu => hlater u (List.mem_cons_of_mem _ hu)] <;> simp

theorem values (ds : List Decl)
    (h : AgreeAt env env' (ds.flatMap (·.valuePositions env.options.overlappingInterfaces))) :
    env'.values ds = env.values ds := by
  rw [Env.values, Env.values]
  apply List.flatMap_congr
  intro vs hvs
  refine run ho vs fun v hv p hp => ?_
  -- A run is made of declarations of the module.
  have hmem : v ∈ ds.filterMap Decl.value? := by
    rw [← ValueDecl.flatten_runs (ds.filterMap Decl.value?)]
    exact List.mem_flatten_of_mem hvs hv
  obtain ⟨d, hd, hvalue⟩ := List.mem_filterMap.mp hmem
  refine h p (List.mem_flatMap.mpr ⟨d, hd, ?_⟩)
  rwa [Decl.valuePositions_of_value? hvalue]

/-- The body of a module is written in the same way. -/
theorem moduleBody (hdecls : env'.module.decls = env.module.decls)
    (h : AgreeAt env env' env.positions) : env'.moduleBody = env.moduleBody := by
  rw [positions, Module.positions, append_iff, append_iff, append_iff] at h
  obtain ⟨⟨⟨htypes, hvalues⟩, hmethods⟩, hfuncs⟩ := h
  rw [Env.moduleBody, Env.moduleBody, Module.typeDefs, Module.typeDefs, Module.funcDefs,
    Module.funcDefs, hdecls, values ho _ hvalues]
  have hdef {d : Binding} (hd : d ∈ env.module.decls.filterMap Decl.typeDef?) :
      Decl.type d ∈ env.module.decls := by
    obtain ⟨decl, hdecl, htype⟩ := List.mem_filterMap.mp hd
    cases decl <;> cases htype
    exact hdecl
  congr 1
  · congr 1
    · congr 1
      apply List.flatMap_congr
      intro d hd
      exact typeDef ho d fun p hp => htypes p (List.mem_flatMap.mpr ⟨_, hdef hd, hp⟩)
    · apply List.flatMap_congr
      intro d hd
      exact methodSet ho d fun p hp => hmethods p (List.mem_flatMap.mpr ⟨_, hdef hd, hp⟩)
  · apply List.flatMap_congr
    intro d hd
    obtain ⟨decl, hdecl, hfunc⟩ := List.mem_filterMap.mp hd
    cases decl <;> cases hfunc
    exact funcDef ho d fun p hp => hfuncs p (List.mem_flatMap.mpr ⟨_, hdecl, hp⟩)

end

end AgreeAt

end Env

end GoScribe
