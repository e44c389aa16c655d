import GoScribe.Render.GoFile
import Mathlib.Tactic.Common

/-!
# Erasing what is not shown

Options leave comments and embedded interfaces out of the text.  The same text is written if they are
taken out of the tree instead: `Erasure` says what is taken out, `erase` takes it out of a tree at any
depth, and `Erasure.Between` relates two ways to render of which the first shows what the second shows
of the erased tree.  Main statement: `Erasure.Between.moduleBody`.

With nothing erased this is a congruence: rendering reads no other part of the options.
-/

namespace GoScribe

/-- What is taken out of a tree. -/
structure Erasure where
  comments : Bool
  embeds : Bool

namespace Erasure

/-- Nothing is taken out. -/
def nothing : Erasure := ⟨false, false⟩

/-- Every comment is taken out. -/
def allComments : Erasure := ⟨true, false⟩

/-- The embedded interfaces of every interface are taken out. -/
def allEmbeds : Erasure := ⟨false, true⟩

/-- What is left of a list of comments. -/
def commentsLeft (e : Erasure) (cs : List Comment) : List Comment := if e.comments then [] else cs

/-- What is left of the embedded interfaces of an interface. -/
def embedsLeft (e : Erasure) (names : List String) : List String := if e.embeds then [] else names

end Erasure

/-! ## Erased trees -/

mutual

/-- What is left of a type. -/
def GoType.erase (e : Erasure) : GoType → GoType
  | .empty => .empty
  | .named qualifiedName => .named qualifiedName
  | .unresolved id => .unresolved id
  | .array elem => .array (elem.erase e)
  | .pointer target => .pointer (target.erase e)
  | .interface names methods isTypeVar =>
    .interface (e.embedsLeft names) (eraseBindings e methods) isTypeVar
  | .struct names fields byPointer methods =>
    .struct names (eraseBindings e fields) byPointer (eraseBindings e methods)
  | .func params results body =>
    .func (eraseBindings e params) (eraseBindings e results) (eraseOption e body)

/-- What is left of a binding. -/
def Binding.erase (e : Erasure) : Binding → Binding
  | ⟨name, sourceName, comments, type⟩ => ⟨name, sourceName, e.commentsLeft comments, type.erase e⟩

/-- What is left of several bindings. -/
def eraseBindings (e : Erasure) : List Binding → List Binding
  | [] => []
  | b :: bs => b.erase e :: eraseBindings e bs

/-- What is left of a node. -/
def Node.erase (e : Erasure) : Node → Node
  | .litStr value => .litStr value
  | .litBool value => .litBool value
  | .litNum value => .litNum value
  | .litInt value => .litInt value
  | .litArr type elems => .litArr (type.erase e) (eraseNodes e elems)
  | .litObj type fields => .litObj (type.erase e) (eraseFields e fields)
  | .const d value => .const (d.erase e) (value.erase e)
  | .var d value ok => .var (d.erase e) (eraseOption e value) ok
  | .block stmts => .block (eraseNodes e stmts)
  | .ifElse cond thenBranch elseBranch =>
    .ifElse (cond.erase e) (thenBranch.erase e) (eraseOption e elseBranch)
  | .forRange item items body => .forRange item (items.erase e) (body.erase e)
  | .forClassic init cond step body =>
    .forClassic (eraseInits e init) (eraseOption e cond) (eraseSteps e step) (body.erase e)
  | .forWhile cond body => .forWhile (cond.erase e) (body.erase e)
  | .set left right => .set (left.erase e) (right.erase e)
  | .ret value => .ret (eraseOption e value)
  | .panic arg => .panic (arg.erase e)
  | .comments cs => .comments (e.commentsLeft cs)
  | .sym name => .sym name
  | .pkgSym pkg symbol => .pkgSym pkg symbol
  | .nil => .nil
  | .call callee args => .call (callee.erase e) (eraseNodes e args)
  | .func signature => .func (signature.erase e)
  | .dot left right => .dot (left.erase e) (right.erase e)
  | .index left right => .index (left.erase e) (right.erase e)
  | .toType expr target => .toType (expr.erase e) (target.erase e)
  | .isType value typeName => .isType value typeName
  | .op1 op operand => .op1 op (operand.erase e)
  | .op2 op left right => .op2 op (left.erase e) (right.erase e)
  | .unsupported kind detail => .unsupported kind detail

/-- What is left of several nodes. -/
def eraseNodes (e : Erasure) : List Node → List Node
  | [] => []
  | n :: ns => n.erase e :: eraseNodes e ns

/-- What is left of a node that may be missing. -/
def eraseOption (e : Erasure) : Option Node → Option Node
  | none => none
  | some n => some (n.erase e)

/-- What is left of the fields of a composite literal. -/
def eraseFields (e : Erasure) : List FieldValue → List FieldValue
  | [] => []
  | ⟨name, value⟩ :: fs => ⟨name, value.erase e⟩ :: eraseFields e fs

/-- What is left of the variables that a loop introduces. -/
def eraseInits (e : Erasure) : List LoopVar → List LoopVar
  | [] => []
  | ⟨name, value⟩ :: vs => ⟨name, value.erase e⟩ :: eraseInits e vs

/-- What is left of a loop's step clause. -/
def eraseSteps (e : Erasure) : List LoopStep → List LoopStep
  | [] => []
  | ⟨left, right⟩ :: ss => ⟨left.erase e, right.erase e⟩ :: eraseSteps e ss

end

/-- What is left of a declaration. -/
def Decl.erase (e : Erasure) : Decl → Decl
  | type d => type (d.erase e)
  | const d value => const (d.erase e) (value.erase e)
  | var d value ok => var (d.erase e) (eraseOption e value) ok
  | func d => func (d.erase e)

/-- What is left of a constant or variable. -/
def ValueDecl.erase (e : Erasure) (v : ValueDecl) : ValueDecl :=
  { v with decl := v.decl.erase e, value := eraseOption e v.value }

/-- What is left of a module. -/
def Module.erase (e : Erasure) (m : Module) : Module :=
  { m with decls := m.decls.map (Decl.erase e) }

/-! ## What erasing keeps

Everything about a tree that decides how it is laid out. -/

section

variable (e : Erasure)

@[simp] theorem Binding.name_erase (b : Binding) : (b.erase e).name = b.name := by
  cases b
  rfl

@[simp] theorem Binding.sourceName_erase (b : Binding) : (b.erase e).sourceName = b.sourceName := by
  cases b
  rfl

@[simp] theorem Binding.comments_erase (b : Binding) :
    (b.erase e).comments = e.commentsLeft b.comments := by
  cases b
  rfl

@[simp] theorem Binding.type_erase (b : Binding) : (b.erase e).type = b.type.erase e := by
  cases b
  rfl

theorem eraseBindings_eq_map (bs : List Binding) : eraseBindings e bs = bs.map (Binding.erase e) := by
  induction bs with
  | nil => rfl
  | cons b bs ih => rw [eraseBindings, ih, List.map_cons]

@[simp] theorem isEmpty_eraseBindings (bs : List Binding) :
    (eraseBindings e bs).isEmpty = bs.isEmpty := by
  rw [eraseBindings_eq_map, List.isEmpty_map]

@[simp] theorem resultsNeedParens_eraseBindings (withNames : Bool) (bs : List Binding) :
    resultsNeedParens withNames (eraseBindings e bs) = resultsNeedParens withNames bs := by
  match bs with
  | [] => rfl
  | [b] => simp [eraseBindings, resultsNeedParens]
  | _ :: _ :: _ => rfl

@[simp] theorem nameWidth_eraseBindings (bs : List Binding) :
    nameWidth (eraseBindings e bs) = nameWidth bs := by
  simp [nameWidth, eraseBindings_eq_map, Function.comp_def]

@[simp] theorem isSome_eraseOption (n : Option Node) : (eraseOption e n).isSome = n.isSome := by
  cases n <;> rfl

namespace GoType

@[simp] theorem isEmpty_erase (t : GoType) : (t.erase e).isEmpty = t.isEmpty := by
  cases t <;> rfl

@[simp] theorem isFunc_erase (t : GoType) : (t.erase e).isFunc = t.isFunc := by
  cases t <;> rfl

theorem implementation?_erase (t : GoType) :
    (t.erase e).implementation? = t.implementation?.map fun (params, results, body) =>
      (eraseBindings e params, eraseBindings e results, body.erase e) := by
  cases t with
  | func params results body => cases body <;> rfl
  | _ => rfl

end GoType

namespace Node

@[simp] theorem isStatement_erase (n : Node) : (n.erase e).isStatement = n.isStatement := by
  cases n <;> rfl

@[simp] theorem isAssertion_erase (n : Node) : (n.erase e).isAssertion = n.isAssertion := by
  cases n <;> rfl

@[simp] theorem isFuncLiteral_erase (n : Node) : (n.erase e).isFuncLiteral = n.isFuncLiteral := by
  cases n <;> rfl

@[simp] theorem needsParens_erase (parent : Parent) (n : Node) :
    (n.erase e).needsParens parent = n.needsParens parent := by
  cases n <;> rfl

end Node

@[simp] theorem VarShape.local_erase (type : GoType) (value : Option Node) (ok : Option OkBinding) :
    VarShape.local (type.erase e) (eraseOption e value) ok = VarShape.local type value ok := by
  cases value with
  | none => rfl
  | some v => simp [eraseOption, VarShape.local]

@[simp] theorem VarShape.topLevel_erase (value : Option Node) (ok : Option OkBinding) :
    VarShape.topLevel (eraseOption e value) ok = VarShape.topLevel value ok := by
  cases value with
  | none => rfl
  | some v => cases ok <;> simp [eraseOption, VarShape.topLevel]

@[simp] theorem statementLine_erase (i : Indent) (n : Node) (text : Doc) :
    statementLine i (n.erase e) text = statementLine i n text := by
  simp [statementLine]

@[simp] theorem bodyDoc_erase (i : Indent) (n : Node) (render : Indent → Doc) :
    bodyDoc i (n.erase e) render = bodyDoc i n render := by
  have hline := statementLine_erase e i.deeper n (render i.deeper)
  cases n with
  | block => rfl
  | _ => exact congrArg (braces i) hline

@[simp] theorem names_eraseInits (vs : List LoopVar) :
    (eraseInits e vs).map LoopVar.name = vs.map LoopVar.name := by
  induction vs with
  | nil => rfl
  | cons v vs ih =>
    obtain ⟨name, value⟩ := v
    rw [eraseInits, List.map_cons, List.map_cons, ih]

theorem Decl.typeDef?_erase (d : Decl) : (d.erase e).typeDef? = d.typeDef?.map (Binding.erase e) := by
  cases d <;> rfl

theorem Decl.funcDef?_erase (d : Decl) : (d.erase e).funcDef? = d.funcDef?.map (Binding.erase e) := by
  cases d <;> rfl

theorem Decl.value?_erase (d : Decl) : (d.erase e).value? = d.value?.map (ValueDecl.erase e) := by
  cases d <;> rfl

/-- The declarations of one sort among the erased ones are what is left of those of that sort. -/
theorem filterMap_map_erase {α : Type} {select : Decl → Option α} {erase : α → α}
    (h : ∀ d, select (d.erase e) = (select d).map erase) (ds : List Decl) :
    (ds.map (Decl.erase e)).filterMap select = (ds.filterMap select).map erase := by
  rw [List.filterMap_map, List.map_filterMap]
  exact congrArg (List.filterMap · ds) (funext h)

/-- Erasing keeps the runs of neighbours. -/
theorem ValueDecl.runs_map_erase (vs : List ValueDecl) :
    runs (vs.map (ValueDecl.erase e)) = (runs vs).map (List.map (ValueDecl.erase e)) := by
  induction vs with
  | nil => rfl
  | cons v vs ih =>
    rw [List.map_cons, runs, runs, ih]
    match runs vs with
    | [] | [] :: _ => rfl
    | (w :: ws) :: rs =>
      show (if v.kind = w.kind then _ else _) = List.map _ (if v.kind = w.kind then _ else _)
      split <;> rfl

end

/-! ## Rendering an erased tree -/

/-- What `env` shows of a tree is what `env'` shows of the tree that `e` leaves of it. -/
structure Erasure.Between (e : Erasure) (env env' : Env) : Prop where
  resolve : env'.resolve = env.resolve
  importFor : env'.module.importFor = env.module.importFor
  typeVar : env'.options.typeVar = env.options.typeVar
  comments : env.options.includeComments = (env'.options.includeComments && !e.comments)
  embeds : env.options.overlappingInterfaces = (env'.options.overlappingInterfaces && !e.embeds)

namespace Erasure.Between

variable {e : Erasure} {env env' : Env}

section

variable (h : e.Between env env')

include h

theorem commentsDoc (i : Indent) (cs : List Comment) :
    env'.comments i (e.commentsLeft cs) = env.comments i cs := by
  unfold Env.comments commentsLeft
  rw [h.comments]
  cases e.comments <;> cases env'.options.includeComments <;> rfl

theorem showsAny (cs : List Comment) : env'.showsAny (e.commentsLeft cs) = env.showsAny cs := by
  unfold Env.showsAny commentsLeft
  rw [h.comments]
  cases e.comments <;> cases env'.options.includeComments <;> rfl

theorem shownEmbeds (names : List String) :
    env'.shownEmbeds (e.embedsLeft names) = env.shownEmbeds names := by
  unfold Env.shownEmbeds embedsLeft
  rw [h.embeds]
  cases e.embeds <;> cases env'.options.overlappingInterfaces <;> rfl

theorem useOf (goName : String) : env'.useOf goName = env.useOf goName := by
  rw [Env.useOf, Env.useOf, h.importFor]

theorem symbol (s : Symbol) : env'.symbol s = env.symbol s := by
  unfold Env.symbol
  simp only [h.useOf]

theorem typeName (qualifiedName : String) : env'.typeName qualifiedName = env.typeName qualifiedName := by
  unfold Env.typeName
  simp only [h.resolve, h.symbol]

theorem typeVarDoc : env'.typeVar = env.typeVar := by
  unfold Env.typeVar
  rw [h.typeVar]

theorem embedLines (i : Indent) (names : List String) :
    env'.embedLines i names = env.embedLines i names := by
  unfold Env.embedLines
  simp only [h.typeName]

theorem number (value : Double) : env'.number value = env.number value := by
  unfold Env.number
  simp only [h.useOf]

end

/-! ### Types -/

mutual

/-- An erased type is written like the type. -/
theorem type (h : e.Between env env') (i : Indent) (owner : String) : (t : GoType) →
    env'.type i owner (t.erase e) = env.type i owner t
  | .empty | .unresolved _ => rfl
  | .named qualifiedName => h.typeName qualifiedName
  | .array elem => by rw [GoType.erase, Env.type, Env.type, type h i "" elem]
  | .pointer target => by rw [GoType.erase, Env.type, Env.type, type h i "" target]
  | .interface names methods isTypeVar => by
    rw [GoType.erase, Env.type, Env.type, h.shownEmbeds, isEmpty_eraseBindings, h.typeVarDoc,
      h.embedLines, methodLines h i.deeper owner methods]
  | .struct names fields byPointer methods => by
    rw [GoType.erase, Env.type, Env.type, isEmpty_eraseBindings, nameWidth_eraseBindings,
      fieldLines h i.deeper (nameWidth fields) fields]
  | .func params results body => by
    rw [GoType.erase, Env.type, Env.type, signatureDoc, signatureDoc, isSome_eraseOption,
      resultsNeedParens_eraseBindings, bindingTypes h i body.isSome params,
      bindingTypes h i body.isSome results]

theorem bindingTypes (h : e.Between env env') (i : Indent) (withNames : Bool) : (bs : List Binding) →
    env'.bindingTypes i withNames (eraseBindings e bs) = env.bindingTypes i withNames bs
  | [] => rfl
  | ⟨name, sourceName, _, t⟩ :: bs => by
    rw [eraseBindings, Binding.erase, Env.bindingTypes, Env.bindingTypes, type h i sourceName t,
      bindingTypes h i withNames bs]

theorem methodLines (h : e.Between env env') (i : Indent) (owner : String) : (bs : List Binding) →
    env'.methodLines i owner (eraseBindings e bs) = env.methodLines i owner bs
  | [] => rfl
  | ⟨name, sourceName, comments, .func params results body⟩ :: bs => by
    rw [eraseBindings, Binding.erase, GoType.erase, Env.methodLines, Env.methodLines, h.commentsDoc,
      signatureDoc, signatureDoc, resultsNeedParens_eraseBindings, bindingTypes h i false params,
      bindingTypes h i false results, methodLines h i owner bs]
  | ⟨_, _, _, .empty⟩ :: bs | ⟨_, _, _, .named _⟩ :: bs | ⟨_, _, _, .unresolved _⟩ :: bs
  | ⟨_, _, _, .array _⟩ :: bs | ⟨_, _, _, .pointer _⟩ :: bs | ⟨_, _, _, .interface ..⟩ :: bs
  | ⟨_, _, _, .struct ..⟩ :: bs =>
    congrArg (_ :: ·) (methodLines h i owner bs)

theorem fieldLines (h : e.Between env env') (i : Indent) (width : Nat) : (bs : List Binding) →
    env'.fieldLines i width (eraseBindings e bs) = env.fieldLines i width bs
  | [] => rfl
  | ⟨name, sourceName, comments, t⟩ :: bs => by
    rw [eraseBindings, Binding.erase, Env.fieldLines, Env.fieldLines, h.commentsDoc,
      type h i sourceName t, fieldLines h i width bs]

end

/-! ### Nodes -/

section

variable (h : e.Between env env')

include h

theorem declaredType (i : Indent) (t : GoType) (hasValue : Bool) :
    env'.declaredType i (t.erase e) hasValue = env.declaredType i t hasValue := by
  rw [Env.declaredType, Env.declaredType, GoType.isEmpty_erase, h.type]

theorem constDoc (i : Indent) (d : Binding) (value : Doc) :
    env'.constDoc i (d.erase e) value = env.constDoc i d value := by
  simp only [Env.constDoc, Binding.comments_erase, Binding.name_erase, Binding.type_erase,
    h.commentsDoc, h.declaredType]

theorem localVarDoc (i : Indent) (d : Binding) (shape : VarShape) (value : Option Doc) :
    env'.localVarDoc i (d.erase e) shape value = env.localVarDoc i d shape value := by
  simp only [Env.localVarDoc, Binding.comments_erase, Binding.name_erase, Binding.type_erase,
    h.commentsDoc, h.declaredType]

theorem signature (i : Indent) (withNames : Bool) (params results : List Binding) :
    env'.signature i withNames (eraseBindings e params) (eraseBindings e results) =
      env.signature i withNames params results := by
  simp only [Env.signature, signatureDoc, resultsNeedParens_eraseBindings, h.bindingTypes]

theorem funcHead (i : Indent) (name : String) (withBody : Bool) (params results : List Binding) :
    env'.funcHead i name withBody (eraseBindings e params) (eraseBindings e results) =
      env.funcHead i name withBody params results := by
  rw [Env.funcHead, Env.funcHead, h.signature]

theorem funcLiteralDoc (i : Indent) (name sourceName : String) (params results : List Binding)
    (body : Option Doc) :
    env'.funcLiteralDoc i name sourceName (eraseBindings e params) (eraseBindings e results) body =
      env.funcLiteralDoc i name sourceName params results body := by
  simp only [Env.funcLiteralDoc, h.funcHead]

end

mutual

/-- An erased node is written like the node. -/
theorem node (h : e.Between env env') (i : Indent) : (n : Node) →
    env'.node i (n.erase e) = env.node i n
  | .litStr _ | .litBool _ | .litInt _ | .sym _ | .nil | .isType .. | .unsupported .. => rfl
  | .litNum value => h.number value
  | .pkgSym pkg symbol => h.symbol ⟨pkg, symbol⟩
  | .comments cs => h.commentsDoc i cs
  | .litArr type elems => by
    rw [Node.erase, Env.node, Env.node, Binding.type_erase, h.type, nodes h i elems]
  | .litObj type fields => by
    rw [Node.erase, Env.node, Env.node, Binding.type_erase, h.type, fieldValues h i fields]
  | .const d value => by
    rw [Node.erase, Env.node, Env.node, h.constDoc, node h i value]
  | .var d none ok => by
    have hshape := VarShape.local_erase e d.type none ok
    rw [eraseOption] at hshape
    rw [Node.erase, eraseOption, Env.node, Env.node, h.localVarDoc, Binding.type_erase, hshape]
  | .var d (some value) ok => by
    have hshape := VarShape.local_erase e d.type (some value) ok
    rw [eraseOption] at hshape
    rw [Node.erase, eraseOption, Env.node, Env.node, h.localVarDoc, Binding.type_erase, hshape,
      node h i value]
  | .block [] => rfl
  | .block (s :: ss) => by
    rw [Node.erase, eraseNodes, Env.node, Env.node, statementLine_erase, node h i.deeper s,
      statements h i.deeper ss]
  | .ifElse cond thenBranch elseBranch => by
    simp only [Node.erase, Env.node, node h i cond, bodyDoc_erase, fun j => node h j thenBranch,
      elseDoc h i elseBranch]
  | .forRange item items body => by
    simp only [Node.erase, Env.node, node h i items, bodyDoc_erase, fun j => node h j body]
  | .forClassic init cond step body => by
    simp only [Node.erase, Env.node, names_eraseInits, loopValues h i init, nodeOpt h i cond,
      stepLefts h i step, stepRights h i step, bodyDoc_erase, fun j => node h j body]
  | .forWhile cond body => by
    simp only [Node.erase, Env.node, node h i cond, bodyDoc_erase, fun j => node h j body]
  | .set left right => by
    rw [Node.erase, Env.node, Env.node, node h i left, node h i right]
  | .ret none => rfl
  | .ret (some value) => by
    rw [Node.erase, eraseOption, Env.node, Env.node, node h i value]
  | .panic arg => by
    rw [Node.erase, Env.node, Env.node, node h i arg]
  | .call callee args => by
    rw [Node.erase, Env.node, Env.node, Node.needsParens_erase, node h i callee, nodes h i args]
  | .func ⟨name, sourceName, comments, .func params results (some body)⟩ => by
    simp only [Node.erase, Binding.erase, GoType.erase, eraseOption, Env.node, h.funcLiteralDoc,
      bodyDoc_erase, fun j => node h j body]
  | .func ⟨name, sourceName, comments, .func params results none⟩ => by
    simp only [Node.erase, Binding.erase, GoType.erase, eraseOption, Env.node, h.funcLiteralDoc]
  | .func ⟨_, _, _, .empty⟩ | .func ⟨_, _, _, .named _⟩ | .func ⟨_, _, _, .unresolved _⟩
  | .func ⟨_, _, _, .array _⟩ | .func ⟨_, _, _, .pointer _⟩ | .func ⟨_, _, _, .interface ..⟩
  | .func ⟨_, _, _, .struct ..⟩ => rfl
  | .dot left right => by
    rw [Node.erase, Env.node, Env.node, node h i left, node h i right]
  | .index left right => by
    rw [Node.erase, Env.node, Env.node, node h i left, node h i right]
  | .toType expr target => by
    rw [Node.erase, Env.node, Env.node, node h i expr, h.type]
  | .op1 op operand => by
    rw [Node.erase, Env.node, Env.node, Node.needsParens_erase, node h i operand]
  | .op2 op left right => by
    rw [Node.erase, Env.node, Env.node, Node.needsParens_erase, Node.needsParens_erase,
      node h i left, node h i right]

theorem nodes (h : e.Between env env') (i : Indent) : (ns : List Node) →
    env'.nodes i (eraseNodes e ns) = env.nodes i ns
  | [] => rfl
  | n :: ns => by rw [eraseNodes, Env.nodes, Env.nodes, node h i n, nodes h i ns]

theorem nodeOpt (h : e.Between env env') (i : Indent) : (n : Option Node) →
    env'.nodeOpt i (eraseOption e n) = env.nodeOpt i n
  | none => rfl
  | some n => by rw [eraseOption, Env.nodeOpt, Env.nodeOpt, node h i n]

theorem statements (h : e.Between env env') (i : Indent) : (ns : List Node) →
    env'.statements i (eraseNodes e ns) = env.statements i ns
  | [] => rfl
  | n :: ns => by
    rw [eraseNodes, Env.statements, Env.statements, statementLine_erase, node h i n,
      statements h i ns]

theorem elseDoc (h : e.Between env env') (i : Indent) : (n : Option Node) →
    env'.elseDoc i (eraseOption e n) = env.elseDoc i n
  | none => rfl
  | some n => by
    have hbody : bodyDoc i (n.erase e) (fun j => env'.node j (n.erase e)) =
        bodyDoc i n (fun j => env.node j n) := by
      simp only [bodyDoc_erase, fun j => node h j n]
    cases n with
    | ifElse cond thenBranch elseBranch =>
      simp only [eraseOption, Node.erase, Env.elseDoc, node h i cond, bodyDoc_erase,
        fun j => node h j thenBranch, elseDoc h i elseBranch]
    | _ => exact congrArg (Doc.str " else " ++ ·) hbody

theorem fieldValues (h : e.Between env env') (i : Indent) : (fs : List FieldValue) →
    env'.fieldValues i (eraseFields e fs) = env.fieldValues i fs
  | [] => rfl
  | ⟨none, value⟩ :: fs => by
    rw [eraseFields, Env.fieldValues, Env.fieldValues, node h i value, fieldValues h i fs]
  | ⟨some name, value⟩ :: fs => by
    rw [eraseFields, Env.fieldValues, Env.fieldValues, node h i value, fieldValues h i fs]

theorem loopValues (h : e.Between env env') (i : Indent) : (vs : List LoopVar) →
    env'.loopValues i (eraseInits e vs) = env.loopValues i vs
  | [] => rfl
  | ⟨_, value⟩ :: vs => by
    rw [eraseInits, Env.loopValues, Env.loopValues, node h i value, loopValues h i vs]

theorem stepLefts (h : e.Between env env') (i : Indent) : (ss : List LoopStep) →
    env'.stepLefts i (eraseSteps e ss) = env.stepLefts i ss
  | [] => rfl
  | ⟨left, _⟩ :: ss => by
    rw [eraseSteps, Env.stepLefts, Env.stepLefts, node h i left, stepLefts h i ss]

theorem stepRights (h : e.Between env env') (i : Indent) : (ss : List LoopStep) →
    env'.stepRights i (eraseSteps e ss) = env.stepRights i ss
  | [] => rfl
  | ⟨_, right⟩ :: ss => by
    rw [eraseSteps, Env.stepRights, Env.stepRights, node h i right, stepRights h i ss]

end

section

variable (h : e.Between env env')

include h

theorem body (i : Indent) (n : Node) : env'.body i (n.erase e) = env.body i n := by
  simp only [Env.body, bodyDoc_erase, h.node]

/-! ### Declarations -/

theorem typeDef (d : Binding) : env'.typeDef (d.erase e) = env.typeDef d := by
  simp only [Env.typeDef, Env.bindingType, Binding.comments_erase, Binding.name_erase,
    Binding.sourceName_erase, Binding.type_erase, h.commentsDoc, h.type]

theorem method (d : Binding) (byPointer : Bool) (m : Binding) :
    env'.method (d.erase e) byPointer (m.erase e) = env.method d byPointer m := by
  unfold Env.method
  rw [Binding.type_erase, GoType.implementation?_erase]
  cases m.type.implementation? with
  | none => simp only [Option.map_none, Binding.sourceName_erase]
  | some impl =>
    simp only [Option.map_some, Binding.comments_erase, Binding.name_erase, h.commentsDoc,
      h.signature, h.body]

theorem methods (d : Binding) (byPointer : Bool) (ms : List Binding) :
    (eraseBindings e ms).flatMap (env'.method (d.erase e) byPointer) =
      ms.flatMap (env.method d byPointer) := by
  rw [eraseBindings_eq_map, List.flatMap_map, ← funext (h.method d byPointer)]

theorem methodSet (d : Binding) : env'.methodSet (d.erase e) = env.methodSet d := by
  obtain ⟨name, sourceName, comments, t⟩ := d
  cases t with
  | struct names fields byPointer ms =>
    have hmethods := h.methods ⟨name, sourceName, comments, .struct names fields byPointer ms⟩
      byPointer ms
    rw [Binding.erase, GoType.erase] at hmethods
    simp only [Binding.erase, GoType.erase, Env.methodSet, isEmpty_eraseBindings, hmethods]
  | _ => rfl

theorem funcDef (d : Binding) : env'.funcDef (d.erase e) = env.funcDef d := by
  unfold Env.funcDef
  rw [Binding.type_erase, GoType.implementation?_erase]
  cases d.type.implementation? with
  | none => simp only [Option.map_none, Binding.sourceName_erase]
  | some impl =>
    simp only [Option.map_some, Binding.comments_erase, Binding.name_erase, h.commentsDoc,
      h.funcHead, h.body]

theorem valueDoc (i : Indent) (v : ValueDecl) : env'.valueDoc i (v.erase e) = env.valueDoc i v := by
  simp only [Env.valueDoc, ValueDecl.erase, VarShape.topLevel_erase, Binding.name_erase,
    Binding.type_erase, isSome_eraseOption, h.declaredType, h.nodeOpt]

theorem groupEntry (v : ValueDecl) : env'.groupEntry (v.erase e) = env.groupEntry v := by
  rw [Env.groupEntry, Env.groupEntry, h.valueDoc, ValueDecl.erase, Binding.comments_erase,
    h.commentsDoc]

theorem laterEntry (v : ValueDecl) : env'.laterEntry (v.erase e) = env.laterEntry v := by
  rw [Env.laterEntry, Env.laterEntry, h.groupEntry, ValueDecl.erase, Binding.comments_erase,
    h.showsAny]

theorem run (vs : List ValueDecl) : env'.run (vs.map (ValueDecl.erase e)) = env.run vs := by
  match vs with
  | [] => rfl
  | [v] =>
    have hplain : env'.plainValue (v.erase e) = env.plainValue v := by
      rw [Env.plainValue, Env.plainValue, h.valueDoc, ValueDecl.erase, Binding.comments_erase,
        h.commentsDoc]
    exact congrArg (· ++ Doc.newline) hplain
  | v :: w :: ws =>
    have hlater : (List.map (ValueDecl.erase e) (w :: ws)).flatMap env'.laterEntry =
        (w :: ws).flatMap env.laterEntry := by
      rw [List.flatMap_map, ← funext h.laterEntry]
    show Doc.str v.kind.keyword ++ Doc.line " (" ++ env'.groupEntry (v.erase e) ++
      (List.map (ValueDecl.erase e) (w :: ws)).flatMap env'.laterEntry ++ Doc.line ")" ++
      Doc.newline = _
    rw [h.groupEntry, hlater]
    rfl

theorem values (ds : List Decl) : env'.values (ds.map (Decl.erase e)) = env.values ds := by
  rw [Env.values, Env.values, filterMap_map_erase e (Decl.value?_erase e), ValueDecl.runs_map_erase,
    List.flatMap_map]
  exact congrArg (List.flatMap · _) (funext h.run)

/-- The body of an erased module is written like that of the module. -/
theorem moduleBody (hdecls : env'.module.decls = env.module.decls.map (Decl.erase e)) :
    env'.moduleBody = env.moduleBody := by
  simp only [Env.moduleBody, Module.typeDefs, Module.funcDefs, hdecls,
    filterMap_map_erase e (Decl.typeDef?_erase e), filterMap_map_erase e (Decl.funcDef?_erase e),
    List.flatMap_map, h.typeDef, h.methodSet, h.funcDef, h.values]

end

end Erasure.Between

namespace Env

/-- The declarations are written as names are resolved and imported, and as three of the options say. -/
theorem parts_congr {env env' : Env} (hresolve : env'.resolve = env.resolve)
    (himport : env'.module.importFor = env.module.importFor)
    (hvar : env'.options.typeVar = env.options.typeVar)
    (hcomments : env'.options.includeComments = env.options.includeComments)
    (hembeds : env'.options.overlappingInterfaces = env.options.overlappingInterfaces) :
    env'.typeDef = env.typeDef ∧ env'.methodSet = env.methodSet ∧ env'.funcDef = env.funcDef ∧
      env'.values = env.values := by
  -- Both write a declaration as a module does from which nothing was erased.
  let kept : Env := ⟨env.module.erase .nothing, fun _ => env.resolve, env.options⟩
  have h : Erasure.nothing.Between env kept :=
    ⟨rfl, rfl, rfl, (Bool.and_true _).symm, (Bool.and_true _).symm⟩
  have h' : Erasure.nothing.Between env' kept :=
    ⟨hresolve.symm, himport.symm, hvar.symm, hcomments.trans (Bool.and_true _).symm,
      hembeds.trans (Bool.and_true _).symm⟩
  refine ⟨?_, ?_, ?_, ?_⟩
  · exact funext fun d => (h'.typeDef d).symm.trans (h.typeDef d)
  · exact funext fun d => (h'.methodSet d).symm.trans (h.methodSet d)
  · exact funext fun d => (h'.funcDef d).symm.trans (h.funcDef d)
  · exact funext fun ds => (h'.values ds).symm.trans (h.values ds)

/-- The body depends on the declarations, on how names are resolved and imported, and on three of the
options. -/
theorem moduleBody_congr {env env' : Env} (hdecls : env'.module.decls = env.module.decls)
    (hresolve : env'.resolve = env.resolve)
    (himport : env'.module.importFor = env.module.importFor)
    (hvar : env'.options.typeVar = env.options.typeVar)
    (hcomments : env'.options.includeComments = env.options.includeComments)
    (hembeds : env'.options.overlappingInterfaces = env.options.overlappingInterfaces) :
    env'.moduleBody = env.moduleBody := by
  obtain ⟨htypeDef, hmethodSet, hfuncDef, hvalues⟩ := parts_congr hresolve himport hvar hcomments hembeds
  rw [moduleBody, moduleBody, Module.typeDefs, Module.typeDefs, Module.funcDefs, Module.funcDefs, hdecls,
    htypeDef, hmethodSet, hfuncDef, hvalues]

end Env

end GoScribe
