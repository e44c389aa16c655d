import GoScribe.Proofs.DocViews
import GoScribe.Render.GoFile

/-!
# Rendered positions

The places of a module that are written out, in the order in which they are written.  Not every part of
the tree is one of them: a function body inside a type is not, nor are the interfaces that an
interface embeds unless they are asked for, nor is a declared type that Go is left to infer.

Everything that a rendering does beside writing text is done at one of these positions, and `marksAt`
says what.
-/

namespace GoScribe

/-- A rendered position, given by what stands there. -/
inductive Position where
  | node (n : Node)
  | type (t : GoType)
  /-- The name of an interface that another one embeds. -/
  | embed (qualifiedName : String)
  /-- A method of the interface that `owner` names. -/
  | method (owner : String) (m : Binding)
  /-- The definition of a method of the struct that `owner` names. -/
  | methodDef (owner : String) (m : Binding)
  /-- The definition of a function. -/
  | funcDef (d : Binding)

/-! ## Types -/

mutual

/-- The positions of a type; `owner` names it if it is an interface.  Interfaces show what they embed
if `embeds` holds. -/
def GoType.positions (embeds : Bool) (owner : String) : GoType → List Position
  | .empty => [.type .empty]
  | .named qualifiedName => [.type (.named qualifiedName)]
  | .unresolved id => [.type (.unresolved id)]
  | .array elem => .type (.array elem) :: elem.positions embeds ""
  | .pointer target => .type (.pointer target) :: target.positions embeds ""
  | .interface names methods isTypeVar =>
    .type (.interface names methods isTypeVar) ::
      ((if embeds then names.map .embed else []) ++ methodPositions embeds owner methods)
  | .struct names fields byPointer methods =>
    .type (.struct names fields byPointer methods) :: bindingPositions embeds fields
  | .func params results body =>
    .type (.func params results body) ::
      (bindingPositions embeds params ++ bindingPositions embeds results)

/-- The positions of the types of parameters, results or fields. -/
def bindingPositions (embeds : Bool) : List Binding → List Position
  | [] => []
  | ⟨_, sourceName, _, type⟩ :: bs =>
    type.positions embeds sourceName ++ bindingPositions embeds bs

/-- The positions of the methods of an interface: each method, then its parameters and results. -/
def methodPositions (embeds : Bool) (owner : String) : List Binding → List Position
  | [] => []
  | ⟨name, sourceName, comments, .func params results body⟩ :: bs =>
    .method owner ⟨name, sourceName, comments, .func params results body⟩ ::
      (bindingPositions embeds params ++ bindingPositions embeds results ++
        methodPositions embeds owner bs)
  | ⟨name, sourceName, comments, type⟩ :: bs =>
    .method owner ⟨name, sourceName, comments, type⟩ :: methodPositions embeds owner bs

end

/-! ## Nodes -/

/-- A constant shows the type it is declared with unless it has none. -/
def constTypePositions (embeds : Bool) (type : GoType) : List Position :=
  if type.isEmpty then [] else type.positions embeds ""

/-- A variable inside a function shows the type it is declared with, unless it has a value that makes
it redundant or, having a value, it has no type. -/
def localTypePositions (embeds : Bool) (type : GoType) (value : Option Node) : List Position :=
  match value with
  | none => type.positions embeds ""
  | some v =>
    if v.isAssertion || v.isFuncLiteral || type.isFunc || type.isEmpty then []
    else type.positions embeds ""

/-- A variable at top level shows the type it is declared with, unless it is bound to the two results
of a checked type assertion or, having a value, it has no type. -/
def topTypePositions (embeds : Bool) (type : GoType) (value : Option Node) (ok : Option OkBinding) :
    List Position :=
  match value with
  | none => type.positions embeds ""
  | some v =>
    if (v.isAssertion && ok.isSome) || type.isEmpty then [] else type.positions embeds ""

/-- A variable that is declared with its type shows it, unless it has a value and no type. -/
theorem localTypePositions_of_declared {embeds : Bool} {type : GoType} {value : Option Node}
    {ok : Option OkBinding} (h : VarShape.local type value ok = .declared)
    (htype : (type.isEmpty && value.isSome) = false) :
    localTypePositions embeds type value = type.positions embeds "" := by
  unfold VarShape.local at h
  unfold localTypePositions
  cases value with
  | none => rfl
  | some v =>
    rw [Option.isSome_some, Bool.and_true] at htype
    refine if_neg ?_
    grind

/-- A variable at top level that is not bound to the two results of an assertion shows its type, unless it
has a value and no type. -/
theorem topTypePositions_of_not_checked {embeds : Bool} {type : GoType} {value : Option Node}
    {ok : Option OkBinding} (h : ∀ b, VarShape.topLevel value ok ≠ .checked b)
    (htype : (type.isEmpty && value.isSome) = false) :
    topTypePositions embeds type value ok = type.positions embeds "" := by
  unfold topTypePositions
  cases value with
  | none => rfl
  | some v =>
    rw [Option.isSome_some, Bool.and_true] at htype
    have hchecked : (v.isAssertion && ok.isSome) = false := by
      cases ok with
      | none => exact Bool.and_false _
      | some b =>
        by_contra hassertion
        rw [Option.isSome_some, Bool.and_true, Bool.not_eq_false] at hassertion
        exact h b (if_pos hassertion)
    refine if_neg ?_
    rw [hchecked, htype]
    decide

mutual

/-- The positions of a node.  A function literal counts where its body starts, behind its parameters
and results. -/
def Node.positions (embeds : Bool) : Node → List Position
  | .litArr type elems =>
    .node (.litArr type elems) :: (type.type.positions embeds "" ++ nodePositions embeds elems)
  | .litObj type fields =>
    .node (.litObj type fields) :: (type.type.positions embeds "" ++ fieldPositions embeds fields)
  | .const d value =>
    .node (.const d value) :: (constTypePositions embeds d.type ++ value.positions embeds)
  | .var d value ok =>
    .node (.var d value ok) ::
      (localTypePositions embeds d.type value ++ optionPositions embeds value)
  | .block stmts => .node (.block stmts) :: nodePositions embeds stmts
  | .ifElse cond thenBranch elseBranch =>
    .node (.ifElse cond thenBranch elseBranch) ::
      (cond.positions embeds ++ thenBranch.positions embeds ++ optionPositions embeds elseBranch)
  | .forRange item items body =>
    .node (.forRange item items body) :: (items.positions embeds ++ body.positions embeds)
  | .forClassic init cond step body =>
    .node (.forClassic init cond step body) ::
      (initPositions embeds init ++ optionPositions embeds cond ++ leftPositions embeds step ++
        rightPositions embeds step ++ body.positions embeds)
  | .forWhile cond body =>
    .node (.forWhile cond body) :: (cond.positions embeds ++ body.positions embeds)
  | .set left right => .node (.set left right) :: (left.positions embeds ++ right.positions embeds)
  | .ret value => .node (.ret value) :: optionPositions embeds value
  | .panic arg => .node (.panic arg) :: arg.positions embeds
  | .call callee args =>
    .node (.call callee args) :: (callee.positions embeds ++ nodePositions embeds args)
  | .func ⟨name, sourceName, comments, .func params results body⟩ =>
    bindingPositions embeds params ++ bindingPositions embeds results ++
      .node (.func ⟨name, sourceName, comments, .func params results body⟩) ::
        optionPositions embeds body
  | .dot left right => .node (.dot left right) :: (left.positions embeds ++ right.positions embeds)
  | .index left right =>
    .node (.index left right) :: (left.positions embeds ++ right.positions embeds)
  | .toType expr target =>
    .node (.toType expr target) :: (expr.positions embeds ++ target.positions embeds "")
  | .op1 op operand => .node (.op1 op operand) :: operand.positions embeds
  | .op2 op left right =>
    .node (.op2 op left right) :: (left.positions embeds ++ right.positions embeds)
  | leaf => [.node leaf]

/-- The positions of nodes, one after another. -/
def nodePositions (embeds : Bool) : List Node → List Position
  | [] => []
  | n :: ns => n.positions embeds ++ nodePositions embeds ns

/-- The positions of a node that may be missing. -/
def optionPositions (embeds : Bool) : Option Node → List Position
  | none => []
  | some n => n.positions embeds

/-- The positions of the values of a composite literal. -/
def fieldPositions (embeds : Bool) : List FieldValue → List Position
  | [] => []
  | ⟨_, value⟩ :: fs => value.positions embeds ++ fieldPositions embeds fs

/-- The positions of the values that a loop starts with. -/
def initPositions (embeds : Bool) : List LoopVar → List Position
  | [] => []
  | ⟨_, value⟩ :: vs => value.positions embeds ++ initPositions embeds vs

/-- The positions of the left sides of a loop's step clause. -/
def leftPositions (embeds : Bool) : List LoopStep → List Position
  | [] => []
  | ⟨left, _⟩ :: ss => left.positions embeds ++ leftPositions embeds ss

/-- The positions of the right sides of a loop's step clause. -/
def rightPositions (embeds : Bool) : List LoopStep → List Position
  | [] => []
  | ⟨_, right⟩ :: ss => right.positions embeds ++ rightPositions embeds ss

end

/-! ### Properties of the positions of a node -/

/-- A property of lists of positions that goes through concatenation and holds of single nodes and of the
positions of types.  It then holds of the positions of everything that is made of nodes and types. -/
structure Position.Compositional (embeds : Bool) (P : List Position → Prop) : Prop where
  nil : P []
  append {ps qs : List Position} : P ps → P qs → P (ps ++ qs)
  node (n : Node) : P [.node n]
  type (owner : String) (t : GoType) : P (t.positions embeds owner)

namespace Position.Compositional

variable {embeds : Bool} {P : List Position → Prop} (h : Compositional embeds P)

include h

theorem cons (n : Node) {ps : List Position} (hps : P ps) : P (.node n :: ps) :=
  h.append (h.node n) hps

theorem bindings (bs : List Binding) : P (bindingPositions embeds bs) := by
  induction bs with
  | nil => exact h.nil
  | cons b bs ih =>
    obtain ⟨_, sourceName, _, t⟩ := b
    rw [bindingPositions]
    exact h.append (h.type sourceName t) ih

theorem constType (type : GoType) : P (constTypePositions embeds type) := by
  unfold constTypePositions
  split
  · exact h.nil
  · exact h.type "" type

theorem localType (type : GoType) (value : Option Node) :
    P (localTypePositions embeds type value) := by
  unfold localTypePositions
  split
  · exact h.type "" type
  · split
    · exact h.nil
    · exact h.type "" type

theorem topType (type : GoType) (value : Option Node) (ok : Option OkBinding) :
    P (topTypePositions embeds type value ok) := by
  unfold topTypePositions
  split
  · exact h.type "" type
  · split
    · exact h.nil
    · exact h.type "" type

mutual

/-- A compositional property holds of the positions of every node. -/
theorem positions : (n : Node) → P (n.positions embeds)
  | .litStr _ | .litBool _ | .litNum _ | .litInt _ | .comments _ | .sym _ | .pkgSym .. | .nil
  | .isType .. | .unsupported .. => h.node _
  | .litArr type elems => h.cons _ (h.append (h.type "" type.type) (nodes elems))
  | .litObj type fields => h.cons _ (h.append (h.type "" type.type) (fieldValues fields))
  | .const d value => h.cons _ (h.append (h.constType d.type) (positions value))
  | .var d value _ => h.cons _ (h.append (h.localType d.type value) (option value))
  | .block stmts => h.cons _ (nodes stmts)
  | .ifElse cond thenBranch elseBranch =>
    h.cons _ (h.append (h.append (positions cond) (positions thenBranch)) (option elseBranch))
  | .forRange _ items body => h.cons _ (h.append (positions items) (positions body))
  | .forClassic init cond step body =>
    h.cons _ (h.append (h.append (h.append (h.append (inits init) (option cond)) (lefts step))
      (rights step)) (positions body))
  | .forWhile cond body => h.cons _ (h.append (positions cond) (positions body))
  | .set left right => h.cons _ (h.append (positions left) (positions right))
  | .ret value => h.cons _ (option value)
  | .panic arg => h.cons _ (positions arg)
  | .call callee args => h.cons _ (h.append (positions callee) (nodes args))
  | .func ⟨_, _, _, .func params results body⟩ =>
    h.append (h.append (h.bindings params) (h.bindings results)) (h.cons _ (option body))
  | .func ⟨_, _, _, .empty⟩ | .func ⟨_, _, _, .named _⟩ | .func ⟨_, _, _, .unresolved _⟩
  | .func ⟨_, _, _, .array _⟩ | .func ⟨_, _, _, .pointer _⟩ | .func ⟨_, _, _, .interface ..⟩
  | .func ⟨_, _, _, .struct ..⟩ => h.node _
  | .dot left right => h.cons _ (h.append (positions left) (positions right))
  | .index left right => h.cons _ (h.append (positions left) (positions right))
  | .toType expr target => h.cons _ (h.append (positions expr) (h.type "" target))
  | .op1 _ operand => h.cons _ (positions operand)
  | .op2 _ left right => h.cons _ (h.append (positions left) (positions right))

theorem nodes : (ns : List Node) → P (nodePositions embeds ns)
  | [] => h.nil
  | n :: ns => h.append (positions n) (nodes ns)

theorem option : (n : Option Node) → P (optionPositions embeds n)
  | none => h.nil
  | some n => positions n

theorem fieldValues : (fs : List FieldValue) → P (fieldPositions embeds fs)
  | [] => h.nil
  | ⟨_, value⟩ :: fs => h.append (positions value) (fieldValues fs)

theorem inits : (vs : List LoopVar) → P (initPositions embeds vs)
  | [] => h.nil
  | ⟨_, value⟩ :: vs => h.append (positions value) (inits vs)

theorem lefts : (ss : List LoopStep) → P (leftPositions embeds ss)
  | [] => h.nil
  | ⟨left, _⟩ :: ss => h.append (positions left) (lefts ss)

theorem rights : (ss : List LoopStep) → P (rightPositions embeds ss)
  | [] => h.nil
  | ⟨_, right⟩ :: ss => h.append (positions right) (rights ss)

end

end Position.Compositional

/-! ## Modules -/

/-- The positions of a definition that has to come with a body: `p` itself, then parameters, results
and body. -/
def implementationPositions (embeds : Bool) (p : Position) (type : GoType) : List Position :=
  match type.implementation? with
  | none => [p]
  | some (params, results, body) =>
    p :: (bindingPositions embeds params ++ bindingPositions embeds results ++ body.positions embeds)

namespace Decl

/-- The positions of a declaration among the type definitions. -/
def typePositions (embeds : Bool) : Decl → List Position
  | type d => d.type.positions embeds d.sourceName
  | _ => []

/-- The positions of a declaration among the constants and variables. -/
def valuePositions (embeds : Bool) : Decl → List Position
  | const d value => constTypePositions embeds d.type ++ value.positions embeds
  | var d value ok => topTypePositions embeds d.type value ok ++ optionPositions embeds value
  | _ => []

/-- The positions of a declaration among the method definitions. -/
def methodPositions (embeds : Bool) : Decl → List Position
  | type ⟨_, sourceName, _, .struct _ _ _ methods⟩ =>
    methods.flatMap fun m => implementationPositions embeds (.methodDef sourceName m) m.type
  | _ => []

/-- The positions of a declaration among the function definitions. -/
def funcPositions (embeds : Bool) : Decl → List Position
  | func d => implementationPositions embeds (.funcDef d) d.type
  | _ => []

end Decl

/-- The positions of a module: its type definitions, its constants and variables, the methods of its
structs, and its functions. -/
def Module.positions (embeds : Bool) (m : Module) : List Position :=
  m.decls.flatMap (·.typePositions embeds) ++ m.decls.flatMap (·.valuePositions embeds) ++
    m.decls.flatMap (·.methodPositions embeds) ++ m.decls.flatMap (·.funcPositions embeds)

namespace Env

/-- The rendered positions of the module. -/
def positions (env : Env) : List Position :=
  env.module.positions env.options.overlappingInterfaces

/-! ## What is done at a position -/

/-- What rendering does at a position beside writing text. -/
def marksAt (env : Env) : Position → Doc
  | .node (.litNum value) => (env.number value).marks
  | .node (.pkgSym pkg symbol) => (env.symbol ⟨pkg, symbol⟩).marks
  | .node (.isType value typeName) =>
    [.note ⟨.unloweredTypeTest, "type test of `" ++ value ++ "` against `" ++ typeName ++ "`"⟩]
  | .node (.unsupported kind detail) => [.note ⟨.unsupportedNode, kind ++ ": " ++ detail⟩]
  | .node (.func ⟨_, _, _, .func _ _ (some _)⟩) => []
  | .node (.func ⟨_, sourceName, _, .func _ _ none⟩) =>
    [.note ⟨.malformedNode, "function value `" ++ sourceName ++ "` has no body"⟩]
  | .node (.func ⟨_, sourceName, _, _⟩) =>
    [.note ⟨.malformedNode,
      "function value `" ++ sourceName ++ "` does not carry a function type"⟩]
  | .type (.named qualifiedName) => (env.typeName qualifiedName).marks
  | .type (.unresolved id) => [.note ⟨.unresolvedType, "type #" ++ toString id.toNat⟩]
  | .type (.interface names methods isTypeVar) =>
    if (env.shownEmbeds names).isEmpty && methods.isEmpty && isTypeVar then env.typeVar.marks else []
  | .embed qualifiedName => (env.typeName qualifiedName).marks
  | .method owner m =>
    if m.type.isFunc then [] else [.refuse (.notASignature m.sourceName owner)]
  | .methodDef owner m =>
    if m.type.implementation?.isSome then [] else [.refuse (.methodWithoutBody m.sourceName owner)]
  | .funcDef d =>
    if d.type.implementation?.isSome then [] else [.refuse (.functionWithoutBody d.sourceName)]
  | _ => []

/-- What rendering does at several positions, one after another. -/
def marksOf (env : Env) (ps : List Position) : Doc := ps.flatMap env.marksAt

@[simp] theorem marksOf_nil (env : Env) : env.marksOf [] = [] := rfl

@[simp] theorem marksOf_cons (env : Env) (p : Position) (ps : List Position) :
    env.marksOf (p :: ps) = env.marksAt p ++ env.marksOf ps := rfl

@[simp] theorem marksOf_append (env : Env) (ps qs : List Position) :
    env.marksOf (ps ++ qs) = env.marksOf ps ++ env.marksOf qs :=
  List.flatMap_append

end Env

end GoScribe
