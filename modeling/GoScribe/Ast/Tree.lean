import GoScribe.Ast.Operator
import GoScribe.Number.Double

/-!
# Types, bindings and nodes

The tree that is written out as Go source.  Types and nodes are mutually recursive: a literal
carries its type, and a function type may carry the body of the function.  One sort of node serves
for expressions and statements, since the producers of these trees do not keep the two apart;
`Node.isStatement` says which nodes stand on lines of their own.
-/

namespace GoScribe

/-- A comment: the rest of a line, or a delimited block. -/
inductive Comment where
  | line (text : String)
  | block (text : String)
deriving DecidableEq, Repr

/-- The second result of a checked type assertion: the name it is bound to, and whether the first
result is used. -/
structure OkBinding where
  okName : String
  valueUsed : Bool
deriving DecidableEq, Repr

mutual

/-- A Go type. -/
inductive GoType where
  /-- No type is known. -/
  | empty
  /-- A qualified name of the source language. -/
  | named (qualifiedName : String)
  /-- A type that is known by a number only. -/
  | unresolved (id : UInt64)
  | array (elem : GoType)
  | pointer (target : GoType)
  | interface (embeds : List String) (methods : List Binding) (isTypeVar : Bool)
  | struct (embeds : List String) (fields : List Binding) (byPointer : Bool) (methods : List Binding)
  /-- A function type, with the body where a function of this type is defined. -/
  | func (params results : List Binding) (body : Option Node)

/-- A name with its type: a parameter, field, method, variable or definition. -/
structure Binding where
  name : String
  /-- The name in the source language, for messages. -/
  sourceName : String
  comments : List Comment
  type : GoType

/-- A node of the tree: an expression or a statement. -/
inductive Node where
  | litStr (value : String)
  | litBool (value : Bool)
  | litNum (value : Double)
  | litInt (value : Int64)
  | litArr (type : Binding) (elems : List Node)
  | litObj (type : Binding) (fields : List FieldValue)
  | const (decl : Binding) (value : Node)
  | var (decl : Binding) (value : Option Node) (ok : Option OkBinding)
  | block (stmts : List Node)
  | ifElse (cond thenBranch : Node) (elseBranch : Option Node)
  | forRange (item : String) (items body : Node)
  | forClassic (init : List LoopVar) (cond : Option Node) (step : List LoopStep) (body : Node)
  | forWhile (cond body : Node)
  | set (left right : Node)
  | ret (value : Option Node)
  | panic (arg : Node)
  | comments (cs : List Comment)
  | sym (name : String)
  | pkgSym (pkg : Option String) (symbol : String)
  | nil
  | call (callee : Node) (args : List Node)
  | func (signature : Binding)
  | dot (left right : Node)
  | index (left right : Node)
  | toType (expr : Node) (target : GoType)
  | isType (value typeName : String)
  | op1 (op : UnaryOp) (operand : Node)
  | op2 (op : BinaryOp) (left right : Node)
  | unsupported (kind detail : String)

/-- A field of a composite literal, named or positional. -/
structure FieldValue where
  name : Option String
  value : Node

/-- A variable introduced by a loop clause. -/
structure LoopVar where
  name : String
  value : Node

/-- An assignment of a loop's step clause. -/
structure LoopStep where
  left : Node
  right : Node

end

/-! ## Types -/

namespace GoType

/-- No type is known. -/
def isEmpty : GoType → Bool
  | empty => true
  | _ => false

/-- The type is a function type. -/
def isFunc : GoType → Bool
  | func .. => true
  | _ => false

/-- A function type together with the body it carries. -/
def implementation? : GoType → Option (List Binding × List Binding × Node)
  | func params results (some body) => some (params, results, body)
  | _ => none

end GoType

/-! ## Bindings -/

namespace Binding

/-- A binding of `name` to `type`, without comments or a source name. -/
def named (name : String) (type : GoType) (comments : List Comment) : Binding :=
  { name, sourceName := "", comments, type }

/-- A type in a place that wants no name. -/
def unnamed (type : GoType) : Binding :=
  named "" type []

end Binding

/-! ## Nodes -/

namespace Node

/-- The nodes that write their own indentation and line end in statement position. -/
def isStatement : Node → Bool
  | const .. | var .. | ifElse .. | forRange .. | forClassic .. | forWhile .. | set .. | ret ..
  | panic .. | comments .. => true
  | _ => false

/-- A symbol of the package that is imported as `pkg`. -/
def qualified (pkg symbol : String) : Node :=
  pkgSym (some pkg) symbol

end Node

end GoScribe
