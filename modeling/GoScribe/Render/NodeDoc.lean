import GoScribe.Number.Shortest
import GoScribe.Render.Precedence
import GoScribe.Render.TypeDoc
import GoScribe.Text.Quoted

/-!
# Rendering nodes

A statement node writes its own tabs and, in statement position, its own line end; an expression node
writes neither, and is given the indentation of the line it stands in, so that the blocks inside it
close at the right column.
-/

namespace GoScribe

/-! ## Parts without recursion -/

/-- A comment in place of something that cannot be written; its text cannot close the comment early
through the detail. -/
def placeholder (kind detail : String) : String :=
  "/*****" ++ kind ++ ": " ++ String.ofList (splitCommentEnds detail.toList) ++ "*****/"
where
  /-- A text in which every comment end has a space between its two characters. -/
  splitCommentEnds : List Char → List Char
    | '*' :: '/' :: cs => '*' :: ' ' :: '/' :: splitCommentEnds cs
    | c :: cs => c :: splitCommentEnds cs
    | [] => []

namespace Env

/-- A number; infinities and NaN are calls into the package `math`. -/
def number (env : Env) (d : Double) : Doc :=
  if d.isFinite then Doc.str (String.ofList d.literal)
  else
    env.useOf "math" ++ [.qualifier "math"] ++
      Doc.str (if d.isNaN then "NaN()" else if d.isNegative then "Inf(-1)" else "Inf(1)")

end Env

/-- A block of the given inner lines that closes at `i`. -/
def braces (i : Indent) (lines : Doc) : Doc :=
  Doc.str "\x7b" ++ Doc.newline ++ lines ++ Doc.tabs i ++ Doc.str "\x7d"

/-- A node as a line of a block at `i`, given the node's own text there. -/
def statementLine (i : Indent) (n : Node) (text : Doc) : Doc :=
  if n.isStatement then text else Doc.tabs i ++ text ++ Doc.newline

/-- A node where a block is wanted, given its text at any place: a node that is no block becomes the
only line of one. -/
def bodyDoc (i : Indent) (n : Node) (render : Indent → Doc) : Doc :=
  match n with
  | .block _ => render i
  | _ => braces i (statementLine i.deeper n (render i.deeper))

/-- What a variable declaration writes in front of its value. -/
inductive VarShape where
  /-- The two results of a checked type assertion. -/
  | checked (ok : OkBinding)
  /-- A name whose type is left to Go. -/
  | inferred
  /-- A name with the type it is declared with. -/
  | declared
deriving DecidableEq, Repr

/-- The value is a type assertion. -/
def Node.isAssertion : Node → Bool
  | .toType .. => true
  | _ => false

/-- The value is a function literal. -/
def Node.isFuncLiteral : Node → Bool
  | .func _ => true
  | _ => false

/-- The shape of a variable declaration inside a function.  A type assertion and a function literal
make the type redundant. -/
def VarShape.local (type : GoType) (value : Option Node) (ok : Option OkBinding) : VarShape :=
  match value with
  | none => .declared
  | some v =>
    if v.isAssertion then
      match ok with
      | some ok => .checked ok
      | none => .inferred
    else if type.isFunc || v.isFuncLiteral then .inferred
    else .declared

/-- The shape of a variable declaration at top level, where a type is left out only beside the two
results of a checked type assertion. -/
def VarShape.topLevel (value : Option Node) (ok : Option OkBinding) : VarShape :=
  match value, ok with
  | some v, some ok => if v.isAssertion then .checked ok else .declared
  | _, _ => .declared

/-- The names that a checked type assertion is bound to. -/
def checkedNames (name : String) (ok : OkBinding) : Doc :=
  Doc.str (if ok.valueUsed then name else "_") ++ Doc.str ", " ++ Doc.str ok.okName

namespace Env

/-- The declared type with a space in front; an unknown type is left out if there is a value. -/
def declaredType (env : Env) (i : Indent) (type : GoType) (hasValue : Bool) : Doc :=
  if type.isEmpty && hasValue then [] else Doc.space ++ env.type i "" type

/-- The value of a declaration with the equals sign in front. -/
def initializer (value : Option Doc) : Doc :=
  match value with
  | none => []
  | some v => Doc.str " = " ++ v

/-- A constant declaration, given its value's text. -/
def constDoc (env : Env) (i : Indent) (d : Binding) (value : Doc) : Doc :=
  env.comments i d.comments ++ Doc.tabs i ++ Doc.str "const " ++ Doc.str d.name ++
    env.declaredType i d.type true ++ Doc.str " = " ++ value ++ Doc.endStatement i

/-- A variable declaration inside a function, given its value's text. -/
def localVarDoc (env : Env) (i : Indent) (d : Binding) (shape : VarShape) (value : Option Doc) : Doc :=
  env.comments i d.comments ++ Doc.tabs i ++
    (match shape with
    | .checked ok => checkedNames d.name ok ++ Doc.str " := " ++ value.getD []
    | .inferred => Doc.str d.name ++ Doc.str " := " ++ value.getD []
    | .declared =>
      Doc.str "var " ++ Doc.str d.name ++ env.declaredType i d.type value.isSome ++ initializer value) ++
    Doc.endStatement i

/-- A function literal, given its body's text; without a body it is a placeholder with an empty
one. -/
def funcLiteralDoc (env : Env) (i : Indent) (name sourceName : String) (params results : List Binding)
    (body : Option Doc) : Doc :=
  env.funcHead i name body.isSome params results ++ Doc.space ++
    (match body with
    | some text => text
    | none =>
      [.note ⟨.malformedNode, "function value `" ++ sourceName ++ "` has no body"⟩] ++
        Doc.str "\x7b\x7d")

end Env

/-- The clauses of a loop between `for` and the body.  A loop that initializes and advances nothing
has only a condition, or no clause at all. -/
def classicClauses (names : List String) (inits : List Doc) (cond : Option Doc)
    (lefts rights : List Doc) : Doc :=
  if names.isEmpty && lefts.isEmpty then
    match cond with
    | some c => c ++ Doc.space
    | none => []
  else
    (if names.isEmpty then []
      else Doc.commaSep (names.map Doc.str) ++ Doc.str " := " ++ Doc.commaSep inits) ++
      Doc.str "; " ++ cond.getD [] ++ Doc.str ";" ++
      (if lefts.isEmpty then []
        else Doc.space ++ Doc.commaSep lefts ++ Doc.str " = " ++ Doc.commaSep rights) ++
      Doc.space

/-! ## Nodes -/

namespace Env

mutual

/-- A node at `i`. -/
def node (env : Env) (i : Indent) : Node → Doc
  | .litStr value => Doc.str (String.ofList (Text.quote value.toList))
  | .litBool value => Doc.str (if value then "true" else "false")
  | .litNum value => env.number value
  | .litInt value => Doc.str (toString value.toInt)
  | .litArr type elems =>
    env.type i "" type.type ++ Doc.str "\x7b" ++ Doc.commaSep (env.nodes i elems) ++ Doc.str "\x7d"
  | .litObj type fields =>
    env.type i "" type.type ++ Doc.str "\x7b" ++ Doc.commaSep (env.fieldValues i fields) ++
      Doc.str "\x7d"
  | .const d value => env.constDoc i d (env.node i value)
  | .var d none ok => env.localVarDoc i d (VarShape.local d.type none ok) none
  | .var d (some value) ok =>
    env.localVarDoc i d (VarShape.local d.type (some value) ok) (some (env.node i value))
  | .block [] => Doc.str "\x7b\x7d"
  | .block (s :: ss) =>
    braces i (statementLine i.deeper s (env.node i.deeper s) ++ env.statements i.deeper ss)
  | .ifElse cond thenBranch elseBranch =>
    Doc.tabs i ++ Doc.str "if " ++ env.node i cond ++ Doc.space ++
      bodyDoc i thenBranch (fun j => env.node j thenBranch) ++ env.elseDoc i elseBranch ++
      Doc.endStatement i
  | .forRange item items body =>
    Doc.tabs i ++ Doc.str "for _, " ++ Doc.str item ++ Doc.str " := range " ++ env.node i items ++
      Doc.space ++ bodyDoc i body (fun j => env.node j body) ++ Doc.endStatement i
  | .forClassic init cond step body =>
    Doc.tabs i ++ Doc.str "for " ++
      classicClauses (init.map LoopVar.name) (env.loopValues i init) (env.nodeOpt i cond)
        (env.stepLefts i step) (env.stepRights i step) ++
      bodyDoc i body (fun j => env.node j body) ++ Doc.endStatement i
  | .forWhile cond body =>
    Doc.tabs i ++ Doc.str "for " ++ env.node i cond ++ Doc.space ++
      bodyDoc i body (fun j => env.node j body) ++ Doc.endStatement i
  | .set left right =>
    Doc.tabs i ++ env.node i left ++ Doc.str " = " ++ env.node i right ++ Doc.endStatement i
  | .ret none => Doc.tabs i ++ Doc.str "return" ++ Doc.endStatement i
  | .ret (some value) =>
    Doc.tabs i ++ Doc.str "return" ++ Doc.space ++ env.node i value ++ Doc.endStatement i
  | .panic arg =>
    Doc.tabs i ++ Doc.str "panic(" ++ env.node i arg ++ Doc.str ")" ++ Doc.endStatement i
  | .comments cs => env.comments i cs
  | .sym name => Doc.str name
  | .pkgSym pkg symbol => env.symbol ⟨pkg, symbol⟩
  | .nil => Doc.str "nil"
  | .call callee args =>
    Doc.enclose (callee.needsParens .callee) (env.node i callee) ++
      Doc.enclose true (Doc.commaSep (env.nodes i args))
  | .func ⟨name, sourceName, _, .func params results (some body)⟩ =>
    env.funcLiteralDoc i name sourceName params results
      (some (bodyDoc i body fun j => env.node j body))
  | .func ⟨name, sourceName, _, .func params results none⟩ =>
    env.funcLiteralDoc i name sourceName params results none
  | .func signature =>
    [.note ⟨.malformedNode,
        "function value `" ++ signature.sourceName ++ "` does not carry a function type"⟩] ++
      Doc.str (placeholder "Func" signature.sourceName)
  | .dot left right => env.node i left ++ Doc.str "." ++ env.node i right
  | .index left right => env.node i left ++ Doc.str "[" ++ env.node i right ++ Doc.str "]"
  | .toType expr target => env.node i expr ++ Doc.str ".(" ++ env.type i "" target ++ Doc.str ")"
  | .isType value typeName =>
    [.note ⟨.unloweredTypeTest, "type test of `" ++ value ++ "` against `" ++ typeName ++ "`"⟩] ++
      Doc.str ("ː" ++ value ++ "ᐧ" ++ typeName)
  | .op1 op operand =>
    Doc.str op.symbol ++ Doc.enclose (operand.needsParens (.unary op)) (env.node i operand)
  | .op2 op left right =>
    Doc.enclose (left.needsParens (.binary op)) (env.node i left) ++
      Doc.str (" " ++ op.symbol ++ " ") ++
      Doc.enclose (right.needsParens (.binary op)) (env.node i right)
  | .unsupported kind detail =>
    [.note ⟨.unsupportedNode, kind ++ ": " ++ detail⟩] ++ Doc.str (placeholder kind detail)

/-- The texts of nodes in one line. -/
def nodes (env : Env) (i : Indent) : List Node → List Doc
  | [] => []
  | n :: ns => env.node i n :: env.nodes i ns

/-- The text of a node that may be missing. -/
def nodeOpt (env : Env) (i : Indent) : Option Node → Option Doc
  | none => none
  | some n => some (env.node i n)

/-- Nodes as the lines of a block. -/
def statements (env : Env) (i : Indent) : List Node → Doc
  | [] => []
  | s :: ss => statementLine i s (env.node i s) ++ env.statements i ss

/-- The branch behind a condition's block; a condition there goes on in the same line. -/
def elseDoc (env : Env) (i : Indent) : Option Node → Doc
  | none => []
  | some (.ifElse cond thenBranch elseBranch) =>
    Doc.str " else " ++ Doc.str "if " ++ env.node i cond ++ Doc.space ++
      bodyDoc i thenBranch (fun j => env.node j thenBranch) ++ env.elseDoc i elseBranch
  | some other => Doc.str " else " ++ bodyDoc i other (fun j => env.node j other)

/-- The fields of a composite literal. -/
def fieldValues (env : Env) (i : Indent) : List FieldValue → List Doc
  | [] => []
  | ⟨none, value⟩ :: fs => env.node i value :: env.fieldValues i fs
  | ⟨some name, value⟩ :: fs =>
    (Doc.str name ++ Doc.str ": " ++ env.node i value) :: env.fieldValues i fs

/-- The values of the variables that a loop introduces. -/
def loopValues (env : Env) (i : Indent) : List LoopVar → List Doc
  | [] => []
  | ⟨_, value⟩ :: vs => env.node i value :: env.loopValues i vs

/-- The left sides of a loop's step clause. -/
def stepLefts (env : Env) (i : Indent) : List LoopStep → List Doc
  | [] => []
  | ⟨left, _⟩ :: ss => env.node i left :: env.stepLefts i ss

/-- The right sides of a loop's step clause. -/
def stepRights (env : Env) (i : Indent) : List LoopStep → List Doc
  | [] => []
  | ⟨_, right⟩ :: ss => env.node i right :: env.stepRights i ss

end

/-- A node where a block is wanted. -/
def body (env : Env) (i : Indent) (n : Node) : Doc :=
  bodyDoc i n (fun j => env.node j n)

end Env

end GoScribe
