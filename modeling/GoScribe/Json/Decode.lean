import GoScribe.Ast.Module
import GoScribe.Json.Shape
import GoScribe.Render.Options

/-!
# Decoding modules

The JSON form of modules, declarations, nodes and types.  `levels` is the number of levels of nesting
that the value may still open.
-/

namespace GoScribe

open Json

/-! ## Operators, comments and imports -/

/-- A unary operator. -/
def UnaryOp.ofJson? : (levels : Nat) → Json → Option UnaryOp := unitChoice? UnaryOp.ofSymbol?

/-- A binary operator. -/
def BinaryOp.ofJson? : (levels : Nat) → Json → Option BinaryOp := unitChoice? BinaryOp.ofSymbol?

/-- A comment. -/
def Comment.ofJson? : (levels : Nat) → Json → Option Comment
  | _ + 1, .obj [("Line", v)] => return .line (← asString? v)
  | _ + 1, .obj [("Block", v)] => return .block (← asString? v)
  | _, _ => none

/-- A list of comments. -/
def Comment.listOfJson? : (levels : Nat) → Json → Option (List Comment)
  | n + 1, .arr elems => elems.mapM (Comment.ofJson? n)
  | _, _ => none

/-- A list of strings. -/
def stringsOfJson? : (levels : Nat) → Json → Option (List String) := listOf asString?

/-- The second result of a checked type assertion. -/
def OkBinding.ofJson? : (levels : Nat) → Json → Option OkBinding
  | 0, _ => none
  | _ + 1, v => do
    match ← fields? ["ok_name", "value_used"] v with
    | [okName, valueUsed] =>
      return { okName := ← required asString? okName, valueUsed := ← required asBool? valueUsed }
    | _ => none

/-- An import. -/
def Import.ofJson? : (levels : Nat) → Json → Option Import
  | 0, _ => none
  | _ + 1, v => do
    match ← fields? ["go_name", "path", "source_module"] v with
    | [goName, path, sourceModule] =>
      return {
        goName := ← required asString? goName
        path := ← required asString? path
        sourceModule := ← optionalField asString? sourceModule }
    | _ => none

/-- A list of imports. -/
def Import.listOfJson? : (levels : Nat) → Json → Option (List Import)
  | n + 1, .arr elems => elems.mapM (Import.ofJson? n)
  | _, _ => none

/-! ## Types and nodes -/

mutual

/-- A type. -/
def GoType.ofJson? : (levels : Nat) → Json → Option GoType
  | _, .str tag => if tag = "Empty" then some .empty else none
  | n + 1, .obj [(tag, v)] =>
    match tag with
    | "Empty" => if v.isNull then some .empty else none
    | "Alias" => return .named (← asString? v)
    | "Unresolved" => return .unresolved (← asUInt64? v)
    | "Array" => return .array (← GoType.ofJson? n v)
    | "Pointer" => return .pointer (← GoType.ofJson? n v)
    | "Interface" => GoType.interfaceOfJson? n v
    | "Struct" => GoType.structOfJson? n v
    | "Func" => GoType.funcOfJson? n v
    | _ => none
  | _, _ => none

/-- An interface type. -/
def GoType.interfaceOfJson? : (levels : Nat) → Json → Option GoType
  | 0, _ => none
  | n + 1, v => do
    match ← fields? ["embeds", "methods", "is_type_var"] v with
    | [embeds, methods, isTypeVar] =>
      return .interface (← withDefault [] (stringsOfJson? n) embeds)
        (← withDefault [] (Binding.listOfJson? n) methods) (← withDefault false asBool? isTypeVar)
    | _ => none

/-- A struct type. -/
def GoType.structOfJson? : (levels : Nat) → Json → Option GoType
  | 0, _ => none
  | n + 1, v => do
    match ← fields? ["embeds", "fields", "pass_by_ptr", "methods"] v with
    | [embeds, fields, byPointer, methods] =>
      return .struct (← withDefault [] (stringsOfJson? n) embeds)
        (← withDefault [] (Binding.listOfJson? n) fields) (← withDefault false asBool? byPointer)
        (← withDefault [] (Binding.listOfJson? n) methods)
    | _ => none

/-- A function type. -/
def GoType.funcOfJson? : (levels : Nat) → Json → Option GoType
  | 0, _ => none
  | n + 1, v => do
    match ← fields? ["args", "rets", "body"] v with
    | [params, results, body] =>
      return .func (← withDefault [] (Binding.listOfJson? n) params)
        (← withDefault [] (Binding.listOfJson? n) results) (← optionalField (Node.ofJson? n) body)
    | _ => none

/-- A binding. -/
def Binding.ofJson? : (levels : Nat) → Json → Option Binding
  | 0, _ => none
  | n + 1, v => do
    match ← fields? ["name", "source_name", "comments", "ty"] v with
    | [name, sourceName, comments, type] =>
      return {
        name := ← withDefault "" asString? name
        sourceName := ← withDefault "" asString? sourceName
        comments := ← withDefault [] (Comment.listOfJson? n) comments
        type := ← withDefault .empty (GoType.ofJson? n) type }
    | _ => none

/-- A list of bindings. -/
def Binding.listOfJson? : (levels : Nat) → Json → Option (List Binding)
  | n + 1, .arr elems => elems.mapM (Binding.ofJson? n)
  | _, _ => none

/-- A node. -/
def Node.ofJson? : (levels : Nat) → Json → Option Node
  | _, .str tag => if tag = "Nil" then some .nil else none
  | n + 1, .obj [(tag, v)] =>
    match tag with
    | "Nil" => if v.isNull then some .nil else none
    | "LitStr" => return .litStr (← asString? v)
    | "LitBool" => return .litBool (← asBool? v)
    | "LitNum" => return .litNum (← asDouble? v)
    | "LitInt" => return .litInt (← asInt64? v)
    | "Sym" => return .sym (← asString? v)
    | "Comments" => return .comments (← Comment.listOfJson? n v)
    | "Block" => return .block (← Node.listOfJson? n v)
    | "Return" => return .ret (← nullable (Node.ofJson? n) v)
    | "Panic" => return .panic (← Node.ofJson? n v)
    | "Func" => return .func (← Binding.ofJson? n v)
    | "For" => Node.loopOfJson? n v
    | tag => Node.recordOfJson? n tag v
  | _, _ => none

/-- A node whose data are a record. -/
def Node.recordOfJson? : (levels : Nat) → (tag : String) → Json → Option Node
  | 0, _, _ => none
  | n + 1, tag, v =>
    match tag with
    | "LitArr" => do
      match ← fields? ["ty", "elems"] v with
      | [type, elems] =>
        return .litArr (← required (Binding.ofJson? n) type) (← required (Node.listOfJson? n) elems)
      | _ => none
    | "LitObj" => do
      match ← fields? ["ty", "fields"] v with
      | [type, fields] =>
        return .litObj (← required (Binding.ofJson? n) type)
          (← required (FieldValue.listOfJson? n) fields)
      | _ => none
    | "Const" => do
      match ← fields? ["decl", "value"] v with
      | [decl, value] =>
        return .const (← required (Binding.ofJson? n) decl) (← required (Node.ofJson? n) value)
      | _ => none
    | "Let" => do
      match ← fields? ["decl", "value", "type_conv"] v with
      | [decl, value, ok] =>
        return .var (← required (Binding.ofJson? n) decl) (← optionalField (Node.ofJson? n) value)
          (← optionalField (OkBinding.ofJson? n) ok)
      | _ => none
    | "If" => do
      match ← fields? ["cond", "then_block", "else_block"] v with
      | [cond, thenBranch, elseBranch] =>
        return .ifElse (← required (Node.ofJson? n) cond) (← required (Node.ofJson? n) thenBranch)
          (← optionalField (Node.ofJson? n) elseBranch)
      | _ => none
    | "Set" => do
      match ← fields? ["left", "right"] v with
      | [left, right] =>
        return .set (← required (Node.ofJson? n) left) (← required (Node.ofJson? n) right)
      | _ => none
    | "PkgSym" => do
      match ← fields? ["pkg", "symbol"] v with
      | [pkg, symbol] => return .pkgSym (← optionalField asString? pkg) (← required asString? symbol)
      | _ => none
    | "Call" => do
      match ← fields? ["callee", "args"] v with
      | [callee, args] =>
        return .call (← required (Node.ofJson? n) callee) (← required (Node.listOfJson? n) args)
      | _ => none
    | "Dot" => do
      match ← fields? ["left", "right"] v with
      | [left, right] =>
        return .dot (← required (Node.ofJson? n) left) (← required (Node.ofJson? n) right)
      | _ => none
    | "Index" => do
      match ← fields? ["left", "right"] v with
      | [left, right] =>
        return .index (← required (Node.ofJson? n) left) (← required (Node.ofJson? n) right)
      | _ => none
    | "ToType" => do
      match ← fields? ["expr", "target"] v with
      | [expr, target] =>
        return .toType (← required (Node.ofJson? n) expr) (← required (GoType.ofJson? n) target)
      | _ => none
    | "IsType" => do
      match ← fields? ["value", "type_name"] v with
      | [value, typeName] =>
        return .isType (← required asString? value) (← required asString? typeName)
      | _ => none
    | "Op1" => do
      match ← fields? ["op", "operand"] v with
      | [op, operand] =>
        return .op1 (← required (UnaryOp.ofJson? n) op) (← required (Node.ofJson? n) operand)
      | _ => none
    | "Op2" => do
      match ← fields? ["op", "left", "right"] v with
      | [op, left, right] =>
        return .op2 (← required (BinaryOp.ofJson? n) op) (← required (Node.ofJson? n) left)
          (← required (Node.ofJson? n) right)
      | _ => none
    | "Unsupported" => do
      match ← fields? ["kind", "detail"] v with
      | [kind, detail] =>
        return .unsupported (← required asString? kind) (← required asString? detail)
      | _ => none
    | _ => none

/-- A loop. -/
def Node.loopOfJson? : (levels : Nat) → Json → Option Node
  | n + 2, .obj [(tag, v)] =>
    match tag with
    | "Range" => do
      match ← fields? ["value", "over", "body"] v with
      | [item, items, body] =>
        return .forRange (← required asString? item) (← required (Node.ofJson? n) items)
          (← required (Node.ofJson? n) body)
      | _ => none
    | "Classic" => do
      match ← fields? ["init", "cond", "step", "body"] v with
      | [init, cond, step, body] =>
        return .forClassic (← withDefault [] (LoopVar.listOfJson? n) init)
          (← optionalField (Node.ofJson? n) cond) (← withDefault [] (LoopStep.listOfJson? n) step)
          (← required (Node.ofJson? n) body)
      | _ => none
    | "While" => do
      match ← fields? ["cond", "body"] v with
      | [cond, body] =>
        return .forWhile (← required (Node.ofJson? n) cond) (← required (Node.ofJson? n) body)
      | _ => none
    | _ => none
  | _, _ => none

/-- A list of nodes. -/
def Node.listOfJson? : (levels : Nat) → Json → Option (List Node)
  | n + 1, .arr elems => elems.mapM (Node.ofJson? n)
  | _, _ => none

/-- A field of a composite literal. -/
def FieldValue.ofJson? : (levels : Nat) → Json → Option FieldValue
  | 0, _ => none
  | n + 1, v => do
    match ← fields? ["name", "value"] v with
    | [name, value] => return ⟨← optionalField asString? name, ← required (Node.ofJson? n) value⟩
    | _ => none

/-- The fields of a composite literal. -/
def FieldValue.listOfJson? : (levels : Nat) → Json → Option (List FieldValue)
  | n + 1, .arr elems => elems.mapM (FieldValue.ofJson? n)
  | _, _ => none

/-- A variable that a loop introduces. -/
def LoopVar.ofJson? : (levels : Nat) → Json → Option LoopVar
  | 0, _ => none
  | n + 1, v => do
    match ← fields? ["name", "value"] v with
    | [name, value] => return ⟨← required asString? name, ← required (Node.ofJson? n) value⟩
    | _ => none

/-- The variables that a loop introduces. -/
def LoopVar.listOfJson? : (levels : Nat) → Json → Option (List LoopVar)
  | n + 1, .arr elems => elems.mapM (LoopVar.ofJson? n)
  | _, _ => none

/-- An assignment of a loop's step clause. -/
def LoopStep.ofJson? : (levels : Nat) → Json → Option LoopStep
  | 0, _ => none
  | n + 1, v => do
    match ← fields? ["left", "right"] v with
    | [left, right] =>
      return ⟨← required (Node.ofJson? n) left, ← required (Node.ofJson? n) right⟩
    | _ => none

/-- The step clause of a loop. -/
def LoopStep.listOfJson? : (levels : Nat) → Json → Option (List LoopStep)
  | n + 1, .arr elems => elems.mapM (LoopStep.ofJson? n)
  | _, _ => none

end

/-! ## Declarations and modules -/

/-- A declaration. -/
def Decl.ofJson? : (levels : Nat) → Json → Option Decl
  | n + 1, .obj [(tag, v)] =>
    match tag with
    | "Type" => return .type (← Binding.ofJson? n v)
    | "Func" => return .func (← Binding.ofJson? n v)
    | "Const" => do
      match ← Node.recordOfJson? n "Const" v with
      | .const decl value => return .const decl value
      | _ => none
    | "Var" => do
      match ← Node.recordOfJson? n "Let" v with
      | .var decl value ok => return .var decl value ok
      | _ => none
    | _ => none
  | _, _ => none

/-- A list of declarations. -/
def Decl.listOfJson? : (levels : Nat) → Json → Option (List Decl)
  | n + 1, .arr elems => elems.mapM (Decl.ofJson? n)
  | _, _ => none

/-- A module. -/
def Module.ofJson? : (levels : Nat) → Json → Option Module
  | 0, _ => none
  | n + 1, v => do
    match ← fields? ["name", "source_name", "imports", "decls"] v with
    | [name, sourceName, imports, decls] =>
      return {
        name := ← withDefault "" asString? name
        sourceName := ← withDefault "" asString? sourceName
        imports := ← withDefault [] (Import.listOfJson? n) imports
        decls := ← withDefault [] (Decl.listOfJson? n) decls }
    | _ => none

/-! ## Options -/

/-- A marker.  Every field has a default, and there are no others. -/
def Marker.ofJson? : (levels : Nat) → Json → Option Marker
  | 0, _ => none
  | _ + 1, v => do
    let default := Options.typeVar {}
    match ← closedFields? ["package_alias", "package_path", "symbol"] v with
    | [packageAlias, packagePath, symbol] =>
      return {
        packageAlias := ← withDefault default.packageAlias asString? packageAlias
        packagePath := ← withDefault default.packagePath asString? packagePath
        symbol := ← withDefault default.symbol asString? symbol }
    | _ => none

/-- Rendering options.  Every field has a default, and there are no others. -/
def Options.ofJson? : (levels : Nat) → Json → Option Options
  | 0, _ => none
  | n + 1, v => do
    let default : Options := {}
    match ← closedFields?
        ["include_comments", "header", "overlapping_interfaces", "strict", "type_var"] v with
    | [includeComments, header, overlappingInterfaces, strict, typeVar] =>
      return {
        includeComments := ← withDefault default.includeComments asBool? includeComments
        header := ← optionalField asString? header
        overlappingInterfaces :=
          ← withDefault default.overlappingInterfaces asBool? overlappingInterfaces
        strict := ← withDefault default.strict asBool? strict
        typeVar := ← withDefault default.typeVar (Marker.ofJson? n) typeVar }
    | _ => none

end GoScribe
