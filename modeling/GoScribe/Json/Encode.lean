import GoScribe.Ast.Module
import GoScribe.Json.Value
import GoScribe.Render.Options

/-!
# Encoding modules

The full JSON form of modules, declarations, nodes and types: every record is an object with all its
fields, and a missing value is null.
-/

namespace GoScribe

namespace Json

/-- An alternative with data. -/
def tagged (tag : String) (v : Json) : Json := obj [(tag, v)]

/-- A list of strings. -/
def ofStrings (ss : List String) : Json := arr (ss.map str)

/-- A string that may be missing. -/
def ofString? (s : Option String) : Json :=
  match s with
  | some s => str s
  | none => null

end Json

open Json

/-! ## Comments and imports -/

/-- The JSON form of a comment. -/
def Comment.toJson : Comment → Json
  | .line text => tagged "Line" (.str text)
  | .block text => tagged "Block" (.str text)

/-- The JSON form of a list of comments. -/
def Comment.listToJson (cs : List Comment) : Json := .arr (cs.map Comment.toJson)

/-- The JSON form of the second result of a checked type assertion. -/
def OkBinding.toJson (b : OkBinding) : Json :=
  .obj [("ok_name", .str b.okName), ("value_used", .bool b.valueUsed)]

/-- The JSON form of an import. -/
def Import.toJson (i : Import) : Json :=
  .obj [("go_name", .str i.goName), ("path", .str i.path), ("source_module", ofString? i.sourceModule)]

/-! ## Types and nodes -/

mutual

/-- The JSON form of a type. -/
def GoType.toJson : GoType → Json
  | .empty => .str "Empty"
  | .named qualifiedName => tagged "Alias" (.str qualifiedName)
  | .unresolved id => tagged "Unresolved" (.int id.toNat)
  | .array elem => tagged "Array" elem.toJson
  | .pointer target => tagged "Pointer" target.toJson
  | .interface embeds methods isTypeVar =>
    tagged "Interface" (.obj [
      ("embeds", ofStrings embeds), ("methods", .arr (Binding.listToJson methods)),
      ("is_type_var", .bool isTypeVar)])
  | .struct embeds fields byPointer methods =>
    tagged "Struct" (.obj [
      ("embeds", ofStrings embeds), ("fields", .arr (Binding.listToJson fields)),
      ("pass_by_ptr", .bool byPointer), ("methods", .arr (Binding.listToJson methods))])
  | .func params results body =>
    tagged "Func" (.obj [
      ("args", .arr (Binding.listToJson params)), ("rets", .arr (Binding.listToJson results)),
      ("body", Node.optToJson body)])

/-- The JSON form of a binding. -/
def Binding.toJson : Binding → Json
  | ⟨name, sourceName, comments, type⟩ =>
    .obj [("name", .str name), ("source_name", .str sourceName),
      ("comments", Comment.listToJson comments), ("ty", type.toJson)]

/-- The JSON forms of bindings. -/
def Binding.listToJson : List Binding → List Json
  | [] => []
  | b :: bs => b.toJson :: Binding.listToJson bs

/-- The JSON form of a node. -/
def Node.toJson : Node → Json
  | .litStr value => tagged "LitStr" (.str value)
  | .litBool value => tagged "LitBool" (.bool value)
  | .litNum value => tagged "LitNum" (.float value)
  | .litInt value => tagged "LitInt" (.int value.toInt)
  | .litArr type elems =>
    tagged "LitArr" (.obj [("ty", type.toJson), ("elems", .arr (Node.listToJson elems))])
  | .litObj type fields =>
    tagged "LitObj" (.obj [("ty", type.toJson), ("fields", .arr (FieldValue.listToJson fields))])
  | .const decl value => tagged "Const" (.obj [("decl", decl.toJson), ("value", value.toJson)])
  | .var decl value ok =>
    tagged "Let" (.obj [
      ("decl", decl.toJson), ("value", Node.optToJson value),
      ("type_conv", match ok with | some ok => ok.toJson | none => .null)])
  | .block stmts => tagged "Block" (.arr (Node.listToJson stmts))
  | .ifElse cond thenBranch elseBranch =>
    tagged "If" (.obj [
      ("cond", cond.toJson), ("then_block", thenBranch.toJson),
      ("else_block", Node.optToJson elseBranch)])
  | .forRange item items body =>
    tagged "For" (tagged "Range" (.obj [
      ("value", .str item), ("over", items.toJson), ("body", body.toJson)]))
  | .forClassic init cond step body =>
    tagged "For" (tagged "Classic" (.obj [
      ("init", .arr (LoopVar.listToJson init)), ("cond", Node.optToJson cond),
      ("step", .arr (LoopStep.listToJson step)), ("body", body.toJson)]))
  | .forWhile cond body =>
    tagged "For" (tagged "While" (.obj [("cond", cond.toJson), ("body", body.toJson)]))
  | .set left right => tagged "Set" (.obj [("left", left.toJson), ("right", right.toJson)])
  | .ret value => tagged "Return" (Node.optToJson value)
  | .panic arg => tagged "Panic" arg.toJson
  | .comments cs => tagged "Comments" (Comment.listToJson cs)
  | .sym name => tagged "Sym" (.str name)
  | .pkgSym pkg symbol => tagged "PkgSym" (.obj [("pkg", ofString? pkg), ("symbol", .str symbol)])
  | .nil => .str "Nil"
  | .call callee args =>
    tagged "Call" (.obj [("callee", callee.toJson), ("args", .arr (Node.listToJson args))])
  | .func signature => tagged "Func" signature.toJson
  | .dot left right => tagged "Dot" (.obj [("left", left.toJson), ("right", right.toJson)])
  | .index left right => tagged "Index" (.obj [("left", left.toJson), ("right", right.toJson)])
  | .toType expr target => tagged "ToType" (.obj [("expr", expr.toJson), ("target", target.toJson)])
  | .isType value typeName =>
    tagged "IsType" (.obj [("value", .str value), ("type_name", .str typeName)])
  | .op1 op operand => tagged "Op1" (.obj [("op", .str op.symbol), ("operand", operand.toJson)])
  | .op2 op left right =>
    tagged "Op2" (.obj [("op", .str op.symbol), ("left", left.toJson), ("right", right.toJson)])
  | .unsupported kind detail =>
    tagged "Unsupported" (.obj [("kind", .str kind), ("detail", .str detail)])

/-- The JSON form of a node that may be missing. -/
def Node.optToJson : Option Node → Json
  | none => .null
  | some n => n.toJson

/-- The JSON forms of nodes. -/
def Node.listToJson : List Node → List Json
  | [] => []
  | n :: ns => n.toJson :: Node.listToJson ns

/-- The JSON forms of the fields of a composite literal. -/
def FieldValue.listToJson : List FieldValue → List Json
  | [] => []
  | ⟨name, value⟩ :: fs =>
    .obj [("name", ofString? name), ("value", value.toJson)] :: FieldValue.listToJson fs

/-- The JSON forms of the variables that a loop introduces. -/
def LoopVar.listToJson : List LoopVar → List Json
  | [] => []
  | ⟨name, value⟩ :: vs =>
    .obj [("name", .str name), ("value", value.toJson)] :: LoopVar.listToJson vs

/-- The JSON forms of the step clause of a loop. -/
def LoopStep.listToJson : List LoopStep → List Json
  | [] => []
  | ⟨left, right⟩ :: ss =>
    .obj [("left", left.toJson), ("right", right.toJson)] :: LoopStep.listToJson ss

end

/-- Equality of nodes, numbers compared as numbers. -/
def Node.same (a b : Node) : Bool := a.toJson.same b.toJson

/-- Equality of types, numbers compared as numbers. -/
def GoType.same (a b : GoType) : Bool := a.toJson.same b.toJson

/-! ## Declarations, modules and options -/

/-- The JSON form of a declaration. -/
def Decl.toJson : Decl → Json
  | .type definition => tagged "Type" definition.toJson
  | .const decl value => tagged "Const" (.obj [("decl", decl.toJson), ("value", value.toJson)])
  | .var decl value ok =>
    tagged "Var" (.obj [
      ("decl", decl.toJson), ("value", Node.optToJson value),
      ("type_conv", match ok with | some ok => ok.toJson | none => .null)])
  | .func definition => tagged "Func" definition.toJson

/-- The JSON form of a module. -/
def Module.toJson (m : Module) : Json :=
  .obj [("name", .str m.name), ("source_name", .str m.sourceName),
    ("imports", .arr (m.imports.map Import.toJson)), ("decls", .arr (m.decls.map Decl.toJson))]

/-- The JSON form of a marker. -/
def Marker.toJson (m : Marker) : Json :=
  .obj [("package_alias", .str m.packageAlias), ("package_path", .str m.packagePath),
    ("symbol", .str m.symbol)]

/-- The JSON form of rendering options. -/
def Options.toJson (o : Options) : Json :=
  .obj [("include_comments", .bool o.includeComments), ("header", ofString? o.header),
    ("overlapping_interfaces", .bool o.overlappingInterfaces), ("strict", .bool o.strict),
    ("type_var", o.typeVar.toJson)]

end GoScribe
