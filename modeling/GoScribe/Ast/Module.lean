import GoScribe.Ast.Tree
import GoScribe.Text.Split

/-!
# Modules

A module is what one Go file is written from: a package name, a table of imports and a list of
declarations.
-/

namespace GoScribe

/-! ## Imports -/

/-- An entry of an import table: the package at `path` is known locally as `goName`. -/
structure Import where
  goName : String
  path : String
  /-- The module of the source language that the package stands for. -/
  sourceModule : Option String
deriving DecidableEq, Repr

/-- Whether an import path is a bare package name or has several segments. -/
inductive ImportForm where
  | shortName
  | fullPath
deriving DecidableEq, Repr

namespace Import

/-- An import without a source module. -/
def plain (goName path : String) : Import :=
  { goName, path, sourceModule := none }

/-- The form of an import's path. -/
def form (i : Import) : ImportForm :=
  if i.path.toList.contains '/' then .fullPath else .shortName

/-- The name that Go gives the package when the import names no alias. -/
def defaultName (i : Import) : String :=
  String.ofList (Text.afterLast '/' i.path.toList)

/-- The import has to name its alias, because it is not the last segment of the path. -/
def needsAlias (i : Import) : Bool :=
  i.goName ≠ "" && i.goName ≠ i.defaultName

end Import

/-! ## Declarations and modules -/

/-- A top-level declaration. -/
inductive Decl where
  | type (definition : Binding)
  | const (decl : Binding) (value : Node)
  | var (decl : Binding) (value : Option Node) (ok : Option OkBinding)
  | func (definition : Binding)

/-- What one Go file is written from. -/
structure Module where
  /-- The name of the Go package. -/
  name : String
  /-- The name in the source language. -/
  sourceName : String
  imports : List Import
  decls : List Decl

namespace Decl

/-- The declaration is a constant or a variable. -/
def isValue : Decl → Bool
  | const .. | var .. => true
  | _ => false

/-- The definition of a type declaration. -/
def typeDef? : Decl → Option Binding
  | type d => some d
  | _ => none

/-- The definition of a function declaration. -/
def funcDef? : Decl → Option Binding
  | func d => some d
  | _ => none

end Decl

namespace Module

/-- A module without imports and declarations. -/
def empty (name sourceName : String) : Module :=
  { name, sourceName, imports := [], decls := [] }

/-- The type definitions of a module, in order. -/
def typeDefs (m : Module) : List Binding :=
  m.decls.filterMap Decl.typeDef?

/-- The constants and variables of a module, in order. -/
def valueDecls (m : Module) : List Decl :=
  m.decls.filter Decl.isValue

/-- The function definitions of a module, in order. -/
def funcDefs (m : Module) : List Binding :=
  m.decls.filterMap Decl.funcDef?

/-- The first import known locally as `goName`. -/
def importByAlias? (m : Module) (goName : String) : Option Import :=
  m.imports.find? (·.goName == goName)

/-- The first import that stands for the source module `name`. -/
def importBySource? (m : Module) (name : String) : Option Import :=
  m.imports.find? (·.sourceModule == some name)

/-- The import that a qualifier `goName` refers to: the table's first entry of that name, or the
package of that very path when the table has none. -/
def importFor (m : Module) (goName : String) : Import :=
  (m.importByAlias? goName).getD (Import.plain goName goName)

end Module

end GoScribe
