import GoScribe.Render.ImportUsage
import GoScribe.Render.ValueGroup

/-!
# Rendering modules

The body of a file is rendered first, so that its imports are known when the head is written.  A file
is the header comment, the package clause, the import block, then the type definitions, the constants
and variables, the methods of the structs, and the functions.
-/

namespace GoScribe

/-- A rendering: its text, the imports it needs, and a diagnostic for every placeholder in it. -/
structure GoFile where
  source : String
  imports : List Import
  diagnostics : List Diagnostic
deriving DecidableEq, Repr

/-- Go is expected to accept a file without placeholders only. -/
def GoFile.isCompilable (f : GoFile) : Bool := f.diagnostics.isEmpty

/-- Why a module is not rendered. -/
inductive RenderError where
  /-- A declaration of the module cannot be written. -/
  | refused (sourceName : String) (reason : Refusal)
  /-- The module needs placeholders, and options forbid them. -/
  | placeholders (sourceName : String) (diagnostics : List Diagnostic)
deriving DecidableEq, Repr

/-- The text of an error. -/
def RenderError.message : RenderError → String
  | .refused sourceName reason => "Failed to render module " ++ sourceName ++ ": " ++ reason.message
  | .placeholders sourceName diagnostics =>
    "module " ++ sourceName ++ " contains " ++ toString diagnostics.length ++ " placeholder(s):\n  " ++
      "\n  ".intercalate (diagnostics.map Diagnostic.text)

namespace Env

/-! ## The body of a file -/

/-- A type definition with a blank line behind it. -/
def typeDef (env : Env) (d : Binding) : Doc :=
  env.comments .top d.comments ++ Doc.str "type " ++ Doc.str d.name ++ Doc.space ++
    env.bindingType .top d ++ Doc.newline ++ Doc.newline

/-- A method of the struct that `d` defines. -/
def method (env : Env) (d : Binding) (byPointer : Bool) (m : Binding) : Doc :=
  match m.type.implementation? with
  | none => [.refuse (.methodWithoutBody m.sourceName d.sourceName)]
  | some (params, results, body) =>
    env.comments .top m.comments ++ Doc.str "func (_ " ++ Doc.str (if byPointer then "*" else "") ++
      Doc.str d.name ++ Doc.str ") " ++ Doc.str m.name ++ env.signature .top true params results ++
      Doc.space ++ env.body .top body ++ Doc.newline

/-- The methods of the struct that `d` defines, with a blank line behind them. -/
def methodSet (env : Env) (d : Binding) : Doc :=
  match d.type with
  | .struct _ _ byPointer methods =>
    if methods.isEmpty then []
    else methods.flatMap (env.method d byPointer) ++ Doc.newline
  | _ => []

/-- A function definition with a blank line behind it. -/
def funcDef (env : Env) (d : Binding) : Doc :=
  match d.type.implementation? with
  | none => [.refuse (.functionWithoutBody d.sourceName)]
  | some (params, results, body) =>
    env.comments .top d.comments ++ env.funcHead .top d.name true params results ++ Doc.space ++
      env.body .top body ++ Doc.newline ++ Doc.newline

/-- Everything below the import block. -/
def moduleBody (env : Env) : Doc :=
  env.module.typeDefs.flatMap env.typeDef ++ env.values env.module.decls ++
    env.module.typeDefs.flatMap env.methodSet ++ env.module.funcDefs.flatMap env.funcDef

/-! ## The whole file -/

/-- The header comment with a blank line behind it. -/
def headerDoc (header : Option String) : Doc :=
  match header with
  | none => []
  | some h =>
    (Text.lines h.toList).flatMap
        (fun l =>
          Doc.str "//" ++ (if l.isEmpty then [] else Doc.space ++ Doc.str (String.ofList l)) ++
            Doc.newline) ++
      Doc.newline

/-- The package clause with a blank line behind it. -/
def packageDoc (m : Module) : Doc :=
  Doc.line ("package " ++ m.name) ++ Doc.newline

/-- The text of a file, given the document of its body: white space at the end is trimmed to one line
end. -/
def assemble (env : Env) (body : Doc) : String :=
  String.ofList
    (Text.trimEnd
        (headerDoc env.options.header ++ packageDoc env.module ++
          (ImportUsage.ofMarks body.uses).block ++ body).chars ++
      ['\n'])

/-- The file of a module. -/
def file (env : Env) : Except RenderError GoFile :=
  let body := env.moduleBody
  match body.refusal? with
  | some r => .error (.refused env.module.sourceName r)
  | none =>
    if env.options.strict && !body.diagnostics.isEmpty then
      .error (.placeholders env.module.sourceName body.diagnostics)
    else
      .ok
        { source := env.assemble body
          imports := (ImportUsage.ofMarks body.uses).sorted
          diagnostics := body.diagnostics }

end Env

/-- The file of a module whose type names are resolved by `resolver`. -/
def Module.renderWith (m : Module) (resolver : Resolver) (options : Options) :
    Except RenderError GoFile :=
  Env.file { module := m, resolver, options }

/-- The file of a module whose type names are resolved through its own imports. -/
def Module.render (m : Module) (options : Options) : Except RenderError GoFile :=
  m.renderWith .importTable options

/-- The text of a single node at `i`, in the context of a module. -/
def Node.render (n : Node) (m : Module) (options : Options) (i : Indent) : Except Refusal GoFile :=
  let doc := Env.node { module := m, resolver := .importTable, options } i n
  match doc.refusal? with
  | some r => .error r
  | none =>
    .ok
      { source := doc.text
        imports := (ImportUsage.ofMarks doc.uses).sorted
        diagnostics := doc.diagnostics }

end GoScribe
