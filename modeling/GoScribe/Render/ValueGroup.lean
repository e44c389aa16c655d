import GoScribe.Render.NodeDoc

/-!
# Constants and variables at top level

Neighbouring constants share one `const` block and neighbouring variables one `var` block; a
declaration without such a neighbour stands alone.  Type and function declarations between them do
not count.
-/

namespace GoScribe

/-- A constant or a variable. -/
inductive ValueKind where
  | const
  | var
deriving DecidableEq, Repr

/-- The keyword of a declaration. -/
def ValueKind.keyword : ValueKind → String
  | const => "const"
  | var => "var"

/-- A top-level constant or variable. -/
structure ValueDecl where
  kind : ValueKind
  decl : Binding
  value : Option Node
  ok : Option OkBinding

/-- The constant or variable that a declaration is. -/
def Decl.value? : Decl → Option ValueDecl
  | const decl value => some { kind := .const, decl, value := some value, ok := none }
  | var decl value ok => some { kind := .var, decl, value, ok }
  | _ => none

/-- The maximal runs of neighbours of equal kind. -/
def ValueDecl.runs : List ValueDecl → List (List ValueDecl)
  | [] => []
  | v :: vs =>
    match runs vs with
    | (w :: ws) :: rs => if v.kind = w.kind then (v :: w :: ws) :: rs else [v] :: (w :: ws) :: rs
    | rs => [v] :: rs

namespace Env

/-- A declaration without its comments and keyword. -/
def valueDoc (env : Env) (i : Indent) (v : ValueDecl) : Doc :=
  (match VarShape.topLevel v.value v.ok with
  | .checked ok => checkedNames v.decl.name ok
  | _ => Doc.str v.decl.name ++ env.declaredType i v.decl.type v.value.isSome) ++
    initializer (env.nodeOpt i v.value)

/-- A declaration that stands alone. -/
def plainValue (env : Env) (v : ValueDecl) : Doc :=
  env.comments .top v.decl.comments ++ Doc.str v.kind.keyword ++ Doc.space ++ env.valueDoc .top v ++
    Doc.newline

/-- The place of the lines of a group. -/
def groupIndent : Indent := .level 1

/-- A line of a group with its comments above it. -/
def groupEntry (env : Env) (v : ValueDecl) : Doc :=
  env.comments groupIndent v.decl.comments ++ Doc.tabs groupIndent ++ env.valueDoc groupIndent v ++
    Doc.newline

/-- A line of a group below another: comments have a blank line above them. -/
def laterEntry (env : Env) (v : ValueDecl) : Doc :=
  (if env.showsAny v.decl.comments then Doc.newline else []) ++ env.groupEntry v

/-- A run of declarations of one kind, with a blank line behind it. -/
def run (env : Env) : List ValueDecl → Doc
  | [] => []
  | [v] => env.plainValue v ++ Doc.newline
  | v :: vs =>
    Doc.str v.kind.keyword ++ Doc.line " (" ++ env.groupEntry v ++ vs.flatMap env.laterEntry ++
      Doc.line ")" ++ Doc.newline

/-- The constants and variables among `decls`. -/
def values (env : Env) (decls : List Decl) : Doc :=
  (ValueDecl.runs (decls.filterMap Decl.value?)).flatMap env.run

end Env

end GoScribe
