import GoScribe.Layout.Doc
import GoScribe.Render.Options
import GoScribe.Text.Split

/-!
# What rendering depends on

The type names of a tree are qualified names of the source language.  A resolver turns them into Go
symbols; the usual one looks them up in the module's own import table.
-/

namespace GoScribe

/-- A Go symbol, in a package if it is given one. -/
structure Symbol where
  pkg : Option String
  name : String
deriving DecidableEq, Repr

/-- A way to find the Go symbol for a qualified name of a module. -/
abbrev Resolver := Module → String → Option Symbol

/-- Resolution through the import table.  A name without a dot, or qualified by the module itself, is
local; otherwise the qualifier is looked up as a source module first and as a local package name
second. -/
def Resolver.importTable : Resolver := fun m qualifiedName =>
  match Text.splitLast? '.' qualifiedName.toList with
  | none => some { pkg := none, name := qualifiedName }
  | some (before, after) =>
    let qualifier := String.ofList before
    let name := String.ofList after
    if qualifier = m.sourceName || qualifier = m.name then some { pkg := none, name }
    else
      match m.importBySource? qualifier <|> m.importByAlias? qualifier with
      | some i => some { pkg := some i.goName, name }
      | none => none

/-- Resolution through a fixed table. -/
def Resolver.ofTable (table : List (String × Symbol)) : Resolver := fun _ qualifiedName =>
  table.lookup qualifiedName

/-- What rendering depends on beside the tree. -/
structure Env where
  module : Module
  resolver : Resolver
  options : Options

namespace Env

/-- The Go symbol of a qualified name. -/
def resolve (env : Env) (qualifiedName : String) : Option Symbol :=
  env.resolver env.module qualifiedName

/-- The package known as `goName` is used. -/
def useOf (env : Env) (goName : String) : Doc :=
  [.use (env.module.importFor goName)]

/-- A symbol, qualified by its package and with that package's import if it is given one. -/
def symbol (env : Env) (s : Symbol) : Doc :=
  match s.pkg with
  | none => Doc.str s.name
  | some pkg =>
    if pkg = "" then Doc.str s.name
    else env.useOf pkg ++ [.qualifier pkg] ++ Doc.str s.name

/-- The comments of `cs` that are shown, each on lines of its own at `i`. -/
def comments (env : Env) (i : Indent) (cs : List Comment) : Doc :=
  if env.options.includeComments then
    cs.flatMap fun
      | .line text => Doc.tabs i ++ Doc.str "//" ++ Doc.str text ++ Doc.newline
      | .block text => Doc.tabs i ++ Doc.str "/*" ++ Doc.str text ++ Doc.str "*/" ++ Doc.endStatement i
  else []

/-- Some of the comments `cs` are shown. -/
def showsAny (env : Env) (cs : List Comment) : Bool :=
  env.options.includeComments && !cs.isEmpty

end Env

end GoScribe
