import GoScribe.Layout.Doc
import GoScribe.Text.Quoted

/-!
# Import usage

The imports that a rendering needs, one for each path.  The first import that is marked for a path
stays; the order of the marks does not matter otherwise, because the imports are kept sorted.
-/

namespace GoScribe

/-- The imports that are used, sorted by path. -/
structure ImportUsage where
  used : List Import
deriving DecidableEq, Repr

namespace ImportUsage

/-- No import is used. -/
def empty : ImportUsage := ⟨[]⟩

/-- `i` in its place among imports sorted by path, unless its path is there. -/
def insert (i : Import) : List Import → List Import
  | [] => [i]
  | j :: js =>
    if i.path = j.path then j :: js
    else if i.path < j.path then i :: j :: js
    else j :: insert i js

/-- The usage after `i` was marked. -/
def mark (u : ImportUsage) (i : Import) : ImportUsage := ⟨insert i u.used⟩

/-- The usage after several imports were marked in order. -/
def ofMarks (marks : List Import) : ImportUsage := marks.foldl mark empty

/-- An import of `path` was marked. -/
def isUsed (u : ImportUsage) (path : String) : Bool := u.used.any (·.path == path)

/-- The imports whose path is a bare name. -/
def shortNames (u : ImportUsage) : List Import := u.used.filter (·.form == .shortName)

/-- The imports whose path has several segments. -/
def fullPaths (u : ImportUsage) : List Import := u.used.filter (·.form == .fullPath)

/-- The imports in the order in which they are written: bare names first, each part by path. -/
def sorted (u : ImportUsage) : List Import := u.shortNames ++ u.fullPaths

/-- The line of an import block for one import. -/
def importLine (i : Import) : Doc :=
  Doc.str "\t" ++ (if i.needsAlias then Doc.str i.goName ++ Doc.space else []) ++
    Doc.line (String.ofList (Text.quote i.path.toList))

/-- The import block with a blank line behind it; nothing if no import is used.  A blank line divides
the bare names from the longer paths. -/
def block (u : ImportUsage) : Doc :=
  if u.used.isEmpty then []
  else
    Doc.line "import (" ++ u.shortNames.flatMap importLine ++
      (if u.shortNames.isEmpty || u.fullPaths.isEmpty then [] else Doc.newline) ++
      u.fullPaths.flatMap importLine ++ Doc.line ")" ++ Doc.newline

end ImportUsage

end GoScribe
