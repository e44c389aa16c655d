/-!
# Rendering options
-/

namespace GoScribe

/-- The symbol that is written for an empty interface that stands for a type variable. -/
structure Marker where
  packageAlias : String
  packagePath : String
  symbol : String
deriving DecidableEq, Repr

/-- A namespace without the slashes at its end. -/
def trimSlashes (cs : List Char) : List Char :=
  (cs.reverse.dropWhile (· == '/')).reverse

/-- The marker of the package `-` below a namespace. -/
def Marker.forNamespace (ns : String) : Marker :=
  { packageAlias := "𝒈"
    packagePath := String.ofList (trimSlashes ns.toList) ++ "/-"
    symbol := "𝑻" }

/-- The namespace of the packages that are written, unless another is given. -/
def defaultNamespace : String := "github.com/goemit"

/-- How modules are rendered. -/
structure Options where
  /-- Write the comments of the tree. -/
  includeComments : Bool := true
  /-- The comment above the package clause, one comment line for each line of it. -/
  header : Option String := none
  /-- Write the interfaces that an interface embeds. -/
  overlappingInterfaces : Bool := false
  /-- Fail on a placeholder instead of writing it. -/
  strict : Bool := false
  typeVar : Marker := Marker.forNamespace defaultNamespace
deriving DecidableEq, Repr

end GoScribe
