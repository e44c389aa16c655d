/-!
# Diagnostics and refusals

A diagnostic is noted for each placeholder that is written in place of something that Go cannot
express; the text is still produced.  A refusal ends the rendering of a module.
-/

namespace GoScribe

/-- The kinds of placeholder. -/
inductive DiagnosticKind where
  | unsupportedNode
  | unresolvedType
  | unknownPackage
  | unloweredTypeTest
  | malformedNode
deriving DecidableEq, Repr

/-- The words for a kind of placeholder. -/
def DiagnosticKind.words : DiagnosticKind → String
  | .unsupportedNode => "unsupported node"
  | .unresolvedType => "unresolved type"
  | .unknownPackage => "unknown package"
  | .unloweredTypeTest => "unlowered type test"
  | .malformedNode => "malformed node"

/-- A note that a placeholder was written. -/
structure Diagnostic where
  kind : DiagnosticKind
  message : String
deriving DecidableEq, Repr

/-- The text of a diagnostic. -/
def Diagnostic.text (d : Diagnostic) : String :=
  d.kind.words ++ ": " ++ d.message

/-- Why a tree cannot be written out at all. -/
inductive Refusal where
  /-- A method of an interface is no function signature. -/
  | notASignature (method owner : String)
  /-- A method of a struct has no body. -/
  | methodWithoutBody (method owner : String)
  /-- A function has no body. -/
  | functionWithoutBody (name : String)
deriving DecidableEq, Repr

/-- The text of a refusal. -/
def Refusal.message : Refusal → String
  | .notASignature method owner =>
    "interface method `" ++ method ++ "` of `" ++ owner ++ "` is not a function signature"
  | .methodWithoutBody method owner =>
    "method `" ++ method ++ "` of `" ++ owner ++ "` has no implementation"
  | .functionWithoutBody name => "function `" ++ name ++ "` has no implementation"

end GoScribe
