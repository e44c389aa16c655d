import GoScribe.Files.FileTree
import GoScribe.Render.GoFile

/-!
# Failures

Why a package is not found, read or written.  A failure is told from the outside in: what was to be
done, then what stood in the way.
-/

namespace GoScribe

/-- What stands in the way of a step on a file. -/
inductive Cause where
  | badJson
  | badToml
  | badPattern
  | file (e : FileError)
deriving DecidableEq, Repr

/-- The text of an error on files. -/
def FileError.message : FileError → String
  | .notFound => "No such file or directory (os error 2)"
  | .alreadyExists => "File exists (os error 17)"
  | .notADirectory => "Not a directory (os error 20)"
  | .isADirectory => "Is a directory (os error 21)"
  | .invalidData => "stream did not contain valid UTF-8"

/-- The text of a cause. -/
def Cause.message : Cause → String
  | badJson => "the text is not the JSON of the expected data"
  | badToml => "the text is not the TOML of the expected data"
  | badPattern => "the pattern is malformed"
  | file e => e.message

/-- Why a step of a run fails. -/
inductive Failure where
  | unreadable (path : Path) (e : FileError)
  | badManifest (path : Path)
  /-- Neither the manifest nor the directory gives a name. -/
  | unnamed (manifestPath : Path)
  | badPattern (pattern : String)
  | badDump (path : Path)
  | unrenderable (e : RenderError)
  | uncreatable (dir : Path) (e : FileError)
  | unwritable (path : Path) (e : FileError)
  | badOptions
  | noDependencyDir (dir : Path)
  | noSourceDir (dir : Path)
  | unreadableDependencies (dir : Path) (e : FileError)
  | inPackage (name : String) (reason : Failure)
deriving DecidableEq, Repr

namespace Failure

/-- What was to be done, outermost first. -/
def contexts : Failure → List String
  | unreadable path _ => ["Failed to read " ++ path.text]
  | badManifest path => ["Failed to parse " ++ path.text]
  | unnamed path => [path.text ++ " does not name the project"]
  | badPattern pattern => ["Invalid source pattern " ++ pattern]
  | badDump path => ["Invalid IR dump " ++ path.text]
  | unrenderable e => [e.message]
  | uncreatable dir _ => ["Failed to create " ++ dir.text]
  | unwritable path _ => ["Failed to write " ++ path.text]
  | badOptions => ["invalid render options"]
  | noDependencyDir dir => ["No such `dependency-path` directory: " ++ dir.text]
  | noSourceDir dir => ["No such `src-path` directory: " ++ dir.text]
  | unreadableDependencies dir _ => ["Failed to read dependency directory " ++ dir.text]
  | inPackage name reason => ("Failed to regenerate package " ++ name) :: reason.contexts

/-- What stood in the way, if it is not told by what was to be done. -/
def cause? : Failure → Option Cause
  | unreadable _ e => some (.file e)
  | badManifest _ => some .badJson
  | unnamed _ => none
  | badPattern _ => some .badPattern
  | badDump _ => some .badJson
  | unrenderable _ => none
  | uncreatable _ e => some (.file e)
  | unwritable _ e => some (.file e)
  | badOptions => some .badToml
  | noDependencyDir _ => none
  | noSourceDir _ => none
  | unreadableDependencies _ e => some (.file e)
  | inPackage _ reason => reason.cause?

/-- The parts of the text of a failure, outermost first. -/
def chain (e : Failure) : List String :=
  e.contexts ++ (e.cause?.map Cause.message).toList

/-- The text of a failure on one line. -/
def message (e : Failure) : String := ": ".intercalate e.chain

/-- The causes of a failure, one a line; several are numbered. -/
def causeLines : List String → List String
  | [] => []
  | [cause] => ["    " ++ cause]
  | causes => causes.zipIdx.map fun (cause, n) => "    " ++ toString n ++ ": " ++ cause

/-- The text of a failure with its causes below it. -/
def report (e : Failure) : String :=
  match e.chain with
  | [] => ""
  | [top] => top
  | top :: causes => top ++ "\n\nCaused by:\n" ++ "\n".intercalate (causeLines causes)

end Failure

end GoScribe
