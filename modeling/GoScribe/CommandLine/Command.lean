import GoScribe.CommandLine.Arguments
import GoScribe.Project.Run
import GoScribe.Toml.Options

/-!
# The command

What a command line does to a file tree, what it prints, and with which code it ends.
-/

namespace GoScribe

/-- The header of the files that are written, unless there is another or none is wanted. -/
def defaultHeader : String := "Code generated by goemit. DO NOT EDIT."

/-- The build directory if none is given: the source directory of the first workspace that has
one. -/
def defaultBuildPath (t : FileTree) (env : Environment) : Path :=
  match env.gopath with
  | none => ⟨"build"⟩
  | some gopath =>
    let dirs := (Text.splitOn ':' gopath.toList).map fun dir =>
      (Path.mk (String.ofList dir)).join ⟨"src"⟩
    (dirs.find? t.isDir).getD ⟨"build"⟩

namespace Arguments

/-- The rendering options before the flags: those of a file, or the defaults for the namespace. -/
def baseOptions (t : FileTree) (a : Arguments) : Except Failure Options :=
  match a.renderConfig with
  | none => .ok { includeComments := false, typeVar := Marker.forNamespace a.ns }
  | some path =>
    match t.readText path with
    | .error e => .error (.unreadable path e)
    | .ok text =>
      match Options.parse? text with
      | none => .error .badOptions
      | some options => .ok options

/-- Rendering options with the flags on top. -/
def withFlags (a : Arguments) (options : Options) : Options :=
  { options with
    includeComments := a.comments || options.includeComments
    header := if a.noHeader then none else some (options.header.getD defaultHeader)
    strict := !a.allowPlaceholders }

/-- What the run of a command line works on. -/
def settings (t : FileTree) (env : Environment) (a : Arguments) : Except Failure RunSettings := do
  let options ← a.baseOptions t
  return {
    srcDir := a.srcPath
    depsDir := a.dependencyPath
    manifestPath := a.manifestFile
    layout :=
      { dumpsDir := a.dumpsPath
        buildDir := a.buildPath.getD (defaultBuildPath t env)
        ns := a.ns
        force := a.force }
    options := a.withFlags options
    failFast := a.failFast }

/-- The run of a command line. -/
def execute (t : FileTree) (env : Environment) (a : Arguments) : FileTree × Except Failure RunReport :=
  match a.settings t env with
  | .error e => (t, .error e)
  | .ok s => s.run t

end Arguments

/-- How a command ends. -/
structure Exit where
  code : Nat
  /-- What is printed. -/
  output : String
  /-- What is printed for the user's eyes only. -/
  complaint : String := ""
deriving DecidableEq, Repr

/-- The version of the command. -/
def versionLine : String := "goemit 0.0.1\n"

/-- The text that is printed when help is asked for. -/
def helpText : String :=
  "Generates Go packages from the per-module IR dumps of a bower-style project and its dependencies\n\n" ++
  "Usage: goemit [OPTIONS]\n\n" ++
  "Project Options:\n" ++
  "      --src-path <SRC_PATH>                Project-sources directory path [default: src]\n" ++
  "      --dependency-path <DEPENDENCY_PATH>  Dependencies directory path [default: bower_components]\n" ++
  "      --bower-file <BOWER_FILE>            Project file path [default: bower.json]\n" ++
  "      --coreimp-dumps-path <DUMPS_PATH>    Directory holding one IR dump directory per module [default: output]\n\n" ++
  "Output Options:\n" ++
  "      --no-prefix                          Do not include the comment header\n" ++
  "      --comments                           Include comments in the generated code\n" ++
  "      --force                              Regenerate every package that has an IR dump, even when up to date\n" ++
  "      --build-path <BUILD_PATH>            Output root for generated Go packages (defaults to the first GOPATH's src)\n" ++
  "      --go-namespace <GO_NAMESPACE>        Root namespace for all generated Go packages [default: github.com/goemit]\n" ++
  "      --render-config <RENDER_CONFIG>      TOML file with additional render options\n\n" ++
  "General Options:\n" ++
  "      --allow-placeholders                 Write units containing placeholder text instead of failing them\n" ++
  "      --fail-fast                          Stop scheduling work after the first failed unit\n" ++
  "  -v, --verbose                            Display detailed progress\n" ++
  "  -h, --help                               Print help\n" ++
  "  -V, --version                            Print version\n"

/-- How a command ends whose words are not run. -/
def UsageError.exit : UsageError → Exit
  | .helpWanted => { code := 0, output := helpText }
  | .versionWanted => { code := 0, output := versionLine }
  | e => { code := 2, output := "", complaint := "error: " ++ e.message ++ "\n" }

/-- How a run ends: in silence, or with the reasons why it did not succeed. -/
def exitOfRun : Except Failure RunReport → Exit
  | .ok report =>
    if report.isSuccess then { code := 0, output := "", complaint := report.text ++ "\n" }
    else { code := 1, output := report.text ++ "\n" }
  | .error e => { code := 1, output := e.report ++ "\n" }

/-- The tree after a command, and how the command ends. -/
def command (t : FileTree) (env : Environment) (words : List String) : FileTree × Exit :=
  match Arguments.parse env words with
  | .error e => (t, e.exit)
  | .ok a =>
    let (t, result) := a.execute t env
    (t, exitOfRun result)

end GoScribe
