import GoScribe.Files.Path
import GoScribe.Render.Options

/-!
# Arguments

The words of the command line.  An option takes a value, as the next word or behind an equals sign; a
flag takes none.  Both may be given once.
-/

namespace GoScribe

/-- An option of the command line. -/
inductive ValueOption where
  | srcPath
  | dependencyPath
  | manifestFile
  | dumpsPath
  | buildPath
  | ns
  | renderConfig
deriving DecidableEq, Repr

/-- A flag of the command line. -/
inductive Flag where
  | noHeader
  | comments
  | force
  | allowPlaceholders
  | failFast
  | verbose
  | help
  | version
deriving DecidableEq, Repr

/-- Why a command line is not run. -/
inductive UsageError where
  /-- A word that is neither known nor the value of an option. -/
  | unknownArgument
  /-- An option or flag that is given twice. -/
  | repeated
  /-- A value that is missing, or empty where a path is needed. -/
  | invalidValue
  /-- A flag with a value. -/
  | unexpectedValue
  | helpWanted
  | versionWanted
deriving DecidableEq, Repr

/-- The complaint about a command line. -/
def UsageError.message : UsageError → String
  | unknownArgument => "unexpected argument found"
  | repeated => "an argument cannot be used multiple times"
  | invalidValue => "a value is required for an argument but none was supplied"
  | unexpectedValue => "unexpected value for an argument that takes none"
  | helpWanted => "help was asked for"
  | versionWanted => "the version was asked for"

namespace ValueOption

/-- The option of a name. -/
def ofName? : String → Option ValueOption
  | "src-path" => some srcPath
  | "dependency-path" => some dependencyPath
  | "bower-file" => some manifestFile
  | "coreimp-dumps-path" => some dumpsPath
  | "build-path" => some buildPath
  | "go-namespace" => some ns
  | "render-config" => some renderConfig
  | _ => none

/-- The value of the option is no path, so that it may be empty. -/
def allowsEmpty (o : ValueOption) : Bool := o = ns

end ValueOption

namespace Flag

/-- The flag of a name. -/
def ofName? : String → Option Flag
  | "no-prefix" => some noHeader
  | "comments" => some comments
  | "force" => some force
  | "allow-placeholders" => some allowPlaceholders
  | "fail-fast" => some failFast
  | "verbose" => some verbose
  | "help" => some help
  | "version" => some version
  | _ => none

/-- The flag of a letter. -/
def ofLetter? : Char → Option Flag
  | 'v' => some verbose
  | 'h' => some help
  | 'V' => some version
  | _ => none

end Flag

/-- The words read so far. -/
structure ParsedWords where
  values : List (ValueOption × String) := []
  flags : List Flag := []
  /-- The option given last with the word behind it, which is checked when the next one is seen. -/
  pending : Option (ValueOption × Option String) := none

namespace ParsedWords

/-- The words with a value of an option. -/
def addValue (s : ParsedWords) (o : ValueOption) (value : String) : Except UsageError ParsedWords :=
  if (s.values.lookup o).isSome then .error .repeated
  else if value = "" && !o.allowsEmpty then .error .invalidValue
  else .ok { s with values := (o, value) :: s.values }

/-- The words with the pending option checked. -/
def settle (s : ParsedWords) : Except UsageError ParsedWords :=
  match s.pending with
  | none => .ok s
  | some (_, none) => .error .invalidValue
  | some (o, some value) => addValue { s with pending := none } o value

/-- The words with a flag. -/
def addFlag (s : ParsedWords) (f : Flag) : Except UsageError ParsedWords := do
  let s ← s.settle
  match f with
  | .help => .error .helpWanted
  | .version => .error .versionWanted
  | _ => if s.flags.contains f then .error .repeated else return { s with flags := f :: s.flags }

/-- The words with the flags of letters. -/
def addLetters (s : ParsedWords) : List Char → Except UsageError ParsedWords
  | [] => .ok s
  | c :: cs =>
    match Flag.ofLetter? c with
    | none => .error .unknownArgument
    | some f => do addLetters (← s.addFlag f) cs

/-- The words with an option or flag that is given by its name, and the value behind an equals sign. -/
def addNamed (s : ParsedWords) (name : String) (value : Option String) :
    Except UsageError ParsedWords :=
  match Flag.ofName? name, ValueOption.ofName? name, value with
  | some f, _, none => s.addFlag f
  | some _, _, some _ => .error .unexpectedValue
  | none, some o, some v => do (← s.settle).addValue o v
  | none, some o, none => do
    let s ← s.settle
    return { s with pending := some (o, none) }
  | none, none, _ => .error .unknownArgument

/-- The words with one that is no option or flag: it is the value of the option in front of it. -/
def addPlain (s : ParsedWords) (word : String) : Except UsageError ParsedWords :=
  match s.pending with
  | some (o, none) => .ok { s with pending := some (o, some word) }
  | _ => .error .unknownArgument

/-- A name and the text behind its first equals sign. -/
def splitValue (cs : List Char) : String × Option String :=
  let name := String.ofList (cs.takeWhile (· != '='))
  match cs.dropWhile (· != '=') with
  | [] => (name, none)
  | _ :: value => (name, some (String.ofList value))

/-- The words with one more. -/
def add (s : ParsedWords) (word : String) : Except UsageError ParsedWords :=
  match word.toList with
  | '-' :: '-' :: cs =>
    let (name, value) := splitValue cs
    s.addNamed name value
  | '-' :: c :: cs => s.addLetters (c :: cs)
  | _ => s.addPlain word

/-- The words of a command line.  Two dashes end it. -/
def read (s : ParsedWords) : List String → Except UsageError ParsedWords
  | [] => s.settle
  | word :: words =>
    if word = "--" then
      if words.isEmpty then s.settle else .error .unknownArgument
    else do read (← s.add word) words

end ParsedWords

/-- The environment variables that the command looks at. -/
structure Environment where
  gopath : Option String := none
  buildPath : Option String := none
deriving DecidableEq, Repr

/-- What a command line asks for. -/
structure Arguments where
  srcPath : Path
  dependencyPath : Path
  manifestFile : Path
  dumpsPath : Path
  buildPath : Option Path
  ns : String
  renderConfig : Option Path
  noHeader : Bool
  comments : Bool
  force : Bool
  allowPlaceholders : Bool
  failFast : Bool
  verbose : Bool
deriving DecidableEq, Repr

/-- The build directory that is given, by the command line or else by the environment. -/
def givenBuildPath (env : Environment) (s : ParsedWords) : Except UsageError (Option Path) :=
  match s.values.lookup .buildPath, env.buildPath with
  | some value, _ => .ok (some ⟨value⟩)
  | none, some value => if value = "" then .error .invalidValue else .ok (some ⟨value⟩)
  | none, none => .ok none

/-- The arguments in the words of a command line. -/
def Arguments.parse (env : Environment) (words : List String) : Except UsageError Arguments := do
  let s ← ParsedWords.read {} words
  let value (o : ValueOption) (default : String) : String := (s.values.lookup o).getD default
  return {
    srcPath := ⟨value .srcPath "src"⟩
    dependencyPath := ⟨value .dependencyPath "bower_components"⟩
    manifestFile := ⟨value .manifestFile "bower.json"⟩
    dumpsPath := ⟨value .dumpsPath "output"⟩
    buildPath := ← givenBuildPath env s
    ns := value .ns defaultNamespace
    renderConfig := (s.values.lookup .renderConfig).map Path.mk
    noHeader := s.flags.contains .noHeader
    comments := s.flags.contains .comments
    force := s.flags.contains .force
    allowPlaceholders := s.flags.contains .allowPlaceholders
    failFast := s.flags.contains .failFast
    verbose := s.flags.contains .verbose }

end GoScribe
