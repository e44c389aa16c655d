import GoScribe.CommandLine.Command

/-!
# The program

The files that a command line is about are read into a tree, the command is run on the tree, and what
it changed is written back.
-/

namespace GoScribe.Program

/-- The location of a path, given that of the working directory; two dots take away the name in front
of them. -/
def locationOf (workingDir : Location) (p : Path) : Location :=
  p.components.foldl
    (fun l c =>
      match c with
      | .root => []
      | .current => l
      | .parent => l.tail
      | .normal name => name :: l)
    workingDir

/-- The absolute path of a location. -/
def textOf (l : Location) : String := "/" ++ "/".intercalate l.reverse

/-- The time of the last change in nanoseconds. -/
def timeOf (m : IO.FS.Metadata) : Nat :=
  m.modified.sec.toNat * 1000000000 + m.modified.nsec.toNat

/-- The tree with what is found at a location and below it.  Without `content` files count as empty. -/
partial def scan (content deep : Bool) (l : Location) (t : FileTree) : IO FileTree := do
  let path := (← IO.currentDir) / textOf l
  match ← path.metadata.toBaseIO with
  | .error _ => return t
  | .ok m =>
    let t := { t with clock := max t.clock (timeOf m) }
    if m.type == .dir then
      let mut t := if l.isEmpty then t else t.put l (.dir (timeOf m))
      if deep then
        for e in ← path.readDir do
          t ← scan content true (e.fileName :: l) t
      return t
    else
      let bytes ← if content then IO.FS.readBinFile path else pure ByteArray.empty
      return t.put l (.file bytes (timeOf m))

/-- The tree with what is found at a path, on the way to it and below it. -/
def scanPath (content deep : Bool) (p : Path) (t : FileTree) : IO FileTree := do
  let l := locationOf t.workingDir p
  let mut t := t
  for n in List.range l.length do
    t ← scan content false (l.drop (l.length - n)) t
  scan content deep l t

/-- The directories that may become the build directory. -/
def buildCandidates (env : Environment) (a : Arguments) : List Path :=
  match a.buildPath, env.gopath with
  | some p, _ => [p]
  | none, none => [⟨"build"⟩]
  | none, some gopath =>
    (Text.splitOn ':' gopath.toList).map (fun dir => (Path.mk (String.ofList dir)).join ⟨"src"⟩) ++
      [⟨"build"⟩]

/-- The tree of the files that a command line is about. -/
def snapshot (env : Environment) (a : Arguments) : IO FileTree := do
  let here := (← IO.currentDir).toString
  let mut t := FileTree.empty (locationOf [] ⟨here⟩) 0
  for p in [a.srcPath, a.dependencyPath, a.manifestFile, a.dumpsPath] ++ a.renderConfig.toList do
    t ← scanPath true true p t
  for p in buildCandidates env a do
    t ← scanPath false false p t
  scanPath false true ((a.buildPath.getD (defaultBuildPath t env)).join ⟨a.ns⟩) t

/-- An entry is not the one that was there before. -/
def isNew (before : Option Entry) : Entry → Bool
  | .dir _ => before.isNone
  | .file content _ =>
    match before with
    | some (.file old _) => old.toList != content.toList
    | _ => true

/-- What differs between two trees is written to the disk. -/
def store (before after : FileTree) : IO Unit := do
  for (l, e) in after.entries do
    if isNew (before.get? l) e then
      match e with
      | .dir _ => IO.FS.createDirAll (textOf l)
      | .file content _ => IO.FS.writeBinFile (textOf l) content

end GoScribe.Program

/-- The command line. -/
def main (words : List String) : IO UInt32 := do
  let env : GoScribe.Environment :=
    { gopath := ← IO.getEnv "GOPATH", buildPath := ← IO.getEnv "GOEMIT_BUILD_PATH" }
  let before ←
    match GoScribe.Arguments.parse env words with
    | .ok a => GoScribe.Program.snapshot env a
    | .error _ => pure (GoScribe.FileTree.empty [] 0)
  let (after, exit) := GoScribe.command before env words
  GoScribe.Program.store before after
  IO.eprint exit.complaint
  IO.print exit.output
  return exit.code.toUInt32
