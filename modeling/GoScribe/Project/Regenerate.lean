import GoScribe.Json.Decode
import GoScribe.Project.Package

/-!
# Writing Go files

The Go file of a unit is written when it is older than the dump of the module, or when writing is
forced.  The units of a package are taken in order.  A failed unit does not keep the others from
being written, unless the run stops at the first failure.
-/

namespace GoScribe

/-- What became of a unit that did not fail. -/
inductive Outcome where
  | written (path : Path)
  | upToDate (path : Path)
  /-- There is no dump to write a Go file from. -/
  | noDump
deriving DecidableEq, Repr

/-- A unit that failed. -/
structure UnitFailure where
  package : String
  moduleName : String
  reason : Failure
deriving DecidableEq, Repr

/-- What became of the units of a package. -/
structure PackageReport where
  written : List Path := []
  upToDate : Nat := 0
  withoutDump : Nat := 0
  failures : List UnitFailure := []
  /-- The number of units that were left alone because the run was stopped. -/
  cancelled : Nat := 0
deriving DecidableEq, Repr

/-- The signal that stops a run. -/
structure StopSignal where
  raised : Bool := false
  /-- A failed unit raises the signal. -/
  onFailure : Bool := false
deriving DecidableEq, Repr

/-- The signal after a unit has failed. -/
def StopSignal.unitFailed (s : StopSignal) : StopSignal :=
  { s with raised := s.raised || s.onFailure }

/-! ## One unit -/

/-- The module in a dump. -/
def loadDump (t : FileTree) (path : Path) : Except Failure Module :=
  match t.readText path with
  | .error e => .error (.unreadable path e)
  | .ok text =>
    match (Json.parse? text).bind (Module.ofJson? Json.nestingLimit) with
    | none => .error (.badDump path)
    | some m => .ok m

/-- The Go source of the module in a dump. -/
def renderDump (t : FileTree) (options : Options) (path : Path) : Except Failure String :=
  match loadDump t path with
  | .error e => .error e
  | .ok m =>
    match m.render options with
    | .error e => .error (.unrenderable e)
    | .ok file => .ok file.source

/-- The Go file is not older than the dump. -/
def isUpToDate (t : FileTree) (dump out : Path) : Bool :=
  match t.modified? dump, t.modified? out with
  | some d, some o => d ≤ o
  | _, _ => false

/-- The tree with a directory in it. -/
def makeDir (t : FileTree) (dir : Path) : FileTree × Except Failure Unit :=
  match t.createDirs dir with
  | (t', .ok _) => (t', .ok ())
  | (t', .error e) => (t', .error (.uncreatable dir e))

/-- The tree with the directory that a file belongs in. -/
def makeParent (t : FileTree) (path : Path) : FileTree × Except Failure Unit :=
  match path.parent? with
  | none => (t, .ok ())
  | some dir => makeDir t dir

/-- The tree with a source file in it, and its directory if there was none. -/
def install (t : FileTree) (path : Path) (source : String) : FileTree × Except Failure Outcome :=
  match makeParent t path with
  | (t', .error e) => (t', .error e)
  | (t', .ok _) =>
    match t'.writeFile path source.toUTF8 with
    | .error e => (t', .error (.unwritable path e))
    | .ok t'' => (t'', .ok (.written path))

/-- The tree after a unit's turn, and what became of the unit. -/
def SourceUnit.regenerate (u : SourceUnit) (t : FileTree) (options : Options) (force : Bool) :
    FileTree × Except Failure Outcome :=
  if t.isFile u.dumpPath then
    if !force && isUpToDate t u.dumpPath u.outPath then (t, .ok (.upToDate u.outPath))
    else
      match renderDump t options u.dumpPath with
      | .error e => (t, .error e)
      | .ok source => install t u.outPath source
  else (t, .ok .noDump)

/-! ## One package -/

/-- A report with one more unit in it. -/
def PackageReport.add (r : PackageReport) (package : String) (u : SourceUnit) :
    Except Failure Outcome → PackageReport
  | .ok (.written path) => { r with written := r.written ++ [path] }
  | .ok (.upToDate _) => { r with upToDate := r.upToDate + 1 }
  | .ok .noDump => { r with withoutDump := r.withoutDump + 1 }
  | .error reason =>
    { r with failures := r.failures ++ [{ package, moduleName := u.moduleName, reason }] }

/-- A package in the course of its regeneration. -/
structure Progress where
  tree : FileTree
  stop : StopSignal
  report : PackageReport

/-- The progress after the turn of one more unit of a package. -/
def Progress.step (s : Progress) (package : String) (options : Options) (force : Bool)
    (u : SourceUnit) : Progress :=
  let (tree, result) := u.regenerate s.tree options force
  { tree
    stop := match result with
      | .ok _ => s.stop
      | .error _ => s.stop.unitFailed
    report := s.report.add package u result }

/-- The progress after the turns of units.  Once the run is stopped the rest are left alone. -/
def Progress.run (s : Progress) (package : String) (options : Options) (force : Bool) :
    List SourceUnit → Progress
  | [] => s
  | u :: us =>
    if s.stop.raised then { s with report := { s.report with cancelled := us.length + 1 } }
    else Progress.run (s.step package options force u) package options force us

/-- The tree and the signal after a package's turn, and the report of its units.  It fails only if its
units cannot be told. -/
def Package.regenerate (p : Package) (t : FileTree) (layout : Layout) (options : Options)
    (stop : StopSignal) : FileTree × StopSignal × Except Failure PackageReport :=
  match p.units t layout with
  | .error e => (t, stop, .error e)
  | .ok us =>
    let s := Progress.run { tree := t, stop, report := {} } p.name options layout.force us
    (s.tree, s.stop, .ok s.report)

end GoScribe
