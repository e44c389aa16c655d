import GoScribe.Project.Regenerate

/-!
# Runs

A run reads the manifests of a project and its dependencies, and only then writes the Go files of one
package after the other.
-/

namespace GoScribe

/-- What a run works on. -/
structure RunSettings where
  srcDir : Path
  depsDir : Path
  manifestPath : Path
  layout : Layout
  options : Options
  /-- Stop at the first unit that fails. -/
  failFast : Bool
deriving DecidableEq, Repr

/-- What became of the packages of a run. -/
structure RunReport where
  packages : Nat := 0
  written : List Path := []
  upToDate : Nat := 0
  withoutDump : Nat := 0
  cancelled : Nat := 0
  /-- The packages that were not started because the run was stopped. -/
  aborted : List String := []
  failures : List UnitFailure := []
deriving DecidableEq, Repr

namespace RunReport

/-- No unit failed. -/
def isSuccess (r : RunReport) : Bool := r.failures.isEmpty

/-- The report with one more package in it. -/
def merge (r : RunReport) (p : PackageReport) : RunReport :=
  { r with
    packages := r.packages + 1
    written := r.written ++ p.written
    upToDate := r.upToDate + p.upToDate
    withoutDump := r.withoutDump + p.withoutDump
    cancelled := r.cancelled + p.cancelled
    failures := r.failures ++ p.failures }

/-- The report with one more package that was not started. -/
def abort (r : RunReport) (package : String) : RunReport :=
  { r with packages := r.packages + 1, aborted := r.aborted ++ [package] }

/-- The line that sums up a run. -/
def summaryLine (packages written upToDate withoutDump cancelled : Nat) (aborted : List String) : String :=
  toString packages ++ " package(s): " ++ toString written ++ " written, " ++ toString upToDate ++
    " up to date, " ++ toString withoutDump ++ " without IR dump" ++
    (if cancelled = 0 then "" else ", " ++ toString cancelled ++ " cancelled") ++
    (if aborted.isEmpty then "" else ", not started: " ++ ", ".intercalate aborted)

/-- The line of a unit that failed. -/
def failureLine (package moduleName message : String) : String :=
  "\nerror " ++ package ++ "/" ++ moduleName ++ ": " ++ message

/-- The line that sums up a run. -/
def summary (r : RunReport) : String :=
  summaryLine r.packages r.written.length r.upToDate r.withoutDump r.cancelled r.aborted

/-- The text of a report: the summary, and a line for every failure. -/
def text (r : RunReport) : String :=
  r.summary ++
    String.join (r.failures.map fun f => failureLine f.package f.moduleName f.reason.message)

end RunReport

/-- The packages of a project with their manifests read: the root, then its dependencies sorted by
name. -/
def loadPackages (t : FileTree) (s : RunSettings) : Except Failure (List Package) := do
  let root ← (Package.root s.srcDir s.manifestPath).load t
  let deps ← Package.discover t s.depsDir
  return root :: (← deps.mapM (Package.load t))

/-- The report of a package whose units could not be told. -/
def PackageReport.unlisted (package : String) (reason : Failure) : PackageReport :=
  { failures := [{ package, moduleName := "*", reason := .inPackage package reason }] }

/-- The turns of packages, one after the other.  When the run stops at failures, the packages behind
the first that has one are not started. -/
def runPackages (t : FileTree) (s : RunSettings) (stop : StopSignal) (report : RunReport) :
    List Package → FileTree × RunReport
  | [] => (t, { report with aborted := report.aborted.mergeSort fun a b => a ≤ b })
  | p :: ps =>
    if s.failFast && !report.isSuccess then runPackages t s stop (report.abort p.name) ps
    else
      match p.regenerate t s.layout s.options stop with
      | (t', stop', .ok r) => runPackages t' s stop' (report.merge r) ps
      | (t', stop', .error e) => runPackages t' s stop' (report.merge (.unlisted p.name e)) ps

/-- The tree after a run, and its report. -/
def RunSettings.run (s : RunSettings) (t : FileTree) : FileTree × Except Failure RunReport :=
  match makeDir t s.layout.buildDir with
  | (t, .error e) => (t, .error e)
  | (t, .ok _) =>
    if !t.isDir s.depsDir then (t, .error (.noDependencyDir s.depsDir))
    else if !t.isDir s.srcDir then (t, .error (.noSourceDir s.srcDir))
    else
      match loadPackages t s with
      | .error e => (t, .error e)
      | .ok packages =>
        let (t, report) := runPackages t s { onFailure := s.failFast } {} packages
        (t, .ok report)

end GoScribe
