import GoScribe.Files.Glob
import GoScribe.Project.Failure
import GoScribe.Project.Manifest

/-!
# Packages and their units

A package is a source directory with a manifest.  Each source file in it is a unit: its module is
dumped to one place and its Go file belongs in another.  Both follow from the name of the module,
which follows from the path of the source file.
-/

namespace GoScribe

/-- A package: the root of a project, or a dependency of it. -/
structure Package where
  /-- The name of a dependency is that of its directory until the manifest gives another. -/
  name : String
  srcDir : Path
  manifestPath : Path
  manifest : Option Manifest
  isDependency : Bool
deriving DecidableEq, Repr

/-- A module of a package. -/
structure SourceUnit where
  moduleName : String
  dumpPath : Path
  outPath : Path
deriving DecidableEq, Repr

/-- Where the dumps of modules are found, and where Go files are put. -/
structure Layout where
  dumpsDir : Path
  buildDir : Path
  ns : String
  /-- Write files that are up to date as well. -/
  force : Bool
deriving DecidableEq, Repr

/-- The name of a module's dump in the directory of the module. -/
def dumpFile : String := "goemit-ir.json"

/-! ## Names and paths of modules -/

/-- The name of the module whose source file is at a path in the source directory. -/
def moduleName? (relative : Path) : Option String :=
  let parts := relative.withoutExtension.components.map (·.text.toList)
  let name := Text.joinWith ['.'] parts
  if name.isEmpty then none else some (String.ofList name)

/-- The directory of a module in the directory of its package: one level for every part of its
name. -/
def moduleDir (packageDir : Path) (moduleName : String) : Path :=
  (Text.splitOn '.' moduleName.toList).foldl (fun dir part => dir.join ⟨String.ofList part⟩)
    packageDir

/-- The path of a module's Go file, which is named for the last part of the module's name. -/
def outPath (packageDir : Path) (moduleName : String) : Path :=
  (moduleDir packageDir moduleName).join
    ⟨String.ofList (Text.afterLast '.' moduleName.toList) ++ ".go"⟩

/-- The path of a module's dump. -/
def dumpPath (dumpsDir : Path) (moduleName : String) : Path :=
  (dumpsDir.join ⟨moduleName⟩).join ⟨dumpFile⟩

namespace Package

/-- The root of a project, before its manifest is read. -/
def root (srcDir manifestPath : Path) : Package :=
  { name := "", srcDir, manifestPath, manifest := none, isDependency := false }

/-- The directory of a package below the build directory. -/
def dir (p : Package) (buildDir : Path) (ns : String) : Path :=
  (buildDir.join ⟨ns⟩).join ⟨p.name⟩

/-! ## Manifests -/

/-- The names of manifests, in the order of precedence. -/
def manifestFiles : List String := [".bower.json", "bower.json"]

/-- The dependency in a directory, if there is a manifest in it. -/
def dependencyIn? (t : FileTree) (dir : Path) : Option Package := do
  let manifestPath ← (manifestFiles.map fun f => dir.join ⟨f⟩).find? t.isFile
  let name ← dir.fileName?
  return { name, srcDir := dir.join ⟨"src"⟩, manifestPath, manifest := none, isDependency := true }

/-- The dependencies in the subdirectories of a directory, sorted by name. -/
def discover (t : FileTree) (depsDir : Path) : Except Failure (List Package) :=
  match t.readDir depsDir with
  | .error e => .error (.unreadableDependencies depsDir e)
  | .ok entries =>
    let dirs := (entries.map fun (name, _) => depsDir.join ⟨name⟩).filter t.isDir
    .ok ((dirs.filterMap (dependencyIn? t)).mergeSort fun a b => a.name ≤ b.name)

/-- The package with what its manifest says. -/
def withManifest (p : Package) (m : Manifest) : Package :=
  { p with name := if m.name = "" then p.name else m.name, manifest := some m }

/-- The package with its manifest read. -/
def load (t : FileTree) (p : Package) : Except Failure Package :=
  match t.readText p.manifestPath with
  | .error e => .error (.unreadable p.manifestPath e)
  | .ok text =>
    match Manifest.parse? text with
    | none => .error (.badManifest p.manifestPath)
    | some m =>
      let loaded := p.withManifest m
      if loaded.name = "" then .error (.unnamed p.manifestPath) else .ok loaded

/-! ## Units -/

/-- The unit of a module. -/
def unit (p : Package) (layout : Layout) (moduleName : String) : SourceUnit :=
  { moduleName
    dumpPath := GoScribe.dumpPath layout.dumpsDir moduleName
    outPath := GoScribe.outPath (p.dir layout.buildDir layout.ns) moduleName }

/-- The pattern of the source files of a package. -/
def sourcePattern (p : Package) : Path :=
  (p.srcDir.join ⟨"**"⟩).join ⟨"*.purs"⟩

/-- The name of the module in a source file, from the file's path below the source directory, or from
its whole path if it is not there. -/
def moduleNameOf? (p : Package) (source : Path) : Option String :=
  moduleName? ((source.relativeTo? p.srcDir).getD source)

/-- The units of a package, sorted by the names of their modules.  There are none without a source
directory. -/
def units (t : FileTree) (p : Package) (layout : Layout) : Except Failure (List SourceUnit) :=
  if t.isDir p.srcDir then
    match Glob.expand? t p.sourcePattern.text with
    | none => .error (.badPattern p.sourcePattern.text)
    | some sources =>
      .ok (((sources.filterMap p.moduleNameOf?).map (p.unit layout)).mergeSort
        fun a b => a.moduleName ≤ b.moduleName)
  else .ok []

end Package

end GoScribe
