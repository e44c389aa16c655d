import GoScribe.Proofs.BuildRoot
import GoScribe.Proofs.FileSystems
import GoScribe.Proofs.RunStages
import Mathlib.Data.List.Forall2

/-!
# The packages of a run

The dependencies of a run are the subdirectories of the dependency directory that have a manifest file, each of
them once (`Package.discover_eq`).  All manifests are read before the turn of the first package, so that one which
cannot be read or parsed is the end of the run while nothing is written.  Main statement:
`RunSettings.run_all_or_nothing`.
-/

namespace GoScribe

open GoScribe.Path FileTree

namespace Package

/-! ## Manifests -/

/-- The manifest that counts in the directory at `l`: the first in the order of precedence. -/
def manifestFile? (t : FileTree) (l : Location) : Option String :=
  manifestFiles.find? fun f => (t.fileAt? (f :: l)).isSome

/-- What the manifest in the directory at `l` says, if it can be read and parsed. -/
def manifestAt? (t : FileTree) (l : Location) : Option Manifest :=
  (manifestFile? t l).bind fun f => (t.textAt? (f :: l)).bind Manifest.parse?

/-- There is a directory with a manifest in it. -/
def isDependencyAt (t : FileTree) (l : Location) : Bool := t.isDirAt l && (manifestFile? t l).isSome

/-- The names of the dependencies in the directory at `d`. -/
def dependencyNames (t : FileTree) (d : Location) : List String :=
  ((t.children d).map Prod.fst).filter fun name => isDependencyAt t (name :: d)

/-- A dependency before its manifest is read. -/
def dependency (depsDir : Path) (name f : String) : Package where
  name
  srcDir := (depsDir.join ⟨name⟩).join ⟨"src"⟩
  manifestPath := (depsDir.join ⟨name⟩).join ⟨f⟩
  manifest := none
  isDependency := true

/-- The package in the directory `dir` at `l`, with the manifest that is there. -/
structure IsLoadedFrom (p : Package) (t : FileTree) (dir : Path) (l : Location) : Prop where
  srcDir_eq : p.srcDir = dir.join ⟨"src"⟩
  isSome_manifest : p.manifest.isSome
  manifest_eq : p.manifest = manifestAt? t l

theorem isFileName_of_mem_manifestFiles {f : String} (hf : f ∈ manifestFiles) : IsFileName f := by
  revert f
  decide

theorem mem_dependencyNames_iff {t : FileTree} {d : Location} {name : String} :
    name ∈ dependencyNames t d ↔ isDependencyAt t (name :: d) := by
  rw [dependencyNames, List.mem_filter, mem_names_iff]
  constructor
  · exact fun h => h.2
  · intro h
    refine ⟨?_, h⟩
    rw [isDependencyAt, Bool.and_eq_true] at h
    obtain ⟨m, hm⟩ := isDirAt_iff.mp h.1
    rw [hm]
    rfl

theorem nodup_dependencyNames {t : FileTree} (ht : t.IsFileSystem) (d : Location) :
    (dependencyNames t d).Nodup :=
  (ht.nodup_names d).filter _

/-! ## Finding dependencies -/

section

variable {t : FileTree} {name : String} (hname : IsFileName name) (depsDir : Path)

include hname

theorem goesOn_dependency : GoesOn depsDir [name.toList] (depsDir.join ⟨name⟩) :=
  hname.goesOn_join (List.append_nil _).symm rfl (List.forall_mem_nil _)

theorem goesOn_manifest {f : String} (hf : f ∈ manifestFiles) :
    GoesOn depsDir ([name.toList] ++ [f.toList]) ((depsDir.join ⟨name⟩).join ⟨f⟩) := by
  have hdir := goesOn_dependency hname depsDir
  exact (isFileName_of_mem_manifestFiles hf).goesOn_join hdir.steps_eq hdir.isAbsolute_eq hdir.isName

omit hname in
theorem down_dependency (d : Location) (name : String) : down d [name.toList] = name :: d := by
  rw [down, List.map_singleton, String.ofList_toList]
  rfl

omit hname in
theorem down_manifest (d : Location) (name f : String) :
    down d ([name.toList] ++ [f.toList]) = f :: name :: d := by
  rw [down_append, down_dependency, down_dependency]

theorem fileName?_dependency : (depsDir.join ⟨name⟩).fileName? = some name := by
  have hsteps := (goesOn_dependency hname depsDir).steps_eq
  have hcomponent : componentOf? name.toList = some (.normal name) := by
    rw [hname.1, String.ofList_toList]
  rw [fileName?, components_eq, hsteps, List.filterMap_append, List.filterMap_cons_some hcomponent,
    List.filterMap_nil, ← List.append_assoc, List.getLast?_concat]

/-- In a subdirectory the first manifest file decides. -/
theorem dependencyIn?_eq {d : Location} (hd : t.HasRoot depsDir d) :
    dependencyIn? t (depsDir.join ⟨name⟩) = (manifestFile? t (name :: d)).map (dependency depsDir name) := by
  have hfind : (manifestFiles.find? fun f => t.isFile ((depsDir.join ⟨name⟩).join ⟨f⟩)) =
      manifestFile? t (name :: d) := by
    rw [manifestFile?, ← List.head?_filter, ← List.head?_filter]
    refine congrArg List.head? (List.filter_congr fun f hf => ?_)
    rw [(goesOn_manifest hname depsDir hf).isFile_eq hd, down_manifest]
  rw [dependencyIn?, List.find?_map, Function.comp_def, hfind, fileName?_dependency hname depsDir]
  cases manifestFile? t (name :: d) <;> rfl

end

theorem forall₂_filterMap {α β : Type} {f : α → Option β} {R : α → β → Prop} {xs : List α}
    (h : ∀ x ∈ xs, ∃ y, f x = some y ∧ R x y) : List.Forall₂ R xs (xs.filterMap f) := by
  induction xs with
  | nil => exact .nil
  | cons x xs ih =>
    rw [List.forall_mem_cons] at h
    obtain ⟨⟨y, hy, hR⟩, h⟩ := h
    rw [List.filterMap_cons_some hy]
    exact .cons hR (ih h)

/-- The dependencies that are found are those that are there, in the order of their names. -/
theorem discover_eq {t : FileTree} {depsDir : Path} (hdir : t.isDir depsDir) {d : Location}
    (hlocate : t.locate depsDir = .ok d) (hd : t.HasRoot depsDir d)
    (hproper : ∀ name ∈ (t.children d).map Prod.fst, IsFileName name) :
    discover t depsDir =
      .ok ((dependencyNames t d).filterMap fun name =>
        (manifestFile? t (name :: d)).map (dependency depsDir name)) := by
  have hdiscover : discover t depsDir = .ok (((((t.children d).map Prod.fst).map fun name =>
      depsDir.join ⟨name⟩).filter t.isDir).filterMap (dependencyIn? t) |>.mergeSort fun p q => p.name ≤ q.name) := by
    rw [discover, readDir_eq hdir hlocate, List.map_map]
    rfl
  -- The subdirectories, and what is found in them.
  have hdirs : ((((t.children d).map Prod.fst).map fun name => depsDir.join ⟨name⟩).filter t.isDir).filterMap
      (dependencyIn? t) =
        (dependencyNames t d).filterMap fun name =>
          (manifestFile? t (name :: d)).map (dependency depsDir name) := by
    rw [List.filter_map, List.filterMap_map, List.filterMap_filter, dependencyNames, List.filterMap_filter]
    refine List.filterMap_congr fun name hname => ?_
    rw [Function.comp_apply, Function.comp_apply, (goesOn_dependency (hproper name hname) depsDir).isDir_eq hd,
      down_dependency, dependencyIn?_eq (hproper name hname) depsDir hd, isDependencyAt]
    cases t.isDirAt (name :: d) <;> cases manifestFile? t (name :: d) <;> rfl
  -- The names of the subdirectories are sorted already.
  have hsorted : ((dependencyNames t d).filterMap fun name =>
      (manifestFile? t (name :: d)).map (dependency depsDir name)).Pairwise fun p q => p.name ≤ q.name := by
    refine ((pairwise_names t d).filter _).filterMap _ fun name name' hle p hp p' hp' => ?_
    obtain ⟨f, -, rfl⟩ := Option.map_eq_some_iff.mp hp
    obtain ⟨f', -, rfl⟩ := Option.map_eq_some_iff.mp hp'
    exact hle
  rw [hdiscover, hdirs, List.mergeSort_of_pairwise (hsorted.imp fun hle => decide_eq_true hle)]

/-- Every name has its dependency. -/
theorem forall₂_dependencies (t : FileTree) (depsDir : Path) (d : Location) :
    List.Forall₂ (fun name p => ∃ f ∈ manifestFile? t (name :: d), p = dependency depsDir name f)
      (dependencyNames t d) ((dependencyNames t d).filterMap fun name =>
        (manifestFile? t (name :: d)).map (dependency depsDir name)) := by
  refine forall₂_filterMap fun name hname => ?_
  rw [mem_dependencyNames_iff, isDependencyAt, Bool.and_eq_true] at hname
  obtain ⟨f, hf⟩ := Option.isSome_iff_exists.mp hname.2
  exact ⟨_, by rw [hf]; rfl, f, hf, rfl⟩

/-! ## Loading manifests -/

theorem load_eq_ok {t : FileTree} {p p' : Package} (h : p.load t = .ok p') :
    ∃ text m, t.readText p.manifestPath = .ok text ∧ Manifest.parse? text = some m ∧ p' = p.withManifest m := by
  unfold load at h
  split at h
  · cases h
  · next text htext =>
    split at h
    · cases h
    · next m hm =>
      refine ⟨text, m, htext, hm, ?_⟩
      simp only at h
      split at h
      · cases h
      · exact (Except.ok.inj h).symm

theorem readText_manifest {t : FileTree} {depsDir : Path} {d : Location} (hd : t.HasRoot depsDir d)
    {name : String} (hname : IsFileName name) {f : String} (hf : f ∈ manifestFile? t (name :: d)) :
    t.readText ((depsDir.join ⟨name⟩).join ⟨f⟩) =
      (t.textAt? (f :: name :: d)).elim (.error .invalidData) .ok := by
  have hgoes := goesOn_manifest hname depsDir (List.mem_of_find?_eq_some hf)
  have hfile := List.find?_some hf
  rw [← down_manifest] at hfile ⊢
  exact hgoes.readText_eq hd hfile

/-- A dependency is loaded with the manifest of its directory. -/
theorem isLoadedFrom_of_load {t : FileTree} {depsDir : Path} {d : Location} (hd : t.HasRoot depsDir d)
    {name : String} (hname : IsFileName name) {f : String} (hf : f ∈ manifestFile? t (name :: d))
    {p' : Package} (h : (dependency depsDir name f).load t = .ok p') :
    p'.IsLoadedFrom t (depsDir.join ⟨name⟩) (name :: d) := by
  obtain ⟨text, m, htext, hm, rfl⟩ := load_eq_ok h
  have htextAt : t.textAt? (f :: name :: d) = some text := by
    have hread : t.readText ((depsDir.join ⟨name⟩).join ⟨f⟩) = .ok text := htext
    rw [readText_manifest hd hname hf] at hread
    -- A file that is no text is not read.
    cases htextAt : t.textAt? (f :: name :: d) with
    | none =>
      rw [htextAt] at hread
      cases hread
    | some text' =>
      rw [htextAt] at hread
      rw [Except.ok.inj hread]
  refine ⟨rfl, rfl, ?_⟩
  rw [manifestAt?, show manifestFile? t (name :: d) = some f from hf, Option.bind_some, htextAt,
    Option.bind_some, hm]
  rfl

/-- What becomes of the elements of a list one by one. -/
theorem forall₂_of_mapM {ε α β γ : Type} {f : α → Except ε β} {R : γ → α → Prop} {S : γ → β → Prop}
    {cs : List γ} {as : List α} {bs : List β} (hR : List.Forall₂ R cs as)
    (hS : ∀ c ∈ cs, ∀ a b, R c a → f a = .ok b → S c b) (h : as.mapM f = .ok bs) :
    List.Forall₂ S cs bs := by
  induction hR generalizing bs with
  | nil =>
    cases h
    exact .nil
  | @cons c a cs as hca _ ih =>
    rw [List.forall_mem_cons] at hS
    rw [List.mapM_cons] at h
    obtain ⟨b, ha, h⟩ := exists_of_bind_eq_ok h
    obtain ⟨bs', has, h⟩ := exists_of_bind_eq_ok h
    cases h
    exact .cons (hS.1 a b hca ha) (ih hS.2 has)

end Package

theorem loadPackages_eq_ok {t : FileTree} {s : RunSettings} {ps : List Package}
    (h : loadPackages t s = .ok ps) :
    ∃ root deps found, ps = root :: deps ∧ (Package.root s.srcDir s.manifestPath).load t = .ok root ∧
      Package.discover t s.depsDir = .ok found ∧ found.mapM (Package.load t) = .ok deps := by
  obtain ⟨root, hroot, h⟩ := exists_of_bind_eq_ok h
  obtain ⟨found, hfound, h⟩ := exists_of_bind_eq_ok h
  obtain ⟨deps, hdeps, h⟩ := exists_of_bind_eq_ok h
  exact ⟨root, deps, found, (Except.ok.inj h).symm, hroot, hfound, hdeps⟩

/-- The packages of a run: the root, and the dependencies that are there. -/
theorem packages_of_loadPackages {t : FileTree} (ht : t.IsFileSystem) {s : RunSettings}
    (hdir : t.isDir s.depsDir) {ps : List Package} (h : loadPackages t s = .ok ps) :
    ∃ root deps d, ps = root :: deps ∧ t.locate s.depsDir = .ok d ∧
      (∃ text m, t.readText s.manifestPath = .ok text ∧ Manifest.parse? text = some m ∧
        root.manifest = some m) ∧
      List.Forall₂ (fun name p => p.IsLoadedFrom t (s.depsDir.join ⟨name⟩) (name :: d))
        (Package.dependencyNames t d) deps := by
  obtain ⟨root, deps, found, hps, hroot, hfound, hdeps⟩ := loadPackages_eq_ok h
  obtain ⟨d, hlocate, hd⟩ := hasRoot_of_isDir ht.wellFormed hdir
  have hproper : ∀ name ∈ (t.children d).map Prod.fst, IsFileName name := fun name hname =>
    ht.isFileName_of_isSome (mem_names_iff.mp hname)
  rw [Package.discover_eq hdir hlocate hd hproper] at hfound
  cases hfound
  obtain ⟨text, m, htext, hm, hmanifest⟩ := Package.load_eq_ok hroot
  refine ⟨root, deps, d, hps, hlocate, ⟨text, m, htext, hm, by rw [hmanifest]; rfl⟩, ?_⟩
  refine Package.forall₂_of_mapM (Package.forall₂_dependencies t s.depsDir d) ?_ hdeps
  rintro name hname p p' ⟨f, hf, rfl⟩ hload
  exact Package.isLoadedFrom_of_load hd (hproper name (List.mem_filter.mp hname).1) hf hload

theorem mapM_congr_of_mem {ε α β : Type} {f g : α → Except ε β} {xs : List α}
    (h : ∀ x ∈ xs, f x = g x) : xs.mapM f = xs.mapM g := by
  induction xs with
  | nil => rfl
  | cons x xs ih =>
    rw [List.forall_mem_cons] at h
    rw [List.mapM_cons, List.mapM_cons, h.1, ih h.2]

theorem Package.load_of_readText_eq {t t' : FileTree} {p : Package}
    (h : t'.readText p.manifestPath = t.readText p.manifestPath) : p.load t' = p.load t := by
  rw [load, load, h]

theorem Package.manifestFile?_of_files {t t' : FileTree} {l : Location}
    (hfiles : ∀ f ∈ manifestFiles, t'.fileAt? (f :: l) = t.fileAt? (f :: l)) :
    manifestFile? t' l = manifestFile? t l := by
  rw [manifestFile?, manifestFile?, ← List.head?_filter, ← List.head?_filter]
  refine congrArg List.head? (List.filter_congr fun f hf => ?_)
  rw [hfiles f hf]

section

variable {b d : Location} {t t' : FileTree} {depsDir : Path} (h : SameOutside b t t') (hd : ¬ b <:+ d)
  (hfiles : ∀ f ∈ Package.manifestFiles, ∀ name, t'.fileAt? (f :: name :: d) = t.fileAt? (f :: name :: d))

include h hd hfiles

theorem Package.dependencyNames_of_agree : dependencyNames t' d = dependencyNames t d := by
  rw [dependencyNames, dependencyNames, h.names_eq hd]
  refine List.filter_congr fun name _ => ?_
  rw [isDependencyAt, isDependencyAt, manifestFile?_of_files fun f hf => hfiles f hf name,
    h.isDirAt_eq fun hbelow => hd (strictlyBelow_cons.mp hbelow)]

/-- The dependencies are the same in a tree that differs only below a directory `b`, if the dependency directory is
not there and no manifest of a dependency comes or goes. -/
theorem Package.discover_of_agree (ht : t.IsFileSystem) (hdir : t.isDir depsDir) (hdir' : t'.isDir depsDir)
    (hlocate : t.locate depsDir = .ok d) (hlocate' : t'.locate depsDir = .ok d)
    (hroot : t.HasRoot depsDir d) (hroot' : t'.HasRoot depsDir d) :
    discover t' depsDir = discover t depsDir := by
  have hproper : ∀ name ∈ (t.children d).map Prod.fst, IsFileName name := fun name hname =>
    ht.isFileName_of_isSome (mem_names_iff.mp hname)
  have hfile : ∀ name, manifestFile? t' (name :: d) = manifestFile? t (name :: d) := fun name =>
    manifestFile?_of_files fun f hf => hfiles f hf name
  rw [discover_eq hdir' hlocate' hroot' (by rw [h.names_eq hd]; exact hproper),
    discover_eq hdir hlocate hroot hproper, dependencyNames_of_agree h hd hfiles]
  simp only [hfile]

end

/-- What is found in the dependency directory are dependencies with manifests. -/
theorem Package.exists_of_mem_discover {t : FileTree} (ht : t.IsFileSystem) {depsDir : Path} {d : Location}
    (hdir : t.isDir depsDir) (hlocate : t.locate depsDir = .ok d) (hroot : t.HasRoot depsDir d)
    {found : List Package} (hfound : discover t depsDir = .ok found) {p : Package} (hp : p ∈ found) :
    ∃ name f, IsFileName name ∧ f ∈ manifestFile? t (name :: d) ∧ p = dependency depsDir name f := by
  have hproper : ∀ name ∈ (t.children d).map Prod.fst, IsFileName name := fun name hname =>
    ht.isFileName_of_isSome (mem_names_iff.mp hname)
  rw [discover_eq hdir hlocate hroot hproper] at hfound
  cases hfound
  obtain ⟨name, hname, hp⟩ := List.mem_filterMap.mp hp
  obtain ⟨f, hf, rfl⟩ := Option.map_eq_some_iff.mp hp
  exact ⟨name, f, hproper name (List.mem_filter.mp hname).1, hf, rfl⟩

/-- And so are the packages, if nothing on the way to the manifest of the root is below `b` either. -/
theorem loadPackages_of_agree {b d : Location} {t t' : FileTree} (h : SameOutside b t t')
    (ht : t.IsFileSystem) (ht' : t'.WellFormed) {s : RunSettings}
    (hmanifest : ∀ k ∈ t.trailOf s.manifestPath, ¬ StrictlyBelow b k) (hdir : t.isDir s.depsDir)
    (htrail : ∀ k ∈ t.trailOf s.depsDir, ¬ StrictlyBelow b k) (hlocate : t.locate s.depsDir = .ok d)
    (hd : ¬ b <:+ d) (hfiles : ∀ f ∈ Package.manifestFiles, ∀ name,
      t'.fileAt? (f :: name :: d) = t.fileAt? (f :: name :: d)) :
    loadPackages t' s = loadPackages t s := by
  have hdir' : t'.isDir s.depsDir := (h.isDir_eq htrail).trans hdir
  have hlocate' : t'.locate s.depsDir = .ok d := (h.locate_eq htrail).trans hlocate
  obtain ⟨e, he, hroot⟩ := hasRoot_of_isDir ht.wellFormed hdir
  obtain ⟨e', he', hroot'⟩ := hasRoot_of_isDir ht' hdir'
  cases hlocate.symm.trans he
  cases hlocate'.symm.trans he'
  have hload : (Package.root s.srcDir s.manifestPath).load t' = (Package.root s.srcDir s.manifestPath).load t :=
    Package.load_of_readText_eq (h.readText_eq hmanifest)
  have hloads : ∀ found, Package.discover t s.depsDir = .ok found →
      found.mapM (Package.load t') = found.mapM (Package.load t) := by
    intro found hfound
    refine mapM_congr_of_mem fun p hp => Package.load_of_readText_eq ?_
    obtain ⟨name, f, hname, hf, rfl⟩ := Package.exists_of_mem_discover ht hdir hlocate hroot hfound hp
    have hf' : f ∈ Package.manifestFile? t' (name :: d) := by
      rwa [Package.manifestFile?_of_files fun f hf => hfiles f hf name]
    show t'.readText ((s.depsDir.join ⟨name⟩).join ⟨f⟩) = t.readText ((s.depsDir.join ⟨name⟩).join ⟨f⟩)
    rw [Package.readText_manifest hroot hname hf, Package.readText_manifest hroot' hname hf', textAt?, textAt?,
      hfiles f (List.mem_of_find?_eq_some hf)]
  -- The stages are the same one by one, and a stage that fails is the end in both trees.
  unfold loadPackages
  rw [hload, Package.discover_of_agree h hd hfiles ht hdir hdir' hlocate hlocate' hroot hroot']
  cases hfound : Package.discover t s.depsDir with
  | error e => rfl
  | ok found =>
    have hsame := hloads found hfound
    cases (Package.root s.srcDir s.manifestPath).load t with
    | error e => rfl
    | ok root => exact congrArg (fun deps => deps >>= fun deps => pure (root :: deps)) hsame

/-- Every package is counted, whether or not it is started. -/
theorem packages_runPackages (t : FileTree) (s : RunSettings) (stop : StopSignal) (report : RunReport)
    (ps : List Package) : (runPackages t s stop report ps).2.packages = report.packages + ps.length := by
  induction ps generalizing t stop report with
  | nil => rfl
  | cons p ps ih =>
    have hcount : report.packages + (ps.length + 1) = report.packages + 1 + ps.length := by omega
    rw [runPackages, List.length_cons, hcount]
    split
    · exact ih _ _ _
    · split
      · exact ih _ _ _
      · exact ih _ _ _

/-! ## All or nothing -/

/-- Making a directory changes no file, and all that is new is on the path of the directory. -/
theorem makeDir_changes {t : FileTree} (ht : t.WellFormed) (hworking : t.isDirAt t.workingDir) (dir : Path) :
    (∀ l, (makeDir t dir).1.fileAt? l = t.fileAt? l) ∧ (∀ l, t.isDirAt l → (makeDir t dir).1.isDirAt l) ∧
      ∀ l, (makeDir t dir).1.isDirAt l → t.isDirAt l = false → l ∈ t.stopsOf dir := by
  refine makeDir_induction (P := fun t' => (∀ l, t'.fileAt? l = t.fileAt? l) ∧
      (∀ l, t.isDirAt l → t'.isDirAt l) ∧ ∀ l, t'.isDirAt l → t.isDirAt l = false → l ∈ t.stopsOf dir)
    ht hworking dir ⟨fun _ => rfl, fun _ hl => hl, fun l hl hnot => ?_⟩ ?_
  · rw [hl] at hnot
    cases hnot
  · rintro t' k hk - hdir ⟨hfiles, hkept, hnew⟩
    refine ⟨fun l => (fileAt?_ensureDir hdir l).trans (hfiles l), fun l hl => ?_, fun l hl hnot => ?_⟩
    · rw [isDirAt_ensureDir, hkept l hl, Bool.true_or]
    · rw [isDirAt_ensureDir, Bool.or_eq_true, Bool.and_eq_true, decide_eq_true_iff] at hl
      rcases hl with hl | ⟨rfl, -⟩
      · exact hnew l hl hnot
      · exact hk

/-- A manifest is in a directory. -/
theorem Package.isDependencyAt_eq {t : FileTree} (ht : t.WellFormed) (l : Location) :
    isDependencyAt t l = (manifestFile? t l).isSome := by
  rw [isDependencyAt]
  cases hfile : manifestFile? t l with
  | none => exact Bool.and_false _
  | some f =>
    have hsome := List.find?_some hfile
    obtain ⟨content, m, hget⟩ := isSome_fileAt?_iff.mp hsome
    rw [ht f l (by rw [hget]; rfl)]
    rfl

theorem Package.manifestAt?_of_files {t t' : FileTree} (hfiles : ∀ l, t'.fileAt? l = t.fileAt? l)
    (l : Location) : manifestAt? t' l = manifestAt? t l := by
  rw [manifestAt?, manifestAt?, manifestFile?_of_files fun f _ => hfiles (f :: l)]
  simp only [textAt?, hfiles]

theorem Package.isDependencyAt_makeDir {t : FileTree} (ht : t.IsFileSystem) (dir : Path) (l : Location) :
    isDependencyAt (makeDir t dir).1 l = isDependencyAt t l := by
  have hfiles := (makeDir_changes ht.wellFormed ht.isDirAt_workingDir dir).1
  rw [isDependencyAt_eq (ht.makeDir dir).wellFormed, isDependencyAt_eq ht.wellFormed,
    manifestFile?_of_files fun f _ => hfiles (f :: l)]

/-- A run that ends with a report has loaded the root and the dependencies that are there, and counts them. -/
theorem RunSettings.exists_loaded_of_run {s : RunSettings} {t t' : FileTree} (ht : t.IsFileSystem)
    {r : RunReport} (hrun : s.run t = (t', .ok r)) :
    ∃ d root deps, (makeDir t s.layout.buildDir).1.locate s.depsDir = .ok d ∧
      loadPackages (makeDir t s.layout.buildDir).1 s = .ok (root :: deps) ∧
      (∃ text m, (makeDir t s.layout.buildDir).1.readText s.manifestPath = .ok text ∧
        Manifest.parse? text = some m ∧ root.manifest = some m) ∧
      List.Forall₂ (fun name p => p.IsLoadedFrom t (s.depsDir.join ⟨name⟩) (name :: d))
        (Package.dependencyNames (makeDir t s.layout.buildDir).1 d) deps ∧
      r.packages = deps.length + 1 := by
  have hmanifest := Package.manifestAt?_of_files
    (makeDir_changes ht.wellFormed ht.isDirAt_workingDir s.layout.buildDir).1
  obtain ⟨t₁, packages, hmake, hdeps, -, hload, hturns⟩ := run_eq_ok_iff.mp hrun
  have ht₁ := ht.makeDir s.layout.buildDir
  rw [hmake] at ht₁ hmanifest ⊢
  obtain ⟨root, deps, d, rfl, hlocate, hroot, hnames⟩ := packages_of_loadPackages ht₁ hdeps hload
  have hcount := packages_runPackages t₁ s { onFailure := s.failFast } {} (root :: deps)
  rw [hturns] at hcount
  refine ⟨d, root, deps, hlocate, hload, hroot, hnames.imp fun name p hp => ?_, ?_⟩
  · exact ⟨hp.srcDir_eq, hp.isSome_manifest, hp.manifest_eq.trans (hmanifest _)⟩
  · rw [hcount, List.length_cons]
    exact Nat.zero_add _

/-- With a manifest that cannot be read or parsed there is no report. -/
theorem RunSettings.isSome_manifestAt?_of_run {s : RunSettings} {t t' : FileTree} (ht : t.IsFileSystem)
    {r : RunReport} (hrun : s.run t = (t', .ok r)) {d : Location} (hd : t.locate s.depsDir = .ok d)
    {name : String} (hname : Package.isDependencyAt t (name :: d)) :
    (Package.manifestAt? t (name :: d)).isSome := by
  have hextends := extends_makeDir ht.wellFormed ht.isDirAt_workingDir s.layout.buildDir
  obtain ⟨d', root, deps, hd', -, -, hdeps, -⟩ := exists_loaded_of_run ht hrun
  cases (hextends.locate hd).symm.trans hd'
  have hall : ∀ name ∈ Package.dependencyNames (makeDir t s.layout.buildDir).1 d,
      (Package.manifestAt? t (name :: d)).isSome :=
    ((List.forall₂_and_left _ _).mp
      (hdeps.imp fun name p hp => ⟨hp.manifest_eq ▸ hp.isSome_manifest, hp⟩)).1
  apply hall
  rw [Package.mem_dependencyNames_iff, Package.isDependencyAt_makeDir ht]
  exact hname

/-- **Fatal errors come before any output.**  A run that ends with an error has changed no file, and the directories
that it has made are the build directory and those above it.  A dependency whose manifest cannot be read or parsed
is such an error.  A run that ends with a report has loaded the manifests of the root and of every subdirectory of
the dependency directory with a manifest file, and counts just these packages. -/
theorem RunSettings.run_all_or_nothing {s : RunSettings} {t t₁ : FileTree} (ht : t.IsFileSystem)
    (hmade : (makeDir t s.layout.buildDir).1 = t₁) :
    (∀ t' e, s.run t = (t', .error e) →
      (∀ l, t'.fileAt? l = t.fileAt? l) ∧ (∀ l, t.isDirAt l → t'.isDirAt l) ∧
        ∀ l, t'.isDirAt l → t.isDirAt l = false → l ∈ t.stopsOf s.layout.buildDir) ∧
    (∀ d name, t.locate s.depsDir = .ok d → Package.isDependencyAt t (name :: d) →
      Package.manifestAt? t (name :: d) = none → ∃ e, s.run t = (t₁, .error e)) ∧
    ∀ t' r, s.run t = (t', .ok r) →
      ∃ d names root deps, t₁.locate s.depsDir = .ok d ∧ loadPackages t₁ s = .ok (root :: deps) ∧
        (∃ text m, t₁.readText s.manifestPath = .ok text ∧ Manifest.parse? text = some m ∧
          root.manifest = some m) ∧
        names.Nodup ∧ (∀ name, name ∈ names ↔ Package.isDependencyAt t (name :: d)) ∧
        List.Forall₂ (fun name p => p.IsLoadedFrom t (s.depsDir.join ⟨name⟩) (name :: d)) names deps ∧
        r.packages = names.length + 1 := by
  subst hmade
  refine ⟨fun t' e hrun => ?_, fun d name hd hname hnone => ?_, fun t' r hrun => ?_⟩
  · rw [fst_of_run_eq_error hrun]
    exact makeDir_changes ht.wellFormed ht.isDirAt_workingDir s.layout.buildDir
  · cases hresult : (s.run t).2 with
    | error e =>
      obtain ⟨t', hrun⟩ := exists_eq_of_snd_eq hresult
      exact ⟨e, hrun.trans (by rw [fst_of_run_eq_error hrun])⟩
    | ok r =>
      -- With a report the manifest would have been loaded.
      obtain ⟨t', hrun⟩ := exists_eq_of_snd_eq hresult
      have hsome := isSome_manifestAt?_of_run ht hrun hd hname
      rw [hnone] at hsome
      cases hsome
  · obtain ⟨d, root, deps, hd, hload, hroot, hdeps, hcount⟩ := exists_loaded_of_run ht hrun
    refine ⟨d, _, root, deps, hd, hload, hroot, ?_, fun name => ?_, hdeps, ?_⟩
    · exact Package.nodup_dependencyNames (ht.makeDir s.layout.buildDir) d
    · rw [Package.mem_dependencyNames_iff, Package.isDependencyAt_makeDir ht]
    · rw [hcount, hdeps.length_eq]

/-- With a manifest that is no JSON text the run comes to nothing; otherwise it has two packages. -/
theorem lodgerRun_all_or_nothing :
    ((lodgerTree "\"").IsFileSystem ∧ (lodgerTree "\"").locate lodgerRun.depsDir = .ok ["deps", "w"] ∧
      Package.isDependencyAt (lodgerTree "\"") ["lodger", "deps", "w"] ∧
      Package.manifestAt? (lodgerTree "\"") ["lodger", "deps", "w"] = none ∧
      ∃ t' e, lodgerRun.run (lodgerTree "\"") = (t', .error e) ∧
        (∀ l, t'.fileAt? l = (lodgerTree "\"").fileAt? l) ∧
        (∀ l, (lodgerTree "\"").isDirAt l → t'.isDirAt l) ∧
        ∀ l, t'.isDirAt l → (lodgerTree "\"").isDirAt l = false → l ∈ [["w"], ["build", "w"]]) ∧
    (lodgerTree "../x").IsFileSystem ∧
      ∃ t' r, lodgerRun.run (lodgerTree "../x") = (t', .ok r) ∧ r.packages = 2 ∧
      ∃ d names root deps, (makeDir (lodgerTree "../x") ⟨"build"⟩).1.locate lodgerRun.depsDir = .ok d ∧
        loadPackages (makeDir (lodgerTree "../x") ⟨"build"⟩).1 lodgerRun = .ok (root :: deps) ∧
        (∃ text m, (makeDir (lodgerTree "../x") ⟨"build"⟩).1.readText ⟨"bower.json"⟩ = .ok text ∧
          Manifest.parse? text = some m ∧ root.manifest = some m) ∧
        names.Nodup ∧ (∀ name, name ∈ names ↔ Package.isDependencyAt (lodgerTree "../x") (name :: d)) ∧
        List.Forall₂ (fun name p => p.IsLoadedFrom (lodgerTree "../x") (lodgerRun.depsDir.join ⟨name⟩) (name :: d))
          names deps ∧
        r.packages = names.length + 1 := by
  constructor
  · have hsystem : (lodgerTree "\"").IsFileSystem :=
      ⟨wellFormed_of_entries (by decide +kernel), by decide, by decide, by decide⟩
    have hlocate : (lodgerTree "\"").locate lodgerRun.depsDir = .ok ["deps", "w"] := by decide +kernel
    have hdependency : Package.isDependencyAt (lodgerTree "\"") ["lodger", "deps", "w"] := by decide +kernel
    have hnone : Package.manifestAt? (lodgerTree "\"") ["lodger", "deps", "w"] = none := by decide +kernel
    have hall := RunSettings.run_all_or_nothing (s := lodgerRun) hsystem rfl
    obtain ⟨e, hrun⟩ := hall.2.1 _ _ hlocate hdependency hnone
    exact ⟨hsystem, hlocate, hdependency, hnone, _, e, hrun, hall.1 _ e hrun⟩
  · have hsystem : (lodgerTree "../x").IsFileSystem :=
      ⟨wellFormed_of_entries (by decide +kernel), by decide, by decide, by decide⟩
    have hreport : (lodgerRun.run (lodgerTree "../x")).2 =
        .ok { packages := 2, written := [⟨"build/ns/../x/A/A.go"⟩] } := by decide +kernel
    obtain ⟨t', hrun⟩ := exists_eq_of_snd_eq hreport
    have hall := RunSettings.run_all_or_nothing (s := lodgerRun) hsystem rfl
    exact ⟨hsystem, t', _, hrun, rfl, hall.2.2 t' _ hrun⟩

end GoScribe
