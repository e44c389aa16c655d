import GoScribe.Project.Run
import GoScribe.Proofs.OutputPaths

/-!
# The build root

What a run writes goes where the names of a package and of a module lead from the build directory.  The
name of a package is taken from its manifest as it is, so it may lead out again: it stays below every build
directory just if it is relative and goes up no further than the namespace has gone down.  Main statement:
`RunSettings.written_isBelow_iff`.
-/

namespace GoScribe

open GoScribe.Path

/-! ## Where a package's files go -/

/-- The name of a package is relative, and takes back no more names than the namespace has. -/
def Package.StaysBelow (p : Package) (ns : String) : Prop :=
  (Path.mk p.name).isAbsolute = false ∧ (Path.mk p.name).resolve.climbs ≤ (Path.mk ns).steps.length

instance (p : Package) (ns : String) : Decidable (p.StaysBelow ns) :=
  inferInstanceAs (Decidable (_ ∧ _))

/-- The names that a module puts below the directory of its package, the file first. -/
def moduleNames (moduleName : String) : List String :=
  ((moduleSteps moduleName).map String.ofList).reverse

theorem moduleNames_ne_nil (moduleName : String) : moduleNames moduleName ≠ [] := by
  obtain ⟨ss, cs, h⟩ := exists_moduleSteps_eq moduleName
  rw [moduleNames, h, List.map_append, List.reverse_append]
  exact List.cons_ne_nil _ _

theorem resolve_outPath {moduleName : String} (h : isRooted moduleName = false) (dir : Path) :
    (outPath dir moduleName).resolve = dir.resolve.extend (moduleNames moduleName) := by
  refine resolve_of_steps (steps_outPath h dir) ?_ fun s hs => isName_of_mem_moduleSteps hs
  rw [isAbsolute_outPath, h, Bool.false_or]

section

variable {ns : String} (hns : (Path.mk ns).descends)

include hns

theorem resolve_join_ns (buildDir : Path) :
    (buildDir.join ⟨ns⟩).resolve =
      buildDir.resolve.extend ((Path.mk ns).steps.map String.ofList).reverse := by
  obtain ⟨hrelative, hnames⟩ := descends_iff.mp hns
  refine resolve_of_steps (steps_join hrelative) ?_ hnames
  rw [isAbsolute_join, hrelative, Bool.false_or]

/-- A name that climbs no further than the namespace leads to names below the build directory. -/
theorem Package.StaysBelow.isBelow_outPath {p : Package} (h : p.StaysBelow ns) {m : String}
    (hm : isRooted m = false) (buildDir : Path) : (outPath (p.dir buildDir ns) m).IsBelow buildDir := by
  obtain ⟨hrelative, hclimbs⟩ := h
  have hlength : (Path.mk p.name).resolve.climbs ≤ ((Path.mk ns).steps.map String.ofList).reverse.length := by
    rw [List.length_reverse, List.length_map]
    exact hclimbs
  rw [Path.IsBelow, resolve_outPath hm, Package.dir, resolve_join hrelative, resolve_join_ns hns,
    Resolved.follow_extend hlength, Resolved.extend_extend]
  exact Resolved.isBelow_extend (List.append_ne_nil_of_left_ne_nil (moduleNames_ne_nil m) _)

/-- A name that climbs further leaves a build directory of one name. -/
theorem Package.names_of_climbs {p : Package} (hrelative : (Path.mk p.name).isAbsolute = false)
    (hclimbs : (Path.mk ns).steps.length < (Path.mk p.name).resolve.climbs) {m : String}
    (hm : isRooted m = false) {buildDir : Path} {name : String}
    (hname : buildDir.resolve = ⟨false, 0, [name]⟩) :
    (outPath (p.dir buildDir ns) m).resolve.names = moduleNames m ++ (Path.mk p.name).resolve.names := by
  have hlength : (((Path.mk ns).steps.map String.ofList).reverse ++ [name]).length ≤
      (Path.mk p.name).resolve.climbs := by
    rw [List.length_append, List.length_reverse, List.length_map]
    exact hclimbs
  rw [resolve_outPath hm, Package.dir, resolve_join hrelative, resolve_join_ns hns, hname]
  simp only [Resolved.extend, Resolved.follow]
  rw [List.drop_eq_nil_of_le hlength, List.append_nil]

/-- The Go file of a module lies below the build directory, whatever that is, just if the name of its package
stays below and its own name is not rooted. -/
theorem Package.isBelow_outPath_iff (p : Package) (m : String) :
    (∀ buildDir, (outPath (p.dir buildDir ns) m).IsBelow buildDir) ↔
      p.StaysBelow ns ∧ isRooted m = false := by
  constructor
  · intro h
    have ha : (Path.mk "a").resolve = ⟨false, 0, ["a"]⟩ := by decide
    have hb : (Path.mk "b").resolve = ⟨false, 0, ["b"]⟩ := by decide
    -- Whatever is below a relative directory is relative.
    have habs : (outPath (p.dir ⟨"a"⟩ ns) m).isAbsolute = false := by
      rw [← isAbsolute_resolve, (h ⟨"a"⟩).1, ha]
    rw [isAbsolute_outPath, Bool.or_eq_false_iff, Package.dir, isAbsolute_join, Bool.or_eq_false_iff] at habs
    obtain ⟨hm, hrelative, -⟩ := habs
    refine ⟨⟨hrelative, Nat.le_of_not_lt fun hclimbs => ?_⟩, hm⟩
    -- If the name left the build directory, the file would be in both of two directories.
    have hina := (h ⟨"a"⟩).2.2.1
    have hinb := (h ⟨"b"⟩).2.2.1
    rw [p.names_of_climbs hns hrelative hclimbs hm ha, ha] at hina
    rw [p.names_of_climbs hns hrelative hclimbs hm hb, hb] at hinb
    have hlast := (List.suffix_iff_eq_drop.mp hina).trans (List.suffix_iff_eq_drop.mp hinb).symm
    exact absurd hlast (by decide)
  · rintro ⟨hstays, hm⟩ buildDir
    exact hstays.isBelow_outPath hns hm buildDir

end

/-! ## What a run reports as written -/

theorem eq_written_of_install {t : FileTree} {path : Path} {source : String} {o : Outcome}
    (h : (install t path source).2 = .ok o) : o = .written path := by
  unfold install at h
  split at h
  · cases h
  · split at h
    · cases h
    · exact (Except.ok.inj h).symm

/-- A unit that is written is written to its own path. -/
theorem SourceUnit.outPath_of_written {u : SourceUnit} {t : FileTree} {options : Options} {force : Bool}
    {path : Path} (h : (u.regenerate t options force).2 = .ok (.written path)) : path = u.outPath := by
  unfold SourceUnit.regenerate at h
  split at h
  · split at h
    · cases h
    · split at h
      · cases h
      · cases eq_written_of_install h
        rfl
  · cases h

theorem PackageReport.mem_written_add {r : PackageReport} {package : String} {u : SourceUnit}
    {result : Except Failure Outcome} {path : Path} (h : path ∈ (r.add package u result).written) :
    path ∈ r.written ∨ result = .ok (.written path) := by
  unfold PackageReport.add at h
  split at h
  · rcases List.mem_append.mp h with h | h
    · exact .inl h
    · exact .inr (by rw [List.mem_singleton.mp h])
  · exact .inl h
  · exact .inl h
  · exact .inl h

/-- Every path in the report of a package is that of one of its units. -/
theorem Progress.mem_written_run {s : Progress} {package : String} {options : Options} {force : Bool}
    {us : List SourceUnit} {path : Path}
    (h : path ∈ (s.run package options force us).report.written) :
    path ∈ s.report.written ∨ ∃ u ∈ us, path = u.outPath := by
  induction us generalizing s with
  | nil => exact .inl h
  | cons u us ih =>
    rw [Progress.run] at h
    split at h
    · exact .inl h
    · rcases ih h with h | ⟨v, hv, rfl⟩
      · rcases PackageReport.mem_written_add h with h | h
        · exact .inl h
        · exact .inr ⟨u, List.mem_cons_self, SourceUnit.outPath_of_written h⟩
      · exact .inr ⟨v, List.mem_cons_of_mem _ hv, rfl⟩

/-- The package has a source file for the module. -/
def Package.HasSource (p : Package) (t : FileTree) (source : Path) (moduleName : String) : Prop :=
  t.isDir p.srcDir ∧ p.moduleNameOf? source = some moduleName ∧
    ∃ sources, Glob.expand? t p.sourcePattern.text = some sources ∧ source ∈ sources

theorem Package.mem_units {p : Package} {t : FileTree} {layout : Layout} {us : List SourceUnit}
    (h : p.units t layout = .ok us) {u : SourceUnit} (hu : u ∈ us) :
    ∃ source m, p.HasSource t source m ∧ u = p.unit layout m := by
  unfold Package.units at h
  split at h
  · next hdir =>
    split at h
    · cases h
    · next sources hsources =>
      cases h
      obtain ⟨m, hm, rfl⟩ := List.mem_map.mp (List.mem_mergeSort.mp hu)
      obtain ⟨source, hsource, hname⟩ := List.mem_filterMap.mp hm
      exact ⟨source, m, ⟨hdir, hname, sources, hsources, hsource⟩, rfl⟩
  · cases h
    cases hu

theorem Package.outPath_unit (p : Package) (layout : Layout) (m : String) :
    (p.unit layout m).outPath = outPath (p.dir layout.buildDir layout.ns) m := by
  rw [Package.unit]

theorem Package.HasSource.srcDir_ne {p : Package} {t : FileTree} {source : Path} {m : String}
    (h : p.HasSource t source m) : p.srcDir.text ≠ "" := by
  intro hempty
  have hdir := h.1
  simp only [FileTree.isDir, FileTree.stat, FileTree.locate, hempty] at hdir
  cases hdir

/-- A package in its turn writes the files of its own modules. -/
theorem Package.mem_written_regenerate {p : Package} {t : FileTree} {layout : Layout}
    {options : Options} {stop : StopSignal} {r : PackageReport}
    (h : (p.regenerate t layout options stop).2.2 = .ok r) {path : Path} (hpath : path ∈ r.written) :
    ∃ source m, p.HasSource t source m ∧ path = outPath (p.dir layout.buildDir layout.ns) m := by
  unfold Package.regenerate at h
  split at h
  · cases h
  · next us hus =>
    cases h
    rcases Progress.mem_written_run hpath with hnone | ⟨u, hu, rfl⟩
    · cases hnone
    · obtain ⟨source, m, hsource, rfl⟩ := Package.mem_units hus hu
      exact ⟨source, m, hsource, p.outPath_unit layout m⟩

/-- Every path in the report of a run is that of a module of one of its packages. -/
theorem mem_written_runPackages {t : FileTree} {s : RunSettings} {stop : StopSignal} {report : RunReport}
    {ps : List Package} {path : Path} (h : path ∈ (runPackages t s stop report ps).2.written) :
    path ∈ report.written ∨ ∃ p ∈ ps, ∃ t' source m, p.HasSource t' source m ∧
      path = outPath (p.dir s.layout.buildDir s.layout.ns) m := by
  induction ps generalizing t stop report with
  | nil => exact .inl h
  | cons p ps ih =>
    -- A later package, or this one.
    have hlater {t : FileTree} {stop : StopSignal} {report' : RunReport}
        (h : path ∈ (runPackages t s stop report' ps).2.written) :
        path ∈ report'.written ∨ ∃ q ∈ p :: ps, ∃ t' source m, q.HasSource t' source m ∧
          path = outPath (q.dir s.layout.buildDir s.layout.ns) m := by
      rcases ih h with h | ⟨q, hq, hsource⟩
      · exact .inl h
      · exact .inr ⟨q, List.mem_cons_of_mem _ hq, hsource⟩
    rw [runPackages] at h
    split at h
    · have hwritten := hlater h
      exact hwritten
    · split at h
      · next t' stop' r hturn =>
        rcases hlater h with h | h
        · rcases List.mem_append.mp h with h | h
          · exact .inl h
          · have hok : (p.regenerate t s.layout s.options stop).2.2 = .ok r := by rw [hturn]
            exact .inr ⟨p, List.mem_cons_self, t, Package.mem_written_regenerate hok h⟩
        · exact .inr h
      · rcases hlater h with h | h
        · rw [RunReport.merge, PackageReport.unlisted, List.append_nil] at h
          exact .inl h
        · exact .inr h

/-- **Output below the build root.**  Every path that a run reports as written is the path of a module of one
of its packages.  It lies strictly below the build directory if the name of the package, as its manifest
gives it, stays below and the source is no absolute path outside the source directory as that is spelled; and
only then does it do so whatever the build directory is. -/
theorem RunSettings.written_isBelow_iff {s : RunSettings} {t t' : FileTree} {r : RunReport}
    (hns : (Path.mk s.layout.ns).descends) (hrun : s.run t = (t', .ok r)) :
    ∃ packages, loadPackages (makeDir t s.layout.buildDir).1 s = .ok packages ∧
      ∀ path ∈ r.written, ∃ p ∈ packages, ∃ tree source m, p.HasSource tree source m ∧
        path = outPath (p.dir s.layout.buildDir s.layout.ns) m ∧
        (p.StaysBelow s.layout.ns ∧ (source.isAbsolute → (source.relativeTo? p.srcDir).isSome) →
          path.IsBelow s.layout.buildDir) ∧
        ((∀ buildDir, (outPath (p.dir buildDir s.layout.ns) m).IsBelow buildDir) ↔
          p.StaysBelow s.layout.ns ∧ (source.isAbsolute → (source.relativeTo? p.srcDir).isSome)) := by
  unfold RunSettings.run at hrun
  split at hrun
  · cases hrun
  · next t₁ _ hmake =>
    split at hrun
    · cases hrun
    · split at hrun
      · cases hrun
      · split at hrun
        · cases hrun
        · next packages hload =>
          cases hrun
          refine ⟨packages, by rw [hmake, hload], fun path hpath => ?_⟩
          rcases mem_written_runPackages hpath with hnone | ⟨p, hp, tree, source, m, hsource, hpath⟩
          · cases hnone
          · have hrooted : isRooted m = false ↔
                (source.isAbsolute → (source.relativeTo? p.srcDir).isSome) := by
              rw [p.isRooted_of_moduleNameOf? hsource.srcDir_ne hsource.2.1]
              cases source.isAbsolute <;> cases source.relativeTo? p.srcDir <;> simp
            have hiff := p.isBelow_outPath_iff hns m
            rw [hrooted] at hiff
            refine ⟨p, hp, tree, source, m, hsource, hpath, fun hstays => ?_, hiff⟩
            rw [hpath]
            exact hiff.mpr hstays s.layout.buildDir

/-! ## A project with one dependency -/

/-- A file that holds a text. -/
def Entry.ofText (text : String) (modified : Nat) : Entry := .file text.toUTF8 modified

/-- The working directory `w` of a project whose dependency calls itself `name`. -/
def lodgerTree (name : String) : FileTree where
  entries := [
    (["w"], .dir 1), (["src", "w"], .dir 1), (["bower.json", "w"], .ofText "\x7b\"name\":\"app\"\x7d" 1),
    (["deps", "w"], .dir 1), (["lodger", "deps", "w"], .dir 1),
    (["bower.json", "lodger", "deps", "w"], .ofText ("\x7b\"name\":\"" ++ name ++ "\"\x7d") 1),
    (["src", "lodger", "deps", "w"], .dir 1), (["A.purs", "src", "lodger", "deps", "w"], .ofText "" 1),
    (["output", "w"], .dir 1), (["A", "output", "w"], .dir 1),
    (["goemit-ir.json", "A", "output", "w"], .ofText "\x7b\x7d" 1)]
  workingDir := ["w"]
  clock := 2

/-- The run on that project. -/
def lodgerRun : RunSettings where
  srcDir := ⟨"src"⟩
  depsDir := ⟨"deps"⟩
  manifestPath := ⟨"bower.json"⟩
  layout := { dumpsDir := ⟨"output"⟩, buildDir := ⟨"build"⟩, ns := "ns", force := false }
  options := {}
  failFast := false

theorem exists_eq_of_snd_eq {α β : Type} {x : α × β} {b : β} (h : x.2 = b) : ∃ a, x = (a, b) :=
  ⟨x.1, by rw [← h]⟩

theorem lodgerRun_written_isBelow_iff :
    (Path.mk lodgerRun.layout.ns).descends ∧
      ∃ t' r, lodgerRun.run (lodgerTree "../x") = (t', .ok r) ∧ r.written = [⟨"build/ns/../x/A/A.go"⟩] ∧
      ∃ packages, loadPackages (makeDir (lodgerTree "../x") lodgerRun.layout.buildDir).1 lodgerRun =
          .ok packages ∧
        ∀ path ∈ r.written, ∃ p ∈ packages, ∃ tree source m, p.HasSource tree source m ∧
          path = outPath (p.dir lodgerRun.layout.buildDir lodgerRun.layout.ns) m ∧
          (p.StaysBelow lodgerRun.layout.ns ∧
              (source.isAbsolute → (source.relativeTo? p.srcDir).isSome) →
            path.IsBelow lodgerRun.layout.buildDir) ∧
          ((∀ buildDir, (outPath (p.dir buildDir lodgerRun.layout.ns) m).IsBelow buildDir) ↔
            p.StaysBelow lodgerRun.layout.ns ∧
              (source.isAbsolute → (source.relativeTo? p.srcDir).isSome)) := by
  have hns : (Path.mk lodgerRun.layout.ns).descends := by decide
  have hreport : (lodgerRun.run (lodgerTree "../x")).2 =
      .ok { packages := 2, written := [⟨"build/ns/../x/A/A.go"⟩] } := by decide +kernel
  obtain ⟨t', hrun⟩ := exists_eq_of_snd_eq hreport
  exact ⟨hns, t', _, hrun, rfl, RunSettings.written_isBelow_iff hns hrun⟩

/-- A dependency that calls itself `../../x` is written outside the build directory. -/
theorem lodgerRun_written_outside :
    (Path.mk lodgerRun.layout.ns).descends ∧
      ∃ t' r, lodgerRun.run (lodgerTree "../../x") = (t', .ok r) ∧
        ⟨"build/ns/../../x/A/A.go"⟩ ∈ r.written ∧
        ¬ (Path.mk "build/ns/../../x/A/A.go").IsBelow lodgerRun.layout.buildDir := by
  have hreport : (lodgerRun.run (lodgerTree "../../x")).2 =
      .ok { packages := 2, written := [⟨"build/ns/../../x/A/A.go"⟩] } := by decide +kernel
  obtain ⟨t', hrun⟩ := exists_eq_of_snd_eq hreport
  exact ⟨by decide, t', _, hrun, List.mem_cons_self, by decide⟩

end GoScribe
