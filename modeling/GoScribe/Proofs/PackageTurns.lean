import GoScribe.Proofs.BuildRoot
import GoScribe.Proofs.TreeRegions

/-!
# The turn of a package

Each package has a region of its own below the build directory, if its name is an ordinary one.  A package
that is separate reads nothing below the build directory but what is in its region, and writes nowhere else.
So in trees that are alike for the region its turn comes to the same (`Package.IsSeparate.regenerate_alike`),
and its turn changes nothing elsewhere (`Package.IsSeparate.changedWithin_regenerate`).
-/

namespace GoScribe

open GoScribe.Path FileTree

/-! ## The region of a package -/

/-- The name of the package is one component of a path, and an ordinary one. -/
def Package.HasPlainName (p : Package) : Prop := (Path.mk p.name).components = [.normal p.name]

instance (p : Package) : Decidable p.HasPlainName :=
  inferInstanceAs (Decidable ((Path.mk p.name).components = [.normal p.name]))

/-- The steps from the build directory to that of a package. -/
def Package.dirSteps (p : Package) (ns : String) : List (List Char) :=
  (Path.mk ns).steps ++ [p.name.toList]

/-- Where the directory of a package is if the build directory is at `b`. -/
def Package.region (p : Package) (ns : String) (b : Location) : Location := down b (p.dirSteps ns)

theorem Package.HasPlainName.startComponent? {p : Package} (h : p.HasPlainName) :
    (Path.mk p.name).startComponent? = none := by
  rw [HasPlainName, components_eq] at h
  cases hstart : (Path.mk p.name).startComponent? with
  | none => rfl
  | some c =>
    -- The component in front is the only one, but it is no name.
    rw [hstart] at h
    have hc : c = .normal p.name := (List.cons.inj h).1
    rw [Path.startComponent?] at hstart
    split at hstart
    · rw [hc] at hstart
      cases hstart
    · split at hstart
      · rw [hc] at hstart
        cases hstart
      · cases hstart

theorem Package.HasPlainName.isAbsolute {p : Package} (h : p.HasPlainName) :
    (Path.mk p.name).isAbsolute = false := by
  have hstart := h.startComponent?
  rw [Path.startComponent?] at hstart
  split at hstart
  · cases hstart
  · next habs => exact Bool.eq_false_iff.mpr habs

theorem Package.HasPlainName.steps {p : Package} (h : p.HasPlainName) :
    (Path.mk p.name).steps = [p.name.toList] ∧ IsName p.name.toList := by
  have hnames := h
  rw [HasPlainName, components_eq, h.startComponent?] at hnames
  have hstep : ∀ s ∈ (Path.mk p.name).steps, isStep s := fun s hs => (List.mem_filter.mp hs).2
  match hsteps : (Path.mk p.name).steps with
  | [] =>
    rw [hsteps] at hnames
    cases hnames
  | s :: ss =>
    rw [hsteps] at hnames hstep
    rw [List.forall_mem_cons] at hstep
    obtain ⟨c, hc⟩ := Option.isSome_iff_exists.mp hstep.1
    rw [List.filterMap_cons_some hc] at hnames
    obtain ⟨rfl, hrest⟩ := List.cons.inj hnames
    have hs : s = p.name.toList := by
      rcases componentOf?_eq_some hc with ⟨hparent, -⟩ | ⟨hname, -⟩
      · cases hparent
      · rw [Component.normal.inj hname, String.toList_ofList]
    have hss : ss = [] := by
      cases ss with
      | nil => rfl
      | cons r rest =>
        obtain ⟨d, hd⟩ := Option.isSome_iff_exists.mp (hstep.2 r List.mem_cons_self)
        rw [List.filterMap_cons_some hd] at hrest
        cases hrest
    rw [hss, hs]
    refine ⟨rfl, ?_⟩
    rw [IsName, String.ofList_toList, ← hs]
    exact hc

theorem endsInStep_outPath (dir : Path) (m : String) :
    EndsInStep (Text.splitOn '/' (outPath dir m).text.toList) := by
  obtain ⟨pieces, cs, hsplit, hstep⟩ := exists_splitOn_outPath dir m
  exact ⟨pieces, _, hsplit, hstep⟩

/-- The Go file of a module is reached by names from the build directory. -/
theorem Package.goesOn_outPath {p : Package} (hp : p.HasPlainName) {ns : String}
    (hns : (Path.mk ns).descends) {m : String} (hm : isRooted m = false) (buildDir : Path) :
    GoesOn buildDir (p.dirSteps ns ++ moduleSteps m) (outPath (p.dir buildDir ns) m) := by
  obtain ⟨hrelative, hnames⟩ := descends_iff.mp hns
  obtain ⟨hsteps, hname⟩ := hp.steps
  refine ⟨?_, ?_, endsInStep_outPath _ m, ?_⟩
  · rw [steps_outPath hm, Package.dir, steps_join hp.isAbsolute, steps_join hrelative, hsteps,
      Package.dirSteps, List.append_assoc, List.append_assoc, List.append_assoc]
  · rw [isAbsolute_outPath, hm, Package.dir, isAbsolute_join, hp.isAbsolute, isAbsolute_join, hrelative]
    rfl
  · intro s hs
    rcases List.mem_append.mp hs with hs | hs
    · rcases List.mem_append.mp hs with hs | hs
      · exact hnames s hs
      · rw [List.mem_singleton.mp hs]
        exact hname
    · exact isName_of_mem_moduleSteps hs

/-- The regions of packages with different names have nothing in common. -/
theorem Package.apart_region {p q : Package} (h : p.name ≠ q.name) (ns : String) (b : Location) :
    Apart (p.region ns b) (q.region ns b) := by
  have hregion (p : Package) : p.region ns b = p.name :: down b (Path.mk ns).steps := by
    rw [region, dirSteps, down_append, down, List.map_cons, String.ofList_toList]
    rfl
  rw [hregion, hregion]
  constructor
  · intro hsuffix
    exact h (List.cons.inj (hsuffix.eq_of_length rfl)).1
  · intro hsuffix
    exact h (List.cons.inj (hsuffix.eq_of_length rfl)).1.symm

/-! ## The turn of a unit -/

/-- The Go file of the unit is in the region at `r`, below the directory `base` at `b`. -/
def SourceUnit.WritesIn (u : SourceUnit) (base : Path) (b r : Location) : Prop :=
  ∃ ss name, ss ≠ [] ∧ GoesOn base (ss ++ [name]) u.outPath ∧ r <:+ down b ss

/-- The dump of the unit is not looked for below the directory at `b`. -/
def SourceUnit.ReadsOutside (u : SourceUnit) (t : FileTree) (b : Location) : Prop :=
  ∀ k ∈ t.trailOf u.dumpPath, ¬ StrictlyBelow b k

theorem SourceUnit.ReadsOutside.of_agree {u : SourceUnit} {t t' : FileTree} {b : Location}
    (hu : u.ReadsOutside t b) (h : SameOutside b t t') : u.ReadsOutside t' b := by
  rw [SourceUnit.ReadsOutside, h.trailOf_eq hu]
  exact hu

/-- A unit leaves the tree as it is, or installs its Go file. -/
theorem SourceUnit.fst_regenerate (u : SourceUnit) (t : FileTree) (options : Options) (force : Bool) :
    (u.regenerate t options force).1 = t ∨
      ∃ source, (u.regenerate t options force).1 = (install t u.outPath source).1 := by
  unfold SourceUnit.regenerate
  split
  · split
    · exact .inl rfl
    · split
      · exact .inl rfl
      · exact .inr ⟨_, rfl⟩
  · exact .inl rfl

section

variable {u : SourceUnit} {base : Path} {b r : Location} (hu : u.WritesIn base b r) {t : FileTree}
  (ht : t.HasRoot base b) (options : Options) (force : Bool)

include hu ht

theorem SourceUnit.WritesIn.changedWithin_regenerate :
    ChangedWithin base b r t (u.regenerate t options force).1 := by
  obtain ⟨ss, name, -, hout, hr⟩ := hu
  rcases u.fst_regenerate t options force with heq | ⟨source, heq⟩
  · rw [heq]
    exact .refl ht r
  · rw [heq]
    exact hout.changedWithin_install ht (hr.trans (down_suffix b ss name)) source

/-- In alike trees the same becomes of a unit. -/
theorem SourceUnit.WritesIn.regenerate_alike {t' : FileTree} (ht' : t'.HasRoot base b)
    (h : Alike b r t t') (hdump : u.ReadsOutside t b) :
    (u.regenerate t' options force).2 = (u.regenerate t options force).2 ∧
      Alike b r (u.regenerate t options force).1 (u.regenerate t' options force).1 := by
  obtain ⟨ss, name, -, hout, hr⟩ := hu
  have hregion : r <:+ down b (ss ++ [name]) := hr.trans (down_suffix b ss name)
  have hmodified : t'.modified? u.outPath = t.modified? u.outPath := by
    rw [hout.modified?_eq ht, hout.modified?_eq ht', h.get?_eq _ hregion]
  unfold SourceUnit.regenerate
  rw [h.agree.isFile_eq hdump]
  split
  · next hfile =>
    -- Times and sources come from the dump outside and from the Go file in the region.
    have htimes : isUpToDate t' u.dumpPath u.outPath = isUpToDate t u.dumpPath u.outPath := by
      rw [isUpToDate, isUpToDate, hmodified, h.agree.modified?_eq hdump hfile]
    have hsource : renderDump t' options u.dumpPath = renderDump t options u.dumpPath := by
      rw [renderDump, renderDump, loadDump, loadDump, h.agree.readText_eq hdump]
    rw [htimes, hsource]
    split
    · exact ⟨rfl, h⟩
    · split
      · exact ⟨rfl, h⟩
      · exact hout.install_alike ht ht' h hregion _
  · exact ⟨rfl, h⟩

end

/-! ## The turns of units -/

/-- Two packages in the course of their regeneration that have come to the same so far. -/
structure Progress.InStep (base : Path) (b r : Location) (s s' : Progress) : Prop where
  hasRoot : s.tree.HasRoot base b
  hasRoot' : s'.tree.HasRoot base b
  alike : Alike b r s.tree s'.tree
  stop_eq : s'.stop = s.stop
  report_eq : s'.report = s.report

section

variable {base : Path} {b r : Location} {us : List SourceUnit} (package : String) (options : Options)
  (force : Bool)

theorem Progress.InStep.step {s s' : Progress} (h : InStep base b r s s') {u : SourceUnit}
    (hu : u.WritesIn base b r) (hdump : u.ReadsOutside s.tree b) :
    InStep base b r (s.step package options force u) (s'.step package options force u) := by
  obtain ⟨hresult, halike⟩ := hu.regenerate_alike h.hasRoot options force h.hasRoot' h.alike hdump
  refine ⟨(hu.changedWithin_regenerate h.hasRoot options force).hasRoot,
    (hu.changedWithin_regenerate h.hasRoot' options force).hasRoot, halike, ?_, ?_⟩
  · simp only [Progress.step, hresult, h.stop_eq]
  · simp only [Progress.step, hresult, h.report_eq]

theorem Progress.InStep.run {s s' : Progress} (h : InStep base b r s s')
    (hus : ∀ u ∈ us, u.WritesIn base b r ∧ u.ReadsOutside s.tree b) :
    InStep base b r (s.run package options force us) (s'.run package options force us) := by
  induction us generalizing s s' with
  | nil => exact h
  | cons u us ih =>
    rw [List.forall_mem_cons] at hus
    rw [Progress.run, Progress.run, h.stop_eq]
    split
    · exact ⟨h.hasRoot, h.hasRoot', h.alike, rfl, by rw [h.report_eq]⟩
    · -- The dumps of the later units are still outside of what has changed.
      have hagree := (hus.1.1.changedWithin_regenerate h.hasRoot options force).agree
      refine ih (h.step package options force hus.1.1 hus.1.2) fun v hv => ?_
      exact ⟨(hus.2 v hv).1, (hus.2 v hv).2.of_agree hagree.toSameOutside⟩

theorem Progress.changedWithin_run {s : Progress} (hs : s.tree.HasRoot base b)
    (hus : ∀ u ∈ us, u.WritesIn base b r) :
    ChangedWithin base b r s.tree (s.run package options force us).tree := by
  induction us generalizing s with
  | nil => exact .refl hs r
  | cons u us ih =>
    rw [List.forall_mem_cons] at hus
    rw [Progress.run]
    split
    · exact .refl hs r
    · have hstep := hus.1.changedWithin_regenerate hs options force
      exact hstep.trans (ih (s := s.step package options force u) hstep.hasRoot hus.2)

/-- A signal that failures do not raise stays as it is. -/
theorem Progress.stop_run {s : Progress} (hs : s.stop = {}) :
    (s.run package options force us).stop = {} := by
  induction us generalizing s with
  | nil => exact hs
  | cons u us ih =>
    rw [Progress.run]
    split
    · exact hs
    · apply ih
      simp only [Progress.step, hs]
      split <;> rfl

end

/-! ## The turn of a package -/

/-- What a package looks at to tell its units and to read their dumps. -/
def Package.looks (p : Package) (t : FileTree) (layout : Layout) : List Glob.Look :=
  (t.trailOf p.srcDir).map .entry ++
    (if t.isDir p.srcDir then Glob.looksOf t p.sourcePattern.text else []) ++
    match p.units t layout with
    | .ok us => us.flatMap fun u => (t.trailOf u.dumpPath).map .entry
    | .error _ => []

/-- Nothing that the package looks at is below the directory at `b`. -/
def Package.ReadsOutside (p : Package) (t : FileTree) (layout : Layout) (b : Location) : Prop :=
  ∀ k ∈ p.looks t layout, k.avoids b

instance (p : Package) (t : FileTree) (layout : Layout) (b : Location) :
    Decidable (p.ReadsOutside t layout b) :=
  inferInstanceAs (Decidable (∀ k ∈ p.looks t layout, k.avoids b))

section

variable {p : Package} {layout : Layout} {b : Location} {t₀ : FileTree} (hp : p.ReadsOutside t₀ layout b)

include hp

/-- The units are the same as long as the trees differ only in the build directory. -/
theorem Package.ReadsOutside.units_eq {t : FileTree} (h : SameOutside b t₀ t) :
    p.units t layout = p.units t₀ layout := by
  have hsrc : ∀ k ∈ t₀.trailOf p.srcDir, ¬ StrictlyBelow b k := fun k hk =>
    hp (.entry k) (List.mem_append_left _ (List.mem_append_left _ (List.mem_map_of_mem hk)))
  unfold Package.units
  rw [h.isDir_eq hsrc]
  split
  · next hdir =>
    rw [Glob.expand?_of_agree h fun k hk => hp k ?_]
    refine List.mem_append_left _ (List.mem_append_right _ ?_)
    rw [if_pos hdir]
    exact hk
  · rfl

theorem Package.ReadsOutside.unit_readsOutside {us : List SourceUnit} (hus : p.units t₀ layout = .ok us)
    {u : SourceUnit} (hu : u ∈ us) : u.ReadsOutside t₀ b := by
  intro k hk
  refine hp (.entry k) (List.mem_append_right _ ?_)
  rw [hus]
  exact List.mem_flatMap.mpr ⟨u, hu, List.mem_map_of_mem hk⟩

end

/-- The package has nothing to do with what others have in the build directory at `b`: its name is an ordinary
one, it reads nothing there, and none of its sources is an absolute path outside its source directory as that is
spelled. -/
structure Package.IsSeparate (p : Package) (t : FileTree) (layout : Layout) (b : Location) : Prop where
  hasPlainName : p.HasPlainName
  readsOutside : p.ReadsOutside t layout b
  isBelow_srcDir : ∀ source m, p.HasSource t source m → source.isAbsolute →
    (source.relativeTo? p.srcDir).isSome

section

variable {p : Package} {layout : Layout} {b : Location} {t₀ : FileTree} (hp : p.IsSeparate t₀ layout b)

include hp

variable (hns : (Path.mk layout.ns).descends) {us : List SourceUnit} (hus : p.units t₀ layout = .ok us)

include hns hus in
theorem Package.IsSeparate.writesIn {u : SourceUnit} (hu : u ∈ us) :
    u.WritesIn layout.buildDir b (p.region layout.ns b) := by
  obtain ⟨source, m, hsource, rfl⟩ := Package.mem_units hus hu
  -- The source is where it belongs, so the name of the module leads down.
  have hm : isRooted m = false := by
    rw [p.isRooted_of_moduleNameOf? hsource.srcDir_ne hsource.2.1]
    cases habs : source.isAbsolute with
    | false => rfl
    | true =>
      rw [← Option.not_isSome, hp.isBelow_srcDir source m hsource habs]
      rfl
  obtain ⟨ss, cs, hsteps⟩ := exists_moduleSteps_eq m
  have hout := p.goesOn_outPath hp.hasPlainName hns hm layout.buildDir
  rw [hsteps, ← List.append_assoc] at hout
  refine ⟨_, _, ?_, p.outPath_unit layout m ▸ hout, ?_⟩
  · rw [Package.dirSteps, List.append_assoc]
    exact List.append_ne_nil_of_right_ne_nil _ (List.cons_ne_nil _ _)
  · rw [down_append]
    exact List.suffix_append _ _

include hns

theorem Package.IsSeparate.changedWithin_regenerate {t : FileTree} (h : AgreeOutside b t₀ t)
    (ht : t.HasRoot layout.buildDir b) (options : Options) (stop : StopSignal) :
    ChangedWithin layout.buildDir b (p.region layout.ns b) t (p.regenerate t layout options stop).1 := by
  unfold Package.regenerate
  rw [hp.readsOutside.units_eq h.toSameOutside]
  split
  · exact .refl ht _
  · next us hus =>
    exact Progress.changedWithin_run (s := ⟨t, stop, {}⟩) p.name options layout.force ht
      fun u hu => hp.writesIn hns hus hu

/-- In trees that are alike for its region the same becomes of a package. -/
theorem Package.IsSeparate.regenerate_alike {t : FileTree} (h : Alike b (p.region layout.ns b) t₀ t)
    (ht₀ : t₀.HasRoot layout.buildDir b) (ht : t.HasRoot layout.buildDir b) (options : Options)
    (stop : StopSignal) :
    (p.regenerate t layout options stop).2 = (p.regenerate t₀ layout options stop).2 ∧
      Alike b (p.region layout.ns b) (p.regenerate t₀ layout options stop).1
        (p.regenerate t layout options stop).1 := by
  unfold Package.regenerate
  rw [hp.readsOutside.units_eq h.agree.toSameOutside]
  split
  · exact ⟨rfl, h⟩
  · next us hus =>
    have hstart : Progress.InStep layout.buildDir b (p.region layout.ns b) ⟨t₀, stop, {}⟩
        ⟨t, stop, {}⟩ := ⟨ht₀, ht, h, rfl, rfl⟩
    have hrun := hstart.run p.name options layout.force
      fun u hu => ⟨hp.writesIn hns hus hu, hp.readsOutside.unit_readsOutside hus hu⟩
    refine ⟨?_, hrun.alike⟩
    simp only [hrun.stop_eq, hrun.report_eq]

end

end GoScribe
