import GoScribe.Proofs.Discovery
import GoScribe.Proofs.UnitAccounts

/-!
# Running twice

A unit whose Go file was written is up to date in its next turn, and of every other unit the same becomes as
before: its turn has left the tree as it was, and the turns of other units have changed nothing that it looks at
(`SourceUnit.IsReady.regenerate_again`).  So a second run finds the same packages and units, writes nothing and
reports the same, but for the files that are now up to date.  Main statement: `RunSettings.run_again`.  The Go
files have to be reached by names from the build directory: on a path that goes up again a unit may fail in the
first run and be up to date in the second (`detour_run_again`).
-/

namespace GoScribe

open GoScribe.Path FileTree

/-! ## The place of a Go file -/

/-- The Go file of the unit is reached by names from the directory `base`. -/
def SourceUnit.LeadsDown (u : SourceUnit) (base : Path) : Prop := ∃ ss, ss ≠ [] ∧ GoesOn base ss u.outPath

/-- Where the Go file of a unit is, if the directory `base` is at `b`. -/
def SourceUnit.place (u : SourceUnit) (base : Path) (b : Location) : Location :=
  down b (u.outPath.steps.drop base.steps.length)

section

variable {u v : SourceUnit} {base : Path} {b : Location}

theorem SourceUnit.LeadsDown.exists_goesOn (hu : u.LeadsDown base) (b : Location) :
    ∃ ss name, GoesOn base (ss ++ [name]) u.outPath ∧ u.place base b = down b (ss ++ [name]) := by
  obtain ⟨ss, hne, hout⟩ := hu
  have hplace : u.place base b = down b ss := by
    rw [SourceUnit.place, hout.steps_eq, List.drop_left]
  rw [← List.dropLast_append_getLast hne] at hout hplace
  exact ⟨_, _, hout, hplace⟩

theorem SourceUnit.LeadsDown.strictlyBelow (hu : u.LeadsDown base) (b : Location) :
    StrictlyBelow b (u.place base b) := by
  obtain ⟨ss, name, -, hplace⟩ := hu.exists_goesOn b
  rw [hplace]
  exact strictlyBelow_down b ss name

/-- A Go file that lies in another one's place has a path that goes on from the other's. -/
theorem SourceUnit.LeadsDown.prefix_of_place_suffix (hu : u.LeadsDown base) (hv : v.LeadsDown base)
    (h : u.place base b <:+ v.place base b) : u.outPath.steps <+: v.outPath.steps := by
  obtain ⟨ss, -, hss⟩ := hu
  obtain ⟨rs, -, hrs⟩ := hv
  rw [SourceUnit.place, SourceUnit.place, hss.steps_eq, hrs.steps_eq, List.drop_left, List.drop_left] at h
  rw [hss.steps_eq, hrs.steps_eq, List.prefix_append_right_inj]
  -- Below the directory a location is the names of the steps, from the last to the first.
  obtain ⟨front, hfront⟩ := h
  rw [down, down, ← List.append_assoc] at hfront
  have hnames : (ss.map String.ofList).reverse <:+ (rs.map String.ofList).reverse :=
    ⟨front, List.append_cancel_right hfront⟩
  rw [List.reverse_suffix, List.prefix_iff_eq_take, List.length_map, ← List.map_take] at hnames
  have hinjective : Function.Injective String.ofList := fun _ _ heq => String.ofList_injective heq
  rw [hinjective.list_map hnames]
  exact List.take_prefix _ _

end

/-- The modules of a package with an ordinary name are reached by names, if the namespace goes down. -/
theorem Package.leadsDown_unit {p : Package} (hp : p.HasPlainName) {layout : Layout}
    (hns : (Path.mk layout.ns).descends) {m : String} (hm : isRooted m = false) :
    (p.unit layout m).LeadsDown layout.buildDir := by
  have hsteps : p.dirSteps layout.ns ++ moduleSteps m ≠ [] := by
    rw [Package.dirSteps, List.append_assoc]
    exact List.append_ne_nil_of_right_ne_nil _ (List.cons_ne_nil _ _)
  have hout := p.goesOn_outPath hp hns hm layout.buildDir
  rw [SourceUnit.LeadsDown, p.outPath_unit]
  exact ⟨_, hsteps, hout⟩

/-! ## A second turn -/

/-- The second tree is for a file at `o`, below the directory `b`, as the first one is: it differs only below `b`, and
perhaps in its clock, has the same entry at `o`, and files at the same places on the way there. -/
structure KeptAt (b o : Location) (t t' : FileTree) : Prop where
  same : SameOutside b t t'
  get?_eq : t'.get? o = t.get? o
  isSome_fileAt?_eq : ∀ l, l <:+ o → (t'.fileAt? l).isSome = (t.fileAt? l).isSome

/-- Changes elsewhere come between. -/
theorem KeptAt.of_alike {b o : Location} {t t' t'' : FileTree} (h : Alike b o t t') (h' : KeptAt b o t' t'') :
    KeptAt b o t t'' where
  same := h.agree.toSameOutside.trans h'.same
  get?_eq := h'.get?_eq.trans (h.get?_eq o (List.suffix_refl o))
  isSome_fileAt?_eq l hl := (h'.isSome_fileAt?_eq l hl).trans (h.isSome_fileAt?_eq l hl)

/-- What becomes of a unit the second time: a file that was written is up to date. -/
def again : Except Failure Outcome → Except Failure Outcome
  | .ok (.written path) => .ok (.upToDate path)
  | result => result

/-- The unit is ready for its turn: its Go file is reached by names from the directory `base` at `b`, where no
directory is in its place, and its dump is not looked for below `b` and is not from the future. -/
structure SourceUnit.IsReady (u : SourceUnit) (base : Path) (b : Location) (t : FileTree) : Prop where
  leadsDown : u.LeadsDown base
  readsOutside : u.ReadsOutside t b
  isDirAt_eq : t.isDirAt (u.place base b) = false
  dump_le : t.isFile u.dumpPath → ∀ time ∈ t.modified? u.dumpPath, time ≤ t.clock

theorem SourceUnit.IsReady.of_alike {u : SourceUnit} {base : Path} {b : Location} {t t' : FileTree}
    (hu : u.IsReady base b t) (h : Alike b (u.place base b) t t') : u.IsReady base b t' where
  leadsDown := hu.leadsDown
  readsOutside := hu.readsOutside.of_agree h.agree.toSameOutside
  isDirAt_eq := by
    rw [isDirAt, h.get?_eq _ (List.suffix_refl _)]
    exact hu.isDirAt_eq
  dump_le := by
    rw [h.agree.isFile_eq hu.readsOutside, h.agree.clock_eq]
    intro hfile
    rw [h.agree.modified?_eq hu.readsOutside hfile]
    exact hu.dump_le hfile

theorem SourceUnit.LeadsDown.changedWithin_regenerate {u : SourceUnit} {base : Path} {b : Location}
    {t : FileTree} (hu : u.LeadsDown base) (ht : t.HasRoot base b) (options : Options) (force : Bool) :
    ChangedWithin base b (u.place base b) t (u.regenerate t options force).1 := by
  obtain ⟨ss, name, hout, hplace⟩ := hu.exists_goesOn b
  rcases u.fst_regenerate t options force with heq | ⟨source, heq⟩
  · rw [heq]
    exact .refl ht _
  · rw [heq, hplace]
    exact hout.changedWithin_install ht (List.suffix_refl _) source

theorem clock_writeAt (t : FileTree) (l : Location) (content : ByteArray) :
    (t.writeAt l content).clock = t.clock := by
  unfold writeAt
  split
  · exact clock_put t l _
  · exact clock_add t l _

/-- Directories on the way to a location leave it alone. -/
theorem isDirAt_foldl_ensureDir {t : FileTree} {b : Location} {ss : List (List Char)} (hb : t.isDirAt b)
    (hclear : t.blockage b ss = none) (name : List Char) :
    ((way b ss).foldl ensureDir t).isDirAt (down b (ss ++ [name])) = t.isDirAt (down b (ss ++ [name])) := by
  refine (foldl_ensureDir_induction
    (P := fun t' => t'.isDirAt (down b (ss ++ [name])) = t.isDirAt (down b (ss ++ [name]))) hb hclear rfl ?_).1
  intro t' k hk _ ht'
  have hne : down b (ss ++ [name]) ≠ k := by
    rintro rfl
    have hlength := (suffix_of_mem_way hk).2.2.length_le
    rw [down_append] at hlength
    exact absurd hlength (Nat.not_succ_le_self _)
  rw [isDirAt_ensureDir, ht', decide_eq_false hne, Bool.false_and, Bool.or_false]

/-- The time of a file is known. -/
theorem exists_modified?_of_isFile {t : FileTree} {p : Path} (h : t.isFile p) :
    ∃ time, t.modified? p = some time := by
  unfold isFile at h
  split at h
  · next content time hstat =>
    refine ⟨time, ?_⟩
    rw [modified?, hstat]
    rfl
  · cases h

section

variable {u : SourceUnit} {t : FileTree} (options : Options)

/-- A turn without a dump. -/
theorem SourceUnit.regenerate_of_noDump (hfile : t.isFile u.dumpPath = false) :
    u.regenerate t options false = (t, .ok .noDump) := by
  rw [regenerate, hfile]
  rfl

theorem SourceUnit.regenerate_of_upToDate (hfile : t.isFile u.dumpPath)
    (htimes : isUpToDate t u.dumpPath u.outPath) :
    u.regenerate t options false = (t, .ok (.upToDate u.outPath)) := by
  rw [regenerate, hfile, htimes]
  rfl

/-- A turn with a dump that is newer than the Go file. -/
theorem SourceUnit.regenerate_of_stale (hfile : t.isFile u.dumpPath)
    (htimes : isUpToDate t u.dumpPath u.outPath = false) :
    u.regenerate t options false =
      match renderDump t options u.dumpPath with
      | .error e => (t, .error e)
      | .ok source => install t u.outPath source := by
  rw [regenerate, hfile, htimes]
  rfl

end

section

variable {u : SourceUnit} {base : Path} {b : Location} {t t' : FileTree} (hu : u.IsReady base b t)
  {options : Options} (h : KeptAt b (u.place base b) (u.regenerate t options false).1 t')

include hu h

theorem SourceUnit.IsReady.sameOutside (ht : t.HasRoot base b) : SameOutside b t t' :=
  (hu.leadsDown.changedWithin_regenerate ht options false).agree.toSameOutside.trans h.same

theorem SourceUnit.IsReady.modified?_outPath (ht' : t'.HasRoot base b) : t'.modified? u.outPath =
    ((u.regenerate t options false).1.get? (u.place base b)).map Entry.modified := by
  obtain ⟨ss, name, hout, hplace⟩ := hu.leadsDown.exists_goesOn b
  rw [hout.modified?_eq ht', ← hplace, h.get?_eq]

variable (ht : t.HasRoot base b) (ht' : t'.HasRoot base b)

include ht ht'

/-- If the first turn has left the tree as it was, the times are the same. -/
theorem SourceUnit.IsReady.isUpToDate_eq (hfile : t.isFile u.dumpPath)
    (heq : (u.regenerate t options false).1 = t) :
    isUpToDate t' u.dumpPath u.outPath = isUpToDate t u.dumpPath u.outPath := by
  obtain ⟨ss, name, hout, hplace⟩ := hu.leadsDown.exists_goesOn b
  rw [isUpToDate, isUpToDate, (hu.sameOutside h ht).modified?_eq hu.readsOutside hfile,
    hu.modified?_outPath h ht', heq, hplace, hout.modified?_eq ht]

/-- A file that the first turn has written is up to date: it is not older than the dump. -/
theorem SourceUnit.IsReady.isUpToDate_of_written (hfile : t.isFile u.dumpPath) {ss : List (List Char)}
    {name : List Char} (hplace : u.place base b = down b (ss ++ [name])) {t₁ : FileTree} {content : ByteArray}
    (hwritten : (u.regenerate t options false).1 = t₁.writeAt (down b (ss ++ [name])) content) :
    isUpToDate t' u.dumpPath u.outPath := by
  -- Its time is that of the first turn, when the dump was not newer.
  have hclock := (hu.leadsDown.changedWithin_regenerate ht options false).agree.clock_eq
  rw [hwritten, clock_writeAt] at hclock
  have hmodified := hu.modified?_outPath h ht'
  rw [hwritten, hplace, get?_writeAt (strictlyBelow_down b ss name).ne_nil, if_pos rfl, hclock] at hmodified
  obtain ⟨time, htime⟩ := exists_modified?_of_isFile hfile
  rw [isUpToDate, (hu.sameOutside h ht).modified?_eq hu.readsOutside hfile, htime, hmodified]
  exact decide_eq_true (hu.dump_le hfile time htime)

/-- The second turn of a unit whose Go file is to be installed. -/
theorem SourceUnit.IsReady.install_again (hfile : t.isFile u.dumpPath) (hfile' : t'.isFile u.dumpPath)
    {source : String} (hturn : u.regenerate t options false = install t u.outPath source)
    (hturn' : isUpToDate t' u.dumpPath u.outPath = false →
      u.regenerate t' options false = install t' u.outPath source)
    (htimes : isUpToDate t u.dumpPath u.outPath = false) :
    u.regenerate t' options false = (t', again (u.regenerate t options false).2) := by
  obtain ⟨ss, name, hout, hplace⟩ := hu.leadsDown.exists_goesOn b
  obtain ⟨d, hparent, hd⟩ := hout.exists_parent
  have hinstall := hturn.trans (hout.install_eq hparent (hd ht) ht source)
  cases hblockage : t.blockage b ss with
  | some e =>
    -- The file in the way is still there.
    rw [hblockage] at hinstall
    have hstale := (hu.isUpToDate_eq h ht ht' hfile (by rw [hinstall])).trans htimes
    have hblockage' : t'.blockage b ss = some e := by
      rw [hinstall] at h
      rw [← hblockage]
      refine blockage_eq_of_files fun k hk => h.isSome_fileAt?_eq k ?_
      rw [hplace]
      exact hk.trans (down_suffix b ss name)
    rw [hturn' hstale, hout.install_eq hparent (hd ht') ht', hblockage', hinstall]
    rfl
  | none =>
    -- The file is written, now.
    have hnotDir : ((way b ss).foldl ensureDir t).isDirAt (down b (ss ++ [name])) = false := by
      rw [isDirAt_foldl_ensureDir ht.isDirAt hblockage, ← hplace]
      exact hu.isDirAt_eq
    simp only [hblockage, hnotDir, Bool.false_eq_true, if_false] at hinstall
    have hcurrent := hu.isUpToDate_of_written h ht ht' hfile hplace (by rw [hinstall])
    rw [regenerate_of_upToDate options hfile' hcurrent, hinstall]
    rfl

/-- A second turn, in a tree that is for the Go file as the first turn has left it: it leaves the tree as it is,
and what becomes of the unit is what became of it before. -/
theorem SourceUnit.IsReady.regenerate_again :
    u.regenerate t' options false = (t', again (u.regenerate t options false).2) := by
  have hsame := hu.sameOutside h ht
  have hisFile : t'.isFile u.dumpPath = t.isFile u.dumpPath := hsame.isFile_eq hu.readsOutside
  have hrender : renderDump t' options u.dumpPath = renderDump t options u.dumpPath := by
    rw [renderDump, renderDump, loadDump, loadDump, hsame.readText_eq hu.readsOutside]
  cases hfile : t.isFile u.dumpPath with
  | false =>
    rw [regenerate_of_noDump options (hisFile.trans hfile), regenerate_of_noDump options hfile]
    rfl
  | true =>
    rw [hfile] at hisFile
    cases htimes : isUpToDate t u.dumpPath u.outPath with
    | true =>
      have hturn := regenerate_of_upToDate options hfile htimes
      have htimes' := (hu.isUpToDate_eq h ht ht' hfile (by rw [hturn])).trans htimes
      rw [regenerate_of_upToDate options hisFile htimes', hturn]
      rfl
    | false =>
      have hturn := regenerate_of_stale options hfile htimes
      have hturn' := regenerate_of_stale (u := u) (t := t') options hisFile
      rw [hrender] at hturn'
      cases hsource : renderDump t options u.dumpPath with
      | error e =>
        rw [hsource] at hturn hturn'
        have htimes' := (hu.isUpToDate_eq h ht ht' hfile (by rw [hturn])).trans htimes
        rw [hturn' htimes', hturn]
        rfl
      | ok source =>
        rw [hsource] at hturn hturn'
        exact hu.install_again h ht ht' hfile hisFile hturn hturn' htimes

end

/-! ## Second turns of many units -/

theorem treeAfter_append (options : Options) (force : Bool) (t : FileTree) (us vs : List SourceUnit) :
    treeAfter options force t (us ++ vs) = treeAfter options force (treeAfter options force t us) vs := by
  induction us generalizing t with
  | nil => rfl
  | cons u us ih => exact ih _

section

variable {base : Path} {b : Location} {us : List SourceUnit} {t : FileTree} (ht : t.HasRoot base b)
  (options : Options)

include ht

/-- Turns of units change nothing but their Go files, and what is below the directory. -/
theorem changes_of_treeAfter (hus : ∀ u ∈ us, u.LeadsDown base) :
    (treeAfter options false t us).HasRoot base b ∧ AgreeOutside b t (treeAfter options false t us) ∧
      (∀ l, (∀ u ∈ us, ¬ u.place base b <:+ l) → (treeAfter options false t us).fileAt? l = t.fileAt? l) ∧
      ∀ r, (∀ u ∈ us, Apart (u.place base b) r) → Alike b r t (treeAfter options false t us) := by
  induction us generalizing t with
  | nil => exact ⟨ht, .refl ht.isDirAt, fun _ _ => rfl, fun r _ => .refl ht.isDirAt r⟩
  | cons u us ih =>
    rw [List.forall_mem_cons] at hus
    have hturn := hus.1.changedWithin_regenerate ht options false
    obtain ⟨hroot, hagree, hfiles, halike⟩ := ih hturn.hasRoot hus.2
    refine ⟨hroot, hturn.agree.trans hagree, fun l hl => ?_, fun r hr => ?_⟩
    · rw [List.forall_mem_cons] at hl
      exact (hfiles l hl.2).trans (hturn.fileAt?_eq l hl.1)
    · rw [List.forall_mem_cons] at hr
      exact (hturn.alike r hr.1).trans (halike r hr.2)

/-- Second turns of units, in a tree that is for each Go file as the first turns have left it. -/
theorem turns_again (hus : ∀ u ∈ us, u.IsReady base b t)
    (hapart : us.Pairwise fun u v => Apart (u.place base b) (v.place base b)) {t' : FileTree}
    (ht' : t'.HasRoot base b)
    (h : ∀ u ∈ us, KeptAt b (u.place base b) (treeAfter options false t us) t') :
    resultsOf options false t' us = (resultsOf options false t us).map again ∧
      treeAfter options false t' us = t' := by
  induction us generalizing t with
  | nil => exact ⟨rfl, rfl⟩
  | cons u us ih =>
    rw [List.forall_mem_cons] at hus h
    rw [List.pairwise_cons] at hapart
    have hturn := hus.1.leadsDown.changedWithin_regenerate ht options false
    -- The other units are as ready as before, and their turns leave the first Go file alone.
    have hready : ∀ v ∈ us, v.IsReady base b (u.regenerate t options false).1 := fun v hv =>
      (hus.2 v hv).of_alike (hturn.alike _ (hapart.1 v hv))
    have hrest := (changes_of_treeAfter hturn.hasRoot options fun v hv => (hready v hv).leadsDown).2.2.2
      (u.place base b) fun v hv => (hapart.1 v hv).symm
    obtain ⟨hresults, htree⟩ := ih hturn.hasRoot hready hapart.2 h.2
    have hagain := hus.1.regenerate_again (.of_alike hrest h.1) ht ht'
    rw [resultsOf, resultsOf, treeAfter, hagain, List.map_cons, hresults]
    exact ⟨rfl, htree⟩

end

/-! ## Reports of second turns -/

/-- The report of a second turn: what was written is up to date. -/
def PackageReport.again (r : PackageReport) : PackageReport :=
  { r with written := [], upToDate := r.upToDate + r.written.length }

/-- The report of a second run: what was written is up to date. -/
def RunReport.again (r : RunReport) : RunReport :=
  { r with written := [], upToDate := r.upToDate + r.written.length }

theorem PackageReport.again_add (r : PackageReport) (package : String) (u : SourceUnit)
    (result : Except Failure Outcome) :
    (r.add package u result).again = r.again.add package u (GoScribe.again result) := by
  match result with
  | .ok (.written path) =>
    simp only [add, again, GoScribe.again, List.length_append, List.length_singleton, Nat.add_assoc]
  | .ok (.upToDate path) => simp only [add, again, GoScribe.again, Nat.add_right_comm]
  | .ok .noDump => rfl
  | .error e => rfl

theorem PackageReport.again_addAll (r : PackageReport) (package : String) (us : List SourceUnit)
    (results : List (Except Failure Outcome)) :
    (r.addAll package us results).again = r.again.addAll package us (results.map GoScribe.again) := by
  induction us generalizing r results with
  | nil => rfl
  | cons u us ih =>
    cases results with
    | nil => rfl
    | cons result results =>
      rw [addAll_cons, ih, again_add]
      rfl

theorem RunReport.again_merge (r : RunReport) (p : PackageReport) :
    (r.merge p).again = r.again.merge p.again := by
  have hcount : r.upToDate + p.upToDate + (r.written ++ p.written).length =
      r.upToDate + r.written.length + (p.upToDate + p.written.length) := by
    rw [List.length_append]
    omega
  simp only [merge, again, PackageReport.again, hcount, List.append_nil]

/-! ## Second turns of packages -/

/-- The turn of a package is that of its units, and its report is theirs. -/
theorem Package.turn_eq (p : Package) (t : FileTree) (s : RunSettings) :
    (p.regenerate t s.layout s.options {}).1 =
        treeAfter s.options s.layout.force t (unitsAt s.layout (p, t)) ∧
      p.report t s =
        match p.units t s.layout with
        | .ok us => PackageReport.addAll {} p.name us (resultsOf s.options s.layout.force t us)
        | .error e => .unlisted p.name e := by
  cases hunits : p.units t s.layout with
  | error e =>
    have hturn : p.regenerate t s.layout s.options {} = (t, {}, .error e) := by
      rw [Package.regenerate, hunits]
    rw [Package.report, hturn, unitsAt, hunits]
    exact ⟨rfl, rfl⟩
  | ok us =>
    have hok : ∃ r, (p.regenerate t s.layout s.options {}).2.2 = .ok r := by
      rw [Package.regenerate, hunits]
      exact ⟨_, rfl⟩
    obtain ⟨r, hr⟩ := hok
    obtain ⟨us', hunits', haccounts⟩ := Package.accountsFor_regenerate
      (show p.regenerate t s.layout s.options {} = (_, _, .ok r) by rw [← hr])
    rw [hunits] at hunits'
    cases hunits'
    obtain ⟨hreport, -, htree, -⟩ := haccounts.of_not_onFailure rfl rfl
    rw [Package.report, hr, unitsAt, hunits]
    exact ⟨htree, hreport⟩

theorem Package.ReadsOutside.unitsAt_eq {p : Package} {layout : Layout} {b : Location} {t₀ t : FileTree}
    (hp : p.ReadsOutside t₀ layout b) (ht : SameOutside b t₀ t) :
    unitsAt layout (p, t) = unitsAt layout (p, t₀) := by
  simp only [unitsAt, hp.units_eq ht]

section

variable {s : RunSettings} (hforce : s.layout.force = false) {b : Location} {t₀ : FileTree}

include hforce

/-- A package's second turn, if the second turns of its units are known. -/
theorem Package.turn_again {p : Package} (hp : p.ReadsOutside t₀ s.layout b) {t t' : FileTree}
    (ht : SameOutside b t₀ t) (ht' : SameOutside b t₀ t')
    (hresults : resultsOf s.options false t' (unitsAt s.layout (p, t₀)) =
      (resultsOf s.options false t (unitsAt s.layout (p, t₀))).map again)
    (htree : treeAfter s.options false t' (unitsAt s.layout (p, t₀)) = t') :
    (p.regenerate t' s.layout s.options {}).1 = t' ∧ p.report t' s = (p.report t s).again := by
  obtain ⟨-, hreport⟩ := p.turn_eq t s
  obtain ⟨hturn', hreport'⟩ := p.turn_eq t' s
  rw [hp.unitsAt_eq ht', hforce, htree] at hturn'
  rw [hp.units_eq ht', hforce] at hreport'
  rw [hp.units_eq ht, hforce] at hreport
  refine ⟨hturn', ?_⟩
  rw [hreport', hreport]
  rw [unitsAt] at hresults
  cases hunits : p.units t₀ s.layout with
  | error e => rfl
  | ok us =>
    simp only [hunits] at hresults
    simp only [hresults, PackageReport.again_addAll]
    rfl

variable (hfast : s.failFast = false)

include hfast

/-- The tree after the turns of packages is that after the turns of all their units. -/
theorem fst_runPackages {t : FileTree} (ht : t.HasRoot s.layout.buildDir b) (hsame : SameOutside b t₀ t)
    {ps : List Package} (hps : ∀ p ∈ ps, p.ReadsOutside t₀ s.layout b)
    (hus : ∀ u ∈ ps.flatMap fun p => unitsAt s.layout (p, t₀), u.LeadsDown s.layout.buildDir)
    (report : RunReport) :
    (runPackages t s {} report ps).1 =
      treeAfter s.options false t (ps.flatMap fun p => unitsAt s.layout (p, t₀)) := by
  induction ps generalizing t report with
  | nil => rfl
  | cons p ps ih =>
    rw [List.forall_mem_cons] at hps
    rw [List.flatMap_cons, List.forall_mem_append] at hus
    have hturn := (p.turn_eq t s).1
    rw [hps.1.unitsAt_eq hsame, hforce] at hturn
    obtain ⟨hroot, hagree, -, -⟩ := changes_of_treeAfter ht s.options hus.1
    rw [runPackages_cons hfast, hturn, ih hroot (hsame.trans hagree.toSameOutside) hps.2 hus.2, List.flatMap_cons,
      treeAfter_append]

/-- Second turns of packages, in a tree that is for each Go file as the first turns have left it. -/
theorem runPackages_again {t t' : FileTree} (ht : t.HasRoot s.layout.buildDir b) (hsame : SameOutside b t₀ t)
    (ht' : t'.HasRoot s.layout.buildDir b) (hsame' : SameOutside b t₀ t') {ps : List Package}
    (hps : ∀ p ∈ ps, p.ReadsOutside t₀ s.layout b)
    (hus : ∀ u ∈ ps.flatMap fun p => unitsAt s.layout (p, t₀), u.IsReady s.layout.buildDir b t)
    (hapart : (ps.flatMap fun p => unitsAt s.layout (p, t₀)).Pairwise fun u v =>
      Apart (u.place s.layout.buildDir b) (v.place s.layout.buildDir b))
    (h : ∀ u ∈ ps.flatMap fun p => unitsAt s.layout (p, t₀), KeptAt b (u.place s.layout.buildDir b)
      (treeAfter s.options false t (ps.flatMap fun p => unitsAt s.layout (p, t₀))) t')
    (report : RunReport) :
    runPackages t' s {} report.again ps = (t', (runPackages t s {} report ps).2.again) := by
  induction ps generalizing t report with
  | nil => rfl
  | cons p ps ih =>
    rw [List.forall_mem_cons] at hps
    rw [List.flatMap_cons, List.forall_mem_append] at hus
    rw [List.flatMap_cons, List.pairwise_append] at hapart
    obtain ⟨hapart, haparts, hcross⟩ := hapart
    rw [List.flatMap_cons, treeAfter_append, List.forall_mem_append] at h
    have hturn := (p.turn_eq t s).1
    rw [hps.1.unitsAt_eq hsame, hforce] at hturn
    obtain ⟨hroot, hagree, -, halike⟩ :=
      changes_of_treeAfter ht s.options fun u hu => (hus.1 u hu).leadsDown
    -- The units of the other packages are as ready as before, and leave the Go files of this one alone.
    have hready : ∀ v ∈ ps.flatMap fun p => unitsAt s.layout (p, t₀), v.IsReady s.layout.buildDir b
        (treeAfter s.options false t (unitsAt s.layout (p, t₀))) := fun v hv =>
      (hus.2 v hv).of_alike (halike _ fun u hu => hcross u hu v hv)
    have hrest : ∀ u ∈ unitsAt s.layout (p, t₀), KeptAt b (u.place s.layout.buildDir b)
        (treeAfter s.options false t (unitsAt s.layout (p, t₀))) t' := fun u hu =>
      .of_alike ((changes_of_treeAfter hroot s.options fun v hv => (hready v hv).leadsDown).2.2.2 _
        fun v hv => (hcross u hu v hv).symm) (h.1 u hu)
    obtain ⟨hresults, htree⟩ := turns_again ht s.options hus.1 hapart ht' hrest
    obtain ⟨hturn', hreport⟩ := Package.turn_again hforce hps.1 hsame hsame' hresults htree
    rw [runPackages_cons hfast, runPackages_cons hfast, hturn', hreport, hturn, ← RunReport.again_merge]
    exact ih hroot (hsame.trans hagree.toSameOutside) hps.2 hready haparts h.2 _

end

/-! ## Time that passes -/

section

variable (t : FileTree) (clock : Nat)

theorem get?_clock {l : Location} (hl : l ≠ []) : ({ t with clock } : FileTree).get? l = t.get? l := by
  rw [get?_of_ne_nil hl, get?_of_ne_nil hl]

theorem isDirAt_clock (l : Location) : ({ t with clock } : FileTree).isDirAt l = t.isDirAt l := by
  by_cases hl : l = []
  · rw [hl]
    rfl
  · rw [isDirAt, get?_clock t clock hl, isDirAt]

theorem fileAt?_clock (l : Location) : ({ t with clock } : FileTree).fileAt? l = t.fileAt? l := by
  by_cases hl : l = []
  · rw [hl]
    rfl
  · rw [fileAt?, get?_clock t clock hl, fileAt?]

variable {t}

theorem extends_clock (ht : t.WellFormed) : Extends t { t with clock } := by
  refine ⟨fun name l hsome => ?_, rfl, fun l hl => ?_⟩
  · rw [get?_clock t clock (List.cons_ne_nil name l)] at hsome
    rw [isDirAt_clock]
    exact ht name l hsome
  · rw [isDirAt_clock]
    exact hl

variable {b : Location} (hb : t.isDirAt b)

include hb

theorem sameOutside_clock : SameOutside b t { t with clock } :=
  ⟨rfl, rfl, hb, (isDirAt_clock t clock b).trans hb⟩

theorem keptAt_clock {o : Location} (ho : o ≠ []) : KeptAt b o t { t with clock } :=
  ⟨sameOutside_clock clock hb, get?_clock t clock ho, fun l _ => by rw [fileAt?_clock]⟩

end

/-! ## A second run -/

/-- No Go file is named like a manifest. -/
theorem Package.head?_place_ne {p : Package} {t : FileTree} {layout : Layout} {u : SourceUnit}
    (hu : u ∈ unitsAt layout (p, t)) {base : Path} (hdown : u.LeadsDown base) (b : Location) {f : String}
    (hf : f ∈ manifestFiles) : (u.place base b).head? ≠ some f := by
  obtain ⟨ss, name, hout, hplace⟩ := hdown.exists_goesOn b
  have hgo : ∃ cs, name = cs ++ ['.', 'g', 'o'] := by
    unfold unitsAt at hu
    split at hu
    · next us hus =>
      obtain ⟨source, m, -, rfl⟩ := Package.mem_units hus hu
      obtain ⟨pieces, cs, hsplit, hstep⟩ := exists_splitOn_outPath (p.dir layout.buildDir layout.ns) m
      have hsteps := hout.steps_eq
      rw [Package.outPath_unit, Path.steps, hsplit, List.filter_append, List.filter_cons_of_pos hstep,
        ← List.append_assoc] at hsteps
      exact ⟨cs, (List.cons.inj (List.append_inj' hsteps rfl).2).1.symm⟩
    · cases hu
  obtain ⟨cs, rfl⟩ := hgo
  rw [hplace, down_append]
  intro hhead
  have hname : f.toList = cs ++ ['.', 'g', 'o'] := by
    rw [← Option.some.inj hhead, String.toList_ofList]
  have hlast : f.toList.getLast? = some 'o' := by
    rw [hname, List.getLast?_append]
    rfl
  have hother : ∀ f ∈ manifestFiles, f.toList.getLast? ≠ some 'o' := by decide
  exact hother f hf hlast

/-- The build directory at `b` has nothing to do with what a run looks at to find manifests, sources and dumps; the
Go files are not in each other's way nor in that of a directory; and no dump is newer than the time at which files
are written. -/
structure RunSettings.IsClean (s : RunSettings) (t : FileTree) (b : Location) (packages : List Package) :
    Prop where
  manifest_outside : ∀ k ∈ t.trailOf s.manifestPath, ¬ StrictlyBelow b k
  depsDir_outside : ∀ k ∈ t.trailOf s.depsDir, ¬ StrictlyBelow b k
  deps_outside : ∀ d, t.locate s.depsDir = .ok d → ¬ b <:+ d
  packages_outside : ∀ p ∈ packages, p.ReadsOutside t s.layout b
  apart : (packages.flatMap fun p => unitsAt s.layout (p, t)).Pairwise fun u v =>
    ¬ u.outPath.steps <+: v.outPath.steps ∧ ¬ v.outPath.steps <+: u.outPath.steps
  isDir_eq : ∀ u ∈ packages.flatMap fun p => unitsAt s.layout (p, t), t.isDir u.outPath = false
  dump_le : ∀ u ∈ packages.flatMap fun p => unitsAt s.layout (p, t), t.isFile u.dumpPath →
    ∀ time ∈ t.modified? u.dumpPath, time ≤ t.clock

section

variable {s : RunSettings} {t : FileTree} {b : Location} {packages : List Package}
  (h : s.IsClean t b packages)
  (hdown : ∀ u ∈ packages.flatMap fun p => unitsAt s.layout (p, t), u.LeadsDown s.layout.buildDir)

include h hdown

theorem RunSettings.IsClean.isReady (ht : t.HasRoot s.layout.buildDir b) :
    ∀ u ∈ packages.flatMap fun p => unitsAt s.layout (p, t), u.IsReady s.layout.buildDir b t := by
  intro u hu
  obtain ⟨ss, name, hout, hplace⟩ := (hdown u hu).exists_goesOn b
  refine ⟨hdown u hu, ?_, ?_, h.dump_le u hu⟩
  · obtain ⟨p, hp, hup⟩ := List.mem_flatMap.mp hu
    unfold unitsAt at hup
    split at hup
    · next us hus => exact (h.packages_outside p hp).unit_readsOutside hus hup
    · cases hup
  · rw [hplace, ← hout.isDir_eq ht]
    exact h.isDir_eq u hu

theorem RunSettings.IsClean.apart_place :
    (packages.flatMap fun p => unitsAt s.layout (p, t)).Pairwise fun u v =>
      Apart (u.place s.layout.buildDir b) (v.place s.layout.buildDir b) := by
  refine h.apart.imp_of_mem fun {u v} hu hv hapart => ⟨fun huv => hapart.1 ?_, fun hvu => hapart.2 ?_⟩
  · exact (hdown u hu).prefix_of_place_suffix (hdown v hv) huv
  · exact (hdown v hv).prefix_of_place_suffix (hdown u hu) hvu

/-- The manifests of dependencies are no Go files, nor in the place of one. -/
theorem RunSettings.IsClean.not_place_suffix {d : Location} (hd : t.locate s.depsDir = .ok d) {f : String}
    (hf : f ∈ Package.manifestFiles) (name : String) :
    ∀ u ∈ packages.flatMap fun p => unitsAt s.layout (p, t),
      ¬ u.place s.layout.buildDir b <:+ f :: name :: d := by
  intro u hu hsuffix
  rcases List.suffix_cons_iff.mp hsuffix with heq | hsuffix
  · obtain ⟨p, -, hup⟩ := List.mem_flatMap.mp hu
    refine Package.head?_place_ne hup (hdown u hu) b hf ?_
    rw [heq]
    rfl
  · -- A Go file is below the build directory, so the dependency directory would be there.
    obtain ⟨hb, hne⟩ := (hdown u hu).strictlyBelow b
    refine h.deps_outside d hd (strictlyBelow_cons.mp ⟨hb.trans hsuffix, ?_⟩)
    rintro rfl
    exact hne (hsuffix.eq_of_length_le hb.length_le)

end

/-- The working directory `w` of a project with two modules, the source of one in the directory that is the source of
the other.  The dump of the first is cut off, but there is a newer Go file for it in the build directory. -/
def detourTree : FileTree where
  entries := [
    (["w"], .dir 1), (["bower.json", "w"], .ofText "\x7b\"name\": \"app\"\x7d" 1), (["deps", "w"], .dir 1),
    (["src", "w"], .dir 1), (["A.purs", "src", "w"], .dir 1), (["B.purs", "A.purs", "src", "w"], .ofText "" 1),
    (["output", "w"], .dir 1), (["A", "output", "w"], .dir 1),
    (["goemit-ir.json", "A", "output", "w"], .ofText "\x7b" 1),
    (["A.purs.B", "output", "w"], .dir 1),
    (["goemit-ir.json", "A.purs.B", "output", "w"], .ofText "\x7b\x7d" 1),
    (["build", "w"], .dir 1), (["app", "build", "w"], .dir 1), (["A", "app", "build", "w"], .dir 1),
    (["A.go", "A", "app", "build", "w"], .ofText "package old" 2)]
  workingDir := ["w"]
  clock := 3

/-- The package of that project. -/
def detourPackage : Package where
  name := "app"
  srcDir := ⟨"src"⟩
  manifestPath := ⟨"bower.json"⟩
  manifest := some { name := "app", version := none, dependencies := [], devDependencies := [] }
  isDependency := false

/-- The units of that package. -/
def detourUnits (ns : String) : List SourceUnit :=
  ["A", "A.purs.B"].map (detourPackage.unit (relayRun ns).layout)

theorem isFileSystem_detourTree : detourTree.IsFileSystem :=
  ⟨wellFormed_of_entries (by decide +kernel), by decide, by decide, by decide⟩

theorem makeDir_detourTree : makeDir detourTree ⟨"build"⟩ = (detourTree, .ok ()) := by rfl

theorem loadPackages_detourTree (ns : String) :
    loadPackages detourTree (relayRun ns) = .ok [detourPackage] :=
  show loadPackages detourTree (relayRun "") = _ by decide +kernel

/-- The units are the same in a tree with the same sources. -/
theorem units_detourPackage {t : FileTree} (hdir : t.isDir ⟨"src"⟩)
    (hsources : Glob.expand? t "src/**/*.purs" = some [⟨"src/A.purs"⟩, ⟨"src/A.purs/B.purs"⟩]) (ns : String) :
    detourPackage.units t (relayRun ns).layout = .ok (detourUnits ns) :=
  Package.units_of_sources hdir hsources (by decide +kernel) (by decide) _

theorem units_detourTree (ns : String) :
    detourPackage.units detourTree (relayRun ns).layout = .ok (detourUnits ns) :=
  units_detourPackage (by decide +kernel) (by decide +kernel) ns

theorem unitsAt_detourTree (ns : String) :
    ([detourPackage].flatMap fun p => unitsAt (relayRun ns).layout (p, detourTree)) = detourUnits ns := by
  rw [List.flatMap_cons, List.flatMap_nil, List.append_nil, unitsAt, units_detourTree]

theorem isClean_detourTree {ns : String} (o o' : List String)
    (hout : (detourUnits ns).map (fun u => u.outPath.steps) = [o.map String.toList, o'.map String.toList])
    (hapart : ¬ o.map String.toList <+: o'.map String.toList ∧ ¬ o'.map String.toList <+: o.map String.toList)
    (hdir : ∀ u ∈ detourUnits ns, detourTree.isDir u.outPath = false) :
    (relayRun ns).IsClean detourTree ["build", "w"] [detourPackage] := by
  have hmanifest : ∀ k ∈ detourTree.trailOf ⟨"bower.json"⟩, ¬ StrictlyBelow ["build", "w"] k := by decide +kernel
  have hdeps : ∀ k ∈ detourTree.trailOf ⟨"deps"⟩, ¬ StrictlyBelow ["build", "w"] k := by decide +kernel
  have hlocate : detourTree.locate ⟨"deps"⟩ = .ok ["deps", "w"] := by decide +kernel
  refine ⟨hmanifest, hdeps, fun d hd => ?_, ?_, ?_, ?_, ?_⟩
  · cases hlocate.symm.trans hd
    decide
  · have hsources : ∀ k ∈ (detourTree.trailOf detourPackage.srcDir).map Glob.Look.entry ++
        if detourTree.isDir detourPackage.srcDir then
          Glob.looksOf detourTree detourPackage.sourcePattern.text else [],
        k.avoids ["build", "w"] := by decide +kernel
    have hdumps : ∀ m ∈ ["A", "A.purs.B"], ∀ k ∈ (detourTree.trailOf (dumpPath ⟨"output"⟩ m)).map Glob.Look.entry,
        k.avoids ["build", "w"] := by decide +kernel
    rw [List.forall_mem_singleton, Package.ReadsOutside, Package.looks, units_detourTree]
    intro k hk
    rcases List.mem_append.mp hk with hk | hk
    · exact hsources k hk
    · obtain ⟨u, hu, hk⟩ := List.mem_flatMap.mp hk
      obtain ⟨m, hm, rfl⟩ := List.mem_map.mp hu
      exact hdumps m hm k hk
  · have hpair : ((detourUnits ns).map fun u => u.outPath.steps).Pairwise fun o o' =>
        ¬ o <+: o' ∧ ¬ o' <+: o := by
      rw [hout]
      exact List.pairwise_pair.mpr hapart
    rw [unitsAt_detourTree]
    exact List.pairwise_map.mp hpair
  · rw [unitsAt_detourTree]
    exact hdir
  · rw [unitsAt_detourTree]
    have hdumps : ∀ m ∈ ["A", "A.purs.B"], ∀ time ∈ detourTree.modified? (dumpPath ⟨"output"⟩ m),
        time ≤ detourTree.clock := by decide +kernel
    intro u hu _
    obtain ⟨m, hm, rfl⟩ := List.mem_map.mp hu
    exact hdumps m hm

theorem run_detour {ns : String} {t : FileTree} (hmake : makeDir t ⟨"build"⟩ = (t, .ok ()))
    (hdeps : t.isDir ⟨"deps"⟩) (hsrc : t.isDir ⟨"src"⟩) (hload : loadPackages t (relayRun ns) = .ok [detourPackage])
    (hunits : detourPackage.units t (relayRun ns).layout = .ok (detourUnits ns)) :
    (relayRun ns).run t =
      (treeAfter {} false t (detourUnits ns), .ok (RunReport.merge {}
        (.addAll {} "app" (detourUnits ns) (resultsOf {} false t (detourUnits ns))))) := by
  obtain ⟨htree, hreport⟩ := detourPackage.turn_eq t (relayRun ns)
  rw [unitsAt, hunits] at htree
  rw [hunits] at hreport
  have haborted (q : PackageReport) : (RunReport.merge {} q).aborted = [] := rfl
  refine RunSettings.run_eq_ok_iff.mpr ⟨t, _, hmake, hdeps, hsrc, hload, ?_⟩
  rw [show (relayRun ns).failFast = false from rfl, runPackages_cons rfl, htree, hreport, runPackages,
    haborted, List.mergeSort_nil]
  rfl

end GoScribe
