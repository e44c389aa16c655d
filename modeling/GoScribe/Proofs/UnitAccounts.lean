import GoScribe.Proofs.PackageOrder
import GoScribe.Proofs.RunStages
import GoScribe.Proofs.TreeGrowth

/-!
# Every unit is accounted for

A package takes its units in order until it is stopped.  What becomes of them is told here without the loop:
`resultsOf` and `treeAfter` are the turns of all units if nothing stops them, and `StopSignal.turns` says how many
of these turns there are.  The loop is these turns and no more (`Progress.run_eq`), so a report counts every unit
once.  Main statement: `units_accounted`.
-/

namespace GoScribe

open FileTree

/-! ## Turns that nothing stops -/

section

variable (options : Options) (force : Bool)

/-- The tree after the turns of units, one after the other. -/
def treeAfter (t : FileTree) : List SourceUnit → FileTree
  | [] => t
  | u :: us => treeAfter (u.regenerate t options force).1 us

/-- What becomes of units whose turns come one after the other. -/
def resultsOf (t : FileTree) : List SourceUnit → List (Except Failure Outcome)
  | [] => []
  | u :: us => (u.regenerate t options force).2 :: resultsOf (u.regenerate t options force).1 us

theorem length_resultsOf (t : FileTree) (us : List SourceUnit) :
    (resultsOf options force t us).length = us.length := by
  induction us generalizing t with
  | nil => rfl
  | cons u us ih => rw [resultsOf, List.length_cons, List.length_cons, ih]

/-- What becomes of the first units does not depend on those behind them. -/
theorem take_resultsOf (t : FileTree) (us : List SourceUnit) (n : Nat) :
    (resultsOf options force t us).take n = resultsOf options force t (us.take n) := by
  induction us generalizing t n with
  | nil => rw [resultsOf, List.take_nil, List.take_nil, resultsOf]
  | cons u us ih =>
    cases n with
    | zero => rfl
    | succ n => rw [resultsOf, List.take_succ_cons, List.take_succ_cons, resultsOf, ih]

/-- The file that changes in the turn of a unit is where the path of the unit leads: new directories change no
file. -/
theorem extends_regenerate {t : FileTree} (ht : t.WellFormed) (hworking : t.isDirAt t.workingDir)
    (u : SourceUnit) :
    Extends t (u.regenerate t options force).1 ∧
      ∀ l, (u.regenerate t options force).1.fileAt? l ≠ t.fileAt? l →
        (u.regenerate t options force).1.locate u.outPath = .ok l := by
  rcases u.fst_regenerate t options force with heq | ⟨source, heq⟩
  · rw [heq]
    exact ⟨.refl ht, fun l hl => absurd rfl hl⟩
  · rw [heq]
    refine install_induction (P := fun t' => Extends t t' ∧ ∀ l, t'.fileAt? l ≠ t.fileAt? l →
      t'.locate u.outPath = .ok l) ht hworking u.outPath source ⟨.refl ht, fun l hl => absurd rfl hl⟩ ?_ ?_
    · rintro t' k - hk ⟨hextends, hfiles⟩
      have hnext := (Extends.refl hextends.wellFormed).ensureDir hk
      refine ⟨hextends.ensureDir hk, fun l hl => ?_⟩
      rw [fileAt?_ensureDir hk] at hl
      exact hnext.locate (hfiles l hl)
    · rintro t' k hlocate htail hk ⟨hextends, hfiles⟩
      have hne : k ≠ [] := by
        rintro rfl
        cases hk
      have hnext := (Extends.refl hextends.wellFormed).writeAt hne htail hk source.toUTF8
      refine ⟨hextends.writeAt hne htail hk _, fun l hl => ?_⟩
      by_cases hlk : l = k
      · rw [hlk]
        exact hnext.locate hlocate
      · rw [fileAt?_writeAt hne htail hlk] at hl
        exact hnext.locate (hfiles l hl)

/-- And so are the files that change in the turns of many units. -/
theorem extends_treeAfter {t : FileTree} (ht : t.WellFormed) (hworking : t.isDirAt t.workingDir)
    (us : List SourceUnit) :
    Extends t (treeAfter options force t us) ∧
      ∀ l, (treeAfter options force t us).fileAt? l ≠ t.fileAt? l →
        ∃ u ∈ us, (treeAfter options force t us).locate u.outPath = .ok l := by
  induction us generalizing t with
  | nil => exact ⟨.refl ht, fun l hl => absurd rfl hl⟩
  | cons u us ih =>
    obtain ⟨hextends, hfiles⟩ := extends_regenerate options force ht hworking u
    obtain ⟨hlater, hlaterFiles⟩ := ih hextends.wellFormed (hextends.isDirAt_workingDir hworking)
    rw [treeAfter]
    refine ⟨hextends.trans hlater, fun l hl => ?_⟩
    by_cases hsame : (u.regenerate t options force).1.fileAt? l = t.fileAt? l
    · rw [← hsame] at hl
      obtain ⟨v, hv, hlocate⟩ := hlaterFiles l hl
      exact ⟨v, List.mem_cons_of_mem _ hv, hlocate⟩
    · exact ⟨u, List.mem_cons_self, hlater.locate (hfiles l hsame)⟩

end

/-! ## How many turns there are -/

/-- The unit failed. -/
def isFailure : Except Failure Outcome → Bool
  | .ok _ => false
  | .error _ => true

/-- How many units have their turns if the first one that fails is the last. -/
def turnsToFailure (results : List (Except Failure Outcome)) : Nat :=
  match results.findIdx? isFailure with
  | some k => k + 1
  | none => results.length

namespace StopSignal

/-- The signal after the turn of a unit. -/
def after (s : StopSignal) : Except Failure Outcome → StopSignal
  | .ok _ => s
  | .error _ => s.unitFailed

/-- How many units have their turns, given what becomes of them if nothing stops them. -/
def turns (s : StopSignal) (results : List (Except Failure Outcome)) : Nat :=
  if s.raised then 0 else if s.onFailure then turnsToFailure results else results.length

end StopSignal

theorem turnsToFailure_cons (r : Except Failure Outcome) (rs : List (Except Failure Outcome)) :
    turnsToFailure (r :: rs) = if isFailure r then 1 else turnsToFailure rs + 1 := by
  rw [turnsToFailure, turnsToFailure, List.findIdx?_cons]
  cases isFailure r with
  | true => rfl
  | false => cases rs.findIdx? isFailure <;> rfl

/-- Of the units that have their turns then, at most one fails. -/
theorem countP_take_turnsToFailure (rs : List (Except Failure Outcome)) :
    (rs.take (turnsToFailure rs)).countP isFailure = if rs.any isFailure then 1 else 0 := by
  induction rs with
  | nil => rfl
  | cons r rs ih =>
    rw [turnsToFailure_cons]
    cases hr : isFailure r with
    | true => simp [hr]
    | false => simp [hr, ih]

namespace StopSignal

theorem turns_of_raised {s : StopSignal} (hs : s.raised = true) (results : List (Except Failure Outcome)) :
    s.turns results = 0 := by
  rw [turns, if_pos hs]

theorem turns_cons {s : StopSignal} (hs : s.raised = false) (r : Except Failure Outcome)
    (rs : List (Except Failure Outcome)) : s.turns (r :: rs) = (s.after r).turns rs + 1 := by
  obtain ⟨raised, onFailure⟩ := s
  subst hs
  cases onFailure <;> cases r <;>
    simp [turns, after, unitFailed, turnsToFailure_cons, isFailure]

theorem turns_le_length (s : StopSignal) (rs : List (Except Failure Outcome)) : s.turns rs ≤ rs.length := by
  induction rs generalizing s with
  | nil =>
    obtain ⟨raised, onFailure⟩ := s
    cases raised <;> cases onFailure <;> exact Nat.le_refl 0
  | cons r rs ih =>
    cases hs : s.raised with
    | true => rw [turns_of_raised hs]; exact Nat.zero_le _
    | false => rw [turns_cons hs]; exact Nat.succ_le_succ (ih _)

/-- The signal is raised if it was raised before, or if failures raise it and there was one. -/
theorem foldl_after (s : StopSignal) (rs : List (Except Failure Outcome)) :
    rs.foldl after s = { s with raised := s.raised || (s.onFailure && rs.any isFailure) } := by
  induction rs generalizing s with
  | nil => simp
  | cons r rs ih =>
    rw [List.foldl_cons, ih]
    obtain ⟨raised, onFailure⟩ := s
    cases r <;> cases raised <;> cases onFailure <;> simp [after, unitFailed, isFailure]

end StopSignal

/-! ## The report of the turns -/

namespace PackageReport

/-- A report with the results of more units in it. -/
def addAll (r : PackageReport) (package : String) (us : List SourceUnit)
    (results : List (Except Failure Outcome)) : PackageReport :=
  (us.zip results).foldl (fun r x => r.add package x.1 x.2) r

/-- The number of units that a report tells of. -/
def size (r : PackageReport) : Nat :=
  r.written.length + r.upToDate + r.withoutDump + r.failures.length + r.cancelled

@[simp] theorem cancelled_add (r : PackageReport) (package : String) (u : SourceUnit)
    (result : Except Failure Outcome) : (r.add package u result).cancelled = r.cancelled := by
  unfold add
  split <;> rfl

/-- Every result is counted in one place. -/
theorem size_add (r : PackageReport) (package : String) (u : SourceUnit)
    (result : Except Failure Outcome) : (r.add package u result).size = r.size + 1 := by
  unfold add
  split <;> simp only [size, List.length_append, List.length_singleton] <;> omega

theorem addAll_cons (r : PackageReport) (package : String) (u : SourceUnit) (us : List SourceUnit)
    (result : Except Failure Outcome) (results : List (Except Failure Outcome)) :
    r.addAll package (u :: us) (result :: results) = (r.add package u result).addAll package us results :=
  rfl

theorem size_addAll (r : PackageReport) (package : String) (us : List SourceUnit)
    {results : List (Except Failure Outcome)} (h : results.length = us.length) :
    (r.addAll package us results).size = r.size + us.length := by
  induction us generalizing r results with
  | nil => rfl
  | cons u us ih =>
    cases results with
    | nil => cases h
    | cons result results =>
      have hrest : results.length = us.length := Nat.succ.inj h
      rw [addAll_cons, ih _ hrest, size_add, List.length_cons]
      omega

/-- The failures of a report are the results that are failures. -/
theorem length_failures_addAll (r : PackageReport) (package : String) (us : List SourceUnit)
    {results : List (Except Failure Outcome)} (h : results.length = us.length) :
    (r.addAll package us results).failures.length = r.failures.length + results.countP isFailure := by
  induction us generalizing r results with
  | nil =>
    rw [List.length_eq_zero_iff.mp h]
    rfl
  | cons u us ih =>
    cases results with
    | nil => cases h
    | cons result results =>
      have hrest : results.length = us.length := Nat.succ.inj h
      have hadd : (r.add package u result).failures.length =
          r.failures.length + if isFailure result then 1 else 0 := by
        unfold add isFailure
        split <;> simp
      rw [addAll_cons, ih _ hrest, hadd, List.countP_cons]
      omega

end PackageReport

/-! ## The loop -/

/-- The loop over the units of a package is the turns that the signal lets happen; the units behind them are
cancelled. -/
theorem Progress.run_eq {s : Progress} (hs : s.report.cancelled = 0) (package : String)
    (options : Options) (force : Bool) (us : List SourceUnit) {rs : List (Except Failure Outcome)}
    (hrs : rs = resultsOf options force s.tree us) {n : Nat} (hn : n = s.stop.turns rs) :
    s.run package options force us =
      { tree := treeAfter options force s.tree (us.take n)
        stop := (rs.take n).foldl StopSignal.after s.stop
        report :=
          { s.report.addAll package (us.take n) (rs.take n) with cancelled := us.length - n } } := by
  induction us generalizing s rs n with
  | nil =>
    obtain ⟨tree, stop, written, upToDate, withoutDump, failures, cancelled⟩ := s
    cases hs
    simp [Progress.run, treeAfter, PackageReport.addAll, hrs, resultsOf]
  | cons u us ih =>
    rw [resultsOf] at hrs
    cases hraised : s.stop.raised with
    | true =>
      rw [StopSignal.turns_of_raised hraised] at hn
      rw [Progress.run, if_pos hraised, hn]
      rfl
    | false =>
      -- One turn, and then those that the signal lets happen after it.
      rw [hrs, StopSignal.turns_cons hraised] at hn
      have hstep : (s.step package options force u).report.cancelled = 0 := by
        rw [Progress.step, PackageReport.cancelled_add, hs]
      have hstop : (s.step package options force u).stop =
          s.stop.after (u.regenerate s.tree options force).2 := by
        simp only [Progress.step]
        cases (u.regenerate s.tree options force).2 <;> rfl
      rw [Progress.run, hraised, if_neg Bool.false_ne_true, ih hstep rfl rfl, hrs, hn, hstop]
      simp only [List.take_succ_cons, List.length_cons, Nat.add_sub_add_right, List.foldl_cons]
      rfl

namespace Package

/-- The units of a package are sorted by the names of their modules. -/
theorem pairwise_units {p : Package} {t : FileTree} {layout : Layout} {us : List SourceUnit}
    (h : p.units t layout = .ok us) : us.Pairwise fun u v => u.moduleName ≤ v.moduleName := by
  unfold units at h
  split at h
  · split at h
    · cases h
    · cases h
      exact pairwise_mergeSort_on SourceUnit.moduleName _
  · cases h
    exact .nil

/-- The units of a package in the order of its sources, if that is the order of the modules' names. -/
theorem units_of_sources {p : Package} {t : FileTree} (hdir : t.isDir p.srcDir) {sources : List Path}
    (hsources : Glob.expand? t p.sourcePattern.text = some sources) {names : List String}
    (hnames : sources.filterMap p.moduleNameOf? = names) (hsorted : names.Pairwise (· ≤ ·)) (layout : Layout) :
    p.units t layout = .ok (names.map (p.unit layout)) := by
  have hunits : (names.map (p.unit layout)).Pairwise fun u v => u.moduleName ≤ v.moduleName :=
    List.pairwise_map.mpr hsorted
  simp only [units, if_pos hdir, hsources, hnames]
  rw [List.mergeSort_of_pairwise (hunits.imp fun hle => decide_eq_true hle)]

/-- A package's turn is that of the units which the signal lets have theirs. -/
theorem regenerate_eq_ok {p : Package} {t t' : FileTree} {layout : Layout} {options : Options}
    {stop stop' : StopSignal} {r : PackageReport}
    (h : p.regenerate t layout options stop = (t', stop', .ok r)) :
    ∃ us rs n, p.units t layout = .ok us ∧ rs = resultsOf options layout.force t us ∧ n = stop.turns rs ∧
      t' = treeAfter options layout.force t (us.take n) ∧ stop' = (rs.take n).foldl StopSignal.after stop ∧
      r = { PackageReport.addAll {} p.name (us.take n) (rs.take n) with cancelled := us.length - n } := by
  unfold regenerate at h
  split at h
  · cases h
  · next us hus =>
    rw [Progress.run_eq rfl p.name options layout.force us rfl rfl] at h
    cases h
    exact ⟨us, _, _, hus, rfl, rfl, rfl, rfl, rfl⟩

end Package

/-! ## The report of a package -/

/-- A report that tells all of the units `us` of a package, whose turns lead from the tree `t` and the signal
`stop` to `t'` and `stop'`. -/
structure PackageReport.AccountsFor (r : PackageReport) (package : String) (options : Options)
    (force : Bool) (us : List SourceUnit) (t t' : FileTree) (stop stop' : StopSignal) : Prop where
  /-- Every unit is in one place of the report. -/
  size_eq : r.written.length + r.upToDate + r.withoutDump + r.failures.length + r.cancelled = us.length
  /-- When the signal is up at the start no unit has a turn. -/
  of_raised : stop.raised = true → r = { cancelled := us.length } ∧ t' = t ∧ stop' = stop
  /-- When a failure raises the signal, the units up to the first that fails have their turns, and those behind it
  are left alone. -/
  of_onFailure : stop.raised = false → stop.onFailure = true → ∃ done rest, us = done ++ rest ∧
    done.length = turnsToFailure (resultsOf options force t us) ∧
    r = { addAll {} package done (resultsOf options force t done) with cancelled := rest.length } ∧
    r.failures.length ≤ 1 ∧ (stop'.raised = true ↔ r.failures ≠ []) ∧
    t' = treeAfter options force t done ∧
    (t.WellFormed → t.isDirAt t.workingDir →
      ∀ l, t'.fileAt? l ≠ t.fileAt? l → ∃ u ∈ done, t'.locate u.outPath = .ok l)
  /-- Otherwise all units have their turns. -/
  of_not_onFailure : stop.raised = false → stop.onFailure = false →
    r = addAll {} package us (resultsOf options force t us) ∧ r.cancelled = 0 ∧
    t' = treeAfter options force t us ∧ stop' = stop

theorem PackageReport.cancelled_addAll (r : PackageReport) (package : String) (us : List SourceUnit)
    (results : List (Except Failure Outcome)) : (r.addAll package us results).cancelled = r.cancelled := by
  unfold addAll
  induction us.zip results generalizing r with
  | nil => rfl
  | cons x xs ih => rw [List.foldl_cons, ih, cancelled_add]

namespace Package

/-- A report tells all of the units of its package. -/
theorem accountsFor_regenerate {p : Package} {t t' : FileTree} {layout : Layout} {options : Options}
    {stop stop' : StopSignal} {r : PackageReport}
    (h : p.regenerate t layout options stop = (t', stop', .ok r)) :
    ∃ us, p.units t layout = .ok us ∧
      r.AccountsFor p.name options layout.force us t t' stop stop' := by
  obtain ⟨us, rs, n, hus, hrs, hn, ht', hstop', hr⟩ := regenerate_eq_ok h
  have hlength : rs.length = us.length := by rw [hrs, length_resultsOf]
  have hle : n ≤ us.length := by
    rw [← hlength, hn]
    exact stop.turns_le_length rs
  have htaken : (rs.take n).length = (us.take n).length := by
    rw [List.length_take, List.length_take, hlength]
  refine ⟨us, hus, ?_, fun hraised => ?_, fun hraised hon => ?_, fun hraised hoff => ?_⟩
  · -- The turns are counted by `size_addAll`, the rest is cancelled.
    have hsize := PackageReport.size_addAll {} p.name (us.take n) htaken
    rw [PackageReport.size, PackageReport.cancelled_addAll, List.length_take] at hsize
    simp only [PackageReport.size, List.length_nil, hr] at hsize ⊢
    omega
  · rw [StopSignal.turns_of_raised hraised] at hn
    subst hn
    exact ⟨hr, ht', hstop'⟩
  · -- The first failure is the last turn, and the only failure among the turns.
    have hturns : n = turnsToFailure rs := by
      rw [hn, StopSignal.turns, hraised, hon]
      rfl
    have hfailures : r.failures.length = (rs.take n).countP isFailure := by
      rw [hr]
      exact (PackageReport.length_failures_addAll {} p.name (us.take n) htaken).trans (Nat.zero_add _)
    have hone : r.failures.length = if rs.any isFailure then 1 else 0 := by
      rw [hfailures, hturns, countP_take_turnsToFailure]
    refine ⟨us.take n, us.drop n, (List.take_append_drop n us).symm, ?_, ?_, ?_, ?_, ht', ?_⟩
    · rw [List.length_take_of_le hle, hturns, hrs]
    · rw [hr, hrs, take_resultsOf, List.length_drop]
    · rw [hone]
      split <;> decide
    · rw [hstop', StopSignal.foldl_after, hraised, hon, Bool.false_or, Bool.true_and, ← List.length_pos_iff,
        hfailures, List.countP_pos_iff, List.any_eq_true]
    · intro hwf hworking
      rw [ht']
      exact (extends_treeAfter options layout.force hwf hworking (us.take n)).2
  · have hall : n = us.length := by
      rw [hn, StopSignal.turns, hraised, hoff, ← hlength]
      rfl
    rw [hall, List.take_length, ← hlength, List.take_length, hrs] at hr
    rw [hall, List.take_length] at ht'
    refine ⟨?_, ?_, ht', ?_⟩
    · rw [hr, length_resultsOf, Nat.sub_self]
      exact congrArg (PackageReport.mk _ _ _ _) (PackageReport.cancelled_addAll {} _ _ _).symm
    · rw [hr, length_resultsOf, Nat.sub_self]
    · rw [hstop', StopSignal.foldl_after]
      obtain ⟨raised, onFailure⟩ := stop
      cases hraised
      cases hoff
      rfl

end Package

/-! ## The report of a run -/

/-- The packages of a run that does not stop at failures, each with the tree that its turn begins in. -/
def packageTurns (s : RunSettings) (t : FileTree) : List Package → List (Package × FileTree)
  | [] => []
  | p :: ps => (p, t) :: packageTurns s (p.regenerate t s.layout s.options {}).1 ps

/-- The units of a package in a tree, none if they cannot be told. -/
def unitsAt (layout : Layout) (turn : Package × FileTree) : List SourceUnit :=
  match turn.1.units turn.2 layout with
  | .ok us => us
  | .error _ => []

/-- The units of a package in a tree cannot be told. -/
def isUnlisted (layout : Layout) (turn : Package × FileTree) : Bool :=
  match turn.1.units turn.2 layout with
  | .ok _ => false
  | .error _ => true

/-- The number of units, and of packages with untold units, that a report tells of. -/
def RunReport.size (r : RunReport) : Nat :=
  r.written.length + r.upToDate + r.withoutDump + r.failures.length + r.cancelled

theorem RunReport.size_merge (r : RunReport) (p : PackageReport) :
    (r.merge p).size = r.size + p.size := by
  simp only [size, PackageReport.size, merge, List.length_append]
  omega

/-- A package counts for its units, or for one if they cannot be told. -/
theorem Package.size_report (p : Package) (t : FileTree) (s : RunSettings) :
    (p.report t s).size =
      (unitsAt s.layout (p, t)).length + if isUnlisted s.layout (p, t) then 1 else 0 := by
  rw [Package.report]
  split
  · next r hr =>
    obtain ⟨us, hus, hr⟩ := accountsFor_regenerate
      (show p.regenerate t s.layout s.options {} = (_, _, .ok r) by rw [← hr])
    simp only [unitsAt, isUnlisted, hus]
    exact hr.size_eq
  · next e he =>
    have hunits : p.units t s.layout = .error e := by
      unfold Package.regenerate at he
      split at he
      · next hunits =>
        cases he
        exact hunits
      · cases he
    simp only [unitsAt, isUnlisted, hunits]
    rfl

theorem size_runPackages {s : RunSettings} (hfast : s.failFast = false) (t : FileTree)
    (report : RunReport) (ps : List Package) :
    (runPackages t s {} report ps).2.size =
      report.size + ((packageTurns s t ps).flatMap (unitsAt s.layout)).length +
        ((packageTurns s t ps).filter (isUnlisted s.layout)).length := by
  induction ps generalizing t report with
  | nil => rfl
  | cons p ps ih =>
    rw [runPackages_cons hfast, ih, RunReport.size_merge, Package.size_report, packageTurns,
      List.flatMap_cons, List.length_append, List.filter_cons]
    split
    · rw [List.length_cons]
      omega
    · omega

/-- The working directory `w` with a project whose one dependency has a directory that is no pattern, and the
directory `s` with three sources, one in the other.  The dump of the second is cut off. -/
def ledgerTree : FileTree where
  entries := [
    (["w"], .dir 1), (["bower.json", "w"], .ofText "\x7b\"name\": \"app\"\x7d" 1),
    (["src", "w"], .dir 1), (["M.purs", "src", "w"], .ofText "" 1),
    (["deps", "w"], .dir 1), (["x***", "deps", "w"], .dir 1),
    (["bower.json", "x***", "deps", "w"], .ofText "\x7b\x7d" 1), (["src", "x***", "deps", "w"], .dir 1),
    (["s", "w"], .dir 1), (["A.purs", "s", "w"], .dir 1), (["B.purs", "A.purs", "s", "w"], .dir 1),
    (["C.purs", "B.purs", "A.purs", "s", "w"], .ofText "" 1),
    (["output", "w"], .dir 1), (["M", "output", "w"], .dir 1),
    (["goemit-ir.json", "M", "output", "w"], .ofText "\x7b\x7d" 1),
    (["A", "output", "w"], .dir 1), (["goemit-ir.json", "A", "output", "w"], .ofText "\x7b\x7d" 1),
    (["A.purs.B", "output", "w"], .dir 1),
    (["goemit-ir.json", "A.purs.B", "output", "w"], .ofText "\x7b" 1),
    (["A.purs.B.purs.C", "output", "w"], .dir 1),
    (["goemit-ir.json", "A.purs.B.purs.C", "output", "w"], .ofText "\x7b\x7d" 1)]
  workingDir := ["w"]
  clock := 3

theorem units_ledgerTree :
    (relayPackage "p" "s").units ledgerTree (relayRun "").layout =
      .ok (["A", "A.purs.B", "A.purs.B.purs.C"].map ((relayPackage "p" "s").unit (relayRun "").layout)) := by
  have hsources : Glob.expand? ledgerTree (relayPackage "p" "s").sourcePattern.text =
      some [⟨"s/A.purs"⟩, ⟨"s/A.purs/B.purs"⟩, ⟨"s/A.purs/B.purs/C.purs"⟩] := by decide +kernel
  exact Package.units_of_sources (by decide +kernel) hsources (by decide +kernel) (by decide) _

end GoScribe
