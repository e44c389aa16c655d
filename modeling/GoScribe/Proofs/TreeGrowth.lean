import GoScribe.Proofs.TreeRegions

/-!
# How a file tree grows

Nothing that the program does to a file tree takes a directory away.  It makes directories that are missing on
a path, each in one that is there, and it writes a file where a path leads.  `makeDirs_induction` and
`install_induction` say so for a path of any kind, also one that goes up again or is blocked half way: what the
single changes keep is kept by the whole.
-/

namespace GoScribe

namespace FileTree

/-! ## Trees that keep their directories -/

/-- The second tree is well-formed and has all the directories of the first. -/
structure Extends (t t' : FileTree) : Prop where
  wellFormed : t'.WellFormed
  workingDir_eq : t'.workingDir = t.workingDir
  isDirAt_of : ∀ k, t.isDirAt k → t'.isDirAt k

theorem Extends.refl {t : FileTree} (ht : t.WellFormed) : Extends t t := ⟨ht, rfl, fun _ hk => hk⟩

theorem Extends.trans {t t' t'' : FileTree} (h : Extends t t') (h' : Extends t' t'') : Extends t t'' :=
  ⟨h'.wellFormed, h'.workingDir_eq.trans h.workingDir_eq, fun k hk => h'.isDirAt_of k (h.isDirAt_of k hk)⟩

section

variable {t t' : FileTree} (h : Extends t t')

include h

theorem Extends.isDirAt_workingDir (hworking : t.isDirAt t.workingDir) : t'.isDirAt t'.workingDir := by
  rw [h.workingDir_eq]
  exact h.isDirAt_of _ hworking

/-- Where a path has led it leads still. -/
theorem Extends.locate {p : Path} {l : Location} (hl : t.locate p = .ok l) : t'.locate p = .ok l := by
  unfold FileTree.locate at hl ⊢
  split at hl
  · cases hl
  · next hne =>
    rw [if_neg hne, start, h.workingDir_eq, ← start]
    exact walk_of_isDirAt h.isDirAt_of hl

theorem Extends.ensureDir {k : Location} (hk : t'.isDirAt k.tail) : Extends t (t'.ensureDir k) := by
  refine ⟨h.wellFormed.ensureDir hk, (workingDir_ensureDir t' k).trans h.workingDir_eq, fun j hj => ?_⟩
  rw [isDirAt_ensureDir, h.isDirAt_of j hj, Bool.true_or]

theorem Extends.writeAt {l : Location} (hl : l ≠ []) (hdir : t'.isDirAt l.tail)
    (hfile : t'.isDirAt l = false) (content : ByteArray) : Extends t (t'.writeAt l content) := by
  refine ⟨h.wellFormed.writeAt hl hdir hfile content, (workingDir_writeAt content).trans h.workingDir_eq,
    fun j hj => ?_⟩
  rw [isDirAt_writeAt hl hfile]
  exact h.isDirAt_of j hj

end

/-! ## Making directories -/

/-- The locations that segments lead past from `l`, and the one that they lead to. -/
def stops (l : Location) : List (List Char) → List Location
  | [] => [l]
  | s :: ss => l :: stops (stepTo l s) ss

/-- The locations of a path and of the paths above it. -/
def stopsOf (t : FileTree) (p : Path) : List Location := stops (t.start p) (segments p)

/-- A new directory is made as if it were missing. -/
theorem add_dir_eq_ensureDir {t : FileTree} {l : Location} (h : t.get? l = none) :
    t.add l (.dir t.clock) = t.ensureDir l := by
  rw [ensureDir, h]
  rfl

/-- What each new directory keeps is kept by all that are made along segments, whether or not a file is in the
way in the end. -/
theorem makeDirs_induction {P : FileTree → Prop} {ls : List Location}
    (hdir : ∀ t k, k ∈ ls → t.WellFormed → t.isDirAt k.tail → P t → P (t.ensureDir k)) {t : FileTree}
    (ht : t.WellFormed) {l : Location} (hl : t.isDirAt l.tail) {ss : List (List Char)}
    (hls : ∀ k ∈ stops l ss, k ∈ ls) (made : Bool) (hP : P t) : P (t.makeDirs made l ss).1 := by
  induction ss generalizing t l made with
  | nil =>
    rw [makeDirs]
    split
    · next hnone =>
      rw [add_dir_eq_ensureDir hnone]
      exact hdir t l (hls l List.mem_cons_self) ht hl hP
    · exact hP
    · exact hP
  | cons s ss ih =>
    rw [stops, List.forall_mem_cons] at hls
    rw [makeDirs]
    split
    · next hnone =>
      split
      · exact hP
      · -- The directory is made, and the rest of the way goes on from it.
        rw [add_dir_eq_ensureDir hnone]
        have hmade := isDirAt_ensureDir_self (fileAt?_eq_none_of_get? hnone)
        have hwf := ht.ensureDir hl
        exact ih hwf (hwf.isDirAt_tail_stepTo hmade s) hls.2 true (hdir t l hls.1 ht hl hP)
    · exact hP
    · next m hm =>
      exact ih ht (ht.isDirAt_tail_stepTo (isDirAt_iff.mpr ⟨m, hm⟩) s) hls.2 made hP

theorem WellFormed.isDirAt_tail_start {t : FileTree} (ht : t.WellFormed)
    (hworking : t.isDirAt t.workingDir) (p : Path) : t.isDirAt (t.start p).tail := by
  unfold start
  split
  · exact isDirAt_nil t
  · exact ht.isDirAt_tail hworking

theorem makeDir_induction {P : FileTree → Prop} {t : FileTree} (ht : t.WellFormed)
    (hworking : t.isDirAt t.workingDir) (dir : Path) (hP : P t)
    (hdir : ∀ t' k, k ∈ t.stopsOf dir → t'.WellFormed → t'.isDirAt k.tail → P t' → P (t'.ensureDir k)) :
    P (makeDir t dir).1 := by
  have hcreate : P (t.createDirs dir).1 := by
    unfold createDirs
    split
    · exact hP
    · exact makeDirs_induction hdir ht (ht.isDirAt_tail_start hworking dir) (fun _ hk => hk) false hP
  unfold makeDir
  split
  · next hok => rwa [hok] at hcreate
  · next herror => rwa [herror] at hcreate

theorem extends_makeDir {t : FileTree} (ht : t.WellFormed) (hworking : t.isDirAt t.workingDir)
    (dir : Path) : Extends t (makeDir t dir).1 :=
  makeDir_induction ht hworking dir (.refl ht) fun _ _ _ _ hk h => h.ensureDir hk

/-- A directory that was made is there already when it is to be made again. -/
theorem Extends.makeDir_eq {t t₁ t' : FileTree} (h : Extends t₁ t') (ht : t.WellFormed)
    (hworking : t.isDirAt t.workingDir) {dir : Path} (hmake : makeDir t dir = (t₁, .ok ())) :
    makeDir t' dir = (t', .ok ()) := by
  have hcreate : t.createDirs dir = (t₁, .ok ()) := by
    unfold makeDir at hmake
    split at hmake
    · next hcreate =>
      cases hmake
      exact hcreate
    · cases hmake
  have hagain : t'.createDirs dir = (t', .ok ()) := by
    unfold createDirs at hcreate ⊢
    split at hcreate
    · next hempty => rw [if_pos hempty]
    · next hne =>
      obtain ⟨-, hdir, -, k, hwalk, hk⟩ := makeDirs_eq_ok ht (ht.isDirAt_tail_start hworking dir) hcreate
      have hstart : t'.start dir = t.start dir := by
        rw [start, h.workingDir_eq, hdir, ← start]
      have hopen := makeDirs_append (walk_of_isDirAt h.isDirAt_of hwalk) false []
      rw [List.append_nil] at hopen
      rw [if_neg hne, hstart, hopen, makeDirs_nil_of_isDirAt (h.isDirAt_of k hk)]
  rw [makeDir, hagain]

/-! ## Writing files -/

/-- A file that could be written is where its path leads. -/
theorem writeFile_eq_ok {t t' : FileTree} {p : Path} {content : ByteArray}
    (h : t.writeFile p content = .ok t') :
    ∃ l, t.locate p = .ok l ∧ t.isDirAt l.tail ∧ t.isDirAt l = false ∧ t' = t.writeAt l content := by
  unfold writeFile at h
  cases hlocate : t.locate p with
  | error e =>
    rw [hlocate] at h
    cases h
  | ok l =>
    have hpure : t.locate p = pure l := hlocate
    rw [hpure, pure_bind] at h
    refine ⟨l, rfl, ?_⟩
    split at h
    · cases h
    · cases h
    · cases h
    · next found m hparent hnot =>
      have hfile : t.isDirAt l = false := by
        rw [Bool.eq_false_iff, ne_eq, isDirAt_iff]
        rintro ⟨m', hm'⟩
        exact hnot m' hm'
      refine ⟨isDirAt_iff.mpr ⟨m, hparent⟩, hfile, ?_⟩
      split at h
      · cases h
      · unfold writeAt
        split at h
        · next hsome =>
          rw [if_pos hsome]
          exact (Except.ok.inj h).symm
        · next hnone =>
          rw [if_neg hnone]
          exact (Except.ok.inj h).symm

/-- What new directories keep, and then a new file where its path leads, is kept when a file is installed. -/
theorem install_induction {P : FileTree → Prop} {t : FileTree} (ht : t.WellFormed)
    (hworking : t.isDirAt t.workingDir) (p : Path) (source : String) (hP : P t)
    (hdir : ∀ t' k, t'.WellFormed → t'.isDirAt k.tail → P t' → P (t'.ensureDir k))
    (hfile : ∀ t' l, t'.locate p = .ok l → t'.isDirAt l.tail → t'.isDirAt l = false → P t' →
      P (t'.writeAt l source.toUTF8)) :
    P (install t p source).1 := by
  have hparent : P (makeParent t p).1 := by
    unfold makeParent
    split
    · exact hP
    · exact makeDir_induction ht hworking _ hP fun t' k _ => hdir t' k
  unfold install
  split
  · next hmake => rwa [hmake] at hparent
  · next hmake =>
    rw [hmake] at hparent
    split
    · exact hparent
    · next hwrite =>
      obtain ⟨l, hlocate, htail, hl, rfl⟩ := writeFile_eq_ok hwrite
      exact hfile _ l hlocate htail hl hparent

end FileTree

end GoScribe
