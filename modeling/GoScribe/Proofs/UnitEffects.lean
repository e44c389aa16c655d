import GoScribe.Proofs.Discovery

/-!
# What the turn of a unit changes

The turn of a unit has five kinds of end.  Without a dump, with a Go file that is not older than the dump, and with
a dump that gives no source, the file tree stays as it is.  If the directory of the Go file cannot be made or the
file cannot be written, no file changes.  Otherwise the file has the source, all the directories above its path are
there, and no other file changes.

Main statement: `SourceUnit.regenerate_effects`, with the conditions of the first two ends.
-/

namespace GoScribe

open GoScribe.Path

/-! ## The directories above a path -/

/-- `d` is the directory of a path, or of a path above it. -/
inductive Path.IsAncestor (d : Path) : Path → Prop
  | parent {p : Path} (h : p.parent? = some d) : IsAncestor d p
  | above {p e : Path} (h : p.parent? = some e) (h' : IsAncestor d e) : IsAncestor d p

/-- Above a start there is nothing with a text. -/
theorem Path.IsAncestor.text_eq_of_start {d : Path} {start : List Char}
    (h : d.IsAncestor ⟨String.ofList start⟩) (hstart : start = ['/'] ∨ start = ['.'] ∨ start = []) :
    d.text = "" := by
  have hnone {e : Path} (he : e.parent? = none) : ¬ d.IsAncestor e := by
    rintro (⟨h⟩ | ⟨h, -⟩) <;> rw [he] at h <;> cases h
  rcases hstart with rfl | rfl | rfl
  · exact absurd h (hnone rfl)
  · have hdot : (Path.mk (String.ofList ['.'])).parent? = some ⟨""⟩ := rfl
    cases h with
    | parent h =>
      rw [hdot] at h
      cases h
      rfl
    | above h h' =>
      rw [hdot] at h
      cases h
      exact absurd h' (hnone rfl)
  · exact absurd h (hnone rfl)

namespace FileTree

variable {t t' : FileTree} {p : Path} {l : Location}

theorem isDir_of_locate (h : t.locate p = .ok l) (hdir : t.isDirAt l) : t.isDir p := by
  obtain ⟨m, hm⟩ := isDirAt_iff.mp hdir
  have hpure : t.locate p = pure l := h
  rw [isDir, stat, hpure, pure_bind, hm]
  rfl

theorem locate_of_isAt (hends : EndsInStep (Text.splitOn '/' p.text.toList)) (h : t.IsAt p l) :
    t.locate p = .ok l := by
  rw [locate, if_neg (text_ne_of_endsInStep hends), segments_of_splitOn hends, ← walk_filter hends]
  exact h

/-- The directory of a path that can be followed is there, or it is a start. -/
theorem parent?_of_isAt (hends : EndsInStep (Text.splitOn '/' p.text.toList)) (h : t.IsAt p l) :
    (∃ start, p.parent? = some ⟨String.ofList start⟩ ∧ (start = ['/'] ∨ start = ['.'] ∨ start = [])) ∨
      ∃ d k, p.parent? = some d ∧ EndsInStep (Text.splitOn '/' d.text.toList) ∧ t.IsAt d k ∧ t.isDirAt k := by
  obtain ⟨init, last, hsplit, hlast⟩ := hends
  by_cases hinit : init.filter isStep = []
  · obtain ⟨start, hparent, hstart⟩ := exists_parent?_of_one_step hsplit hlast hinit
    exact .inl ⟨start, hparent, hstart.imp_right (Or.imp_left And.left)⟩
  · obtain ⟨d, hd⟩ := exists_isParent hsplit hlast hinit
    have hsteps : p.steps = d.steps ++ [last] := by
      rw [steps, hsplit, List.filter_append, List.filter_cons_of_pos hlast, hd.steps_eq, List.filter_nil]
    rw [IsAt, hsteps] at h
    obtain ⟨k, hwalk, hk, -⟩ := walk_concat_eq_ok h
    refine .inr ⟨d, k, hd.parent?_eq, hd.endsInStep, ?_, hk⟩
    rw [IsAt, start, hd.isAbsolute_eq]
    exact hwalk

/-- All the directories above a path that can be followed are there. -/
theorem isDir_of_isAncestor (hworking : t.isDirAt t.workingDir)
    (hends : EndsInStep (Text.splitOn '/' p.text.toList)) (h : t.IsAt p l) {d : Path} (hd : d.IsAncestor p)
    (hne : d.text ≠ "") : t.isDir d := by
  induction hd generalizing l with
  | @parent p hp =>
    rcases parent?_of_isAt hends h with ⟨start, hparent, hstart⟩ | ⟨e, k, hparent, hends', hk, hdir⟩
    · rw [hp] at hparent
      cases hparent
      rcases hstart with rfl | rfl | rfl
      · rfl
      · exact isDir_of_locate (walk_cons hworking ['.'] []) hworking
      · exact absurd rfl hne
    · rw [hp] at hparent
      cases hparent
      exact isDir_of_locate (locate_of_isAt hends' hk) hdir
  | @above p e hp hd ih =>
    rcases parent?_of_isAt hends h with ⟨start, hparent, hstart⟩ | ⟨e', k, hparent, hends', hk, hdir⟩
    · rw [hp] at hparent
      cases hparent
      exact absurd (hd.text_eq_of_start hstart) hne
    · rw [hp] at hparent
      cases hparent
      exact ih hends' hk

/-! ## Installing a file -/

theorem endsInSlash_of_writeFile {content : ByteArray} (h : t.writeFile p content = .ok t') :
    endsInSlash p = false := by
  obtain ⟨l, hlocate, -⟩ := writeFile_eq_ok h
  have hpure : t.locate p = pure l := hlocate
  rw [Bool.eq_false_iff]
  intro hslash
  rw [writeFile, hpure, pure_bind] at h
  split at h
  · cases h
  · cases h
  · cases h
  · rw [if_pos hslash] at h
    cases h

theorem last_ne_nil_of_endsInSlash {init : List (List Char)} {last : List Char}
    (hsplit : Text.splitOn '/' p.text.toList = init ++ [last]) (hslash : endsInSlash p = false)
    (hne : p.text ≠ "") : last ≠ [] := by
  rintro rfl
  have htext := Text.joinWith_splitOn '/' p.text.toList
  rw [hsplit, Text.joinWith_concat, List.append_nil] at htext
  rcases List.eq_nil_or_concat init with rfl | ⟨init, s, rfl⟩
  · exact hne (String.toList_inj.mp htext.symm)
  · rw [List.concat_eq_append, List.flatMap_append, List.flatMap_singleton, ← List.append_assoc] at htext
    rw [endsInSlash, ← htext, List.getLast?_concat, decide_eq_false_iff_not] at hslash
    exact hslash rfl

/-- A path that a file was written to ends in a segment that leads on. -/
theorem endsInStep_of_writeFile {content : ByteArray} (h : t.writeFile p content = .ok t') :
    EndsInStep (Text.splitOn '/' p.text.toList) := by
  obtain ⟨l, hlocate, -, hfile, -⟩ := writeFile_eq_ok h
  unfold locate at hlocate
  split at hlocate
  · cases hlocate
  next hne =>
  rcases List.eq_nil_or_concat (Text.splitOn '/' p.text.toList) with hnil | ⟨init, last, hsplit⟩
  · obtain ⟨s, ss, hcons⟩ := Text.exists_splitOn_eq_cons '/' p.text.toList
    rw [hnil] at hcons
    cases hcons
  rw [List.concat_eq_append] at hsplit
  have hlast := last_ne_nil_of_endsInSlash hsplit (endsInSlash_of_writeFile h) hne
  refine ⟨init, last, hsplit, ?_⟩
  rw [isStep, Option.isSome_iff_ne_none]
  intro hnone
  -- The last segment is a dot, so the path leads to a directory.
  obtain rfl : last = ['.'] := (eq_nil_or_dot_of_componentOf? hnone).resolve_left hlast
  rw [segments_of_concat hsplit hlast] at hlocate
  obtain ⟨j, -, hj, hstep⟩ := walk_concat_eq_ok hlocate
  rw [← hstep, show stepTo j ['.'] = j from rfl, hj] at hfile
  cases hfile

/-- The file `p` has come to `t'` with the given content, and its directories with it.  No other file of `t` has
changed, and no directory is gone. -/
structure Installed (t t' : FileTree) (p : Path) (content : ByteArray) : Prop where
  readFile_eq : t'.readFile p = .ok content
  isDir_of_isAncestor : ∀ d : Path, d.IsAncestor p → d.text ≠ "" → t'.isDir d
  isDirAt_of : ∀ k, t.isDirAt k → t'.isDirAt k
  fileAt?_eq : ∃ l, t'.locate p = .ok l ∧ ∀ k, k ≠ l → t'.fileAt? k = t.fileAt? k

theorem readFile_of_locate (hslash : endsInSlash p = false) (h : t.locate p = .ok l) {content : ByteArray}
    {time : Nat} (hfile : t.get? l = some (.file content time)) : t.readFile p = .ok content := by
  have hpure : t.locate p = pure l := h
  have hstat : t.stat p = pure (.file content time) := by
    rw [stat, hpure, pure_bind, hfile, hslash]
    rfl
  rw [readFile, hstat, pure_bind]
  rfl

/-- A file that could be written is the only one that changed. -/
theorem installed_of_writeFile (ht : t.WellFormed) (hworking : t.isDirAt t.workingDir) {content : ByteArray}
    (h : t.writeFile p content = .ok t') : Installed t t' p content := by
  have hslash := endsInSlash_of_writeFile h
  have hends := endsInStep_of_writeFile h
  obtain ⟨l, hlocate, htail, hfile, rfl⟩ := writeFile_eq_ok h
  have hl : l ≠ [] := by
    rintro rfl
    cases hfile
  have hextends := (Extends.refl ht).writeAt hl htail hfile content
  have hlocate' := hextends.locate hlocate
  have hget : (t.writeAt l content).get? l = some (.file content t.clock) := by
    rw [get?_writeAt hl, if_pos rfl]
  refine ⟨readFile_of_locate hslash hlocate' hget, fun d hd hne => ?_, hextends.isDirAt_of, l, hlocate',
    fun k hk => fileAt?_writeAt hl htail hk content⟩
  exact FileTree.isDir_of_isAncestor (hextends.isDirAt_workingDir hworking) hends (isAt_of_locate hlocate') hd hne

end FileTree

open FileTree

section

variable {t t' : FileTree} (ht : t.WellFormed) (hworking : t.isDirAt t.workingDir) {p : Path}

include ht hworking

/-- To make the directory of a file is to change no file and to take no directory away. -/
theorem makeParent_changes (p : Path) :
    Extends t (makeParent t p).1 ∧ ∀ k, (makeParent t p).1.fileAt? k = t.fileAt? k := by
  unfold makeParent
  split
  · exact ⟨.refl ht, fun _ => rfl⟩
  · exact ⟨extends_makeDir ht hworking _, (makeDir_changes ht hworking _).1⟩

theorem installed_of_install {source : String} {o : Outcome} (h : install t p source = (t', .ok o)) :
    Installed t t' p source.toUTF8 := by
  obtain ⟨hextends, hfiles⟩ := makeParent_changes ht hworking p
  unfold install at h
  split at h
  · cases h
  · next t₁ _ hmake =>
    rw [hmake] at hextends hfiles
    split at h
    · cases h
    · next hwrite =>
      cases h
      have hinstalled := installed_of_writeFile hextends.wellFormed (hextends.isDirAt_workingDir hworking) hwrite
      obtain ⟨l, hlocate, hsame⟩ := hinstalled.fileAt?_eq
      exact ⟨hinstalled.readFile_eq, hinstalled.isDir_of_isAncestor,
        fun k hk => hinstalled.isDirAt_of k (hextends.isDirAt_of k hk), l, hlocate,
        fun k hk => (hsame k hk).trans (hfiles k)⟩

omit ht hworking in
theorem eq_uncreatable_of_makeParent {e : Failure} (h : makeParent t p = (t', .error e)) :
    ∃ d reason, p.parent? = some d ∧ e = .uncreatable d reason := by
  unfold makeParent at h
  split at h
  · cases h
  · next d hparent =>
    unfold makeDir at h
    split at h
    · cases h
    · next reason _ =>
      cases h
      exact ⟨d, reason, hparent, rfl⟩

/-- If a file could not be installed, no file changed. -/
theorem fileAt?_of_install_error {source : String} {e : Failure} (h : install t p source = (t', .error e)) :
    (∀ k, t'.fileAt? k = t.fileAt? k) ∧ (∀ k, t.isDirAt k → t'.isDirAt k) ∧
      ((∃ d reason, p.parent? = some d ∧ e = .uncreatable d reason) ∨ ∃ reason, e = .unwritable p reason) := by
  obtain ⟨hextends, hfiles⟩ := makeParent_changes ht hworking p
  unfold install at h
  split at h
  · next t₁ e₁ hmake =>
    cases h
    rw [hmake] at hextends hfiles
    exact ⟨hfiles, hextends.isDirAt_of, .inl (eq_uncreatable_of_makeParent hmake)⟩
  · next t₁ _ hmake =>
    rw [hmake] at hextends hfiles
    split at h
    · next reason _ =>
      cases h
      exact ⟨hfiles, hextends.isDirAt_of, .inr ⟨reason, rfl⟩⟩
    · cases h

end

/-! ## The source in a dump -/

/-- The dump at a path is one of the module `m`. -/
def IsDumpOf (t : FileTree) (path : Path) (m : Module) : Prop :=
  ∃ text, t.readText path = .ok text ∧ (Json.parse? text).bind (Module.ofJson? Json.nestingLimit) = some m

/-- Why the dump at a path gives no source: it cannot be read, it is not one of a module, or the module cannot be
rendered. -/
def HasNoSource (t : FileTree) (options : Options) (path : Path) (e : Failure) : Prop :=
  (∃ reason, t.readText path = .error reason ∧ e = .unreadable path reason) ∨
  (∃ text, t.readText path = .ok text ∧
    (Json.parse? text).bind (Module.ofJson? Json.nestingLimit) = none ∧ e = .badDump path) ∨
  ∃ m reason, IsDumpOf t path m ∧ m.render options = .error reason ∧ e = .unrenderable reason

theorem isDumpOf_of_loadDump {t : FileTree} {path : Path} {m : Module} (h : loadDump t path = .ok m) :
    IsDumpOf t path m := by
  unfold loadDump at h
  split at h
  · cases h
  · next text htext =>
    split at h
    · cases h
    · next hm =>
      cases h
      exact ⟨text, htext, hm⟩

theorem hasNoSource_of_renderDump {t : FileTree} {options : Options} {path : Path} {e : Failure}
    (h : renderDump t options path = .error e) : HasNoSource t options path e := by
  unfold renderDump at h
  split at h
  · next e' hload =>
    cases h
    unfold loadDump at hload
    split at hload
    · next reason hread =>
      cases hload
      exact .inl ⟨reason, hread, rfl⟩
    · next text hread =>
      split at hload
      · next hnone =>
        cases hload
        exact .inr (.inl ⟨text, hread, hnone, rfl⟩)
      · cases hload
  · next m hload =>
    split at h
    · next reason hrender =>
      cases h
      exact .inr (.inr ⟨m, reason, isDumpOf_of_loadDump hload, hrender, rfl⟩)
    · cases h

theorem exists_of_renderDump {t : FileTree} {options : Options} {path : Path} {source : String}
    (h : renderDump t options path = .ok source) :
    ∃ m file, IsDumpOf t path m ∧ m.render options = .ok file ∧ file.source = source := by
  unfold renderDump at h
  split at h
  · cases h
  · next m hload =>
    split at h
    · cases h
    · next file hrender =>
      cases h
      exact ⟨m, file, isDumpOf_of_loadDump hload, hrender, rfl⟩

theorem isUpToDate_iff {t : FileTree} {dump out : Path} :
    isUpToDate t dump out ↔ ∃ d o, t.modified? dump = some d ∧ t.modified? out = some o ∧ d ≤ o := by
  unfold isUpToDate
  cases t.modified? dump with
  | none => simp
  | some d =>
    cases t.modified? out with
    | none => simp
    | some o => simp

/-! ## The turn of a unit -/

/-- The Go file of the unit is as new as its dump, and it does not have to be written again. -/
def SourceUnit.IsCurrent (u : SourceUnit) (t : FileTree) (force : Bool) : Prop :=
  t.isFile u.dumpPath ∧ force = false ∧
    ∃ d o, t.modified? u.dumpPath = some d ∧ t.modified? u.outPath = some o ∧ d ≤ o

/-- The four ways that a turn can take. -/
theorem SourceUnit.regenerate_cases (u : SourceUnit) (t : FileTree) (options : Options) (force : Bool) :
    (t.isFile u.dumpPath = false ∧ u.regenerate t options force = (t, .ok .noDump)) ∨
    (u.IsCurrent t force ∧ u.regenerate t options force = (t, .ok (.upToDate u.outPath))) ∨
    (t.isFile u.dumpPath ∧ ¬ u.IsCurrent t force ∧
      ((∃ e, renderDump t options u.dumpPath = .error e ∧ u.regenerate t options force = (t, .error e)) ∨
        ∃ source, renderDump t options u.dumpPath = .ok source ∧
          u.regenerate t options force = install t u.outPath source)) := by
  cases hfile : t.isFile u.dumpPath with
  | false => exact .inl ⟨rfl, if_neg (by rw [hfile]; exact Bool.false_ne_true)⟩
  | true =>
    have hcurrent : u.IsCurrent t force ↔ (!force && isUpToDate t u.dumpPath u.outPath) := by
      rw [IsCurrent, ← isUpToDate_iff, Bool.and_eq_true, Bool.not_eq_true', hfile]
      exact and_iff_right rfl
    unfold SourceUnit.regenerate
    rw [if_pos hfile]
    split
    · next hdated => exact .inr (.inl ⟨hcurrent.mpr hdated, rfl⟩)
    · next hdated =>
      refine .inr (.inr ⟨rfl, mt hcurrent.mp hdated, ?_⟩)
      cases hrender : renderDump t options u.dumpPath with
      | error e => exact .inl ⟨e, rfl, rfl⟩
      | ok source => exact .inr ⟨source, rfl, rfl⟩

/-- A unit of the project in `lodgerTree`, with its Go file at the given path. -/
def lodgerUnit (outPath : String) : SourceUnit where
  moduleName := "A"
  dumpPath := ⟨"output/A/goemit-ir.json"⟩
  outPath := ⟨outPath⟩

end GoScribe
