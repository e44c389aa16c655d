import GoScribe.Files.FileTree
import GoScribe.Proofs.PathSteps

/-!
# Changes of a file tree

What a change does to the entry at each location.  A tree is well-formed if every entry lies in a directory;
then the way down from a directory along names is open as far as it exists, and to make the directories on
it is to fail at the first file, or else to make each one that is missing (`makeDirs_names`).
-/

namespace GoScribe

namespace FileTree

/-! ## Entries -/

theorem lookup_putEntry (l k : Location) (e : Entry) (es : List (Location × Entry)) :
    (putEntry l e es).lookup k = if k = l then some e else es.lookup k := by
  induction es with
  | nil =>
    rw [putEntry, List.lookup_cons]
    by_cases hk : k = l
    · rw [if_pos hk, hk, beq_self_eq_true]
    · rw [if_neg hk, beq_eq_false_iff_ne.mpr hk]
  | cons x es ih =>
    obtain ⟨j, d⟩ := x
    rw [putEntry]
    by_cases hj : j = l
    · rw [if_pos (beq_iff_eq.mpr hj), List.lookup_cons, List.lookup_cons, hj]
      by_cases hk : k = l
      · rw [if_pos hk, hk, beq_self_eq_true]
      · rw [if_neg hk, beq_eq_false_iff_ne.mpr hk]
    · rw [if_neg (mt beq_iff_eq.mp hj), List.lookup_cons, List.lookup_cons, ih]
      by_cases hkj : k = j
      · rw [hkj, beq_self_eq_true]
        exact (if_neg hj).symm
      · rw [beq_eq_false_iff_ne.mpr hkj]

@[simp] theorem clock_put (t : FileTree) (l : Location) (e : Entry) : (t.put l e).clock = t.clock := rfl

@[simp] theorem workingDir_put (t : FileTree) (l : Location) (e : Entry) :
    (t.put l e).workingDir = t.workingDir := rfl

theorem get?_nil (t : FileTree) : t.get? [] = some (.dir t.clock) := rfl

theorem get?_of_ne_nil {l : Location} (hl : l ≠ []) (t : FileTree) : t.get? l = t.entries.lookup l :=
  if_neg hl

theorem get?_put {l : Location} (hl : l ≠ []) (t : FileTree) (e : Entry) (k : Location) :
    (t.put l e).get? k = if k = l then some e else t.get? k := by
  by_cases hk : k = []
  · rw [hk, if_neg (Ne.symm hl), get?_nil, get?_nil, clock_put]
  · rw [get?_of_ne_nil hk, get?_of_ne_nil hk, put, lookup_putEntry]

@[simp] theorem clock_markChanged (t : FileTree) (l : Location) : (t.markChanged l).clock = t.clock := by
  unfold markChanged
  split <;> rfl

@[simp] theorem workingDir_markChanged (t : FileTree) (l : Location) :
    (t.markChanged l).workingDir = t.workingDir := by
  unfold markChanged
  split <;> rfl

theorem get?_markChanged (t : FileTree) (l k : Location) :
    (t.markChanged l).get? k = if k = l then (t.get? k).map (Entry.touch t.clock) else t.get? k := by
  by_cases hk : k = []
  · -- The root counts as changed at all times.
    rw [hk, get?_nil, get?_nil, clock_markChanged, Option.map_some]
    split <;> rfl
  · unfold markChanged
    split
    · next e he =>
      rw [get?_of_ne_nil hk, get?_of_ne_nil hk, put, lookup_putEntry]
      by_cases hkl : k = l
      · rw [if_pos hkl, if_pos hkl, hkl, he, Option.map_some]
      · rw [if_neg hkl, if_neg hkl]
    · next hnone =>
      by_cases hkl : k = l
      · rw [if_pos hkl, get?_of_ne_nil hk, hkl, hnone, Option.map_none]
      · rw [if_neg hkl]

@[simp] theorem clock_add (t : FileTree) (l : Location) (e : Entry) : (t.add l e).clock = t.clock := by
  rw [add, clock_put, clock_markChanged]

@[simp] theorem workingDir_add (t : FileTree) (l : Location) (e : Entry) :
    (t.add l e).workingDir = t.workingDir := by
  rw [add, workingDir_put, workingDir_markChanged]

theorem get?_add {l : Location} (hl : l ≠ []) (t : FileTree) (e : Entry) (k : Location) :
    (t.add l e).get? k =
      if k = l then some e
      else if k = l.tail then (t.get? k).map (Entry.touch t.clock) else t.get? k := by
  rw [add, get?_put hl, get?_markChanged]

/-! ## Kinds -/

/-- There is a directory at a location. -/
def isDirAt (t : FileTree) (l : Location) : Bool := (t.get? l).any Entry.isDir

/-- The file at a location. -/
def fileAt? (t : FileTree) (l : Location) : Option Entry := (t.get? l).filter fun e => !e.isDir

@[simp] theorem isDir_touch (e : Entry) (time : Nat) : (e.touch time).isDir = e.isDir := by
  cases e <;> rfl

theorem isDirAt_iff {t : FileTree} {l : Location} : t.isDirAt l ↔ ∃ m, t.get? l = some (.dir m) := by
  rw [isDirAt]
  cases t.get? l with
  | none => simp
  | some e => cases e <;> simp [Entry.isDir]

theorem isDirAt_nil (t : FileTree) : t.isDirAt [] := rfl

theorem isDirAt_add {t : FileTree} {l k : Location} (hl : l ≠ []) (e : Entry) :
    (t.add l e).isDirAt k = if k = l then e.isDir else t.isDirAt k := by
  rw [isDirAt, get?_add hl, isDirAt]
  by_cases hk : k = l
  · rw [if_pos hk, if_pos hk, Option.any_some]
  · rw [if_neg hk, if_neg hk]
    by_cases hktail : k = l.tail
    · rw [if_pos hktail]
      cases t.get? k <;> simp
    · rw [if_neg hktail]

theorem isSome_get?_add {t : FileTree} {l k : Location} (hl : l ≠ []) (e : Entry) :
    ((t.add l e).get? k).isSome = if k = l then true else (t.get? k).isSome := by
  rw [get?_add hl]
  by_cases hk : k = l
  · rw [if_pos hk, if_pos hk, Option.isSome_some]
  · rw [if_neg hk, if_neg hk]
    by_cases hktail : k = l.tail
    · rw [if_pos hktail, Option.isSome_map]
    · rw [if_neg hktail]

/-- A new entry does not change the files that are there, if it is put into a directory. -/
theorem fileAt?_add {t : FileTree} {l k : Location} (hl : l ≠ []) (hdir : t.isDirAt l.tail) {e : Entry}
    (hk : k ≠ l) : (t.add l e).fileAt? k = t.fileAt? k := by
  rw [fileAt?, get?_add hl, if_neg hk, fileAt?]
  by_cases hktail : k = l.tail
  · obtain ⟨m, hm⟩ := isDirAt_iff.mp hdir
    rw [if_pos hktail, hktail, hm]
    rfl
  · rw [if_neg hktail]

/-! ## Well-formed trees -/

/-- Every entry lies in a directory. -/
def WellFormed (t : FileTree) : Prop :=
  ∀ name l, (t.get? (name :: l)).isSome → t.isDirAt l

/-- It is enough to look at the entries that are listed. -/
theorem wellFormed_of_entries {t : FileTree} (h : ∀ x ∈ t.entries, t.isDirAt x.1.tail) : t.WellFormed := by
  intro name l hsome
  rw [get?_of_ne_nil (List.cons_ne_nil _ _), List.lookup_isSome_iff] at hsome
  obtain ⟨x, hx, hkey⟩ := hsome
  have hdir := h x hx
  rw [← beq_iff_eq.mp hkey] at hdir
  exact hdir

theorem WellFormed.add {t : FileTree} (ht : t.WellFormed) {l : Location} (hl : l ≠ [])
    (hnone : t.get? l = none) (hdir : t.isDirAt l.tail) (e : Entry) : (t.add l e).WellFormed := by
  intro name k hk
  rw [isSome_get?_add hl] at hk
  rw [isDirAt_add hl]
  by_cases hkl : k = l
  · -- Nothing can be in what is new.
    rw [hkl] at hk
    rw [if_neg (List.cons_ne_self name l)] at hk
    have hexists := ht name l hk
    rw [isDirAt, hnone] at hexists
    cases hexists
  · rw [if_neg hkl]
    by_cases hcons : name :: k = l
    · rw [← hcons] at hdir
      exact hdir
    · rw [if_neg hcons] at hk
      exact ht name k hk

theorem WellFormed.put_file {t : FileTree} (ht : t.WellFormed) {l : Location} (hl : l ≠ [])
    (hsome : (t.get? l).isSome) (hfile : t.isDirAt l = false) (content : ByteArray) (time : Nat) :
    (t.put l (.file content time)).WellFormed := by
  have hsame (k : Location) : ((t.put l (.file content time)).get? k).isSome = (t.get? k).isSome ∧
      (t.put l (.file content time)).isDirAt k = t.isDirAt k := by
    rw [isDirAt, get?_put hl]
    by_cases hkl : k = l
    · rw [if_pos hkl, hkl, hsome, hfile]
      exact ⟨rfl, rfl⟩
    · rw [if_neg hkl]
      exact ⟨rfl, rfl⟩
  intro name k hk
  rw [(hsame _).1] at hk
  rw [(hsame _).2]
  exact ht name k hk

/-- All the way to an entry there are directories. -/
theorem WellFormed.isDirAt_of_suffix {t : FileTree} (ht : t.WellFormed) {l k : Location}
    (hk : (t.get? k).isSome) (hsuffix : l <:+ k) (hne : l ≠ k) : t.isDirAt l := by
  induction k with
  | nil => exact absurd (List.suffix_nil.mp hsuffix) hne
  | cons name k ih =>
    have hdir := ht name k hk
    rcases List.suffix_cons_iff.mp hsuffix with heq | hsuffix
    · exact absurd heq hne
    · by_cases hlk : l = k
      · rw [hlk]
        exact hdir
      · obtain ⟨m, hm⟩ := isDirAt_iff.mp hdir
        exact ih (by rw [hm]; rfl) hsuffix hlk

/-! ## Walks -/

open GoScribe.Path (isStep IsName)

theorem stepTo_of_not_isStep {s : List Char} (h : isStep s = false) (l : Location) : stepTo l s = l := by
  have hdot : s = [] ∨ s = ['.'] := by
    apply Path.eq_nil_or_dot_of_componentOf?
    exact Option.not_isSome_iff_eq_none.mp (by rw [← isStep, h]; exact Bool.false_ne_true)
  rcases hdot with rfl | rfl <;> rfl

theorem stepTo_of_isName {s : List Char} (h : IsName s) (l : Location) :
    stepTo l s = String.ofList s :: l := by
  unfold stepTo
  split
  · next hdot =>
    simp only [Bool.or_eq_true, decide_eq_true_eq] at hdot
    rcases hdot with rfl | rfl <;> cases h
  · split
    · next hdots =>
      rw [hdots] at h
      cases h
    · rfl

theorem walk_cons {t : FileTree} {l : Location} (hl : t.isDirAt l) (s : List Char)
    (ss : List (List Char)) : t.walk l (s :: ss) = t.walk (stepTo l s) ss := by
  obtain ⟨m, hm⟩ := isDirAt_iff.mp hl
  rw [walk, hm]

theorem walk_cons_eq_ok {t : FileTree} {l k : Location} {s : List Char} {ss : List (List Char)}
    (h : t.walk l (s :: ss) = .ok k) : t.isDirAt l ∧ t.walk (stepTo l s) ss = .ok k := by
  rw [walk] at h
  split at h
  · cases h
  · cases h
  · next m hm => exact ⟨isDirAt_iff.mpr ⟨m, hm⟩, h⟩

/-- A walk that is open goes on from where it leads. -/
theorem walk_append {t : FileTree} {l k : Location} {ss : List (List Char)} (h : t.walk l ss = .ok k)
    (rest : List (List Char)) : t.walk l (ss ++ rest) = t.walk k rest := by
  induction ss generalizing l with
  | nil =>
    cases h
    rfl
  | cons s ss ih =>
    obtain ⟨hl, h⟩ := walk_cons_eq_ok h
    rw [List.cons_append, walk_cons hl, ih h]

/-- What a walk leads through before its last segment is a directory. -/
theorem walk_concat_eq_ok {t : FileTree} {l k : Location} {ss : List (List Char)} {s : List Char}
    (h : t.walk l (ss ++ [s]) = .ok k) : ∃ j, t.walk l ss = .ok j ∧ t.isDirAt j ∧ stepTo j s = k := by
  induction ss generalizing l with
  | nil =>
    obtain ⟨hl, h⟩ := walk_cons_eq_ok h
    exact ⟨l, rfl, hl, Except.ok.inj h⟩
  | cons r ss ih =>
    obtain ⟨hl, h⟩ := walk_cons_eq_ok h
    obtain ⟨j, hwalk, hj⟩ := ih h
    exact ⟨j, (walk_cons hl r ss).trans hwalk, hj⟩

/-- Where a walk has led it leads still, as long as the directories stay. -/
theorem walk_of_isDirAt {t t' : FileTree} (hdirs : ∀ l, t.isDirAt l → t'.isDirAt l) {l k : Location}
    {ss : List (List Char)} (h : t.walk l ss = .ok k) : t'.walk l ss = .ok k := by
  induction ss generalizing l with
  | nil => exact h
  | cons s ss ih =>
    obtain ⟨hl, h⟩ := walk_cons_eq_ok h
    rw [walk_cons (hdirs l hl), ih h]

/-- A walk without dots leads where the walk with them leads. -/
theorem walk_filter_of_eq_ok {t : FileTree} {l k : Location} {ss : List (List Char)}
    (h : t.walk l ss = .ok k) : t.walk l (ss.filter isStep) = .ok k := by
  induction ss generalizing l with
  | nil => exact h
  | cons s ss ih =>
    obtain ⟨hl, h⟩ := walk_cons_eq_ok h
    cases hs : isStep s with
    | true => rw [List.filter_cons_of_pos hs, walk_cons hl, ih h]
    | false =>
      rw [stepTo_of_not_isStep hs] at h
      rw [List.filter_cons_of_neg (by rw [hs]; exact Bool.false_ne_true), ih h]

/-- Empty segments lead nowhere. -/
theorem walk_of_forall_eq_nil {t : FileTree} {l : Location} (hl : t.isDirAt l) {ss : List (List Char)}
    (hss : ∀ s ∈ ss, s = []) : t.walk l ss = .ok l := by
  induction ss with
  | nil => rfl
  | cons s ss ih =>
    rw [List.forall_mem_cons] at hss
    rw [walk_cons hl, hss.1]
    exact ih hss.2

/-- The segments end in one that leads on. -/
def EndsInStep (ss : List (List Char)) : Prop := ∃ init last, ss = init ++ [last] ∧ isStep last

theorem EndsInStep.cons_inv {s : List Char} {ss : List (List Char)} (h : EndsInStep (s :: ss)) :
    (ss = [] ∧ isStep s) ∨ EndsInStep ss := by
  obtain ⟨init, last, heq, hlast⟩ := h
  cases init with
  | nil =>
    cases heq
    exact .inl ⟨rfl, hlast⟩
  | cons r init =>
    cases heq
    exact .inr ⟨init, last, rfl, hlast⟩

theorem EndsInStep.exists_filter {ss : List (List Char)} (h : EndsInStep ss) :
    ∃ s rest, ss.filter isStep = s :: rest ∧ isStep s := by
  obtain ⟨init, last, rfl, hlast⟩ := h
  have hmem : last ∈ (init ++ [last]).filter isStep :=
    List.mem_filter.mpr ⟨List.mem_append_right _ List.mem_cons_self, hlast⟩
  cases hfilter : (init ++ [last]).filter isStep with
  | nil =>
    rw [hfilter] at hmem
    cases hmem
  | cons s rest =>
    have hs : s ∈ (init ++ [last]).filter isStep := hfilter ▸ List.mem_cons_self
    exact ⟨s, rest, rfl, (List.mem_filter.mp hs).2⟩

theorem EndsInStep.areDots {ss : List (List Char)} (h : EndsInStep ss) : areDots ss = false := by
  obtain ⟨init, last, rfl, hlast⟩ := h
  rw [FileTree.areDots, List.all_eq_false]
  refine ⟨last, List.mem_append_right _ List.mem_cons_self, ?_⟩
  rw [isStep] at hlast
  cases hcomponent : Path.componentOf? last with
  | none =>
    rw [hcomponent] at hlast
    cases hlast
  | some c => exact Bool.false_ne_true

/-- Dots in front of a step make no difference: the step asks for the same directory. -/
theorem walk_filter {ss : List (List Char)} (hss : EndsInStep ss) (t : FileTree) (l : Location) :
    t.walk l (ss.filter isStep) = t.walk l ss := by
  induction ss generalizing l with
  | nil => rfl
  | cons s ss ih =>
    rcases hss.cons_inv with ⟨rfl, hs⟩ | hss
    · rw [List.filter_cons_of_pos hs, List.filter_nil]
    · cases hs : isStep s with
      | true =>
        rw [List.filter_cons_of_pos hs, walk, walk]
        split
        · rfl
        · rfl
        · exact ih hss _
      | false =>
        obtain ⟨r, rest, hfilter, -⟩ := hss.exists_filter
        rw [List.filter_cons_of_neg (by rw [hs]; exact Bool.false_ne_true)]
        conv => rhs; rw [walk]
        split
        · next hnone => rw [hfilter, walk, hnone]
        · next hfile => rw [hfilter, walk, hfile]
        · rw [stepTo_of_not_isStep hs, ih hss]

/-! ## Making directories -/

theorem makeDirs_of_isDirAt {t : FileTree} {l : Location} (hl : t.isDirAt l) (made : Bool) (s : List Char)
    (ss : List (List Char)) : t.makeDirs made l (s :: ss) = t.makeDirs made (stepTo l s) ss := by
  obtain ⟨m, hm⟩ := isDirAt_iff.mp hl
  rw [makeDirs, hm]

/-- Where the way is open nothing is made. -/
theorem makeDirs_append {t : FileTree} {l k : Location} {ss : List (List Char)}
    (h : t.walk l ss = .ok k) (made : Bool) (rest : List (List Char)) :
    t.makeDirs made l (ss ++ rest) = t.makeDirs made k rest := by
  induction ss generalizing l with
  | nil =>
    cases h
    rfl
  | cons s ss ih =>
    obtain ⟨hl, h⟩ := walk_cons_eq_ok h
    rw [List.cons_append, makeDirs_of_isDirAt hl, ih h]

theorem ne_nil_of_get?_eq_none {t : FileTree} {l : Location} (h : t.get? l = none) : l ≠ [] := by
  rintro rfl
  cases h

theorem isDirAt_add_self {t : FileTree} {l : Location} (hl : l ≠ []) (time : Nat) :
    (t.add l (.dir time)).isDirAt l := by
  rw [isDirAt_add hl, if_pos rfl]
  rfl

/-- Dots in front of a step make no difference here either: the directory that they ask for is made for the
step. -/
theorem makeDirs_filter {ss : List (List Char)} (hss : EndsInStep ss) (t : FileTree) (made : Bool)
    (l : Location) : t.makeDirs made l (ss.filter isStep) = t.makeDirs made l ss := by
  induction ss generalizing t made l with
  | nil => rfl
  | cons s ss ih =>
    have hdots : areDots (s :: ss) = false := hss.areDots
    rcases hss.cons_inv with ⟨rfl, hs⟩ | hrest
    · rw [List.filter_cons_of_pos hs, List.filter_nil]
    · cases hs : isStep s with
      | true =>
        have hdots' : areDots (s :: ss.filter isStep) = false := by
          rw [areDots, List.all_cons, ← Option.not_isSome, ← isStep, hs]
          rfl
        rw [List.filter_cons_of_pos hs, makeDirs, makeDirs, hdots, hdots']
        split
        · exact ih hrest _ _ _
        · rfl
        · exact ih hrest _ _ _
      | false =>
        obtain ⟨r, rest, hfilter, hr⟩ := hrest.exists_filter
        have hdots' : areDots (r :: rest) = false := by
          rw [areDots, List.all_cons, ← Option.not_isSome, ← isStep, hr]
          rfl
        rw [List.filter_cons_of_neg (by rw [hs]; exact Bool.false_ne_true)]
        conv => rhs; rw [makeDirs, hdots]
        split
        · next hnone =>
          have hl := ne_nil_of_get?_eq_none hnone
          rw [if_neg Bool.false_ne_true, stepTo_of_not_isStep hs, ← ih hrest, hfilter,
            makeDirs_of_isDirAt (isDirAt_add_self hl _), makeDirs, hnone, hdots']
          rfl
        · next hfile => rw [hfilter, makeDirs, hfile, hdots']
        · rw [stepTo_of_not_isStep hs, ih hrest]

/-- The tree with a directory at `l`, if nothing was there. -/
def ensureDir (t : FileTree) (l : Location) : FileTree :=
  if (t.get? l).isNone then t.add l (.dir t.clock) else t

/-- The locations on the way down from `l` along names. -/
def way (l : Location) : List (List Char) → List Location
  | [] => []
  | s :: ss => (String.ofList s :: l) :: way (String.ofList s :: l) ss

/-- The location at the end of the way down from `l` along names. -/
def down (l : Location) (ss : List (List Char)) : Location := (ss.map String.ofList).reverse ++ l

theorem down_cons (l : Location) (s : List Char) (ss : List (List Char)) :
    down l (s :: ss) = down (String.ofList s :: l) ss := by
  rw [down, List.map_cons, List.reverse_cons, List.append_assoc]
  rfl

/-- What keeps the directories on a way from being made: the first file on it. -/
def blockage (t : FileTree) (l : Location) : List (List Char) → Option FileError
  | [] => none
  | s :: ss =>
    if (t.fileAt? (String.ofList s :: l)).isSome then
      some (if ss.isEmpty then .alreadyExists else .notADirectory)
    else blockage t (String.ofList s :: l) ss

theorem suffix_of_mem_way {l k : Location} {ss : List (List Char)} (hk : k ∈ way l ss) :
    l <:+ k ∧ k ≠ l ∧ k <:+ down l ss := by
  induction ss generalizing l with
  | nil => cases hk
  | cons s ss ih =>
    rw [down_cons]
    rcases List.mem_cons.mp hk with rfl | hk
    · exact ⟨List.suffix_cons _ _, List.cons_ne_self _ _, List.suffix_append _ _⟩
    · obtain ⟨hsuffix, hne, hdown⟩ := ih hk
      refine ⟨(List.suffix_cons _ _).trans hsuffix, ?_, hdown⟩
      rintro rfl
      exact absurd hsuffix.length_le (by simp)

theorem blockage_eq_none_iff {t : FileTree} {l : Location} {ss : List (List Char)} :
    t.blockage l ss = none ↔ ∀ k ∈ way l ss, t.fileAt? k = none := by
  induction ss generalizing l with
  | nil => exact ⟨fun _ _ hk => (List.not_mem_nil hk).elim, fun _ => rfl⟩
  | cons s ss ih =>
    rw [blockage, way, List.forall_mem_cons, ← ih]
    cases t.fileAt? (String.ofList s :: l) with
    | none => simp
    | some e => simp

theorem isSome_fileAt?_iff {t : FileTree} {l : Location} :
    (t.fileAt? l).isSome ↔ ∃ content m, t.get? l = some (.file content m) := by
  rw [fileAt?]
  cases t.get? l with
  | none => simp
  | some e => cases e <;> simp [Entry.isDir, Option.filter_some]

theorem isSome_get?_iff {t : FileTree} {l : Location} : (t.get? l).isSome ↔ (t.fileAt? l).isSome ∨ t.isDirAt l := by
  rw [fileAt?, isDirAt]
  cases t.get? l with
  | none => simp
  | some e => cases e <;> simp [Entry.isDir, Option.filter_some]

/-- A file that blocks the way is somewhere below its start. -/
theorem exists_of_blockage {t : FileTree} {l : Location} {ss : List (List Char)} {e : FileError}
    (h : t.blockage l ss = some e) : ∃ k, (t.get? k).isSome ∧ l <:+ k ∧ k ≠ l := by
  have hfile : ¬ ∀ k ∈ way l ss, t.fileAt? k = none := by
    rw [← blockage_eq_none_iff, h]
    simp
  simp only [not_forall] at hfile
  obtain ⟨k, hk, hfile⟩ := hfile
  obtain ⟨content, m, hget⟩ := isSome_fileAt?_iff.mp (Option.isSome_iff_ne_none.mpr hfile)
  obtain ⟨hsuffix, hne, -⟩ := suffix_of_mem_way hk
  exact ⟨k, by rw [hget]; rfl, hsuffix, hne⟩

/-- A file on the way is found before anything is made. -/
theorem makeDirs_of_blockage {t : FileTree} (ht : t.WellFormed) {l : Location} (hl : t.isDirAt l)
    {ss : List (List Char)} (hss : ∀ s ∈ ss, IsName s) {e : FileError} (h : t.blockage l ss = some e) :
    t.makeDirs false l ss = (t, .error e) := by
  induction ss generalizing l with
  | nil => cases h
  | cons s ss ih =>
    rw [List.forall_mem_cons] at hss
    rw [makeDirs_of_isDirAt hl, stepTo_of_isName hss.1]
    rw [blockage] at h
    split at h
    · next hfile =>
      obtain ⟨content, m, hget⟩ := isSome_fileAt?_iff.mp hfile
      cases h
      cases ss with
      | nil => rw [makeDirs, hget]; rfl
      | cons r rest => rw [makeDirs, hget]; rfl
    · obtain ⟨k, hk, hsuffix, hne⟩ := exists_of_blockage h
      exact ih (ht.isDirAt_of_suffix hk hsuffix (Ne.symm hne)) hss.2 h

theorem isSome_fileAt?_ensureDir (t : FileTree) (l k : Location) :
    ((t.ensureDir l).fileAt? k).isSome = (t.fileAt? k).isSome := by
  unfold ensureDir
  cases hget : t.get? l with
  | some e => rfl
  | none =>
    rw [Option.isNone_none, if_pos rfl, fileAt?, get?_add (ne_nil_of_get?_eq_none hget), fileAt?]
    by_cases hk : k = l
    · rw [if_pos hk, hk, hget]
      rfl
    · rw [if_neg hk]
      by_cases hktail : k = l.tail
      · rw [if_pos hktail]
        cases t.get? k with
        | none => rfl
        | some e => cases e <;> rfl
      · rw [if_neg hktail]

theorem isStep_of_isName {s : List Char} (h : IsName s) : isStep s := by
  rw [isStep, h]
  rfl

/-- Where there is no file, there is a directory when it is gone past. -/
theorem makeDirs_cons_of_not_file {t : FileTree} {l : Location} (h : t.fileAt? l = none) {s : List Char}
    (hs : isStep s) (ss : List (List Char)) (made : Bool) :
    ∃ made', t.makeDirs made l (s :: ss) = (t.ensureDir l).makeDirs made' (stepTo l s) ss := by
  have hdots : areDots (s :: ss) = false := by
    rw [areDots, List.all_cons, ← Option.not_isSome, ← isStep, hs]
    rfl
  rw [makeDirs, hdots, ensureDir]
  cases hget : t.get? l with
  | none => exact ⟨true, rfl⟩
  | some e =>
    cases e with
    | dir m => exact ⟨made, rfl⟩
    | file content m =>
      have hfile := isSome_fileAt?_iff.mpr ⟨content, m, hget⟩
      rw [h] at hfile
      cases hfile

theorem makeDirs_nil_of_not_file {t : FileTree} {l : Location} (h : t.fileAt? l = none) (made : Bool) :
    t.makeDirs made l [] = (t.ensureDir l, .ok ()) := by
  rw [makeDirs, ensureDir]
  cases hget : t.get? l with
  | none => rfl
  | some e =>
    cases e with
    | dir m => rfl
    | file content m =>
      have hfile := isSome_fileAt?_iff.mpr ⟨content, m, hget⟩
      rw [h] at hfile
      cases hfile

/-- Where no file is in the way, each directory that is missing is made. -/
theorem makeDirs_of_clear {t : FileTree} {l : Location} {ss : List (List Char)}
    (hss : ∀ s ∈ ss, IsName s) (h : ∀ k ∈ l :: way l ss, t.fileAt? k = none) (made : Bool) :
    t.makeDirs made l ss = ((l :: way l ss).foldl ensureDir t, .ok ()) := by
  induction ss generalizing t made l with
  | nil => exact makeDirs_nil_of_not_file (h l List.mem_cons_self) made
  | cons s ss ih =>
    rw [List.forall_mem_cons] at hss h
    obtain ⟨made', hmade⟩ := makeDirs_cons_of_not_file h.1 (isStep_of_isName hss.1) ss made
    rw [hmade, stepTo_of_isName hss.1]
    refine ih hss.2 (fun k hk => ?_) made'
    rw [← Option.not_isSome_iff_eq_none, isSome_fileAt?_ensureDir, Option.not_isSome_iff_eq_none]
    exact h.2 k hk

theorem ensureDir_of_isDirAt {t : FileTree} {l : Location} (h : t.isDirAt l) : t.ensureDir l = t := by
  obtain ⟨m, hm⟩ := isDirAt_iff.mp h
  rw [ensureDir, hm]
  rfl

theorem fileAt?_eq_none_of_isDirAt {t : FileTree} {l : Location} (h : t.isDirAt l) :
    t.fileAt? l = none := by
  obtain ⟨m, hm⟩ := isDirAt_iff.mp h
  rw [fileAt?, hm]
  rfl

/-- Directories along names, from one that is there: the first file on the way is an error and nothing is
made; otherwise all of them are there afterwards. -/
theorem makeDirs_names {t : FileTree} (ht : t.WellFormed) {l : Location} (hl : t.isDirAt l)
    {ss : List (List Char)} (hss : ∀ s ∈ ss, IsName s) :
    t.makeDirs false l ss =
      match t.blockage l ss with
      | some e => (t, .error e)
      | none => ((way l ss).foldl ensureDir t, .ok ()) := by
  split
  · next e he => exact makeDirs_of_blockage ht hl hss he
  · next hnone =>
    have hclear : ∀ k ∈ l :: way l ss, t.fileAt? k = none :=
      List.forall_mem_cons.mpr ⟨fileAt?_eq_none_of_isDirAt hl, blockage_eq_none_iff.mp hnone⟩
    rw [makeDirs_of_clear hss hclear, List.foldl_cons, ensureDir_of_isDirAt hl]

theorem isDirAt_ensureDir {t : FileTree} {l k : Location} :
    (t.ensureDir l).isDirAt k = (t.isDirAt k || (decide (k = l) && (t.get? l).isNone)) := by
  unfold ensureDir
  cases hget : t.get? l with
  | some e => rw [Option.isNone_some, if_neg Bool.false_ne_true, Bool.and_false, Bool.or_false]
  | none =>
    rw [Option.isNone_none, if_pos rfl, isDirAt_add (ne_nil_of_get?_eq_none hget), Bool.and_true]
    by_cases hk : k = l
    · rw [if_pos hk, decide_eq_true hk, Bool.or_true]
      rfl
    · rw [if_neg hk, decide_eq_false hk, Bool.or_false]

theorem WellFormed.ensureDir {t : FileTree} (ht : t.WellFormed) {l : Location}
    (hdir : t.isDirAt l.tail) : (t.ensureDir l).WellFormed := by
  unfold FileTree.ensureDir
  cases hget : t.get? l with
  | some e => exact ht
  | none => exact ht.add (ne_nil_of_get?_eq_none hget) hget hdir _

theorem isDirAt_ensureDir_self {t : FileTree} {l : Location} (h : t.fileAt? l = none) :
    (t.ensureDir l).isDirAt l := by
  rw [isDirAt_ensureDir]
  cases hget : t.get? l with
  | none => rw [decide_eq_true rfl, Option.isNone_none, Bool.and_true, Bool.or_true]
  | some e =>
    cases e with
    | dir m => rw [isDirAt_iff.mpr ⟨m, hget⟩, Bool.true_or]
    | file content m =>
      have hfile := isSome_fileAt?_iff.mpr ⟨content, m, hget⟩
      rw [h] at hfile
      cases hfile

/-- A property that each new directory on a way keeps, if it is put into a directory. -/
theorem foldl_ensureDir_induction {P : FileTree → Prop} {t : FileTree} {l : Location}
    {ss : List (List Char)} (hl : t.isDirAt l) (hclear : t.blockage l ss = none) (ht : P t)
    (hstep : ∀ t' k, k ∈ way l ss → t'.isDirAt k.tail → P t' → P (t'.ensureDir k)) :
    P ((way l ss).foldl ensureDir t) ∧ ((way l ss).foldl ensureDir t).isDirAt (down l ss) := by
  induction ss generalizing t l with
  | nil => exact ⟨ht, hl⟩
  | cons s ss ih =>
    have hfiles := blockage_eq_none_iff.mp hclear
    rw [way, List.forall_mem_cons] at hfiles
    rw [way, List.foldl_cons, down_cons]
    refine ih (isDirAt_ensureDir_self hfiles.1) ?_ (hstep t _ List.mem_cons_self hl ht) ?_
    · rw [blockage_eq_none_iff]
      intro k hk
      rw [← Option.not_isSome_iff_eq_none, isSome_fileAt?_ensureDir, Option.not_isSome_iff_eq_none]
      exact hfiles.2 k hk
    · intro t' k hk
      exact hstep t' k (List.mem_cons_of_mem _ hk)

@[simp] theorem workingDir_ensureDir (t : FileTree) (l : Location) :
    (t.ensureDir l).workingDir = t.workingDir := by
  unfold ensureDir
  split
  · exact workingDir_add t l _
  · rfl

theorem WellFormed.isDirAt_tail {t : FileTree} (ht : t.WellFormed) {l : Location} (hl : t.isDirAt l) :
    t.isDirAt l.tail := by
  cases l with
  | nil => exact hl
  | cons name l =>
    obtain ⟨m, hm⟩ := isDirAt_iff.mp hl
    exact ht name l (by rw [hm]; rfl)

/-- After a step from a directory there is a directory above. -/
theorem WellFormed.isDirAt_tail_stepTo {t : FileTree} (ht : t.WellFormed) {l : Location}
    (hl : t.isDirAt l) (s : List Char) : t.isDirAt (stepTo l s).tail := by
  unfold stepTo
  split
  · exact ht.isDirAt_tail hl
  · split
    · exact ht.isDirAt_tail (ht.isDirAt_tail hl)
    · exact hl

theorem fileAt?_eq_none_of_get? {t : FileTree} {l : Location} (h : t.get? l = none) :
    t.fileAt? l = none := by
  rw [fileAt?, h]
  rfl

theorem makeDirs_nil_eq_ok {t t' : FileTree} {made : Bool} {l : Location}
    (h : t.makeDirs made l [] = (t', .ok ())) : t.fileAt? l = none ∧ t' = t.ensureDir l := by
  rw [makeDirs] at h
  split at h
  · next hnone =>
    cases h
    rw [ensureDir, hnone]
    exact ⟨fileAt?_eq_none_of_get? hnone, rfl⟩
  · cases h
  · next m hm =>
    cases h
    have hdir := isDirAt_iff.mpr ⟨m, hm⟩
    exact ⟨fileAt?_eq_none_of_isDirAt hdir, (ensureDir_of_isDirAt hdir).symm⟩

theorem makeDirs_cons_eq_ok {t t' : FileTree} {made : Bool} {l : Location} {s : List Char}
    {ss : List (List Char)} (h : t.makeDirs made l (s :: ss) = (t', .ok ())) :
    t.fileAt? l = none ∧ ∃ made', (t.ensureDir l).makeDirs made' (stepTo l s) ss = (t', .ok ()) := by
  rw [makeDirs] at h
  split at h
  · next hnone =>
    rw [ensureDir, hnone]
    split at h
    · cases h
    · exact ⟨fileAt?_eq_none_of_get? hnone, true, h⟩
  · cases h
  · next m hm =>
    have hdir := isDirAt_iff.mpr ⟨m, hm⟩
    rw [ensureDir_of_isDirAt hdir]
    exact ⟨fileAt?_eq_none_of_isDirAt hdir, made, h⟩

/-- Where directories could be made the way is open, and no directory is gone. -/
theorem makeDirs_eq_ok {t t' : FileTree} (ht : t.WellFormed) {made : Bool} {l : Location}
    (hl : t.isDirAt l.tail) {ss : List (List Char)} (h : t.makeDirs made l ss = (t', .ok ())) :
    t'.WellFormed ∧ t'.workingDir = t.workingDir ∧ (∀ k, t.isDirAt k → t'.isDirAt k) ∧
      ∃ k, t'.walk l ss = .ok k ∧ t'.isDirAt k := by
  have hkept {t : FileTree} {l k : Location} (hk : t.isDirAt k) : (t.ensureDir l).isDirAt k := by
    rw [isDirAt_ensureDir, hk, Bool.true_or]
  induction ss generalizing t made l with
  | nil =>
    obtain ⟨hfile, rfl⟩ := makeDirs_nil_eq_ok h
    exact ⟨ht.ensureDir hl, workingDir_ensureDir t l, fun _ => hkept, l, rfl, isDirAt_ensureDir_self hfile⟩
  | cons s ss ih =>
    obtain ⟨hfile, made', h⟩ := makeDirs_cons_eq_ok h
    have hdir := isDirAt_ensureDir_self hfile
    have hwf := ht.ensureDir hl
    obtain ⟨ht', hworking, hdirs, k, hwalk, hk⟩ := ih hwf (hwf.isDirAt_tail_stepTo hdir s) h
    refine ⟨ht', hworking.trans (workingDir_ensureDir t l), fun j hj => hdirs j (hkept hj), k, ?_, hk⟩
    rw [walk_cons (hdirs l hdir), hwalk]

end FileTree

end GoScribe
