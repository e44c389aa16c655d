import GoScribe.Proofs.OutputFiles
import GoScribe.Proofs.TreeReads

/-!
# Regions of a file tree

A region is a location `r` and all that is below it.  Two trees are alike for a region below `b` if they agree
outside `b` and in the region, and have files at the same places on the way to it (`Alike`).  A file that is
installed in the region is installed with the same outcome in alike trees, and they stay alike
(`GoesOn.install_alike`); for every region apart from it nothing changes (`GoesOn.changedWithin_install`).
-/

namespace GoScribe

open GoScribe.Path

namespace FileTree

/-! ## Changes below a directory -/

theorem StrictlyBelow.ne_nil {b l : Location} (h : StrictlyBelow b l) : l ≠ [] := by
  rintro rfl
  exact h.2 (List.suffix_nil.mp h.1).symm

theorem StrictlyBelow.suffix_tail {b l : Location} (h : StrictlyBelow b l) : b <:+ l.tail := by
  cases l with
  | nil => exact absurd rfl h.ne_nil
  | cons name l => exact strictlyBelow_cons.mp h

theorem outside_cons (b k : Location) (e : Entry) (es : List (Location × Entry)) :
    outside b ((k, e) :: es) =
      if StrictlyBelow b k then outside b es
      else (k, if k = b then e.touch 0 else e) :: outside b es := by
  unfold outside
  by_cases hk : StrictlyBelow b k
  · rw [if_pos hk, List.filter_cons_of_neg (by simpa using hk)]
  · rw [if_neg hk, List.filter_cons_of_pos (by simpa using hk), List.map_cons]

theorem outside_putEntry {b l : Location} (hl : StrictlyBelow b l) (e : Entry)
    (es : List (Location × Entry)) : outside b (putEntry l e es) = outside b es := by
  induction es with
  | nil => rw [putEntry, outside_cons, if_pos hl]
  | cons x es ih =>
    obtain ⟨k, d⟩ := x
    rw [putEntry]
    by_cases hk : k = l
    · rw [if_pos (beq_iff_eq.mpr hk), outside_cons, outside_cons, hk, if_pos hl, if_pos hl]
    · rw [if_neg (mt beq_iff_eq.mp hk), outside_cons, outside_cons, ih]

theorem touch_touch (e : Entry) (time time' : Nat) : (e.touch time).touch time' = e.touch time' := by
  cases e <;> rfl

theorem outside_putEntry_touch {b : Location} {e : Entry} {es : List (Location × Entry)}
    (h : es.lookup b = some e) (time : Nat) :
    outside b (putEntry b (e.touch time) es) = outside b es := by
  induction es with
  | nil => cases h
  | cons x es ih =>
    obtain ⟨k, d⟩ := x
    rw [List.lookup_cons] at h
    rw [putEntry]
    by_cases hk : k = b
    · rw [hk, beq_self_eq_true] at h
      cases h
      rw [if_pos (beq_iff_eq.mpr hk), outside_cons, outside_cons, hk, if_pos rfl, if_pos rfl, touch_touch]
    · rw [beq_eq_false_iff_ne.mpr (Ne.symm hk)] at h
      rw [if_neg (mt beq_iff_eq.mp hk), outside_cons, outside_cons, ih h]

theorem outside_markChanged {b l : Location} (hl : b <:+ l) (t : FileTree) :
    outside b (t.markChanged l).entries = outside b t.entries := by
  unfold markChanged
  split
  · next e he =>
    by_cases hlb : l = b
    · subst hlb
      exact outside_putEntry_touch he t.clock
    · exact outside_putEntry ⟨hl, hlb⟩ _ _
  · rfl

section

variable {b l : Location} {t : FileTree} (hb : t.isDirAt b) (hl : StrictlyBelow b l)

include hb hl

theorem agreeOutside_put (e : Entry) : AgreeOutside b t (t.put l e) where
  clock_eq := rfl
  workingDir_eq := rfl
  entries_eq := outside_putEntry hl e t.entries
  isDirAt_left := hb
  isDirAt_right := by
    rw [isDirAt, get?_put hl.ne_nil, if_neg (Ne.symm hl.2)]
    exact hb

theorem agreeOutside_add (e : Entry) : AgreeOutside b t (t.add l e) where
  clock_eq := clock_add t l e
  workingDir_eq := workingDir_add t l e
  entries_eq := (outside_putEntry hl e _).trans (outside_markChanged hl.suffix_tail t)
  isDirAt_left := hb
  isDirAt_right := by
    rw [isDirAt_add hl.ne_nil, if_neg (Ne.symm hl.2)]
    exact hb

theorem agreeOutside_ensureDir : AgreeOutside b t (t.ensureDir l) := by
  unfold ensureDir
  split
  · exact agreeOutside_add hb hl _
  · exact .refl hb

theorem agreeOutside_writeAt (content : ByteArray) : AgreeOutside b t (t.writeAt l content) := by
  unfold writeAt
  split
  · exact agreeOutside_put hb hl _
  · exact agreeOutside_add hb hl _

end

/-! ## Files elsewhere -/

theorem fileAt?_ensureDir {t : FileTree} {l : Location} (hdir : t.isDirAt l.tail) (k : Location) :
    (t.ensureDir l).fileAt? k = t.fileAt? k := by
  unfold ensureDir
  cases hget : t.get? l with
  | some e => rfl
  | none =>
    have hl := ne_nil_of_get?_eq_none hget
    rw [Option.isNone_none, if_pos rfl]
    by_cases hk : k = l
    · rw [fileAt?, get?_add hl, if_pos hk, fileAt?, hk, hget]
      rfl
    · exact fileAt?_add hl hdir hk

theorem get?_ensureDir_of_ne {t : FileTree} {l k : Location} (hk : k ≠ l) (hktail : k ≠ l.tail) :
    (t.ensureDir l).get? k = t.get? k := by
  unfold ensureDir
  cases hget : t.get? l with
  | some e => rfl
  | none =>
    rw [Option.isNone_none, if_pos rfl, get?_add (ne_nil_of_get?_eq_none hget), if_neg hk, if_neg hktail]

section

variable {t : FileTree} {l : Location} (hl : l ≠ [])

include hl

theorem get?_writeAt (content : ByteArray) (k : Location) :
    (t.writeAt l content).get? k =
      if k = l then some (.file content t.clock)
      else if k = l.tail ∧ t.get? l = none then (t.get? k).map (Entry.touch t.clock) else t.get? k := by
  unfold writeAt
  cases hget : t.get? l with
  | none =>
    rw [Option.isSome_none, if_neg Bool.false_ne_true, get?_add hl]
    simp only [and_true]
  | some e =>
    rw [Option.isSome_some, if_pos rfl, get?_put hl]
    simp only [reduceCtorEq, and_false, if_false]

theorem fileAt?_writeAt (hdir : t.isDirAt l.tail) {k : Location} (hk : k ≠ l) (content : ByteArray) :
    (t.writeAt l content).fileAt? k = t.fileAt? k := by
  unfold writeAt
  split
  · rw [fileAt?, get?_put hl, if_neg hk, fileAt?]
  · exact fileAt?_add hl hdir hk

theorem isSome_fileAt?_writeAt {k : Location} (hk : k ≠ l) (content : ByteArray) :
    ((t.writeAt l content).fileAt? k).isSome = (t.fileAt? k).isSome := by
  rw [fileAt?, get?_writeAt hl, if_neg hk, fileAt?]
  split
  · cases t.get? k with
    | none => rfl
    | some e => cases e <;> rfl
  · rfl

theorem isDirAt_writeAt (hfile : t.isDirAt l = false) (content : ByteArray) (k : Location) :
    (t.writeAt l content).isDirAt k = t.isDirAt k := by
  rw [isDirAt, get?_writeAt hl, isDirAt]
  by_cases hk : k = l
  · rw [if_pos hk, hk]
    exact hfile.symm
  · rw [if_neg hk]
    split
    · cases t.get? k with
      | none => rfl
      | some e => cases e <;> rfl
    · rfl

omit hl in
theorem workingDir_writeAt (content : ByteArray) : (t.writeAt l content).workingDir = t.workingDir := by
  unfold writeAt
  split
  · rfl
  · exact workingDir_add t l _

theorem WellFormed.writeAt (ht : t.WellFormed) (hdir : t.isDirAt l.tail) (hfile : t.isDirAt l = false)
    (content : ByteArray) : (t.writeAt l content).WellFormed := by
  unfold FileTree.writeAt
  split
  · next hsome => exact ht.put_file hl hsome hfile content t.clock
  · next hnone => exact ht.add hl (Option.not_isSome_iff_eq_none.mp hnone) hdir _

theorem HasRoot.writeAt {base : Path} {b : Location} (h : t.HasRoot base b) (hdir : t.isDirAt l.tail)
    (hfile : t.isDirAt l = false) (content : ByteArray) : (t.writeAt l content).HasRoot base b := by
  refine h.of_isDirAt (h.wellFormed.writeAt hl hdir hfile content) (fun k hk => ?_)
    (workingDir_writeAt content)
  rw [isDirAt_writeAt hl hfile, hk]

end

/-! ## Alike trees -/

/-- The trees differ only below the directory `b`; they do not in the region at `r`, and they have files at the
same places on the way to it. -/
structure Alike (b r : Location) (t t' : FileTree) : Prop where
  agree : AgreeOutside b t t'
  get?_eq : ∀ l, r <:+ l → t'.get? l = t.get? l
  isSome_fileAt?_eq : ∀ l, l <:+ r → (t'.fileAt? l).isSome = (t.fileAt? l).isSome

/-- A way with files at the same places is blocked by the same file. -/
theorem blockage_eq_of_files {t t' : FileTree} {l : Location} {ss : List (List Char)}
    (h : ∀ k, k <:+ down l ss → (t'.fileAt? k).isSome = (t.fileAt? k).isSome) :
    t'.blockage l ss = t.blockage l ss := by
  induction ss generalizing l with
  | nil => rfl
  | cons s ss ih =>
    rw [down_cons] at h
    rw [blockage, blockage, h _ (List.suffix_append _ _), ih h]

theorem Alike.refl {t : FileTree} {b : Location} (hb : t.isDirAt b) (r : Location) : Alike b r t t :=
  ⟨.refl hb, fun _ _ => rfl, fun _ _ => rfl⟩

theorem Alike.trans {b r : Location} {t t' t'' : FileTree} (h : Alike b r t t') (h' : Alike b r t' t'') :
    Alike b r t t'' :=
  ⟨h.agree.trans h'.agree, fun l hl => (h'.get?_eq l hl).trans (h.get?_eq l hl),
    fun l hl => (h'.isSome_fileAt?_eq l hl).trans (h.isSome_fileAt?_eq l hl)⟩

section

variable {b r : Location} {t t' : FileTree} (h : Alike b r t t')

include h

/-- The same new directory, or none if there was an entry already. -/
theorem Alike.ensureDir {l : Location} (hl : StrictlyBelow b l) :
    Alike b r (t.ensureDir l) (t'.ensureDir l) where
  agree := by
    have hdir := agreeOutside_ensureDir h.agree.isDirAt_left hl
    exact hdir.symm.trans (h.agree.trans (agreeOutside_ensureDir h.agree.isDirAt_right hl))
  get?_eq k hk := by
    by_cases hr : r <:+ l
    · unfold FileTree.ensureDir
      rw [h.get?_eq l hr]
      split
      · rw [get?_add hl.ne_nil, get?_add hl.ne_nil, h.agree.clock_eq, h.get?_eq k hk]
      · exact h.get?_eq k hk
    · -- Neither the directory nor the one it is in belongs to the region.
      have hne : k ≠ l := fun heq => hr (heq ▸ hk)
      have hnetail : k ≠ l.tail := fun heq => hr ((heq ▸ hk).trans (List.tail_suffix l))
      rw [get?_ensureDir_of_ne hne hnetail, get?_ensureDir_of_ne hne hnetail, h.get?_eq k hk]
  isSome_fileAt?_eq k hk := by
    rw [isSome_fileAt?_ensureDir, isSome_fileAt?_ensureDir, h.isSome_fileAt?_eq k hk]

theorem Alike.foldl_ensureDir {ls : List Location} (hls : ∀ l ∈ ls, StrictlyBelow b l) :
    Alike b r (ls.foldl FileTree.ensureDir t) (ls.foldl FileTree.ensureDir t') := by
  induction ls generalizing t t' with
  | nil => exact h
  | cons l ls ih =>
    rw [List.forall_mem_cons] at hls
    exact ih (h.ensureDir hls.1) hls.2

/-- The same file, in the region. -/
theorem Alike.writeAt {l : Location} (hl : StrictlyBelow b l) (hr : r <:+ l) (content : ByteArray) :
    Alike b r (t.writeAt l content) (t'.writeAt l content) where
  agree := by
    have hfile := agreeOutside_writeAt h.agree.isDirAt_left hl content
    exact hfile.symm.trans (h.agree.trans (agreeOutside_writeAt h.agree.isDirAt_right hl content))
  get?_eq k hk := by
    rw [get?_writeAt hl.ne_nil, get?_writeAt hl.ne_nil, h.get?_eq l hr, h.get?_eq k hk, h.agree.clock_eq]
  isSome_fileAt?_eq k hk := by
    by_cases hkl : k = l
    · rw [fileAt?, fileAt?, get?_writeAt hl.ne_nil, get?_writeAt hl.ne_nil, if_pos hkl, if_pos hkl]
      rfl
    · rw [isSome_fileAt?_writeAt hl.ne_nil hkl, isSome_fileAt?_writeAt hl.ne_nil hkl,
        h.isSome_fileAt?_eq k hk]

/-- A way that leads towards a location in the region is blocked by the same file. -/
theorem Alike.blockage_eq {l o : Location} {ss : List (List Char)} (hr : r <:+ o) (ho : down l ss <:+ o) :
    t'.blockage l ss = t.blockage l ss := by
  -- What is on the way to the location is in the region or on the way to it.
  refine blockage_eq_of_files fun k hk => ?_
  rcases List.suffix_or_suffix_of_suffix hr (hk.trans ho) with hrk | hkr
  · rw [fileAt?, h.get?_eq k hrk, fileAt?]
  · exact h.isSome_fileAt?_eq k hkr

end

section

variable {b r l : Location} {t : FileTree} (hb : t.isDirAt b) (hl : StrictlyBelow b l)

include hb hl

theorem alike_ensureDir (hr : ¬ r <:+ l) : Alike b r t (t.ensureDir l) where
  agree := agreeOutside_ensureDir hb hl
  get?_eq k hk := by
    refine get?_ensureDir_of_ne (fun heq => hr (heq ▸ hk)) fun heq => ?_
    exact hr ((heq ▸ hk).trans (List.tail_suffix l))
  isSome_fileAt?_eq k _ := isSome_fileAt?_ensureDir t l k

theorem alike_writeAt (hr : ¬ r <:+ l) (hlr : ¬ l <:+ r) (content : ByteArray) :
    Alike b r t (t.writeAt l content) where
  agree := agreeOutside_writeAt hb hl content
  get?_eq k hk := by
    have hne : k ≠ l := fun heq => hr (heq ▸ hk)
    have hnetail : k ≠ l.tail := fun heq => hr ((heq ▸ hk).trans (List.tail_suffix l))
    rw [get?_writeAt hl.ne_nil, if_neg hne, if_neg fun heq => hnetail heq.1]
  isSome_fileAt?_eq k hk := isSome_fileAt?_writeAt hl.ne_nil (fun heq => hlr (heq ▸ hk)) content

end

/-! ## Changes within a region -/

/-- Neither region is in the other. -/
def Apart (r r' : Location) : Prop := ¬ r <:+ r' ∧ ¬ r' <:+ r

theorem Apart.symm {r r' : Location} (h : Apart r r') : Apart r' r := ⟨h.2, h.1⟩

/-- What is in a region is neither in one apart from it nor on the way to that. -/
theorem Apart.of_suffix {r r' l : Location} (h : Apart r r') (hl : r <:+ l) : ¬ r' <:+ l ∧ ¬ l <:+ r' := by
  constructor
  · intro hr'
    rcases List.suffix_or_suffix_of_suffix hl hr' with hsuffix | hsuffix
    · exact h.1 hsuffix
    · exact h.2 hsuffix
  · exact fun hr' => h.1 (hl.trans hr')

/-- The second tree is like the first but for the region at `r`, and the directories on the way to it. -/
structure ChangedWithin (base : Path) (b r : Location) (t t' : FileTree) : Prop where
  hasRoot : t'.HasRoot base b
  agree : AgreeOutside b t t'
  fileAt?_eq : ∀ k, ¬ r <:+ k → t'.fileAt? k = t.fileAt? k
  alike : ∀ r', Apart r r' → Alike b r' t t'

theorem ChangedWithin.refl {base : Path} {b : Location} {t : FileTree} (ht : t.HasRoot base b)
    (r : Location) : ChangedWithin base b r t t :=
  ⟨ht, .refl ht.isDirAt, fun _ _ => rfl, fun r' _ => .refl ht.isDirAt r'⟩

theorem ChangedWithin.trans {base : Path} {b r : Location} {t t' t'' : FileTree}
    (h : ChangedWithin base b r t t') (h' : ChangedWithin base b r t' t'') :
    ChangedWithin base b r t t'' :=
  ⟨h'.hasRoot, h.agree.trans h'.agree, fun k hk => (h'.fileAt?_eq k hk).trans (h.fileAt?_eq k hk),
    fun r' hr' => (h.alike r' hr').trans (h'.alike r' hr')⟩

section

variable {base : Path} {b r k : Location} {t t' : FileTree} (h : ChangedWithin base b r t t')
  (hk : StrictlyBelow b k)

include h hk

theorem ChangedWithin.ensureDir (hdir : t'.isDirAt k.tail) (hr : ∀ r', Apart r r' → ¬ r' <:+ k) :
    ChangedWithin base b r t (t'.ensureDir k) :=
  h.trans {
    hasRoot := h.hasRoot.ensureDir hdir
    agree := agreeOutside_ensureDir h.hasRoot.isDirAt hk
    fileAt?_eq := fun j _ => fileAt?_ensureDir hdir j
    alike := fun r' hr' => alike_ensureDir h.hasRoot.isDirAt hk (hr r' hr') }

theorem ChangedWithin.writeAt (hr : r <:+ k) (hdir : t'.isDirAt k.tail) (hfile : t'.isDirAt k = false)
    (content : ByteArray) : ChangedWithin base b r t (t'.writeAt k content) := by
  have hother {j : Location} (hj : ¬ r <:+ j) : j ≠ k := by
    rintro rfl
    exact hj hr
  exact h.trans {
    hasRoot := h.hasRoot.writeAt hk.ne_nil hdir hfile content
    agree := agreeOutside_writeAt h.hasRoot.isDirAt hk content
    fileAt?_eq := fun j hj => fileAt?_writeAt hk.ne_nil hdir (hother hj) content
    alike := fun r' hr' =>
      alike_writeAt h.hasRoot.isDirAt hk (hr'.of_suffix hr).1 (hr'.of_suffix hr).2 content }

end

/-! ## Installing a file -/

theorem strictlyBelow_of_mem_way {b k : Location} {ss : List (List Char)} (hk : k ∈ way b ss) :
    StrictlyBelow b k :=
  ⟨(suffix_of_mem_way hk).1, (suffix_of_mem_way hk).2.1⟩

theorem strictlyBelow_down (b : Location) (ss : List (List Char)) (name : List Char) :
    StrictlyBelow b (down b (ss ++ [name])) := by
  rw [down_append]
  exact strictlyBelow_cons.mpr (List.suffix_append _ _)

theorem tail_down (b : Location) (ss : List (List Char)) (name : List Char) :
    (down b (ss ++ [name])).tail = down b ss := by
  rw [down_append]
  rfl

theorem down_suffix (b : Location) (ss : List (List Char)) (name : List Char) :
    down b ss <:+ down b (ss ++ [name]) := by
  rw [down_append]
  exact List.suffix_cons _ _

section

variable {base p : Path} {ss : List (List Char)} {name : List Char} (hp : GoesOn base (ss ++ [name]) p)
  {t : FileTree} {b : Location} (ht : t.HasRoot base b)

include hp ht

/-- What new directories on the way keep, and then a new file, is kept when a file is installed. -/
theorem GoesOn.install_induction {P : FileTree → Prop} (source : String) (hP : P t)
    (hdir : ∀ t' k, k ∈ way b ss → t'.isDirAt k.tail → P t' → P (t'.ensureDir k))
    (hfile : ∀ t', t'.isDirAt (down b ss) → t'.isDirAt (down b (ss ++ [name])) = false → P t' →
      P (t'.writeAt (down b (ss ++ [name])) source.toUTF8)) :
    P (install t p source).1 := by
  obtain ⟨d, hparent, hd⟩ := hp.exists_parent
  rw [hp.install_eq hparent (hd ht) ht]
  split
  · exact hP
  · next hclear =>
    obtain ⟨hdirs, hlast⟩ := foldl_ensureDir_induction ht.isDirAt hclear hP hdir
    split
    · exact hdirs
    · next hnot => exact hfile _ hlast (Bool.eq_false_iff.mpr hnot) hdirs

/-- A file that is installed in a region changes nothing elsewhere. -/
theorem GoesOn.changedWithin_install {r : Location} (hr : r <:+ down b (ss ++ [name])) (source : String) :
    ChangedWithin base b r t (install t p source).1 := by
  have hbelow := strictlyBelow_down b ss name
  refine hp.install_induction ht (P := ChangedWithin base b r t) source (.refl ht r) ?_ ?_
  · -- A directory on the way to the file is above it, and no region apart is.
    intro t' k hk hdir h
    refine h.ensureDir (strictlyBelow_of_mem_way hk) hdir fun r' hapart hr'k => ?_
    exact (hapart.of_suffix hr).1 (hr'k.trans ((suffix_of_mem_way hk).2.2.trans (down_suffix b ss name)))
  · intro t' hdir hfile h
    exact h.writeAt hbelow hr (tail_down b ss name ▸ hdir) hfile _

/-- In alike trees a file is installed with the same outcome, and they stay alike. -/
theorem GoesOn.install_alike {r : Location} {t' : FileTree} (ht' : t'.HasRoot base b)
    (h : Alike b r t t') (hr : r <:+ down b (ss ++ [name])) (source : String) :
    (install t' p source).2 = (install t p source).2 ∧
      Alike b r (install t p source).1 (install t' p source).1 := by
  have hbelow := strictlyBelow_down b ss name
  obtain ⟨d, hparent, hd⟩ := hp.exists_parent
  rw [hp.install_eq hparent (hd ht) ht, hp.install_eq hparent (hd ht') ht',
    h.blockage_eq hr (down_suffix b ss name)]
  split
  · exact ⟨rfl, h⟩
  · -- The directories on the way may be made in one tree and be there in the other; in the region they are the same.
    have hdirs := h.foldl_ensureDir fun k (hk : k ∈ way b ss) => strictlyBelow_of_mem_way hk
    rw [isDirAt, isDirAt, hdirs.get?_eq _ hr]
    split
    · exact ⟨rfl, hdirs⟩
    · exact ⟨rfl, hdirs.writeAt hbelow hr _⟩

end

end FileTree

end GoScribe
