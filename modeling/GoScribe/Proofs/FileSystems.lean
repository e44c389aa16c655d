import GoScribe.Proofs.TreeGrowth

/-!
# Trees as file systems have them

A file system has one entry at a location, and its entries have proper names.  Making directories keeps it so.
The names that a directory lists can be put behind its path, and lead to the entries in it.
-/

namespace GoScribe

open GoScribe.Path

namespace FileTree

/-- The text can be the name of an entry. -/
def IsFileName (name : String) : Prop := IsName name.toList ∧ '/' ∉ name.toList

instance (name : String) : Decidable (IsFileName name) :=
  inferInstanceAs (Decidable (componentOf? name.toList = _ ∧ '/' ∉ name.toList))

/-- The tree is one that a file system can have. -/
structure IsFileSystem (t : FileTree) : Prop where
  wellFormed : t.WellFormed
  isDirAt_workingDir : t.isDirAt t.workingDir
  nodup : (t.entries.map Prod.fst).Nodup
  isFileName : ∀ x ∈ t.entries, ∀ name ∈ x.1.head?, IsFileName name

/-! ## Making directories -/

theorem map_fst_putEntry (l : Location) (e : Entry) (es : List (Location × Entry)) :
    (putEntry l e es).map Prod.fst =
      if l ∈ es.map Prod.fst then es.map Prod.fst else es.map Prod.fst ++ [l] := by
  induction es with
  | nil => rfl
  | cons x es ih =>
    obtain ⟨k, d⟩ := x
    rw [putEntry]
    by_cases hk : k = l
    · rw [if_pos (beq_iff_eq.mpr hk), hk]
      exact (if_pos List.mem_cons_self).symm
    · rw [if_neg (mt beq_iff_eq.mp hk), List.map_cons, List.map_cons, ih]
      have hmem : l ∈ k :: es.map Prod.fst ↔ l ∈ es.map Prod.fst :=
        ⟨fun h => (List.mem_cons.mp h).resolve_left (Ne.symm hk), List.mem_cons_of_mem _⟩
      by_cases hl : l ∈ es.map Prod.fst
      · rw [if_pos hl, if_pos (hmem.mpr hl)]
      · rw [if_neg hl, if_neg (mt hmem.mp hl), List.cons_append]

theorem mem_map_fst_iff {t : FileTree} {l : Location} (hl : l ≠ []) :
    l ∈ t.entries.map Prod.fst ↔ (t.get? l).isSome := by
  rw [get?_of_ne_nil hl, List.lookup_isSome_iff, List.mem_map]
  constructor
  · rintro ⟨x, hx, heq⟩
    exact ⟨x, hx, beq_iff_eq.mpr heq.symm⟩
  · rintro ⟨x, hx, heq⟩
    exact ⟨x, hx, (beq_iff_eq.mp heq).symm⟩

/-- A new entry is listed behind the others. -/
theorem map_fst_add {t : FileTree} {l : Location} (hnone : t.get? l = none) (e : Entry) :
    (t.add l e).entries.map Prod.fst = t.entries.map Prod.fst ++ [l] := by
  have hl := ne_nil_of_get?_eq_none hnone
  have hchanged : (t.markChanged l.tail).entries.map Prod.fst = t.entries.map Prod.fst := by
    unfold markChanged
    split
    · next e he =>
      have hsome : (t.entries.lookup l.tail).isSome := by rw [he]; rfl
      rw [List.lookup_isSome_iff] at hsome
      obtain ⟨x, hx, heq⟩ := hsome
      rw [put, map_fst_putEntry, if_pos (List.mem_map.mpr ⟨x, hx, (beq_iff_eq.mp heq).symm⟩)]
    · rfl
  have hnot : l ∉ t.entries.map Prod.fst := by
    rw [mem_map_fst_iff hl, hnone]
    exact Bool.false_ne_true
  rw [add, put, map_fst_putEntry, hchanged, if_neg hnot]

namespace IsFileSystem

variable {t : FileTree} (ht : t.IsFileSystem)

include ht

theorem isFileName_of_isSome {name : String} {l : Location} (h : (t.get? (name :: l)).isSome) :
    IsFileName name := by
  obtain ⟨x, hx, heq⟩ := List.mem_map.mp ((mem_map_fst_iff (List.cons_ne_nil name l)).mpr h)
  exact ht.isFileName x hx name (by rw [heq]; rfl)

/-- All names on the way to an entry are proper ones. -/
theorem isFileName_of_mem {l : Location} (h : (t.get? l).isSome) {name : String} (hname : name ∈ l) :
    IsFileName name := by
  induction l with
  | nil => cases hname
  | cons first l ih =>
    rcases List.mem_cons.mp hname with rfl | hname
    · exact ht.isFileName_of_isSome h
    · obtain ⟨m, hm⟩ := isDirAt_iff.mp (ht.wellFormed first l h)
      exact ih (by rw [hm]; rfl) hname

theorem ensureDir {l : Location} (hdir : t.isDirAt l.tail) (hname : ∀ name ∈ l.head?, IsFileName name) :
    (t.ensureDir l).IsFileSystem := by
  have hextends := (Extends.refl ht.wellFormed).ensureDir hdir
  refine ⟨hextends.wellFormed, hextends.isDirAt_workingDir ht.isDirAt_workingDir, ?_, ?_⟩
  · unfold FileTree.ensureDir
    cases hget : t.get? l with
    | some e => exact ht.nodup
    | none =>
      have hnot : l ∉ t.entries.map Prod.fst := by
        rw [mem_map_fst_iff (ne_nil_of_get?_eq_none hget), hget]
        exact Bool.false_ne_true
      -- There was no entry at the location of the new one.
      rw [Option.isNone_none, if_pos rfl, map_fst_add hget]
      refine List.nodup_append.mpr ⟨ht.nodup, List.pairwise_singleton _ _, fun k hk k' hk' heq => hnot ?_⟩
      rw [← List.mem_singleton.mp hk', ← heq]
      exact hk
  · unfold FileTree.ensureDir
    cases hget : t.get? l with
    | some e => exact ht.isFileName
    | none =>
      rw [Option.isNone_none, if_pos rfl]
      intro x hx
      have hkey := List.mem_map_of_mem (f := Prod.fst) hx
      rw [map_fst_add hget, List.mem_append, List.mem_singleton] at hkey
      rcases hkey with hkey | hkey
      · obtain ⟨y, hy, heq⟩ := List.mem_map.mp hkey
        rw [← heq]
        exact ht.isFileName y hy
      · rw [hkey]
        exact hname

end IsFileSystem

/-- A segment that leads down is a proper name, if there is no slash in it. -/
theorem isFileName_of_mem_stepTo {l : Location} {s : List Char} (hs : '/' ∉ s)
    (hl : ∀ name ∈ l, IsFileName name) : ∀ name ∈ stepTo l s, IsFileName name := by
  intro name hname
  unfold stepTo at hname
  split at hname
  · exact hl name hname
  · next hdot =>
    split at hname
    · exact hl name (List.mem_of_mem_tail hname)
    · next hdots =>
      rcases List.mem_cons.mp hname with rfl | hname
      · -- Neither empty nor one dot nor two: it is a name.
        rw [IsFileName, String.toList_ofList]
        refine ⟨?_, hs⟩
        rw [Bool.or_eq_true, decide_eq_true_iff, decide_eq_true_iff, not_or] at hdot
        unfold IsName componentOf?
        split
        · exact absurd rfl hdot.1
        · exact absurd rfl hdot.2
        · exact absurd rfl hdots
        · rfl
      · exact hl name hname

theorem isFileName_of_mem_stops {l k : Location} {ss : List (List Char)} (hss : ∀ s ∈ ss, '/' ∉ s)
    (hl : ∀ name ∈ l, IsFileName name) (hk : k ∈ stops l ss) : ∀ name ∈ k, IsFileName name := by
  induction ss generalizing l with
  | nil =>
    rw [List.mem_singleton.mp hk]
    exact hl
  | cons s ss ih =>
    rw [List.forall_mem_cons] at hss
    rcases List.mem_cons.mp hk with rfl | hk
    · exact hl
    · exact ih hss.2 (isFileName_of_mem_stepTo hss.1 hl) hk

/-- Making directories makes no other tree than a file system can have. -/
theorem IsFileSystem.makeDir {t : FileTree} (ht : t.IsFileSystem) (dir : Path) :
    (makeDir t dir).1.IsFileSystem := by
  have hstart : ∀ name ∈ t.start dir, IsFileName name := by
    unfold start
    split
    · exact fun name hname => (List.not_mem_nil hname).elim
    · obtain ⟨m, hm⟩ := isDirAt_iff.mp ht.isDirAt_workingDir
      exact fun name hname => ht.isFileName_of_mem (by rw [hm]; rfl) hname
  have hsegments : ∀ s ∈ segments dir, '/' ∉ s := by
    intro s hs
    obtain ⟨empty, hsplit, -⟩ := exists_splitOn_eq_segments dir
    exact Text.not_mem_of_mem_splitOn (hsplit ▸ List.mem_append_left _ hs)
  refine makeDir_induction (P := IsFileSystem) ht.wellFormed ht.isDirAt_workingDir dir ht ?_
  intro t' k hk _ hdir ht'
  refine ht'.ensureDir hdir fun name hname => ?_
  exact isFileName_of_mem_stops hsegments hstart hk name (List.mem_of_mem_head? hname)

/-! ## The names in a directory -/

theorem mem_names_iff {t : FileTree} {l : Location} {name : String} :
    name ∈ (t.children l).map Prod.fst ↔ (t.get? (name :: l)).isSome := by
  rw [map_fst_children, List.mem_mergeSort, List.mem_filterMap, ← mem_map_fst_iff (List.cons_ne_nil name l),
    List.mem_map]
  constructor
  · rintro ⟨⟨k, e⟩, hx, hname⟩
    refine ⟨(k, e), hx, ?_⟩
    split at hname
    · next htail =>
      obtain ⟨above, rfl⟩ := List.head?_eq_some_iff.mp hname
      rw [← htail]
      rfl
    · cases hname
  · rintro ⟨⟨k, e⟩, hx, rfl⟩
    exact ⟨_, hx, if_pos rfl⟩

theorem IsFileSystem.nodup_names {t : FileTree} (ht : t.IsFileSystem) (l : Location) :
    ((t.children l).map Prod.fst).Nodup := by
  rw [map_fst_children, (List.mergeSort_perm _ _).nodup_iff]
  -- Two entries of one directory that have the same name are at the same location.
  refine (List.pairwise_map.mp ht.nodup).filterMap _ fun x y hne name hname name' hname' heq => hne ?_
  split at hname
  · next htail =>
    split at hname'
    · next htail' =>
      obtain ⟨above, hx⟩ := List.head?_eq_some_iff.mp hname
      obtain ⟨above', hy⟩ := List.head?_eq_some_iff.mp hname'
      rw [hx] at htail ⊢
      rw [hy] at htail' ⊢
      rw [heq, show above = above' from htail.trans htail'.symm]
    · cases hname'
  · cases hname

theorem pairwise_names (t : FileTree) (l : Location) :
    ((t.children l).map Prod.fst).Pairwise (· ≤ ·) := by
  rw [map_fst_children]
  exact pairwise_mergeSort_on id _

/-! ## Paths to entries of a directory -/

theorem IsFileName.steps_eq {name : String} (h : IsFileName name) :
    (Path.mk name).steps = [name.toList] := by
  rw [Path.steps, Text.splitOn_of_not_mem h.2, List.filter_cons_of_pos (isStep_of_isName h.1),
    List.filter_nil]

theorem IsFileName.isAbsolute_eq {name : String} (h : IsFileName name) :
    (Path.mk name).isAbsolute = false := by
  rw [Path.isAbsolute, decide_eq_false]
  intro hhead
  exact h.2 (List.mem_of_mem_head? hhead)

/-- A proper name behind a path leads one step further. -/
theorem IsFileName.goesOn_join {name : String} (h : IsFileName name) {base p : Path}
    {ss : List (List Char)} (hsteps : p.steps = base.steps ++ ss)
    (habsolute : p.isAbsolute = base.isAbsolute) (hss : ∀ s ∈ ss, IsName s) :
    GoesOn base (ss ++ [name.toList]) (p.join ⟨name⟩) := by
  have hsplit : Text.splitOn '/' (Path.mk name).text.toList = [name.toList] := Text.splitOn_of_not_mem h.2
  refine ⟨?_, ?_, ?_, ?_⟩
  · rw [steps_join h.isAbsolute_eq, h.steps_eq, hsteps, List.append_assoc]
  · rw [isAbsolute_join, h.isAbsolute_eq, Bool.false_or, habsolute]
  · by_cases hp : p.text = ""
    · rw [join_of_text_eq hp, hsplit]
      exact ⟨[], _, rfl, isStep_of_isName h.1⟩
    · obtain ⟨cs, htext, -⟩ := exists_text_join h.isAbsolute_eq hp
      rw [htext, Text.splitOn_append, hsplit]
      exact ⟨_, _, rfl, isStep_of_isName h.1⟩
  · intro s hs
    rcases List.mem_append.mp hs with hs | hs
    · exact hss s hs
    · rw [List.mem_singleton.mp hs]
      exact h.1

/-- The text of the file at a location. -/
def textAt? (t : FileTree) (l : Location) : Option String :=
  match t.fileAt? l with
  | some (.file content _) => String.fromUTF8? content
  | _ => none

section

variable {t : FileTree} {base p : Path} {l : Location} {ss : List (List Char)}

theorem GoesOn.isDir_eq (hp : GoesOn base ss p) (h : t.HasRoot base l) :
    t.isDir p = t.isDirAt (down l ss) := by
  rw [isDir, isDirAt, ← hp.toOption_stat h]
  cases t.stat p with
  | error e => rfl
  | ok e => cases e <;> rfl

theorem GoesOn.isFile_eq (hp : GoesOn base ss p) (h : t.HasRoot base l) :
    t.isFile p = (t.fileAt? (down l ss)).isSome := by
  rw [isFile, fileAt?, ← hp.toOption_stat h]
  cases t.stat p with
  | error e => rfl
  | ok e => cases e <;> rfl

/-- A file can be read if it is a text. -/
theorem GoesOn.readText_eq (hp : GoesOn base ss p) (h : t.HasRoot base l)
    (hfile : (t.fileAt? (down l ss)).isSome) :
    t.readText p = (t.textAt? (down l ss)).elim (.error .invalidData) .ok := by
  obtain ⟨content, m, hget⟩ := isSome_fileAt?_iff.mp hfile
  have hstat : t.stat p = pure (.file content m) := by
    have hoption := hp.toOption_stat h
    rw [hget] at hoption
    cases hstat : t.stat p with
    | error e =>
      rw [hstat] at hoption
      cases hoption
    | ok e =>
      rw [hstat] at hoption
      cases hoption
      rfl
  have hread : t.readFile p = pure content := by
    rw [readFile, hstat, pure_bind]
  have htext : t.textAt? (down l ss) = String.fromUTF8? content := by
    rw [textAt?, fileAt?, hget]
    rfl
  rw [readText, hread, pure_bind, htext]
  cases String.fromUTF8? content <;> rfl

/-- A path that leads to a directory is the root of paths that go on from it. -/
theorem hasRoot_of_isDir (ht : t.WellFormed) (h : t.isDir p) :
    ∃ d, t.locate p = .ok d ∧ t.HasRoot p d := by
  unfold isDir at h
  split at h
  · next m hstat =>
    cases hlocate : t.locate p with
    | error e =>
      rw [FileTree.stat, hlocate] at hstat
      cases hstat
    | ok d =>
      have hpure : t.locate p = pure d := hlocate
      rw [FileTree.stat, hpure, pure_bind] at hstat
      have hdir : t.isDirAt d := by
        split at hstat
        · cases hstat
        · split at hstat <;> cases hstat
        · next e hget =>
          cases hstat
          exact isDirAt_iff.mpr ⟨m, hget⟩
      exact ⟨d, rfl, ht, isAt_of_locate hlocate, hdir⟩
  · cases h

/-- A directory lists its entries. -/
theorem readDir_eq (h : t.isDir p) {d : Location} (hlocate : t.locate p = .ok d) :
    t.readDir p = .ok (t.children d) := by
  unfold isDir at h
  split at h
  · next m hstat =>
    rw [readDir, hstat, hlocate]
    rfl
  · cases h

end

end FileTree

end GoScribe
