import GoScribe.Files.Glob
import GoScribe.Proofs.TreeChanges

/-!
# What is read of a file tree

A path looks at the entries on its way, and a glob pattern also lists directories and whole trees below them.
`Look` says where; if none of it is strictly below a directory, then what is found is the same in every tree
that differs only there (`SameOutside`).
-/

namespace GoScribe

namespace FileTree

/-! ## Trees that differ only below a directory -/

/-- The location `l` is below the directory `b`, and not `b` itself. -/
def StrictlyBelow (b l : Location) : Prop := b <:+ l ∧ l ≠ b

instance (b l : Location) : Decidable (StrictlyBelow b l) := inferInstanceAs (Decidable (_ ∧ _))

theorem strictlyBelow_cons {b l : Location} {name : String} : StrictlyBelow b (name :: l) ↔ b <:+ l := by
  constructor
  · rintro ⟨hsuffix, hne⟩
    rcases List.suffix_cons_iff.mp hsuffix with heq | hsuffix
    · exact absurd heq.symm hne
    · exact hsuffix
  · intro hsuffix
    refine ⟨hsuffix.trans (List.suffix_cons _ _), ?_⟩
    rintro rfl
    exact absurd hsuffix.length_le (by simp)

/-- The entries that are not below `b`; the time of the last change of `b` is left open. -/
def outside (b : Location) (es : List (Location × Entry)) : List (Location × Entry) :=
  (es.filter fun x => ¬ StrictlyBelow b x.1).map fun x => (x.1, if x.1 = b then x.2.touch 0 else x.2)

/-- What does not depend on the entries below `b`, nor on the time of the last change of `b`, can be told from
those that are outside. -/
theorem filterMap_outside {α : Type} {b : Location} {f : Location × Entry → Option α}
    (hbelow : ∀ k e, StrictlyBelow b k → f (k, e) = none) (hbase : ∀ e, f (b, e.touch 0) = f (b, e))
    (es : List (Location × Entry)) : (outside b es).filterMap f = es.filterMap f := by
  rw [outside, List.filterMap_map, List.filterMap_filter]
  apply List.filterMap_congr
  rintro ⟨k, e⟩ -
  by_cases hk : StrictlyBelow b k
  · rw [if_neg (by simpa using hk), hbelow k e hk]
  · rw [if_pos (by simpa using hk), Function.comp_apply]
    by_cases hkb : k = b
    · rw [hkb, if_pos rfl, hbase]
    · rw [if_neg hkb]

theorem lookup_eq_head? (l : Location) (es : List (Location × Entry)) :
    es.lookup l = (es.filterMap fun x => if x.1 = l then some x.2 else none).head? := by
  induction es with
  | nil => rfl
  | cons x es ih =>
    rw [List.lookup_cons, List.filterMap_cons]
    by_cases hx : x.1 = l
    · rw [if_pos hx, hx, beq_self_eq_true]
      rfl
    · rw [if_neg hx, beq_eq_false_iff_ne.mpr (Ne.symm hx), ih]

/-- The trees differ only below the directory `b`, and perhaps in their clocks. -/
structure SameOutside (b : Location) (t t' : FileTree) : Prop where
  workingDir_eq : t'.workingDir = t.workingDir
  entries_eq : outside b t'.entries = outside b t.entries
  isDirAt_left : t.isDirAt b
  isDirAt_right : t'.isDirAt b

/-- The trees differ only below the directory `b`. -/
structure AgreeOutside (b : Location) (t t' : FileTree) : Prop extends SameOutside b t t' where
  clock_eq : t'.clock = t.clock

theorem SameOutside.trans {t t' t'' : FileTree} {b : Location} (h : SameOutside b t t')
    (h' : SameOutside b t' t'') : SameOutside b t t'' :=
  ⟨h'.workingDir_eq.trans h.workingDir_eq, h'.entries_eq.trans h.entries_eq, h.isDirAt_left,
    h'.isDirAt_right⟩

theorem AgreeOutside.refl {t : FileTree} {b : Location} (hb : t.isDirAt b) : AgreeOutside b t t :=
  ⟨⟨rfl, rfl, hb, hb⟩, rfl⟩

theorem AgreeOutside.symm {t t' : FileTree} {b : Location} (h : AgreeOutside b t t') :
    AgreeOutside b t' t :=
  ⟨⟨h.workingDir_eq.symm, h.entries_eq.symm, h.isDirAt_right, h.isDirAt_left⟩, h.clock_eq.symm⟩

theorem AgreeOutside.trans {t t' t'' : FileTree} {b : Location} (h : AgreeOutside b t t')
    (h' : AgreeOutside b t' t'') : AgreeOutside b t t'' :=
  ⟨h.toSameOutside.trans h'.toSameOutside, h'.clock_eq.trans h.clock_eq⟩

section

variable {b : Location} {t t' : FileTree} (h : SameOutside b t t')

include h

theorem SameOutside.filterMap_eq {α : Type} {f : Location × Entry → Option α}
    (hbelow : ∀ k e, StrictlyBelow b k → f (k, e) = none) (hbase : ∀ e, f (b, e.touch 0) = f (b, e)) :
    t'.entries.filterMap f = t.entries.filterMap f := by
  rw [← filterMap_outside hbelow hbase t.entries, ← h.entries_eq, filterMap_outside hbelow hbase]

theorem SameOutside.get?_eq {l : Location} (hl : ¬ StrictlyBelow b l) (hne : l ≠ b) (hnil : l ≠ []) :
    t'.get? l = t.get? l := by
  rw [get?_of_ne_nil hnil, get?_of_ne_nil hnil, lookup_eq_head?, lookup_eq_head?, h.filterMap_eq]
  · intro k e hk
    refine if_neg ?_
    rintro rfl
    exact hl hk
  · intro e
    rw [if_neg (Ne.symm hne), if_neg (Ne.symm hne)]

/-- The two directories that may have other times. -/
theorem SameOutside.isDirAt_of_eq {l : Location} (hl : l = b ∨ l = []) : t.isDirAt l ∧ t'.isDirAt l := by
  rcases hl with rfl | rfl
  · exact ⟨h.isDirAt_left, h.isDirAt_right⟩
  · exact ⟨isDirAt_nil t, isDirAt_nil t'⟩

theorem SameOutside.isDirAt_eq {l : Location} (hl : ¬ StrictlyBelow b l) :
    t'.isDirAt l = t.isDirAt l := by
  by_cases heq : l = b ∨ l = []
  · obtain ⟨hleft, hright⟩ := h.isDirAt_of_eq heq
    rw [hleft, hright]
  · rw [not_or] at heq
    rw [isDirAt, h.get?_eq hl heq.1 heq.2, isDirAt]

theorem SameOutside.isSome_get?_eq {l : Location} (hl : ¬ StrictlyBelow b l) :
    (t'.get? l).isSome = (t.get? l).isSome := by
  by_cases heq : l = b ∨ l = []
  · obtain ⟨hleft, hright⟩ := h.isDirAt_of_eq heq
    obtain ⟨m, hm⟩ := isDirAt_iff.mp hleft
    obtain ⟨m', hm'⟩ := isDirAt_iff.mp hright
    rw [hm, hm']
    rfl
  · rw [not_or] at heq
    rw [h.get?_eq hl heq.1 heq.2]

end

/-! ## Paths -/

/-- The locations that a walk looks at. -/
def trail (t : FileTree) (l : Location) : List (List Char) → List Location
  | [] => [l]
  | s :: ss => l :: if t.isDirAt l then trail t (stepTo l s) ss else []

/-- The locations that a path looks at. -/
def trailOf (t : FileTree) (p : Path) : List Location :=
  if p.text = "" then [] else trail t (t.start p) (segments p)

theorem mem_trail_of_walk {t : FileTree} {l k : Location} {ss : List (List Char)}
    (h : t.walk l ss = .ok k) : k ∈ trail t l ss := by
  induction ss generalizing l with
  | nil =>
    cases h
    exact List.mem_cons_self
  | cons s ss ih =>
    obtain ⟨hl, h⟩ := walk_cons_eq_ok h
    rw [trail, if_pos hl]
    exact List.mem_cons_of_mem _ (ih h)

section

variable {b : Location} {t t' : FileTree} (h : SameOutside b t t')

include h

theorem SameOutside.walk_eq {l : Location} {ss : List (List Char)}
    (htrail : ∀ k ∈ trail t l ss, ¬ StrictlyBelow b k) : t'.walk l ss = t.walk l ss := by
  induction ss generalizing l with
  | nil => rfl
  | cons s ss ih =>
    rw [trail, List.forall_mem_cons] at htrail
    by_cases hdir : t.isDirAt l
    · have hdir' : t'.isDirAt l := (h.isDirAt_eq htrail.1).trans hdir
      rw [if_pos hdir] at htrail
      rw [walk_cons hdir, walk_cons hdir', ih htrail.2]
    · have hne : ¬ (l = b ∨ l = []) := fun heq => hdir (h.isDirAt_of_eq heq).1
      rw [not_or] at hne
      rw [walk, walk, h.get?_eq htrail.1 hne.1 hne.2]
      split
      · rfl
      · rfl
      · next m hm => exact absurd (isDirAt_iff.mpr ⟨m, hm⟩) hdir

theorem SameOutside.trail_eq {l : Location} {ss : List (List Char)}
    (htrail : ∀ k ∈ trail t l ss, ¬ StrictlyBelow b k) : trail t' l ss = trail t l ss := by
  induction ss generalizing l with
  | nil => rfl
  | cons s ss ih =>
    rw [trail, List.forall_mem_cons] at htrail
    rw [trail, trail, h.isDirAt_eq htrail.1]
    by_cases hdir : t.isDirAt l
    · rw [if_pos hdir] at htrail
      rw [if_pos hdir, if_pos hdir, ih htrail.2]
    · rw [if_neg hdir, if_neg hdir]

variable {p : Path} (htrail : ∀ k ∈ t.trailOf p, ¬ StrictlyBelow b k)

include htrail

theorem SameOutside.locate_eq : t'.locate p = t.locate p := by
  unfold trailOf at htrail
  unfold locate
  split
  · rfl
  · next hne =>
    rw [if_neg hne] at htrail
    rw [start, h.workingDir_eq, ← start, h.walk_eq htrail]

theorem SameOutside.trailOf_eq : t'.trailOf p = t.trailOf p := by
  unfold trailOf at htrail ⊢
  split
  · rfl
  · next hne =>
    rw [if_neg hne] at htrail
    rw [start, h.workingDir_eq, ← start, h.trail_eq htrail]

/-- A path leads to the same entry, or to a directory in both trees. -/
theorem SameOutside.stat_eq : t'.stat p = t.stat p ∨
    ∃ m m', t.stat p = .ok (.dir m) ∧ t'.stat p = .ok (.dir m') := by
  cases hlocate : t.locate p with
  | error e =>
    left
    rw [stat, stat, h.locate_eq htrail, hlocate]
    rfl
  | ok l =>
    have hl : ¬ StrictlyBelow b l := by
      unfold trailOf at htrail
      unfold locate at hlocate
      split at hlocate
      · cases hlocate
      · next hne =>
        rw [if_neg hne] at htrail
        exact htrail l (mem_trail_of_walk hlocate)
    have hpure : t.locate p = pure l := hlocate
    by_cases heq : l = b ∨ l = []
    · obtain ⟨hleft, hright⟩ := h.isDirAt_of_eq heq
      obtain ⟨m, hm⟩ := isDirAt_iff.mp hleft
      obtain ⟨m', hm'⟩ := isDirAt_iff.mp hright
      refine .inr ⟨m, m', ?_, ?_⟩
      · rw [stat, hpure, pure_bind, hm]
        rfl
      · rw [stat, h.locate_eq htrail, hpure, pure_bind, hm']
        rfl
    · left
      rw [not_or] at heq
      rw [stat, stat, h.locate_eq htrail, hpure, pure_bind, pure_bind, h.get?_eq hl heq.1 heq.2]

theorem SameOutside.isDir_eq : t'.isDir p = t.isDir p := by
  rcases h.stat_eq htrail with heq | ⟨m, m', hm, hm'⟩
  · rw [isDir, isDir, heq]
  · rw [isDir, isDir, hm, hm']

theorem SameOutside.isFile_eq : t'.isFile p = t.isFile p := by
  rcases h.stat_eq htrail with heq | ⟨m, m', hm, hm'⟩
  · rw [isFile, isFile, heq]
  · rw [isFile, isFile, hm, hm']

theorem SameOutside.readText_eq : t'.readText p = t.readText p := by
  rcases h.stat_eq htrail with heq | ⟨m, m', hm, hm'⟩
  · rw [readText, readText, readFile, readFile, heq]
  · rw [readText, readText, readFile, readFile, hm, hm']
    rfl

theorem SameOutside.modified?_eq (hfile : t.isFile p) : t'.modified? p = t.modified? p := by
  rcases h.stat_eq htrail with heq | ⟨m, m', hm, hm'⟩
  · rw [modified?, modified?, heq]
  · rw [isFile, hm] at hfile
    cases hfile

end

/-! ## Directories -/

/-- What is sorted by texts is in their order. -/
theorem pairwise_mergeSort_on {α : Type} (f : α → String) (xs : List α) :
    (xs.mergeSort fun a b => f a ≤ f b).Pairwise fun a b => f a ≤ f b := by
  refine (List.pairwise_mergeSort ?_ ?_ xs).imp fun hle => of_decide_eq_true hle
  · intro a b c hab hbc
    exact decide_eq_true (String.le_trans (of_decide_eq_true hab) (of_decide_eq_true hbc))
  · intro a b
    rw [Bool.or_eq_true, decide_eq_true_iff, decide_eq_true_iff]
    exact String.le_total (f a) (f b)

theorem map_fst_mergeSort (xs : List (String × Entry)) :
    (xs.mergeSort fun a b => a.1 ≤ b.1).map Prod.fst = (xs.map Prod.fst).mergeSort fun a b => a ≤ b :=
  List.map_mergeSort fun _ _ _ _ => rfl

theorem map_fst_children (t : FileTree) (l : Location) :
    (t.children l).map Prod.fst =
      (t.entries.filterMap fun x => if x.1.tail = l then x.1.head? else none).mergeSort
        fun a b => a ≤ b := by
  rw [children, map_fst_mergeSort, List.map_filterMap]
  congr 1
  apply List.filterMap_congr
  rintro ⟨k, e⟩ -
  cases k with
  | nil => by_cases hnil : ([] : Location).tail = l <;> simp [hnil]
  | cons name above => by_cases habove : above = l <;> simp [habove]

theorem suffix_of_wayDown? {l k : Location} {names : List String} (h : wayDown? l k = some names) :
    l <:+ k := by
  unfold wayDown? at h
  split at h
  · next heq => exact beq_iff_eq.mp heq ▸ List.drop_suffix _ _
  · cases h

section

variable {b : Location} {t t' : FileTree} (h : SameOutside b t t')

include h

/-- The names in a directory that is not `b` nor below it. -/
theorem SameOutside.names_eq {l : Location} (hl : ¬ b <:+ l) :
    (t'.children l).map Prod.fst = (t.children l).map Prod.fst := by
  rw [map_fst_children, map_fst_children, h.filterMap_eq]
  · intro k e hk
    refine if_neg ?_
    rintro rfl
    cases k with
    | nil => exact hl hk.1
    | cons name above => exact hl (strictlyBelow_cons.mp hk)
  · intro e
    rfl

/-- The directories below a directory that `b` is not below and that is not below `b`. -/
theorem SameOutside.dirsBelow_eq {l : Location} (hl : ¬ b <:+ l) (hbl : ¬ l <:+ b) :
    t'.dirsBelow l = t.dirsBelow l := by
  rw [dirsBelow, dirsBelow, below, below, List.filterMap_filterMap, List.filterMap_filterMap,
    h.filterMap_eq]
  · intro k e hk
    cases hway : wayDown? l k with
    | none => simp [hway]
    | some names =>
      -- Two directories above one location are one above the other.
      rcases List.suffix_or_suffix_of_suffix hk.1 (suffix_of_wayDown? hway) with hsuffix | hsuffix
      · exact absurd hsuffix hl
      · exact absurd hsuffix hbl
  · intro e
    rcases hway : wayDown? l b with _ | _ | ⟨name, names⟩ <;> simp [hway]

end

end FileTree

namespace Glob

open FileTree

/-- What is read of a file tree: the entry at a location, the names in a directory, or all that is below a
directory. -/
inductive Look where
  | entry (l : Location)
  | names (l : Location)
  | tree (l : Location)

/-- Nothing that is strictly below `b` is read. -/
def Look.avoids (b : Location) : Look → Prop
  | entry l => ¬ StrictlyBelow b l
  | names l => ¬ b <:+ l
  | tree l => ¬ b <:+ l ∧ ¬ l <:+ b

instance (b : Location) : (k : Look) → Decidable (k.avoids b)
  | .entry l => inferInstanceAs (Decidable (¬ StrictlyBelow b l))
  | .names l => inferInstanceAs (Decidable (¬ b <:+ l))
  | .tree l => inferInstanceAs (Decidable (¬ b <:+ l ∧ ¬ l <:+ b))

/-- What the segments of a pattern look at from the place `d`. -/
def looks (t : FileTree) (d : Place) : List Segment → List Look
  | [] => []
  | [.directories] => [.tree d.location]
  | .directories :: s :: ss =>
    .tree d.location :: (directoriesFrom t d).flatMap fun e =>
      (matchingChildren t e s).flatMap fun q => looks t q ss
  | .literal name :: ss =>
    .entry d.location :: .entry (d.child name).location ::
      if d.hasChild t name then looks t (d.child name) ss else []
  | .wildcard tokens :: ss =>
    .names d.location :: (matchingChildren t d (.wildcard tokens) ++ matchingDots t d tokens).flatMap
      fun q => looks t q ss

/-- What a pattern looks at. -/
def looksOf (t : FileTree) (pattern : String) : List Look :=
  match pattern.toList with
  | '/' :: cs => (segments? cs).elim [] (looks t ⟨⟨"/"⟩, []⟩)
  | cs => (segments? cs).elim [] (looks t ⟨⟨"."⟩, t.workingDir⟩)

theorem Place.isDir_eq (t : FileTree) (d : Place) : d.isDir t = t.isDirAt d.location := by
  rw [Place.isDir, isDirAt]
  cases t.get? d.location with
  | none => rfl
  | some e => cases e <;> rfl

theorem matchingChildren_eq (t : FileTree) (d : Place) (s : Segment) :
    matchingChildren t d s =
      if t.isDirAt d.location then
        (((t.children d.location).map Prod.fst).filter s.matchesName).map d.child
      else [] := by
  rw [matchingChildren, Place.isDir_eq, List.filter_map, List.map_map]
  rfl

section

variable {b : Location} {t t' : FileTree} (h : SameOutside b t t') {d : Place}

include h

theorem matchingChildren_of_agree (hd : ¬ b <:+ d.location) (s : Segment) :
    matchingChildren t' d s = matchingChildren t d s := by
  have hbelow : ¬ StrictlyBelow b d.location := fun hb => hd hb.1
  rw [matchingChildren_eq, matchingChildren_eq, h.names_eq hd, h.isDirAt_eq hbelow]

theorem matchingDots_of_agree (hd : ¬ b <:+ d.location) (ts : List Token) :
    matchingDots t' d ts = matchingDots t d ts := by
  have hbelow : ¬ StrictlyBelow b d.location := fun hb => hd hb.1
  have hdir : d.isDir t' = d.isDir t := by
    rw [Place.isDir_eq, Place.isDir_eq, h.isDirAt_eq hbelow]
  unfold matchingDots
  split
  · rw [hdir]
  · rfl

theorem directoriesFrom_of_agree (hd : ¬ b <:+ d.location) (hb : ¬ d.location <:+ b) :
    directoriesFrom t' d = directoriesFrom t d := by
  have hbelow : ¬ StrictlyBelow b d.location := fun hb => hd hb.1
  rw [directoriesFrom, directoriesFrom, Place.isDir_eq, Place.isDir_eq, h.isDirAt_eq hbelow,
    h.dirsBelow_eq hd hb]

theorem hasChild_of_agree {name : String} (hd : ¬ StrictlyBelow b d.location)
    (hname : ¬ StrictlyBelow b (d.child name).location) : d.hasChild t' name = d.hasChild t name := by
  rw [Place.hasChild, Place.hasChild, Place.isDir_eq, Place.isDir_eq, h.isDirAt_eq hd,
    h.isSome_get?_eq hname]

omit h in
/-- A directory below one that has nothing to do with `b` has nothing to do with it either. -/
theorem not_suffix_of_mem_directoriesFrom (hd : ¬ b <:+ d.location) (hb : ¬ d.location <:+ b) {e : Place}
    (he : e ∈ directoriesFrom t d) : ¬ b <:+ e.location := by
  have hsuffix : d.location <:+ e.location := by
    unfold directoriesFrom at he
    split at he
    · rcases List.mem_cons.mp he with rfl | he
      · exact List.suffix_refl _
      · obtain ⟨names, -, rfl⟩ := List.mem_map.mp he
        exact List.suffix_append _ _
    · cases he
  intro hbe
  rcases List.suffix_or_suffix_of_suffix hbe hsuffix with hbd | hdb
  · exact hd hbd
  · exact hb hdb

/-- A pattern leads to the same places if all that it looks at is the same. -/
theorem follow_of_agree {ss : List Segment} (hlooks : ∀ k ∈ looks t d ss, k.avoids b) :
    follow t' d ss = follow t d ss := by
  induction d, ss using follow.induct t with
  | case1 d => rfl
  | case2 d =>
    obtain ⟨hd, hb⟩ := hlooks _ List.mem_cons_self
    rw [follow, follow, directoriesFrom_of_agree h hd hb]
  | case3 d s ss ih =>
    rw [looks, List.forall_mem_cons] at hlooks
    obtain ⟨⟨hd, hb⟩, hlooks⟩ := hlooks
    rw [follow, follow, directoriesFrom_of_agree h hd hb]
    refine List.flatMap_congr fun e he => ?_
    rw [matchingChildren_of_agree h (not_suffix_of_mem_directoriesFrom hd hb he)]
    refine List.flatMap_congr fun q hq => ih q fun k hk => ?_
    exact hlooks k (List.mem_flatMap.mpr ⟨e, he, List.mem_flatMap.mpr ⟨q, hq, hk⟩⟩)
  | case4 d name ss hchild ih =>
    rw [looks, if_pos hchild, List.forall_mem_cons, List.forall_mem_cons] at hlooks
    obtain ⟨hd, hname, hlooks⟩ := hlooks
    rw [follow, follow, hasChild_of_agree h hd hname, if_pos hchild, if_pos hchild, ih hlooks]
  | case5 d name ss hchild =>
    rw [looks, List.forall_mem_cons, List.forall_mem_cons] at hlooks
    obtain ⟨hd, hname, -⟩ := hlooks
    rw [follow, follow, hasChild_of_agree h hd hname, if_neg hchild, if_neg hchild]
  | case6 d tokens ss ih =>
    rw [looks, List.forall_mem_cons] at hlooks
    obtain ⟨hd, hlooks⟩ := hlooks
    rw [follow, follow, matchingChildren_of_agree h hd, matchingDots_of_agree h hd]
    refine List.flatMap_congr fun q hq => ih q fun k hk => ?_
    exact hlooks k (List.mem_flatMap.mpr ⟨q, hq, hk⟩)

theorem map_follow_of_agree {ss? : Option (List Segment)}
    (hlooks : ∀ k ∈ ss?.elim [] (looks t d), k.avoids b) :
    ss?.map (fun ss => (follow t' d ss).map Place.path) =
      ss?.map fun ss => (follow t d ss).map Place.path := by
  cases ss? with
  | none => rfl
  | some ss => rw [Option.map_some, Option.map_some, follow_of_agree h hlooks]

/-- A pattern matches the same paths if all that it looks at is the same. -/
theorem expand?_of_agree {pattern : String} (hlooks : ∀ k ∈ looksOf t pattern, k.avoids b) :
    expand? t' pattern = expand? t pattern := by
  unfold looksOf at hlooks
  unfold expand?
  rw [h.workingDir_eq]
  split
  · next cs hcs =>
    rw [hcs] at hlooks
    exact map_follow_of_agree h hlooks
  · next hroot =>
    split at hlooks
    · next cs hcs => exact absurd hcs (hroot cs)
    · exact map_follow_of_agree h hlooks

end

end Glob

end GoScribe
