import GoScribe.Files.Path
import GoScribe.Proofs.Splitting
import Mathlib.Data.List.Induction

/-!
# The steps of a path

A path is a start, the root or the working directory, and the steps from there: the segments that are
neither empty nor a dot.  Joining two paths puts their steps one behind the other.

`resolve` follows the steps without a look at any file: two dots take back the step before them.  What
comes out is compared by `IsBelow`.
-/

namespace GoScribe

namespace Path

/-! ## Steps -/

/-- A segment leads on. -/
def isStep (s : List Char) : Bool := (componentOf? s).isSome

/-- The segments of a path that lead on. -/
def steps (p : Path) : List (List Char) := (Text.splitOn '/' p.text.toList).filter isStep

/-- The component in front of the steps. -/
def startComponent? (p : Path) : Option Component :=
  if p.isAbsolute then some .root
  else if (Text.splitOn '/' p.text.toList).head? = some ['.'] then some .current
  else none

theorem filterMap_steps (p : Path) :
    p.steps.filterMap componentOf? = (Text.splitOn '/' p.text.toList).filterMap componentOf? := by
  rw [steps, List.filterMap_filter]
  apply List.filterMap_congr
  intro s _
  unfold isStep
  cases componentOf? s <;> rfl

theorem components_eq (p : Path) :
    p.components = p.startComponent?.toList ++ p.steps.filterMap componentOf? := by
  rw [filterMap_steps, components, startComponent?, isAbsolute, componentsOf]
  cases htext : p.text.toList with
  | nil => rfl
  | cons c cs =>
    by_cases hc : c = '/'
    · rw [hc, Text.splitOn_sep]
      rfl
    · obtain ⟨s, ss, hsplit⟩ := Text.exists_splitOn_eq_cons '/' cs
      have hhead : (c :: cs).head? ≠ some '/' := fun h => hc (Option.some.inj h)
      rw [Text.splitOn_cons hc hsplit, decide_eq_false hhead]
      by_cases hdot : c :: s = ['.']
      · rw [hdot]
        rfl
      · have hfirst : ((c :: s) :: ss).head? ≠ some ['.'] := fun h => hdot (Option.some.inj h)
        rw [if_neg Bool.false_ne_true, if_neg hfirst]
        split
        · next h => cases h
        · next h => cases h
        · next h => exact absurd (List.cons.inj h).1 hdot
        · rfl

/-- A path with steps is not empty. -/
theorem steps_eq_nil_of_text {p : Path} (h : p.text = "") : p.steps = [] := by
  rw [steps, h]
  rfl

/-- The text of a path that is joined to another, unless it replaces it. -/
theorem exists_text_join {p q : Path} (hq : q.isAbsolute = false) (hp : p.text ≠ "") :
    ∃ cs, (p.join q).text.toList = cs ++ '/' :: q.text.toList ∧
      (p.text.toList = cs ∨ p.text.toList = cs ++ ['/']) := by
  rw [join, hq, Bool.false_or, if_neg (by simpa using hp)]
  split
  · next hlast =>
    obtain ⟨cs, hcs⟩ := List.getLast?_eq_some_iff.mp hlast
    refine ⟨cs, ?_, .inr hcs⟩
    rw [String.toList_append, hcs, List.append_assoc, List.singleton_append]
  · refine ⟨p.text.toList, ?_, .inl rfl⟩
    rw [String.toList_append, String.toList_append, List.append_assoc]
    rfl

theorem join_of_isAbsolute {p q : Path} (hq : q.isAbsolute) : p.join q = q := by
  rw [join, hq, Bool.true_or, if_pos rfl]

theorem join_of_text_eq {p : Path} (hp : p.text = "") (q : Path) : p.join q = q := by
  rw [join, if_pos (by simp [hp])]

/-- The steps of a path go on with those of the path that is joined to it. -/
theorem steps_join {p q : Path} (hq : q.isAbsolute = false) : (p.join q).steps = p.steps ++ q.steps := by
  by_cases hp : p.text = ""
  · rw [join_of_text_eq hp, steps_eq_nil_of_text hp, List.nil_append]
  · obtain ⟨cs, hjoin, hcs⟩ := exists_text_join hq hp
    have hsteps : p.steps = (Text.splitOn '/' cs).filter isStep := by
      rcases hcs with hcs | hcs
      · rw [steps, hcs]
      · -- The slash at the end leaves an empty segment, which is no step.
        rw [steps, hcs, Text.splitOn_append, List.filter_append]
        exact List.append_nil _
    rw [steps, hjoin, Text.splitOn_append, List.filter_append, hsteps]
    rfl

theorem isAbsolute_join (p q : Path) : (p.join q).isAbsolute = (q.isAbsolute || p.isAbsolute) := by
  cases hq : q.isAbsolute with
  | true => rw [join_of_isAbsolute hq, hq, Bool.true_or]
  | false =>
    rw [Bool.false_or]
    by_cases hp : p.text = ""
    · rw [join_of_text_eq hp, hq, isAbsolute, hp]
      rfl
    · obtain ⟨cs, hjoin, hcs⟩ := exists_text_join hq hp
      rw [isAbsolute, isAbsolute, hjoin]
      rcases hcs with hcs | hcs
      · cases cs with
        | nil => exact absurd (String.toList_eq_nil_iff.mp hcs) hp
        | cons c cs => rw [hcs]; rfl
      · cases cs with
        | nil => rw [hcs]; rfl
        | cons c cs => rw [hcs]; rfl

/-! ## Resolution -/

/-- Where a path leads if nothing is known of the files. -/
structure Resolved where
  /-- The names are below the root, not below a directory on the way up from the working directory. -/
  isAbsolute : Bool
  /-- How many directories it is up before it goes down. -/
  climbs : Nat
  /-- The names on the way down, the last first. -/
  names : List String
deriving DecidableEq, Repr

namespace Resolved

/-- The working directory. -/
def start : Resolved := ⟨false, 0, []⟩

/-- After one more component.  There is nothing above the root. -/
def step (r : Resolved) : Component → Resolved
  | .root => ⟨true, 0, []⟩
  | .current => r
  | .parent =>
    match r.names with
    | _ :: above => { r with names := above }
    | [] => if r.isAbsolute then r else { r with climbs := r.climbs + 1 }
  | .normal name => { r with names := name :: r.names }

/-- The relative `q`, seen from `r`: it takes back as many names as it climbs. -/
def follow (r q : Resolved) : Resolved where
  isAbsolute := r.isAbsolute
  climbs := if r.isAbsolute then r.climbs else r.climbs + (q.climbs - r.names.length)
  names := q.names ++ r.names.drop q.climbs

theorem follow_start (r : Resolved) : r.follow start = r := by
  have hclimbs : (if r.isAbsolute then r.climbs else r.climbs + (0 - r.names.length)) = r.climbs := by
    rw [Nat.zero_sub, Nat.add_zero, ite_self]
  rw [follow, start, hclimbs]
  rfl

/-- A climb takes back a name as long as there is one. -/
theorem follow_parent (r : Resolved) (climbs : Nat) :
    r.follow ⟨false, climbs + 1, []⟩ = (r.follow ⟨false, climbs, []⟩).step .parent := by
  obtain ⟨isAbsolute, height, names⟩ := r
  rcases Nat.lt_or_ge climbs names.length with hlt | hge
  · have hnext : climbs + 1 ≤ names.length := hlt
    simp only [follow, step, List.nil_append, List.drop_eq_getElem_cons hlt,
      Nat.sub_eq_zero_of_le hnext, Nat.sub_eq_zero_of_le (Nat.le_of_lt hlt)]
  · have hnext : names.length ≤ climbs + 1 := Nat.le_succ_of_le hge
    simp only [follow, step, List.nil_append, List.drop_eq_nil_of_le hge,
      List.drop_eq_nil_of_le hnext]
    cases isAbsolute with
    | true => rfl
    | false =>
      have hclimbs : height + (climbs + 1 - names.length) = height + (climbs - names.length) + 1 := by
        omega
      simp only [Bool.false_eq_true, if_false, hclimbs]

/-- To follow one more component is to take it at the end. -/
theorem follow_step {c : Component} (hc : c ≠ .root) (r : Resolved) {q : Resolved}
    (hq : q.isAbsolute = false) : r.follow (q.step c) = (r.follow q).step c := by
  obtain ⟨isAbsolute, climbs, names⟩ := q
  subst hq
  cases c with
  | root => exact absurd rfl hc
  | current => rfl
  | normal name => rfl
  | parent =>
    cases names with
    | cons name above => rfl
    | nil => exact follow_parent r climbs

theorem isAbsolute_step {c : Component} (hc : c ≠ .root) {q : Resolved} (hq : q.isAbsolute = false) :
    (q.step c).isAbsolute = false := by
  obtain ⟨isAbsolute, climbs, names⟩ := q
  subst hq
  cases c with
  | root => exact absurd rfl hc
  | current => rfl
  | normal name => rfl
  | parent => cases names <;> rfl

/-- Components behind a start are followed as if they stood alone. -/
theorem foldl_step {cs : List Component} (hcs : .root ∉ cs) (r : Resolved) :
    cs.foldl step r = r.follow (cs.foldl step start) ∧ (cs.foldl step start).isAbsolute = false := by
  induction cs using List.reverseRecOn with
  | nil => exact ⟨r.follow_start.symm, rfl⟩
  | append_singleton cs c ih =>
    rw [List.mem_append, not_or, List.mem_singleton] at hcs
    obtain ⟨hfollow, hrelative⟩ := ih hcs.1
    rw [List.foldl_append, List.foldl_append, hfollow]
    exact ⟨(follow_step (Ne.symm hcs.2) r hrelative).symm,
      isAbsolute_step (Ne.symm hcs.2) hrelative⟩

/-- `r` lies strictly below `base`. -/
def IsBelow (r base : Resolved) : Prop :=
  r.isAbsolute = base.isAbsolute ∧ r.climbs = base.climbs ∧ base.names <:+ r.names ∧
    r.names ≠ base.names

instance (r base : Resolved) : Decidable (r.IsBelow base) :=
  inferInstanceAs (Decidable (_ ∧ _ ∧ _ ∧ _))

end Resolved

/-- Where a path leads if nothing is known of the files. -/
def resolve (p : Path) : Resolved := p.components.foldl Resolved.step .start

/-- The path leads strictly below `base`, if nothing is known of the files. -/
def IsBelow (p base : Path) : Prop := p.resolve.IsBelow base.resolve

instance (p base : Path) : Decidable (p.IsBelow base) :=
  inferInstanceAs (Decidable (p.resolve.IsBelow base.resolve))

theorem componentOf?_ne_root (s : List Char) : componentOf? s ≠ some .root := by
  unfold componentOf?
  split <;> simp

theorem root_not_mem_filterMap (ss : List (List Char)) : .root ∉ ss.filterMap componentOf? := by
  intro h
  obtain ⟨s, _, hs⟩ := List.mem_filterMap.mp h
  exact componentOf?_ne_root s hs

theorem resolve_eq (p : Path) :
    p.resolve = (p.steps.filterMap componentOf?).foldl Resolved.step ⟨p.isAbsolute, 0, []⟩ := by
  rw [resolve, components_eq, List.foldl_append, startComponent?]
  cases hp : p.isAbsolute with
  | true => rfl
  | false =>
    rw [if_neg Bool.false_ne_true]
    split <;> rfl

theorem isAbsolute_resolve (p : Path) : p.resolve.isAbsolute = p.isAbsolute := by
  rw [resolve_eq, (Resolved.foldl_step (root_not_mem_filterMap _) _).1]
  rfl

/-- A relative path is followed from the path it is joined to. -/
theorem resolve_join {p q : Path} (hq : q.isAbsolute = false) :
    (p.join q).resolve = p.resolve.follow q.resolve := by
  rw [resolve_eq (p.join q), resolve_eq q, resolve_eq p, steps_join hq, isAbsolute_join, hq,
    Bool.false_or, List.filterMap_append, List.foldl_append]
  exact (Resolved.foldl_step (root_not_mem_filterMap _) _).1

/-! ## Paths that only go down -/

/-- A segment is a name. -/
def IsName (s : List Char) : Prop := componentOf? s = some (.normal (String.ofList s))

theorem componentOf?_eq_some {s : List Char} {c : Component} (h : componentOf? s = some c) :
    (c = .parent ∧ s = ['.', '.']) ∨ (c = .normal (String.ofList s) ∧ s ≠ []) := by
  unfold componentOf? at h
  split at h
  · cases h
  · cases h
  · exact .inl ⟨(Option.some.inj h).symm, rfl⟩
  · next hnil _ _ => exact .inr ⟨(Option.some.inj h).symm, hnil⟩

theorem eq_nil_or_dot_of_componentOf? {s : List Char} (h : componentOf? s = none) : s = [] ∨ s = ['.'] := by
  unfold componentOf? at h
  split at h
  · exact .inl rfl
  · exact .inr rfl
  · cases h
  · cases h

/-- A step is a name, or two dots. -/
theorem isName_of_mem_steps {p : Path} {s : List Char} (hs : s ∈ p.steps) (hdots : s ≠ ['.', '.']) :
    IsName s := by
  obtain ⟨c, hc⟩ := Option.isSome_iff_exists.mp (List.mem_filter.mp hs).2
  rcases componentOf?_eq_some hc with ⟨-, hparent⟩ | ⟨hname, -⟩
  · exact absurd hparent hdots
  · rw [IsName, hc, hname]

/-- The path goes neither to the root nor up. -/
def descends (p : Path) : Bool := p.components.all fun c => c ≠ .root && c ≠ .parent

theorem descends_iff {p : Path} :
    p.descends ↔ p.isAbsolute = false ∧ ∀ s ∈ p.steps, IsName s := by
  rw [descends, components_eq, List.all_append, Bool.and_eq_true, List.all_eq_true, List.all_eq_true]
  constructor
  · rintro ⟨hstart, hsteps⟩
    constructor
    · rw [← Bool.not_eq_true]
      intro habs
      rw [startComponent?, if_pos habs] at hstart
      exact absurd (hstart .root List.mem_cons_self) (by decide)
    · intro s hs
      refine isName_of_mem_steps hs ?_
      rintro rfl
      exact absurd (hsteps .parent (List.mem_filterMap.mpr ⟨_, hs, rfl⟩)) (by decide)
  · rintro ⟨hrelative, hsteps⟩
    constructor
    · intro c hc
      rw [startComponent?, hrelative, if_neg Bool.false_ne_true] at hc
      split at hc
      · rw [List.mem_singleton.mp hc]
        rfl
      · cases hc
    · intro c hc
      obtain ⟨s, hs, hname⟩ := List.mem_filterMap.mp hc
      rw [hsteps s hs] at hname
      cases hname
      rfl

namespace Resolved

/-- The names further down from `r`, the last first. -/
def extend (r : Resolved) (names : List String) : Resolved := { r with names := names ++ r.names }

theorem extend_extend (r : Resolved) (names names' : List String) :
    (r.extend names).extend names' = r.extend (names' ++ names) := by
  rw [extend, extend, extend, List.append_assoc]

/-- Names are put in front of those that are there. -/
theorem foldl_step_names {ss : List (List Char)} (hss : ∀ s ∈ ss, IsName s) (r : Resolved) :
    (ss.filterMap componentOf?).foldl step r = r.extend (ss.map String.ofList).reverse := by
  induction ss generalizing r with
  | nil => rfl
  | cons s ss ih =>
    rw [List.forall_mem_cons] at hss
    rw [List.filterMap_cons_some hss.1, List.foldl_cons, ih hss.2, List.map_cons, List.reverse_cons,
      ← extend_extend]
    rfl

/-- What climbs no further than the names that were added stays below where they were added. -/
theorem follow_extend {r q : Resolved} {names : List String} (h : q.climbs ≤ names.length) :
    (r.extend names).follow q = r.extend (q.names ++ names.drop q.climbs) := by
  have hlength : q.climbs - (names ++ r.names).length = 0 := by
    rw [List.length_append]
    omega
  simp only [follow, extend, hlength, Nat.add_zero, ite_self, List.drop_append_of_le_length h,
    List.append_assoc]

theorem isBelow_extend {r : Resolved} {names : List String} (h : names ≠ []) :
    (r.extend names).IsBelow r := by
  refine ⟨rfl, rfl, List.suffix_append _ _, fun heq => h ?_⟩
  exact List.append_left_eq_self.mp heq

end Resolved

/-- A path that goes on with names leads further down. -/
theorem resolve_of_steps {p q : Path} {ss : List (List Char)} (hsteps : q.steps = p.steps ++ ss)
    (habs : q.isAbsolute = p.isAbsolute) (hss : ∀ s ∈ ss, IsName s) :
    q.resolve = p.resolve.extend (ss.map String.ofList).reverse := by
  rw [resolve_eq q, resolve_eq p, hsteps, habs, List.filterMap_append, List.foldl_append,
    Resolved.foldl_step_names hss]

end Path

end GoScribe
