import GoScribe.Proofs.ImportTable
import Mathlib.Data.List.Dedup
import Mathlib.Data.List.Perm.Basic

/-!
# Import usage as an ordered set

The imports that are used are a set in which the first mark of a path stays.  The usage is determined by these first
marks: it is sorted by path, so marks of different paths may change places, and a second mark of a path has no effect.
The imports are listed by form first and by path second, which makes no difference to which they are.  Main statement:
`ImportUsage.ofMarks_first_wins`.
-/

namespace GoScribe

/-! ## The order of the list -/

/-- Bare names come first. -/
def ImportForm.rank : ImportForm → Nat
  | shortName => 0
  | fullPath => 1

/-- An import is listed above another: its form comes first, or they have the same form and its path comes first. -/
def Import.IsAbove (i j : Import) : Prop :=
  i.form.rank < j.form.rank ∨ i.form = j.form ∧ i.path < j.path

instance (i j : Import) : Decidable (i.IsAbove j) := inferInstanceAs (Decidable (_ ∨ _))

theorem ImportForm.eq_of_rank_eq {f g : ImportForm} (h : f.rank = g.rank) : f = g := by
  cases f <;> cases g <;> first | rfl | cases h

/-- Of two imports one is listed above the other, unless they have the same path. -/
theorem Import.isAbove_or_path_eq {i j : Import} (h : ¬j.IsAbove i) : i.IsAbove j ∨ i.path = j.path := by
  unfold IsAbove at h ⊢
  rcases Nat.lt_trichotomy i.form.rank j.form.rank with hlt | heq | hlt
  · exact .inl (.inl hlt)
  · have hform := ImportForm.eq_of_rank_eq heq
    rcases lt_trichotomy i.path j.path with hlt | heq | hlt
    · exact .inl (.inr ⟨hform, hlt⟩)
    · exact .inr heq
    · exact absurd (.inr ⟨hform.symm, hlt⟩) h
  · exact absurd (.inl hlt) h

theorem Import.IsAbove.trans {i j k : Import} (hij : i.IsAbove j) (hjk : j.IsAbove k) : i.IsAbove k := by
  rcases hij with hij | ⟨hij, hpath⟩
  · rcases hjk with hjk | ⟨hjk, -⟩
    · exact .inl (hij.trans hjk)
    · exact .inl (hjk ▸ hij)
  · rcases hjk with hjk | ⟨hjk, hpath'⟩
    · exact .inl (hij ▸ hjk)
    · exact .inr ⟨hij.trans hjk, hpath.trans hpath'⟩

/-- Whatever a third import is, one of the two is on its other side. -/
theorem Import.IsAbove.between {i k : Import} (h : i.IsAbove k) (j : Import) : i.IsAbove j ∨ j.IsAbove k := by
  by_cases hjk : j.IsAbove k
  · exact .inr hjk
  · rcases isAbove_or_path_eq hjk with hkj | hpath
    · exact .inl (h.trans hkj)
    · have hform : k.form = j.form := by rw [form, form, hpath]
      rw [IsAbove, hform, hpath] at h
      exact .inl h

theorem Import.IsAbove.asymm {i j : Import} (h : i.IsAbove j) : ¬j.IsAbove i := by
  intro h'
  rcases h.trans h' with hlt | ⟨-, hlt⟩
  · exact hlt.false
  · exact hlt.false

namespace ImportUsage

/-- The imports sorted as a whole by form and path. -/
def sortedByForm (u : ImportUsage) : List Import :=
  u.used.mergeSort fun i j => !decide (j.IsAbove i)

theorem Ordered.nodup {is : List Import} (h : Ordered is) : is.Nodup :=
  h.imp fun hlt heq => hlt.ne (congrArg Import.path heq)

theorem Ordered.nodup_paths {is : List Import} (h : Ordered is) : (is.map Import.path).Nodup :=
  List.pairwise_map.mpr (h.imp fun hlt => hlt.ne)

/-- No two imports have the same path. -/
theorem Ordered.eq_of_path_eq {is : List Import} (h : Ordered is) {i j : Import} (hi : i ∈ is) (hj : j ∈ is)
    (hpath : i.path = j.path) : i = j :=
  List.inj_on_of_nodup_map h.nodup_paths hi hj hpath

/-- Imports in the order of their paths are known by their members. -/
theorem Ordered.eq_of_mem_iff {is js : List Import} (hi : Ordered is) (hj : Ordered js)
    (hmem : ∀ i, i ∈ is ↔ i ∈ js) : is = js := by
  refine List.Perm.eq_of_pairwise ?_ hi hj ((List.perm_ext_iff_of_nodup hi.nodup hj.nodup).mpr hmem)
  intro i j _ _ hlt hlt'
  exact absurd hlt' hlt.asymm

theorem sorted_perm (u : ImportUsage) : u.sorted.Perm u.used := by
  have hfull : u.fullPaths = u.used.filter fun i => !(i.form == .shortName) := by
    refine List.filter_congr fun i _ => ?_
    cases i.form <;> rfl
  rw [sorted, hfull]
  exact List.filter_append_perm _ _

theorem pairwise_isAbove_sorted {u : ImportUsage} (h : Ordered u.used) : u.sorted.Pairwise Import.IsAbove := by
  have hpart (form : ImportForm) : (u.used.filter (·.form == form)).Pairwise Import.IsAbove := by
    refine List.Pairwise.imp_of_mem ?_ (h.filter _)
    intro i j hi hj hlt
    have hi := (List.mem_filter.mp hi).2
    have hj := (List.mem_filter.mp hj).2
    exact .inr ⟨(beq_iff_eq.mp hi).trans (beq_iff_eq.mp hj).symm, hlt⟩
  refine List.pairwise_append.mpr ⟨hpart .shortName, hpart .fullPath, ?_⟩
  intro i hi j hj
  have hi : i.form = .shortName := beq_iff_eq.mp (List.mem_filter.mp hi).2
  have hj : j.form = .fullPath := beq_iff_eq.mp (List.mem_filter.mp hj).2
  refine .inl ?_
  rw [hi, hj]
  exact Nat.zero_lt_one

theorem pairwise_sortedByForm (u : ImportUsage) : u.sortedByForm.Pairwise fun i j => ¬j.IsAbove i := by
  refine (List.pairwise_mergeSort ?_ ?_ u.used).imp fun hle => by simpa using hle
  · intro i j k hij hjk
    rw [Bool.not_eq_true', decide_eq_false_iff_not] at hij hjk ⊢
    intro hki
    rcases hki.between j with hkj | hji
    · exact hjk hkj
    · exact hij hji
  · intro i j
    rw [Bool.or_eq_true, Bool.not_eq_true', Bool.not_eq_true', decide_eq_false_iff_not,
      decide_eq_false_iff_not]
    by_cases hji : j.IsAbove i
    · exact .inr hji.asymm
    · exact .inl hji

/-- Sorting the imports as a whole gives the same list. -/
theorem sortedByForm_eq_sorted {u : ImportUsage} (h : Ordered u.used) : u.sortedByForm = u.sorted := by
  refine List.Perm.eq_of_pairwise ?_ u.pairwise_sortedByForm
    ((pairwise_isAbove_sorted h).imp Import.IsAbove.asymm) ((List.mergeSort_perm _ _).trans u.sorted_perm.symm)
  -- Two imports of which neither is above the other have one path, and so are the same.
  intro i j hi hj hij hji
  rcases Import.isAbove_or_path_eq hij with habove | hpath
  · exact absurd habove hji
  · exact h.eq_of_path_eq (List.mem_mergeSort.mp hi) (mem_sorted.mp hj) hpath

/-! ## What the marks decide -/

theorem isUsed_ofMarks {marks : List Import} {path : String} :
    (ofMarks marks).isUsed path ↔ ∃ i ∈ marks, i.path = path := by
  have hpaths := @mem_paths_ofMarks marks path
  rw [List.mem_map, List.mem_map] at hpaths
  simpa [isUsed] using hpaths

theorem length_ofMarks (marks : List Import) :
    (ofMarks marks).used.length = (marks.map Import.path).dedup.length := by
  have hperm : ((ofMarks marks).used.map Import.path).Perm (marks.map Import.path).dedup := by
    refine (List.perm_ext_iff_of_nodup (ordered_ofMarks marks).nodup_paths (List.nodup_dedup _)).mpr ?_
    intro path
    rw [List.mem_dedup]
    exact mem_paths_ofMarks
  rw [← List.length_map Import.path, hperm.length_eq]

/-- The first mark of a path can be read off the usage. -/
theorem find?_eq_some_iff_mem_ofMarks {marks : List Import} {path : String} {i : Import} :
    marks.find? (·.path == path) = some i ↔ i ∈ (ofMarks marks).used ∧ i.path = path := by
  rw [mem_ofMarks]
  constructor
  · intro h
    have hpath : i.path = path := by simpa using List.find?_some h
    exact ⟨hpath ▸ h, hpath⟩
  · rintro ⟨h, rfl⟩
    exact h

/-- The usage is determined by the first marks. -/
theorem ofMarks_eq_iff {marks marks' : List Import} :
    ofMarks marks' = ofMarks marks ↔
      ∀ path, marks'.find? (·.path == path) = marks.find? (·.path == path) := by
  constructor
  · intro h path
    refine Option.ext fun i => ?_
    rw [find?_eq_some_iff_mem_ofMarks, h, find?_eq_some_iff_mem_ofMarks]
  · intro h
    have hused : (ofMarks marks').used = (ofMarks marks).used := by
      refine (ordered_ofMarks marks').eq_of_mem_iff (ordered_ofMarks marks) fun i => ?_
      rw [mem_ofMarks, mem_ofMarks, h]
    exact congrArg ImportUsage.mk hused

/-- A second mark of a path has no effect. -/
theorem ofMarks_remark {marks rest : List Import} {i : Import} (hi : ∃ j ∈ marks, j.path = i.path) :
    ofMarks (marks ++ i :: rest) = ofMarks (marks ++ rest) := by
  rw [ofMarks_eq_iff]
  intro path
  rw [List.find?_append, List.find?_append, List.find?_cons]
  split
  · next hpath =>
    -- The path has its first mark among `marks` already.
    obtain ⟨j, hj, hji⟩ := hi
    obtain ⟨k, hk, -⟩ := exists_first_mark hj
    rw [hji, beq_iff_eq.mp hpath] at hk
    rw [hk]
    rfl
  · rfl

/-- Neighbouring marks may change places, unless they are different marks of one path. -/
theorem ofMarks_swap {marks rest : List Import} {i j : Import} (hij : i.path = j.path → i = j) :
    ofMarks (marks ++ i :: j :: rest) = ofMarks (marks ++ j :: i :: rest) := by
  rw [ofMarks_eq_iff]
  intro path
  rw [List.find?_append, List.find?_append]
  congr 1
  grind

/-- Marks that do not conflict may come in any order. -/
theorem ofMarks_perm {marks marks' : List Import} (hperm : marks'.Perm marks)
    (hagree : ∀ i ∈ marks, ∀ j ∈ marks, i.path = j.path → i = j) : ofMarks marks' = ofMarks marks := by
  rw [ofMarks_eq_iff]
  intro path
  apply find?_eq_of_perm hperm
  intro i hi j hj hipath hjpath
  exact hagree i hi j hj ((beq_iff_eq.mp hipath).trans (beq_iff_eq.mp hjpath).symm)

/-- **Import usage is an ordered set in which the first mark of a path stays.**  A path is used exactly if it was marked,
and the usage has one import for each path that was marked.  The list of the output is the list that sorting by form and
path gives; it holds the first mark of each path and no other, bare names above full paths and each part by path, without
repetition.  The usage tells no more about the marks than which ones come first, so that a second mark of a path has no
effect and marks that do not conflict may change places. -/
theorem ofMarks_first_wins (marks : List Import) :
    (∀ path, (ofMarks marks).isUsed path ↔ ∃ i ∈ marks, i.path = path) ∧
      (ofMarks marks).used.length = (marks.map Import.path).dedup.length ∧
      (ofMarks marks).sortedByForm = (ofMarks marks).sorted ∧
      (∀ i, i ∈ (ofMarks marks).sorted ↔ marks.find? (·.path == i.path) = some i) ∧
      (ofMarks marks).sorted.Pairwise Import.IsAbove ∧
      (∀ marks', ofMarks marks' = ofMarks marks ↔
        ∀ path, marks'.find? (·.path == path) = marks.find? (·.path == path)) ∧
      (∀ i rest, (∃ j ∈ marks, j.path = i.path) → ofMarks (marks ++ i :: rest) = ofMarks (marks ++ rest)) ∧
      (∀ i j rest, (i.path = j.path → i = j) →
        ofMarks (marks ++ i :: j :: rest) = ofMarks (marks ++ j :: i :: rest)) ∧
      ∀ marks' : List Import, marks'.Perm marks → (∀ i ∈ marks, ∀ j ∈ marks, i.path = j.path → i = j) →
        ofMarks marks' = ofMarks marks :=
  ⟨fun _ => isUsed_ofMarks, length_ofMarks marks, sortedByForm_eq_sorted (ordered_ofMarks marks),
    fun _ => mem_sorted.trans mem_ofMarks, pairwise_isAbove_sorted (ordered_ofMarks marks),
    fun _ => ofMarks_eq_iff, fun _ _ => ofMarks_remark, fun _ _ _ => ofMarks_swap, fun _ => ofMarks_perm⟩

/-- Two names for one path, and a bare name between them. -/
def contested : List Import := [.plain "b" "lib/x", .plain "fmt" "fmt", .plain "a" "lib/x"]

theorem contested_first_wins :
    (ofMarks contested).sortedByForm = [.plain "fmt" "fmt", .plain "b" "lib/x"] ∧
      (ofMarks contested).used.length = 2 ∧ (ofMarks contested).isUsed "lib/x" ∧
      ¬(ofMarks contested).isUsed "a" ∧ ofMarks contested.reverse ≠ ofMarks contested ∧
      ofMarks (contested ++ [.plain "c" "lib/x", .plain "os" "os"]) = ofMarks (contested ++ [.plain "os" "os"]) ∧
      ofMarks (contested ++ [.plain "math" "math", .plain "os" "os"]) =
        ofMarks (contested ++ [.plain "os" "os", .plain "math" "math"]) ∧
      ofMarks contested.tail.reverse = ofMarks contested.tail := by
  obtain ⟨hused, hlength, hsorted, -, -, hfirst, hremark, hswap, -⟩ := ofMarks_first_wins contested
  obtain ⟨-, -, -, -, -, -, -, -, hperm⟩ := ofMarks_first_wins contested.tail
  refine ⟨hsorted.trans (by decide), hlength.trans (by decide), (hused _).mpr (by decide), ?_, ?_,
    hremark _ _ (by decide), hswap _ _ _ (by decide), hperm _ (List.reverse_perm _) (by decide)⟩
  · rw [hused]
    decide
  · rw [ne_eq, hfirst]
    intro h
    exact absurd (h "lib/x") (by decide)

end ImportUsage

end GoScribe
