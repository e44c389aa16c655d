import GoScribe.Project.Package
import GoScribe.Proofs.PathSteps

/-!
# The paths of Go files

The path of a module's Go file goes on from the directory of the package with names, one for every part of
the module's name and one for the file.  Only a part that starts with a slash leads elsewhere; and a
module's name has such a part just if its source is an absolute path that is not below the source directory
as that is spelled.
-/

namespace GoScribe

open GoScribe.Path

/-! ## The steps of a module's name -/

/-- The name of a module's Go file in its directory. -/
def goFile (moduleName : String) : Path :=
  ⟨String.ofList (Text.afterLast '.' moduleName.toList) ++ ".go"⟩

/-- The name has a part that starts with a slash. -/
def isRooted (moduleName : String) : Bool :=
  (Text.splitOn '.' moduleName.toList).any fun part => part.head? = some '/'

/-- The steps from the directory of a package to a module's Go file. -/
def moduleSteps (moduleName : String) : List (List Char) :=
  (Text.splitOn '.' moduleName.toList).flatMap (fun part => (Path.mk (String.ofList part)).steps) ++
    (goFile moduleName).steps

theorem isAbsolute_ofList (cs : List Char) :
    (Path.mk (String.ofList cs)).isAbsolute = decide (cs.head? = some '/') := by
  rw [Path.isAbsolute, String.toList_ofList]

theorem isAbsolute_goFile (moduleName : String) :
    (goFile moduleName).isAbsolute =
      decide ((Text.afterLast '.' moduleName.toList).head? = some '/') := by
  rw [Path.isAbsolute, goFile, String.toList_append, String.toList_ofList]
  cases Text.afterLast '.' moduleName.toList <;> rfl

/-- Parts that do not start with a slash are put behind the path one by one. -/
theorem steps_foldl_join {parts : List (List Char)} (dir : Path)
    (h : ∀ part ∈ parts, part.head? ≠ some '/') :
    (parts.foldl (fun dir part => dir.join ⟨String.ofList part⟩) dir).steps =
      dir.steps ++ parts.flatMap fun part => (Path.mk (String.ofList part)).steps := by
  induction parts generalizing dir with
  | nil => exact (List.append_nil _).symm
  | cons part parts ih =>
    rw [List.forall_mem_cons] at h
    have hpart : (Path.mk (String.ofList part)).isAbsolute = false := by
      rw [isAbsolute_ofList, decide_eq_false h.1]
    rw [List.foldl_cons, ih _ h.2, steps_join hpart, List.flatMap_cons, List.append_assoc]

theorem isAbsolute_foldl_join (parts : List (List Char)) (dir : Path) :
    (parts.foldl (fun dir part => dir.join ⟨String.ofList part⟩) dir).isAbsolute =
      ((parts.any fun part => part.head? = some '/') || dir.isAbsolute) := by
  induction parts generalizing dir with
  | nil => rfl
  | cons part parts ih =>
    rw [List.foldl_cons, ih, isAbsolute_join, isAbsolute_ofList, List.any_cons, Bool.or_left_comm,
      ← Bool.or_assoc]

theorem isRooted_eq_false_iff {moduleName : String} :
    isRooted moduleName = false ↔
      ∀ part ∈ Text.splitOn '.' moduleName.toList, part.head? ≠ some '/' := by
  simp [isRooted]

/-- A name that is not rooted goes on from the directory of the package. -/
theorem steps_outPath {moduleName : String} (h : isRooted moduleName = false) (dir : Path) :
    (outPath dir moduleName).steps = dir.steps ++ moduleSteps moduleName := by
  rw [isRooted_eq_false_iff] at h
  have hfile : (goFile moduleName).isAbsolute = false := by
    rw [isAbsolute_goFile, decide_eq_false (h _ (Text.afterLast_mem_splitOn _ _))]
  rw [outPath, ← goFile, steps_join hfile, moduleDir, steps_foldl_join dir h, moduleSteps,
    List.append_assoc]

theorem isAbsolute_outPath (dir : Path) (moduleName : String) :
    (outPath dir moduleName).isAbsolute = (isRooted moduleName || dir.isAbsolute) := by
  have hfile : (goFile moduleName).isAbsolute → isRooted moduleName := by
    rw [isAbsolute_goFile, decide_eq_true_iff, isRooted, List.any_eq_true]
    exact fun hhead => ⟨_, Text.afterLast_mem_splitOn _ _, decide_eq_true hhead⟩
  rw [outPath, ← goFile, isAbsolute_join, moduleDir, isAbsolute_foldl_join, ← isRooted]
  cases hrooted : isRooted moduleName with
  | true => rw [Bool.true_or, Bool.or_true]
  | false =>
    rw [Bool.eq_false_iff.mpr fun h => Bool.eq_false_iff.mp hrooted (hfile h)]
    rfl

/-! ## They are names -/

theorem isStep_of_length {s : List Char} (h : 2 < s.length) : isStep s := by
  unfold isStep componentOf?
  split
  · cases h
  · exact absurd h (by decide)
  · rfl
  · rfl

/-- The last segment of a Go file's name. -/
theorem exists_splitOn_goFile (moduleName : String) :
    ∃ pieces cs, Text.splitOn '/' (goFile moduleName).text.toList = pieces ++ [cs ++ ['.', 'g', 'o']] ∧
      isStep (cs ++ ['.', 'g', 'o']) := by
  obtain ⟨pieces, h⟩ := Text.exists_splitOn_append '/' (Text.afterLast '.' moduleName.toList)
  refine ⟨pieces, Text.afterLast '/' (Text.afterLast '.' moduleName.toList), ?_, ?_⟩
  · rw [goFile, String.toList_append, String.toList_ofList]
    exact h _ (by decide)
  · apply isStep_of_length
    rw [List.length_append]
    exact Nat.lt_add_left _ (by decide)

/-- The last segment of a Go file's path. -/
theorem exists_splitOn_outPath (dir : Path) (moduleName : String) :
    ∃ pieces cs, Text.splitOn '/' (outPath dir moduleName).text.toList = pieces ++ [cs ++ ['.', 'g', 'o']] ∧
      isStep (cs ++ ['.', 'g', 'o']) := by
  obtain ⟨pieces, cs, hsplit, hstep⟩ := exists_splitOn_goFile moduleName
  rw [outPath, ← goFile]
  cases hfile : (goFile moduleName).isAbsolute with
  | true =>
    rw [join_of_isAbsolute hfile]
    exact ⟨pieces, cs, hsplit, hstep⟩
  | false =>
    by_cases hdir : (moduleDir dir moduleName).text = ""
    · rw [join_of_text_eq hdir]
      exact ⟨pieces, cs, hsplit, hstep⟩
    · obtain ⟨front, htext, -⟩ := exists_text_join hfile hdir
      rw [htext, Text.splitOn_append, hsplit, ← List.append_assoc]
      exact ⟨_, cs, rfl, hstep⟩

/-- The last step is the name of the file. -/
theorem exists_moduleSteps_eq (moduleName : String) :
    ∃ ss cs, moduleSteps moduleName = ss ++ [cs ++ ['.', 'g', 'o']] := by
  obtain ⟨pieces, cs, hsplit, hstep⟩ := exists_splitOn_goFile moduleName
  have hsteps : (goFile moduleName).steps = pieces.filter isStep ++ [cs ++ ['.', 'g', 'o']] := by
    rw [steps, hsplit, List.filter_append, List.filter_cons_of_pos hstep, List.filter_nil]
  exact ⟨_ ++ _, cs, by rw [moduleSteps, hsteps, List.append_assoc]⟩

/-- No step of a module's name goes up: there is at most one dot in it. -/
theorem isName_of_mem_moduleSteps {moduleName : String} {s : List Char} (hs : s ∈ moduleSteps moduleName) :
    IsName s := by
  have hdots : ∀ cs : List Char, cs.count '.' ≤ 1 → s ∈ Text.splitOn '/' cs → s ≠ ['.', '.'] := by
    rintro cs hcount hmem rfl
    have htwo : 2 ≤ cs.count '.' := (Text.sublist_of_mem_splitOn hmem).count_le '.'
    omega
  rcases List.mem_append.mp hs with hs | hs
  · obtain ⟨part, hpart, hs⟩ := List.mem_flatMap.mp hs
    refine isName_of_mem_steps hs (hdots part ?_ ?_)
    · rw [List.count_eq_zero_of_not_mem (Text.not_mem_of_mem_splitOn hpart)]
      exact Nat.zero_le 1
    · rw [← String.toList_ofList (l := part)]
      exact (List.mem_filter.mp hs).1
  · refine isName_of_mem_steps hs (hdots _ ?_ (List.mem_filter.mp hs).1)
    have hlast : '.' ∉ Text.afterLast '.' moduleName.toList :=
      Text.not_mem_of_mem_splitOn (Text.afterLast_mem_splitOn _ _)
    rw [goFile, String.toList_append, String.toList_ofList, List.count_append,
      List.count_eq_zero_of_not_mem hlast]
    decide

/-! ## Rooted names -/

/-- Only the root has a slash in its text. -/
theorem slash_not_mem_text {p : Path} {c : Component} (hc : c ∈ p.components) (hroot : c ≠ .root) :
    '/' ∉ c.text.toList := by
  rw [components_eq, List.mem_append] at hc
  rcases hc with hc | hc
  · rw [startComponent?] at hc
    split at hc
    · exact absurd (List.mem_singleton.mp hc) hroot
    · split at hc
      · rw [List.mem_singleton.mp hc]
        decide
      · cases hc
  · obtain ⟨s, hs, hname⟩ := List.mem_filterMap.mp hc
    rcases componentOf?_eq_some hname with ⟨rfl, -⟩ | ⟨rfl, -⟩
    · decide
    · rw [Component.text, String.toList_ofList]
      exact Text.not_mem_of_mem_splitOn (List.mem_filter.mp hs).1

theorem root_mem_components {p : Path} : .root ∈ p.components ↔ p.isAbsolute := by
  rw [components_eq, List.mem_append, startComponent?]
  constructor
  · rintro (h | h)
    · by_contra habs
      rw [if_neg habs] at h
      split at h
      · cases List.mem_singleton.mp h
      · cases h
    · exact absurd h (root_not_mem_filterMap _)
  · intro habs
    rw [if_pos habs]
    exact .inl List.mem_cons_self

/-- The name of a module is rooted if the path it comes from is absolute. -/
theorem isRooted_of_moduleName? {relative : Path} {m : String} (h : moduleName? relative = some m) :
    isRooted m = relative.withoutExtension.isAbsolute := by
  simp only [moduleName?] at h
  split at h
  · cases h
  · next hempty =>
    rw [← Option.some.inj h]
    have hne : relative.withoutExtension.components.map (·.text.toList) ≠ [] := by
      intro hnil
      rw [hnil] at hempty
      exact hempty rfl
    rw [isRooted, String.toList_ofList, Text.splitOn_joinWith '.' hne]
    cases habs : relative.withoutExtension.isAbsolute with
    | true =>
      have hroot := List.mem_map_of_mem (f := (·.text.toList)) (root_mem_components.mpr habs)
      exact List.any_eq_true.mpr ⟨['/'], List.mem_flatMap.mpr ⟨_, hroot, List.mem_cons_self⟩, rfl⟩
    | false =>
      rw [List.any_eq_false]
      intro part hpart
      obtain ⟨_, hmem, hpart⟩ := List.mem_flatMap.mp hpart
      obtain ⟨c, hc, rfl⟩ := List.mem_map.mp hmem
      have hroot : c ≠ .root := by
        rintro rfl
        rw [root_mem_components.mp hc] at habs
        cases habs
      rw [decide_eq_true_iff]
      intro hhead
      have hslash : '/' ∈ part := List.mem_of_head? hhead
      exact slash_not_mem_text hc hroot ((Text.sublist_of_mem_splitOn hpart).subset hslash)

/-- What is joined by slashes starts with none, unless its first text is empty and another follows. -/
theorem head?_joinWith_ne {css : List (List Char)} (hslash : ∀ cs ∈ css, '/' ∉ cs)
    (hfirst : css.head? ≠ some [] ∨ css.length ≤ 1) : (Text.joinWith ['/'] css).head? ≠ some '/' := by
  have hne {cs : List Char} (h : '/' ∉ cs) : cs.head? ≠ some '/' := fun hhead => h (List.mem_of_head? hhead)
  match css with
  | [] => exact hne List.not_mem_nil
  | [cs] => exact hne (hslash cs List.mem_cons_self)
  | [] :: ds :: rest => exact absurd hfirst (by simp)
  | (c :: cs) :: ds :: rest =>
    have hc := hne (hslash (c :: cs) List.mem_cons_self)
    exact hc

theorem stem_subset (name : List Char) : stem name ⊆ name := by
  unfold stem
  split
  · next before after hsplit =>
    split
    · exact List.Subset.refl _
    · rw [Text.splitLast?_eq_some hsplit]
      exact List.subset_append_left _ _
  · exact List.Subset.refl _

theorem splitStart_cases (cs : List Char) :
    (∃ body, cs = '/' :: body ∧ splitStart cs = (['/'], body)) ∨
      (∃ body, cs = '.' :: body ∧ (body = [] ∨ ∃ rest, body = '/' :: rest) ∧
        splitStart cs = (['.'], body)) ∨
      (cs.head? ≠ some '/' ∧ splitStart cs = ([], cs)) := by
  unfold splitStart
  split
  · exact .inl ⟨_, rfl, rfl⟩
  · exact .inr (.inl ⟨_, rfl, .inl rfl, rfl⟩)
  · exact .inr (.inl ⟨_, rfl, .inr ⟨_, rfl⟩, rfl⟩)
  · next hslash _ _ =>
    refine .inr (.inr ⟨fun hhead => ?_, rfl⟩)
    obtain ⟨rest, hrest⟩ := List.head?_eq_some_iff.mp hhead
    exact hslash rest hrest

/-- The first segment of a text that does not start with a slash is empty only if the text is. -/
theorem head?_splitOn_ne_nil {c : Char} (hc : c ≠ '/') (cs : List Char) :
    (Text.splitOn '/' (c :: cs)).head? ≠ some [] := by
  obtain ⟨s, ss, hsplit⟩ := Text.exists_splitOn_eq_cons '/' cs
  rw [Text.splitOn_cons hc hsplit]
  simp

theorem splitOn_eq_of_dropEmpty {cs name : List Char} {before : List (List Char)}
    (h : dropEmpty (Text.splitOn '/' cs).reverse = name :: before) :
    ∃ rest, Text.splitOn '/' cs = before.reverse ++ name :: rest := by
  obtain ⟨dropped, hsplit⟩ : ∃ dropped, dropped ++ name :: before = (Text.splitOn '/' cs).reverse := by
    rw [← h]
    exact ⟨_, List.takeWhile_append_dropWhile⟩
  refine ⟨dropped.reverse, ?_⟩
  rw [← List.reverse_reverse (Text.splitOn '/' cs), ← hsplit, List.reverse_append, List.reverse_cons,
    List.append_assoc, List.singleton_append]

/-- A relative path stays relative when its last segment becomes another. -/
theorem head?_replaceLast_ne {cs name kept : List Char} {before : List (List Char)}
    (hcs : cs.head? ≠ some '/') (hkept : '/' ∉ kept)
    (h : dropEmpty (Text.splitOn '/' cs).reverse = name :: before) :
    (Text.joinWith ['/'] (kept :: before).reverse).head? ≠ some '/' := by
  obtain ⟨rest, hsplit⟩ := splitOn_eq_of_dropEmpty h
  rw [List.reverse_cons]
  apply head?_joinWith_ne
  · intro s hs
    rcases List.mem_append.mp hs with hs | hs
    · exact Text.not_mem_of_mem_splitOn (hsplit ▸ List.mem_append_left _ hs)
    · rw [List.mem_singleton.mp hs]
      exact hkept
  · cases hbefore : before.reverse with
    | nil => exact .inr (Nat.le_refl 1)
    | cons first middle =>
      -- Another segment stands in front, which is the first one of the text.
      refine .inl ?_
      rw [hbefore] at hsplit
      cases cs with
      | nil => simp [Text.splitOn] at hsplit
      | cons c cs =>
        have hc : c ≠ '/' := fun heq => hcs (heq ▸ rfl)
        have hfirst := head?_splitOn_ne_nil hc cs
        rw [hsplit] at hfirst
        exact hfirst

/-- A path without an extension is absolute if it was so before. -/
theorem isAbsolute_withoutExtension (p : Path) : p.withoutExtension.isAbsolute = p.isAbsolute := by
  unfold withoutExtension
  rcases splitStart_cases p.text.toList with
    ⟨body, htext, hstart⟩ | ⟨body, htext, -, hstart⟩ | ⟨hhead, hstart⟩
  · simp only [hstart]
    split
    · rfl
    · rw [isAbsolute_ofList, isAbsolute, htext]
      rfl
    · rfl
  · simp only [hstart]
    split
    · rfl
    · rw [isAbsolute_ofList, isAbsolute, htext]
      rfl
    · rfl
  · simp only [hstart]
    split
    · rfl
    · next name before _ hdrop =>
      have hname : '/' ∉ name := by
        obtain ⟨rest, hsplit⟩ := splitOn_eq_of_dropEmpty hdrop
        have hmem : name ∈ Text.splitOn '/' p.text.toList :=
          hsplit ▸ List.mem_append_right _ List.mem_cons_self
        exact Text.not_mem_of_mem_splitOn hmem
      have hstem : '/' ∉ stem name := fun h => hname (stem_subset name h)
      rw [isAbsolute_ofList, isAbsolute, decide_eq_false hhead, List.nil_append, decide_eq_false]
      apply head?_replaceLast_ne hhead _ hdrop
      split
      · decide
      · exact hstem
    · rfl

theorem components_ne_nil {p : Path} (h : p.text ≠ "") : p.components ≠ [] := by
  rw [components, componentsOf]
  cases htext : p.text.toList with
  | nil => exact absurd (String.toList_eq_nil_iff.mp htext) h
  | cons c cs =>
    by_cases hc : c = '/'
    · rw [hc, Text.splitOn_sep]
      exact List.cons_ne_nil _ _
    · obtain ⟨s, ss, hsplit⟩ := Text.exists_splitOn_eq_cons '/' cs
      rw [Text.splitOn_cons hc hsplit]
      split
      · next hnil => cases hnil
      · next hnil => cases hnil
      · exact List.cons_ne_nil _ _
      · next hdot =>
        cases hfirst : componentOf? (c :: s) with
        | none =>
          rcases eq_nil_or_dot_of_componentOf? hfirst with hnil | heq
          · cases hnil
          · exact absurd (congrArg (· :: ss) heq) (hdot ss)
        | some first =>
          rw [List.filterMap_cons_some hfirst]
          exact List.cons_ne_nil _ _

/-- What is behind the components of another path is relative. -/
theorem isAbsolute_of_relativeTo? {p base relative : Path} (hbase : base.text ≠ "")
    (h : p.relativeTo? base = some relative) : relative.isAbsolute = false := by
  have hlength : p.startComponent?.toList.length ≤ base.components.length :=
    Nat.le_trans Option.length_toList_le (List.length_pos_of_ne_nil (components_ne_nil hbase))
  simp only [relativeTo?] at h
  split at h
  · rw [← Option.some.inj h, isAbsolute_ofList, decide_eq_false]
    -- The start is gone, and what is left are names and pairs of dots.
    rw [components_eq p, List.drop_append, List.drop_eq_nil_of_le hlength, List.nil_append]
    have htext : ∀ c ∈ p.steps.filterMap componentOf?, '/' ∉ c.text.toList ∧ c.text.toList ≠ [] := by
      intro c hc
      have hmem : c ∈ p.components := components_eq p ▸ List.mem_append_right _ hc
      have hroot : c ≠ .root := fun heq => root_not_mem_filterMap _ (heq ▸ hc)
      obtain ⟨s, hs, hname⟩ := List.mem_filterMap.mp hc
      refine ⟨slash_not_mem_text hmem hroot, ?_⟩
      rcases componentOf?_eq_some hname with ⟨rfl, -⟩ | ⟨rfl, hne⟩
      · decide
      · rw [Component.text, String.toList_ofList]
        exact hne
    apply head?_joinWith_ne
    · intro cs hcs
      obtain ⟨c, hc, rfl⟩ := List.mem_map.mp hcs
      exact (htext c (List.mem_of_mem_drop hc)).1
    · refine .inl fun hhead => ?_
      obtain ⟨c, hc, hnil⟩ := List.mem_map.mp (List.mem_of_head? hhead)
      exact (htext c (List.mem_of_mem_drop hc)).2 hnil
  · cases h

/-- The name of a module is rooted just if its source is an absolute path that is not below the source
directory. -/
theorem Package.isRooted_of_moduleNameOf? {p : Package} {source : Path} {m : String}
    (hsrc : p.srcDir.text ≠ "") (h : p.moduleNameOf? source = some m) :
    isRooted m = (source.isAbsolute && (source.relativeTo? p.srcDir).isNone) := by
  rw [isRooted_of_moduleName? h, isAbsolute_withoutExtension]
  cases hrelative : source.relativeTo? p.srcDir with
  | none => rw [Option.getD_none, Option.isNone_none, Bool.and_true]
  | some relative =>
    rw [Option.getD_some, isAbsolute_of_relativeTo? hsrc hrelative]
    exact (Bool.and_false _).symm

end GoScribe
