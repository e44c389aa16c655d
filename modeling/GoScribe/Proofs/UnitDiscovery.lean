import GoScribe.Proofs.GlobMatches
import GoScribe.Proofs.UnitAccounts
import Mathlib.Algebra.Order.BigOperators.Group.List
import Mathlib.Algebra.Order.Group.Nat
import Mathlib.Data.List.Perm.Subperm

/-!
# The units of a source directory

A package has a unit for everything below its source directory that has the name of a source, be it a file or a
directory.  Its module is named for the way there, but if the path of the source directory starts with a dot, the
names on that path come first, because the paths that the pattern leads to have no dot in front.

Main statement: `Package.units_follow_sources_iff`, which also says when the units are just those of the source
files.
-/

namespace GoScribe

open GoScribe.Path FileTree Glob

/-! ## How a source directory is spelled -/

/-- The segments of a directory in front of the rest of a pattern: a slash at the end is not doubled. -/
def Path.dirSegments (p : Path) : List (List Char) :=
  Text.splitOn '/' (if endsInSlash p then p.text.toList.dropLast else p.text.toList)

/-- What the names of all modules in a source directory start with: the steps of its path if there is a dot in front
of them, or else nothing.  It is `none` if an empty segment comes behind the dots; then no source is found. -/
def Path.sourcePrefix? (srcDir : Path) : Option (List (List Char)) :=
  if (srcDir.dirSegments.dropWhile (· = ['.'])).head? = some [] then none
  else if srcDir.startComponent? = some .current then some srcDir.steps
  else some []

namespace Path

variable {p : Path}

/-- The segments of a path are those of the directory, and an empty one if it ends in a slash. -/
theorem splitOn_eq_dirSegments (p : Path) :
    Text.splitOn '/' p.text.toList = p.dirSegments ++ if endsInSlash p then [[]] else [] := by
  unfold dirSegments
  split
  · next hslash =>
    obtain ⟨cs, hcs⟩ := List.getLast?_eq_some_iff.mp (of_decide_eq_true hslash)
    rw [hcs, List.dropLast_concat, Text.splitOn_append]
    rfl
  · rw [List.append_nil]

theorem splitOn_join_dir (hp : p.text ≠ "") {q : Path} (hq : q.isAbsolute = false) :
    Text.splitOn '/' (p.join q).text.toList = p.dirSegments ++ Text.splitOn '/' q.text.toList := by
  rw [join, hq, Bool.false_or, if_neg (by simpa using hp), dirSegments, endsInSlash]
  by_cases hslash : p.text.toList.getLast? = some '/'
  · obtain ⟨cs, hcs⟩ := List.getLast?_eq_some_iff.mp hslash
    rw [if_pos hslash, if_pos (decide_eq_true hslash), String.toList_append, hcs, List.dropLast_concat,
      List.append_assoc, List.singleton_append, Text.splitOn_append]
  · rw [if_neg hslash, if_neg (by rwa [decide_eq_true_eq]), String.toList_append, String.toList_append,
      List.append_assoc]
    exact Text.splitOn_append '/' _ _

theorem steps_eq_dirSegments (p : Path) : p.steps = p.dirSegments.filter isStep := by
  rw [steps, splitOn_eq_dirSegments, List.filter_append]
  split
  · exact List.append_nil _
  · exact List.append_nil _

/-- The segments lead to the directory too. -/
theorem walk_dirSegments {t : FileTree} {l : Location} (hrelative : p.isAbsolute = false)
    (hlocate : t.locate p = .ok l) (hl : t.isDirAt l) : t.walk t.workingDir p.dirSegments = .ok l := by
  obtain ⟨empty, hsplit, hempty⟩ := exists_splitOn_eq_segments p
  have hwalk : t.walk t.workingDir (Text.splitOn '/' p.text.toList) = .ok l := by
    unfold locate at hlocate
    split at hlocate
    · cases hlocate
    · rw [start, hrelative, if_neg Bool.false_ne_true] at hlocate
      rw [hsplit, walk_append hlocate, walk_of_forall_eq_nil hl hempty]
  rw [splitOn_eq_dirSegments] at hwalk
  split at hwalk
  · obtain ⟨j, hwalk, -, hstep⟩ := walk_concat_eq_ok hwalk
    rw [hwalk, ← hstep]
    rfl
  · rwa [List.append_nil] at hwalk

theorem isPlain_of_mem_dirSegments (h : IsPlain p.text.toList) {s : List Char} (hs : s ∈ p.dirSegments) :
    IsPlain s := by
  have hmem : s ∈ Text.splitOn '/' p.text.toList := by
    rw [splitOn_eq_dirSegments]
    exact List.mem_append_left _ hs
  exact fun c hc => h c ((Text.sublist_of_mem_splitOn hmem).subset hc)

end Path

/-! ## The sources that are found -/

namespace Package

theorem splitOn_sourcePattern {p : Package} (hne : p.srcDir.text ≠ "") :
    Text.splitOn '/' p.sourcePattern.text.toList = p.srcDir.dirSegments ++ ["**".toList, "*.purs".toList] := by
  have hdirs : Text.splitOn '/' (p.srcDir.join ⟨"**"⟩).text.toList = p.srcDir.dirSegments ++ ["**".toList] :=
    splitOn_join_dir hne rfl
  have hdirsNe : (p.srcDir.join ⟨"**"⟩).text ≠ "" := by
    intro hempty
    rw [hempty] at hdirs
    have hlast := congrArg List.getLast? hdirs
    rw [List.getLast?_concat] at hlast
    cases hlast
  have hsegments : (p.srcDir.join ⟨"**"⟩).dirSegments = p.srcDir.dirSegments ++ ["**".toList] := by
    rw [splitOn_eq_dirSegments] at hdirs
    split at hdirs
    · cases (List.append_inj' hdirs rfl).2
    · rwa [List.append_nil] at hdirs
  rw [sourcePattern, splitOn_join_dir hdirsNe rfl, hsegments, List.append_assoc]
  rfl

/-- The pattern of the sources is followed from the working directory. -/
theorem expand?_sourcePattern {p : Package} (hrelative : p.srcDir.isAbsolute = false) (hne : p.srcDir.text ≠ "")
    (hplain : IsPlain p.srcDir.text.toList) (t : FileTree) :
    expand? t p.sourcePattern.text =
      some ((follow t ⟨⟨"."⟩, t.workingDir⟩
        (p.srcDir.dirSegments.map literalOf ++ [.directories, .wildcard sourceTokens])).map Place.path) := by
  have habsolute : p.sourcePattern.isAbsolute = false := by
    rw [sourcePattern, isAbsolute_join, isAbsolute_join, hrelative]
    rfl
  unfold expand?
  split
  · next cs hcs =>
    rw [isAbsolute, hcs] at habsolute
    cases habsolute
  · rw [segments?_eq (splitOn_sourcePattern hne) fun s hs => isPlain_of_mem_dirSegments hplain hs]
    rfl

end Package

/-! ## The names of their modules -/

/-- The parts of a module's name that come from the way to its source; the last name is cut by `kept`. -/
def nameParts (kept : List Char → List Char) (names : List String) : List (List Char) :=
  names.dropLast.map String.toList ++ names.getLast?.toList.map fun name => kept name.toList

theorem nameParts_concat (kept : List Char → List Char) (dirs : List String) (name : String) :
    nameParts kept (dirs ++ [name]) = dirs.map String.toList ++ [kept name.toList] := by
  rw [nameParts, List.dropLast_concat, List.getLast?_concat]
  rfl

theorem filterMap_names {names : List String} (hnames : ∀ name ∈ names, IsFileName name) :
    (names.map String.toList).filterMap componentOf? = names.map .normal := by
  rw [List.filterMap_map, ← List.filterMap_eq_map]
  refine List.filterMap_congr fun name hname => ?_
  rw [Function.comp_apply, (hnames name hname).1, String.ofList_toList]
  rfl

theorem Path.texts_steps (p : Path) : (p.steps.filterMap componentOf?).map (·.text.toList) = p.steps := by
  unfold steps
  induction Text.splitOn '/' p.text.toList with
  | nil => rfl
  | cons s ss ih =>
    cases hs : componentOf? s with
    | none =>
      rw [List.filter_cons_of_neg (by rw [isStep, hs]; exact Bool.false_ne_true), ih]
    | some c =>
      rw [List.filter_cons_of_pos (by rw [isStep, hs]; rfl), List.filterMap_cons_some hs, List.map_cons,
        text_of_componentOf? hs, ih]

/-- The last segment of a path stands behind its start. -/
theorem getLast?_splitStart {cs s : List Char} (h : (Text.splitOn '/' cs).getLast? = some s) (hs : isStep s) :
    (Text.splitOn '/' (splitStart cs).2).getLast? = some s := by
  have hcons (r rest : List Char) :
      (r :: Text.splitOn '/' rest).getLast? = (Text.splitOn '/' rest).getLast? := by
    obtain ⟨q, qs, hsplit⟩ := Text.exists_splitOn_eq_cons '/' rest
    rw [hsplit, List.getLast?_cons_cons]
  rcases splitStart_cases cs with ⟨body, rfl, hstart⟩ | ⟨body, rfl, rfl | ⟨rest, rfl⟩, hstart⟩ | ⟨-, hstart⟩
  · rw [hstart, ← h, Text.splitOn_sep, hcons]
  · cases h
    cases hs
  · rw [hstart, ← h, splitOn_dot_slash, Text.splitOn_sep, hcons, hcons]
  · rw [hstart, h]

theorem Path.relativeTo?_eq_some {p base : Path} {cs : List Component} (h : p.components = base.components ++ cs) :
    p.relativeTo? base = some ⟨String.ofList (Text.joinWith ['/'] (cs.map (·.text.toList)))⟩ := by
  have hprefix : base.components.isPrefixOf p.components :=
    List.isPrefixOf_iff_prefix.mpr (h ▸ List.prefix_append _ _)
  rw [relativeTo?, if_pos hprefix, h, List.drop_left]

/-- A path without a dot in front is not seen from one with a dot. -/
theorem Path.relativeTo?_eq_none {p base : Path} (hbase : base.startComponent? = some .current)
    (hp : .current ∉ p.components) : p.relativeTo? base = none := by
  rw [relativeTo?, if_neg]
  intro hprefix
  refine hp ((List.isPrefixOf_iff_prefix.mp hprefix).subset ?_)
  rw [Path.components_eq, hbase]
  exact List.mem_cons_self

/-- A relative path that does not start with a dot has the components of its steps. -/
theorem Path.components_of_startComponent? {p : Path} (hrelative : p.isAbsolute = false)
    (hstart : p.startComponent? ≠ some .current) : p.components = p.steps.filterMap componentOf? := by
  rw [Path.components_eq]
  unfold startComponent? at hstart ⊢
  rw [hrelative, if_neg Bool.false_ne_true] at hstart ⊢
  split at hstart
  · exact absurd rfl hstart
  · next hdot => rw [if_neg hdot]; rfl

section PathAlong

variable {dirs : List String} {name : String} (hnames : ∀ n ∈ dirs ++ [name], IsFileName n)
include hnames

theorem Path.components_pathAlong :
    (pathAlong (dirs ++ [name])).components = dirs.map .normal ++ [.normal name] := by
  rw [Path.components_eq, startComponent?_pathAlong (by simp) hnames, steps_pathAlong (by simp) hnames,
    filterMap_names hnames, List.map_append]
  rfl

theorem Path.getLast?_splitOn_pathAlong :
    (Text.splitOn '/' (pathAlong (dirs ++ [name])).text.toList).getLast? = some name.toList := by
  rw [splitOn_pathAlong (by simp) hnames, List.map_append]
  exact List.getLast?_concat

end PathAlong

/-- The name of the module at the end of a way from the source directory. -/
theorem Package.moduleNameOf?_eq {p : Package} (hrelative : p.srcDir.isAbsolute = false) {pre : List (List Char)}
    (hpre : p.srcDir.sourcePrefix? = some pre) {source : Path} {dirs : List String} {name : String}
    (hnames : ∀ n ∈ dirs ++ [name], IsFileName n)
    (hsource : Leads source (p.srcDir.steps ++ (dirs ++ [name]).map String.toList))
    (hlast : (Text.splitOn '/' source.text.toList).getLast? = some name.toList) :
    p.moduleNameOf? source = some (moduleOf (pre ++ nameParts keptName (dirs ++ [name]))) := by
  have hstep : isStep name.toList := isStep_of_isName (hnames name (List.mem_append_right _ List.mem_cons_self)).1
  have htexts (names : List String) : (names.map Component.normal).map (·.text.toList) = names.map String.toList := by
    rw [List.map_map]
    rfl
  have hcomponents : source.components =
      p.srcDir.steps.filterMap componentOf? ++ (dirs ++ [name]).map .normal := by
    rw [hsource.components_eq (by simp), List.filterMap_append, filterMap_names hnames]
  rw [nameParts_concat, moduleNameOf?]
  unfold sourcePrefix? at hpre
  split at hpre
  · cases hpre
  split at hpre
  · next hstart =>
    -- The components of the source directory start with a dot, those of the source do not.
    have hcurrent : .current ∉ source.components := by
      rw [hsource.components_eq (by simp)]
      exact current_not_mem_filterMap _
    rw [relativeTo?_eq_none hstart hcurrent, Option.getD_none, ← Option.some.inj hpre]
    rw [List.map_append, ← List.append_assoc] at hcomponents
    rw [moduleName?_eq hcomponents fun _ => getLast?_splitStart hlast hstep, List.map_append, htexts,
      texts_steps, List.append_assoc]
  · next hstart =>
    have hbase := Path.components_of_startComponent? hrelative hstart
    have hlast' := Path.getLast?_splitOn_pathAlong hnames
    rw [relativeTo?_eq_some (hcomponents.trans (by rw [hbase])), Option.getD_some, ← Option.some.inj hpre, htexts,
      ← pathAlong, moduleName?_eq (Path.components_pathAlong hnames) fun _ => getLast?_splitStart hlast' hstep, htexts]
    rfl

/-! ## The units -/

/-- The modules of the sources, in the order in which they are found. -/
theorem Package.filterMap_moduleNameOf? {t : FileTree} (ht : t.IsFileSystem) {p : Package}
    (hrelative : p.srcDir.isAbsolute = false) {pre : List (List Char)} (hpre : p.srcDir.sourcePrefix? = some pre)
    {q : Path} (hq : Leads q p.srcDir.steps) {l : Location} (hl : t.isDirAt l) :
    ((follow t ⟨q, l⟩ [.directories, .wildcard sourceTokens]).map Place.path).filterMap p.moduleNameOf? =
      (waysTo t l).map fun names => moduleOf (pre ++ nameParts keptName names) := by
  rw [follow_entries ht hl, waysTo, List.map_flatMap, List.filterMap_flatMap, List.map_flatMap]
  refine List.flatMap_congr fun dirs hdirs => ?_
  rw [List.map_map, List.map_map, List.filterMap_map, ← List.filterMap_eq_map]
  refine List.filterMap_congr fun name hname => ?_
  have hsome : (t.get? ((dirs ++ [name]).reverse ++ l)).isSome := by
    rw [sourceNames, List.mem_filter, mem_names_iff] at hname
    rw [List.reverse_append]
    exact hname.1
  have hnames : ∀ n ∈ dirs ++ [name], IsFileName n := fun n hn =>
    ht.isFileName_of_mem hsome (List.mem_append_left _ (List.mem_reverse.mpr hn))
  have hsource := hq.child (d := ⟨q, l⟩) hnames
  have hlast := getLast?_splitOn_childPath (placeBelow ⟨q, l⟩ dirs).path
    (hnames name (List.mem_append_right _ List.mem_cons_self))
  rw [Function.comp_apply, Function.comp_apply, Function.comp_apply, Function.comp_apply,
    moduleNameOf?_eq hrelative hpre hnames hsource hlast]

theorem Package.perm_units {t : FileTree} {p : Package} (hdir : t.isDir p.srcDir) {sources : List Path}
    (hsources : expand? t p.sourcePattern.text = some sources) (layout : Layout) :
    ∃ us, p.units t layout = .ok us ∧ us.Perm ((sources.filterMap p.moduleNameOf?).map (p.unit layout)) := by
  rw [units, if_pos hdir, hsources]
  exact ⟨_, rfl, List.mergeSort_perm _ _⟩

/-- The units are those at the ends of `ways`: one for everything below the directory at `l` that has the name of a
source, if anything is found at all. -/
structure Package.ListsSources (p : Package) (layout : Layout) (t : FileTree) (l : Location) (us : List SourceUnit)
    (ways : List (List String)) : Prop where
  nodup : ways.Nodup
  mem_iff : ∀ names, names ∈ ways ↔
    p.srcDir.sourcePrefix?.isSome ∧ EndsInSource names ∧ (t.get? (names.reverse ++ l)).isSome
  perm : us.Perm (ways.map fun names =>
    p.unit layout (moduleOf (p.srcDir.sourcePrefix?.getD [] ++ nameParts keptName names)))

theorem Package.exists_listsSources {t : FileTree} (ht : t.IsFileSystem) {p : Package}
    (hrelative : p.srcDir.isAbsolute = false) (hplain : IsPlain p.srcDir.text.toList) (hdir : t.isDir p.srcDir)
    (layout : Layout) :
    ∃ us l ways, p.units t layout = .ok us ∧ t.locate p.srcDir = .ok l ∧ p.ListsSources layout t l us ways := by
  obtain ⟨l, hlocate, hroot⟩ := hasRoot_of_isDir ht.wellFormed hdir
  have hne : p.srcDir.text ≠ "" := by
    intro hempty
    rw [locate, if_pos hempty] at hlocate
    cases hlocate
  have hslash : ∀ s ∈ p.srcDir.dirSegments, '/' ∉ s := fun s hs => Text.not_mem_of_mem_splitOn hs
  have hfollow := follow_dir hroot.isDirAt [.directories, .wildcard sourceTokens] hslash
    (walk_dirSegments hrelative hlocate hroot.isDirAt)
  obtain ⟨us, hunits, hperm⟩ := perm_units hdir (expand?_sourcePattern hrelative hne hplain t) layout
  by_cases hlost : (p.srcDir.dirSegments.dropWhile (· = ['.'])).head? = some []
  · refine ⟨us, l, [], hunits, hlocate, List.nodup_nil, fun names => ?_, ?_⟩
    · rw [sourcePrefix?, if_pos hlost]
      simp
    · rwa [hfollow.1 hlost] at hperm
  · obtain ⟨q, hq, hfollow⟩ := hfollow.2 hlost
    rw [← steps_eq_dirSegments] at hq
    obtain ⟨pre, hpre⟩ : ∃ pre, p.srcDir.sourcePrefix? = some pre := by
      rw [sourcePrefix?, if_neg hlost]
      split
      · exact ⟨_, rfl⟩
      · exact ⟨_, rfl⟩
    refine ⟨us, l, waysTo t l, hunits, hlocate, nodup_waysTo ht, fun names => ?_, ?_⟩
    · rw [hpre, mem_waysTo_iff ht]
      simp
    · rw [hfollow, filterMap_moduleNameOf? ht hrelative hpre hq hroot.isDirAt, List.map_map] at hperm
      rw [hpre]
      exact hperm

/-! ## Units that follow the source files -/

/-- There is one unit for each source file below the directory at `l`; its module is named for the way there without
the extension.  The units are sorted by these names. -/
def Package.FollowsSources (p : Package) (layout : Layout) (t : FileTree) (l : Location) (us : List SourceUnit) :
    Prop :=
  ∃ ways : List (List String), ways.Nodup ∧
    (∀ names, names ∈ ways ↔ EndsInSource names ∧ (t.fileAt? (names.reverse ++ l)).isSome) ∧
    us.Perm (ways.map fun names => p.unit layout (moduleOf (nameParts stem names))) ∧
    us.Pairwise fun u v => u.moduleName ≤ v.moduleName

theorem stem_eq_dot_iff {name : String} (h : ".purs".toList <:+ name.toList) :
    stem name.toList = ['.'] ↔ name = "..purs" := by
  obtain ⟨base, hbase⟩ := h
  rw [← String.toList_inj, ← hbase]
  cases base with
  | nil => decide
  | cons c cs =>
    rw [show ".purs".toList = '.' :: "purs".toList from rfl, stem_append (List.cons_ne_nil c cs) (by decide)]
    have hdot : "..purs".toList = ['.'] ++ '.' :: "purs".toList := rfl
    rw [hdot, List.append_left_inj]

theorem length_moduleOf (parts : List (List Char)) (last : List Char) :
    (moduleOf (parts ++ [last])).toList.length = (parts.flatMap (· ++ ['.'])).length + last.length := by
  rw [moduleOf, String.toList_ofList, Text.joinWith_concat, List.length_append]

/-- The name of a source loses its extension, unless only a dot would be left. -/
theorem nameParts_keptName {names : List String} (hnames : EndsInSource names)
    (hlast : names.getLast? ≠ some "..purs") : nameParts keptName names = nameParts stem names := by
  obtain ⟨name, hname, hends⟩ := hnames
  obtain ⟨dirs, rfl⟩ := List.getLast?_eq_some_iff.mp hname
  rw [List.getLast?_concat] at hlast
  rw [nameParts_concat, nameParts_concat, keptName,
    if_neg fun hdot => hlast (congrArg some ((stem_eq_dot_iff hends).mp hdot))]

/-- Otherwise, and with other parts in front, the name of the module is longer. -/
theorem length_moduleOf_lt {names : List String} (hnames : EndsInSource names) {pre : List (List Char)}
    (h : ¬ (pre = [] ∧ names.getLast? ≠ some "..purs")) :
    (moduleOf (nameParts stem names)).toList.length <
      (moduleOf (pre ++ nameParts keptName names)).toList.length := by
  obtain ⟨name, hname, hends⟩ := hnames
  obtain ⟨dirs, rfl⟩ := List.getLast?_eq_some_iff.mp hname
  rw [nameParts_concat, nameParts_concat, ← List.append_assoc, length_moduleOf, length_moduleOf,
    List.flatMap_append, List.length_append, keptName]
  by_cases hdot : stem name.toList = ['.']
  · rw [if_pos hdot, hdot]
    simp only [List.length_cons, List.length_nil]
    omega
  · rw [if_neg hdot]
    cases pre with
    | nil =>
      refine absurd ⟨rfl, fun heq => hdot ?_⟩ h
      rw [List.getLast?_concat] at heq
      exact (stem_eq_dot_iff hends).mpr (Option.some.inj heq)
    | cons s pre =>
      rw [List.flatMap_cons, List.length_append, List.length_append, List.length_singleton]
      omega

/-- If the units are those of some of the sources by their ways, they are those of all, and have no longer names. -/
theorem Package.names_eq_of_perm {p : Package} {layout : Layout} {us : List SourceUnit}
    {ways ways' : List (List String)} {pre : List (List Char)}
    (hperm : us.Perm (ways.map fun names => p.unit layout (moduleOf (pre ++ nameParts keptName names))))
    (hperm' : us.Perm (ways'.map fun names => p.unit layout (moduleOf (nameParts stem names))))
    (hnodup : ways'.Nodup) (hsubset : ways' ⊆ ways) (hends : ∀ names ∈ ways, EndsInSource names) :
    ways ⊆ ways' ∧ ∀ names ∈ ways, pre = [] ∧ names.getLast? ≠ some "..purs" := by
  have hlength : ways.length = ways'.length := by
    have h := hperm.symm.length_eq.trans hperm'.length_eq
    rwa [List.length_map, List.length_map] at h
  have hways : ways'.Perm ways := (List.subperm_of_subset hnodup hsubset).perm_of_length_le hlength.le
  refine ⟨hways.symm.subset, fun names hnames => ?_⟩
  by_contra hnot
  -- All names together would be longer than they are.
  have hsum := ((hperm'.symm.trans hperm).map fun u => u.moduleName.toList.length).sum_eq
  rw [List.map_map, List.map_map, (hways.map _).sum_eq] at hsum
  refine absurd hsum (ne_of_lt (List.sum_lt_sum _ _ (fun names' hnames' => ?_)
    ⟨names, hnames, length_moduleOf_lt (hends names hnames) hnot⟩))
  by_cases h : pre = [] ∧ names'.getLast? ≠ some "..purs"
  · rw [Function.comp_apply, Function.comp_apply, h.1, List.nil_append, nameParts_keptName (hends names' hnames') h.2]
  · exact (length_moduleOf_lt (hends names' hnames') h).le

section

variable {p : Package} {layout : Layout} {t : FileTree} {l : Location} {us : List SourceUnit}
  {ways : List (List String)} (h : p.ListsSources layout t l us ways)

include h

/-- Without units there are no source files. -/
theorem Package.ListsSources.not_isFile (hpre : p.srcDir.sourcePrefix? = none)
    (hfollows : p.FollowsSources layout t l us) {names : List String} (hends : EndsInSource names) :
    ¬ (t.fileAt? (names.reverse ++ l)).isSome := by
  obtain ⟨ways', -, hmem', hperm', -⟩ := hfollows
  have hnil : ways = [] := by
    rw [List.eq_nil_iff_forall_not_mem]
    intro names hnames
    have hsome := ((h.mem_iff names).mp hnames).1
    rw [hpre] at hsome
    cases hsome
  have hperm := h.perm
  rw [hnil, List.map_nil] at hperm
  rw [hperm.eq_nil, List.nil_perm, List.map_eq_nil_iff] at hperm'
  intro hfile
  have hnames := (hmem' names).mpr ⟨hends, hfile⟩
  rw [hperm'] at hnames
  cases hnames

/-- If sources are found and the units follow the files, then only files are found and their names are kept. -/
theorem Package.ListsSources.names_kept {pre : List (List Char)} (hpre : p.srcDir.sourcePrefix? = some pre)
    (hfollows : p.FollowsSources layout t l us) {names : List String} (hends : EndsInSource names)
    (hsome : (t.get? (names.reverse ++ l)).isSome) :
    (t.fileAt? (names.reverse ++ l)).isSome ∧ pre = [] ∧ names.getLast? ≠ some "..purs" := by
  obtain ⟨ways', hnodup', hmem', hperm', -⟩ := hfollows
  have hmem := h.mem_iff
  have hperm := h.perm
  rw [hpre] at hmem hperm
  have hsubset : ways' ⊆ ways := fun names hnames => by
    obtain ⟨hends, hfile⟩ := (hmem' names).mp hnames
    exact (hmem names).mpr ⟨rfl, hends, isSome_get?_iff.mpr (.inl hfile)⟩
  obtain ⟨hall, hkept⟩ := names_eq_of_perm hperm hperm' hnodup' hsubset fun names hnames =>
    ((hmem names).mp hnames).2.1
  have hnames : names ∈ ways := (hmem names).mpr ⟨rfl, hends, hsome⟩
  exact ⟨((hmem' names).mp (hall hnames)).2, hkept names hnames⟩

theorem Package.ListsSources.follows (hsorted : us.Pairwise fun u v => u.moduleName ≤ v.moduleName)
    (hfiles : ∀ names, EndsInSource names → (t.fileAt? (names.reverse ++ l)).isSome →
      p.srcDir.sourcePrefix? = some [] ∧ names.getLast? ≠ some "..purs")
    (hdirs : ∀ names, EndsInSource names → t.isDirAt (names.reverse ++ l) → p.srcDir.sourcePrefix? = none) :
    p.FollowsSources layout t l us := by
  have hmem : ∀ names, names ∈ ways ↔ EndsInSource names ∧ (t.fileAt? (names.reverse ++ l)).isSome := by
    intro names
    rw [h.mem_iff names]
    constructor
    · rintro ⟨hsome, hends, hget⟩
      rcases isSome_get?_iff.mp hget with hfile | hdir
      · exact ⟨hends, hfile⟩
      · rw [hdirs names hends hdir] at hsome
        cases hsome
    · rintro ⟨hends, hfile⟩
      refine ⟨?_, hends, isSome_get?_iff.mpr (.inl hfile)⟩
      rw [(hfiles names hends hfile).1]
      rfl
  have hperm := h.perm
  rw [List.map_congr_left fun names hnames => ?_] at hperm
  · exact ⟨ways, h.nodup, hmem, hperm, hsorted⟩
  · obtain ⟨hends, hfile⟩ := (hmem names).mp hnames
    obtain ⟨hpre, hlast⟩ := hfiles names hends hfile
    rw [hpre, Option.getD_some, List.nil_append, nameParts_keptName hends hlast]

end

/-- There is a unit for everything below the source directory that has the name of a source, if anything is found at
all.  Its module is named for the way there, behind the steps of the source directory if there is a dot in front of
those.  The units follow the source files exactly if these are all found with nothing in front of their names, none
of them is called `..purs`, and no directory with the name of a source is found. -/
theorem Package.units_follow_sources_iff {t : FileTree} (ht : t.IsFileSystem) (p : Package) (layout : Layout)
    (hrelative : p.srcDir.isAbsolute = false) (hplain : IsPlain p.srcDir.text.toList) (hdir : t.isDir p.srcDir) :
    ∃ us l, p.units t layout = .ok us ∧ t.locate p.srcDir = .ok l ∧
      us.Pairwise (fun u v => u.moduleName ≤ v.moduleName) ∧ (∃ ways, p.ListsSources layout t l us ways) ∧
      (p.FollowsSources layout t l us ↔ ∀ names, EndsInSource names →
        ((t.fileAt? (names.reverse ++ l)).isSome →
          p.srcDir.sourcePrefix? = some [] ∧ names.getLast? ≠ some "..purs") ∧
        (t.isDirAt (names.reverse ++ l) → p.srcDir.sourcePrefix? = none)) := by
  obtain ⟨us, l, ways, hunits, hlocate, hlists⟩ := exists_listsSources ht hrelative hplain hdir layout
  have hsorted := pairwise_units hunits
  refine ⟨us, l, hunits, hlocate, hsorted, ⟨ways, hlists⟩, fun hfollows names hends => ?_, fun hcond => ?_⟩
  · cases hpre : p.srcDir.sourcePrefix? with
    | none => exact ⟨fun hfile => absurd hfile (hlists.not_isFile hpre hfollows hends), fun _ => rfl⟩
    | some pre =>
      refine ⟨fun hfile => ?_, fun hdirAt => ?_⟩
      · obtain ⟨-, rfl, hlast⟩ := hlists.names_kept hpre hfollows hends (isSome_get?_iff.mpr (.inl hfile))
        exact ⟨rfl, hlast⟩
      · have hfile := (hlists.names_kept hpre hfollows hends (isSome_get?_iff.mpr (.inr hdirAt))).1
        rw [fileAt?_eq_none_of_isDirAt hdirAt] at hfile
        cases hfile
  · exact hlists.follows hsorted (fun names hends => (hcond names hends).1) fun names hends => (hcond names hends).2

/-! ## Two spellings of a source directory -/

/-- A working directory `w` with a source in `src`, and a directory in `lib` that has the name of a source. -/
def spellingTree : FileTree where
  entries := [
    (["w"], .dir 1), (["src", "w"], .dir 1), (["Data", "src", "w"], .dir 1),
    (["Maybe.purs", "Data", "src", "w"], .ofText "" 1), (["lib", "w"], .dir 1), (["X.purs", "lib", "w"], .dir 1)]
  workingDir := ["w"]
  clock := 2

theorem isFileSystem_spellingTree : spellingTree.IsFileSystem :=
  ⟨wellFormed_of_entries (by decide +kernel), by decide, by decide, by decide⟩

theorem entries_spellingTree : ∀ k ∈ spellingTree.entries.map Prod.fst, ["src", "w"] <:+ k →
    k.head? ≠ some "..purs" ∧ (spellingTree.isDirAt k → ∀ name ∈ k.head?, ¬ ".purs".toList <:+ name.toList) := by
  decide +kernel

/-- Written as `src/` the directory has the units of its sources, written as `./src` it has not. -/
theorem spellingTree_units_follow_sources_iff :
    spellingTree.IsFileSystem ∧
    ((relayPackage "p" "src/").srcDir.isAbsolute = false ∧ IsPlain (relayPackage "p" "src/").srcDir.text.toList ∧
      spellingTree.isDir (relayPackage "p" "src/").srcDir ∧
      ∃ us, (relayPackage "p" "src/").units spellingTree (relayRun "").layout = .ok us ∧
        (relayPackage "p" "src/").FollowsSources (relayRun "").layout spellingTree ["src", "w"] us) ∧
    (relayPackage "p" "./src").srcDir.isAbsolute = false ∧ IsPlain (relayPackage "p" "./src").srcDir.text.toList ∧
      spellingTree.isDir (relayPackage "p" "./src").srcDir ∧
      ∃ us, (relayPackage "p" "./src").units spellingTree (relayRun "").layout = .ok us ∧
        ¬ (relayPackage "p" "./src").FollowsSources (relayRun "").layout spellingTree ["src", "w"] us := by
  have hplain : (relayPackage "p" "src/").srcDir.isAbsolute = false ∧
      IsPlain (relayPackage "p" "src/").srcDir.text.toList ∧
      spellingTree.isDir (relayPackage "p" "src/").srcDir := by decide +kernel
  have hdotted : (relayPackage "p" "./src").srcDir.isAbsolute = false ∧
      IsPlain (relayPackage "p" "./src").srcDir.text.toList ∧
      spellingTree.isDir (relayPackage "p" "./src").srcDir := by decide +kernel
  refine ⟨isFileSystem_spellingTree, ⟨hplain.1, hplain.2.1, hplain.2.2, ?_⟩,
    hdotted.1, hdotted.2.1, hdotted.2.2, ?_⟩
  · obtain ⟨us, l, hunits, hlocate, -, -, hiff⟩ := Package.units_follow_sources_iff isFileSystem_spellingTree _
      (relayRun "").layout hplain.1 hplain.2.1 hplain.2.2
    obtain rfl : ["src", "w"] = l := Except.ok.inj (hlocate.symm.trans (by decide +kernel)).symm
    refine ⟨us, hunits, hiff.mpr ?_⟩
    rintro names ⟨name, hlast, hends⟩
    obtain ⟨dirs, rfl⟩ := List.getLast?_eq_some_iff.mp hlast
    rw [List.getLast?_concat, List.reverse_append]
    have hentry (hsome : (spellingTree.get? (name :: (dirs.reverse ++ ["src", "w"]))).isSome) :=
      entries_spellingTree _ ((mem_map_fst_iff (List.cons_ne_nil _ _)).mpr hsome)
        ((List.suffix_append dirs.reverse _).trans (List.suffix_cons name _))
    refine ⟨fun hfile => ⟨by decide +kernel, ?_⟩, fun hdir => ?_⟩
    · exact (hentry (isSome_get?_iff.mpr (.inl hfile))).1
    · exact absurd hends ((hentry (isSome_get?_iff.mpr (.inr hdir))).2 hdir name rfl)
  · obtain ⟨us, l, hunits, hlocate, -, -, hiff⟩ := Package.units_follow_sources_iff isFileSystem_spellingTree _
      (relayRun "").layout hdotted.1 hdotted.2.1 hdotted.2.2
    obtain rfl : ["src", "w"] = l := Except.ok.inj (hlocate.symm.trans (by decide +kernel)).symm
    refine ⟨us, hunits, fun hfollows => ?_⟩
    have hends : EndsInSource ["Data", "Maybe.purs"] := ⟨"Maybe.purs", rfl, by decide⟩
    have hprefix := ((hiff.mp hfollows _ hends).1 (by decide +kernel)).1
    exact absurd hprefix (by decide +kernel)

/-- For `./src` the name of the directory is part of the module's name, and in `lib` a directory counts as a source. -/
theorem spellingTree_units_astray :
    (relayPackage "p" "./src").units spellingTree (relayRun "").layout =
        .ok [(relayPackage "p" "./src").unit (relayRun "").layout "src.Data.Maybe"] ∧
      spellingTree.locate ⟨"./src"⟩ = .ok ["src", "w"] ∧
      ¬ (relayPackage "p" "./src").FollowsSources (relayRun "").layout spellingTree ["src", "w"]
        [(relayPackage "p" "./src").unit (relayRun "").layout "src.Data.Maybe"] ∧
    (relayPackage "p" "lib").units spellingTree (relayRun "").layout =
        .ok [(relayPackage "p" "lib").unit (relayRun "").layout "X"] ∧
      spellingTree.locate ⟨"lib"⟩ = .ok ["lib", "w"] ∧
      ¬ (relayPackage "p" "lib").FollowsSources (relayRun "").layout spellingTree ["lib", "w"]
        [(relayPackage "p" "lib").unit (relayRun "").layout "X"] := by
  refine ⟨by decide +kernel, by decide +kernel, ?_, by decide +kernel, by decide +kernel, ?_⟩
  · rintro ⟨ways, -, hmem, hperm, -⟩
    have hnames : ["Data", "Maybe.purs"] ∈ ways := (hmem _).mpr ⟨⟨"Maybe.purs", rfl, by decide⟩, by decide +kernel⟩
    have hunit := List.mem_singleton.mp (hperm.symm.subset (List.mem_map_of_mem hnames))
    exact absurd (congrArg SourceUnit.moduleName hunit) (by decide +kernel)
  · rintro ⟨ways, -, hmem, hperm, -⟩
    obtain ⟨names, hnames, -⟩ := List.mem_map.mp (hperm.subset List.mem_cons_self)
    have hnone : ∀ k ∈ spellingTree.entries.map Prod.fst, ["lib", "w"] <:+ k → spellingTree.fileAt? k = none := by
      decide +kernel
    have hfile := ((hmem names).mp hnames).2
    have hentry : names.reverse ++ ["lib", "w"] ∈ spellingTree.entries.map Prod.fst :=
      (mem_map_fst_iff (List.append_ne_nil_of_right_ne_nil _ (by decide))).mpr (isSome_get?_iff.mpr (.inl hfile))
    rw [hnone _ hentry (List.suffix_append _ _)] at hfile
    cases hfile

end GoScribe
