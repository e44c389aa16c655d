import GoScribe.Proofs.FileSystems

/-!
# Sources, modules and their files

The path of a source gives the name of its module, and that gives the directory of the dump and the path of the Go
file.  On the way the extension is dropped, the components are joined by dots, and the name is cut at its dots
again.  `Path.texts_withoutExtension` and `components_outPath` say what each half comes to.  Main statement:
`sources_apart`.
-/

namespace GoScribe

/-! ## Components of joined paths -/

namespace Path

theorem startComponent?_join {p q : Path} (hq : q.isAbsolute = false) (hp : p.text ≠ "") :
    (p.join q).startComponent? = p.startComponent? := by
  obtain ⟨cs, hjoin, hcs⟩ := exists_text_join hq hp
  obtain ⟨s, ss, hsplit⟩ := Text.exists_splitOn_eq_cons '/' cs
  have hfirst : (Text.splitOn '/' (p.join q).text.toList).head? =
      (Text.splitOn '/' p.text.toList).head? := by
    rw [hjoin, Text.splitOn_append, hsplit]
    rcases hcs with hcs | hcs
    · rw [hcs, hsplit]
      rfl
    · rw [hcs, Text.splitOn_append, hsplit]
      rfl
  rw [startComponent?, startComponent?, isAbsolute_join, hq, Bool.false_or, hfirst]

/-- The components of a path go on with those of the path that is joined to it, if that has no start of its
own. -/
theorem components_join {p q : Path} (hq : q.isAbsolute = false) (hstart : q.startComponent? = none) :
    (p.join q).components = p.components ++ q.components := by
  by_cases hp : p.text = ""
  · have hnil : p.components = [] := by
      rw [components, hp]
      rfl
    rw [join_of_text_eq hp, hnil, List.nil_append]
  · rw [components_eq (p.join q), components_eq p, components_eq q, startComponent?_join hq hp, hstart,
      steps_join hq, List.filterMap_append, Option.toList_none, List.nil_append, List.append_assoc]

/-- A path with a step at its front has no start. -/
theorem startComponent?_eq_none {p : Path} {s : List Char} {ss : List (List Char)}
    (hsplit : Text.splitOn '/' p.text.toList = s :: ss) (hs : isStep s) : p.startComponent? = none := by
  have hrelative : p.isAbsolute = false := by
    rw [isAbsolute, decide_eq_false_iff_not]
    intro hhead
    obtain ⟨cs, hcs⟩ := List.head?_eq_some_iff.mp hhead
    rw [hcs, Text.splitOn_sep] at hsplit
    cases hsplit
    cases hs
  rw [startComponent?, hrelative, if_neg Bool.false_ne_true, hsplit, if_neg]
  intro hdot
  cases hdot
  cases hs

theorem text_of_componentOf? {s : List Char} {c : Component} (h : componentOf? s = some c) :
    c.text.toList = s := by
  rcases componentOf?_eq_some h with ⟨rfl, rfl⟩ | ⟨rfl, -⟩
  · rfl
  · exact String.toList_ofList

/-! ## Extensions -/

/-- The component in front of a path that starts so. -/
def startOf (start : List Char) : List Component :=
  if start = ['/'] then [.root] else if start = ['.'] then [.current] else []

theorem splitOn_dot_slash (cs : List Char) :
    Text.splitOn '/' ('.' :: '/' :: cs) = ['.'] :: Text.splitOn '/' cs :=
  Text.splitOn_append '/' ['.'] cs

/-- There is no start if the text begins with a segment that is neither empty nor a dot. -/
theorem splitStart_eq_nil_iff {cs : List Char} :
    splitStart cs = ([], cs) ↔ cs.head? ≠ some '/' ∧ (Text.splitOn '/' cs).head? ≠ some ['.'] := by
  constructor
  · intro h
    constructor
    · intro hhead
      obtain ⟨rest, rfl⟩ := List.head?_eq_some_iff.mp hhead
      simp [splitStart] at h
    · intro hdot
      obtain ⟨ss, hss⟩ := List.head?_eq_some_iff.mp hdot
      rw [← Text.joinWith_splitOn '/' cs, hss] at h
      cases ss with
      | nil => simp [splitStart, Text.joinWith] at h
      | cons s ss => simp [splitStart, Text.joinWith] at h
  · rintro ⟨hhead, hdot⟩
    rcases splitStart_cases cs with ⟨body, rfl, -⟩ | ⟨body, rfl, rfl | ⟨rest, rfl⟩, -⟩ | ⟨-, h⟩
    · exact absurd rfl hhead
    · exact absurd rfl hdot
    · rw [splitOn_dot_slash] at hdot
      exact absurd rfl hdot
    · exact h

theorem componentsOf_eq_of_splitStart {cs start body : List Char} (h : splitStart cs = (start, body)) :
    componentsOf cs = startOf start ++ (Text.splitOn '/' body).filterMap componentOf? := by
  have hcs : componentsOf cs = componentsOf (Path.mk (String.ofList cs)).text.toList := by
    rw [String.toList_ofList]
  rcases splitStart_cases cs with ⟨rest, rfl, hstart⟩ | ⟨rest, rfl, rfl | ⟨rest', rfl⟩, hstart⟩ | ⟨-, hstart⟩ <;>
    cases hstart.symm.trans h
  · rw [componentsOf, Text.splitOn_sep]
    rfl
  · rfl
  · rw [componentsOf, splitOn_dot_slash, Text.splitOn_sep]
    rfl
  · obtain ⟨hhead, hdot⟩ := splitStart_eq_nil_iff.mp h
    have hrelative : (Path.mk (String.ofList cs)).isAbsolute = false := by
      rw [isAbsolute_ofList, decide_eq_false hhead]
    rw [hcs, ← components, components_eq, filterMap_steps, startComponent?, hrelative, String.toList_ofList,
      if_neg Bool.false_ne_true, if_neg hdot]
    rfl

/-- The last segment that is a component, and those before it. -/
theorem filterMap_of_dropEmpty {ss before : List (List Char)} {s : List Char}
    (h : dropEmpty ss.reverse = s :: before) :
    ∃ c, componentOf? s = some c ∧ ss.filterMap componentOf? = before.reverse.filterMap componentOf? ++ [c] := by
  induction ss using List.reverseRecOn with
  | nil => cases h
  | append_singleton ss r ih =>
    rw [List.reverse_append, List.reverse_singleton, List.singleton_append, dropEmpty, List.dropWhile_cons] at h
    cases hr : componentOf? r with
    | none =>
      rw [hr, Option.isNone_none, if_pos rfl] at h
      obtain ⟨c, hc, hss⟩ := ih h
      refine ⟨c, hc, ?_⟩
      rw [List.filterMap_append, hss, List.filterMap_cons_none hr, List.filterMap_nil, List.append_nil]
    | some c =>
      rw [hr, Option.isNone_some, if_neg Bool.false_ne_true] at h
      obtain ⟨rfl, rfl⟩ := List.cons.inj h
      refine ⟨c, hr, ?_⟩
      rw [List.reverse_reverse, List.filterMap_append, List.filterMap_cons_some hr, List.filterMap_nil]

/-- The segments of a text whose last component becomes another. -/
theorem splitOn_replaceLast {body s kept : List Char} {before : List (List Char)}
    (hdrop : dropEmpty (Text.splitOn '/' body).reverse = s :: before) (hslash : '/' ∉ kept) :
    Text.splitOn '/' (Text.joinWith ['/'] (kept :: before).reverse) = (kept :: before).reverse := by
  obtain ⟨rest, hsplit⟩ := splitOn_eq_of_dropEmpty hdrop
  refine Text.splitOn_joinWith_of_not_mem (by simp) fun r hr => ?_
  rcases List.mem_cons.mp (List.mem_reverse.mp hr) with rfl | hr
  · exact hslash
  · exact Text.not_mem_of_mem_splitOn (hsplit ▸ List.mem_append_left _ (List.mem_reverse.mpr hr))

/-- The start of a path stays when its last segment becomes another that is neither empty nor a dot. -/
theorem splitStart_replaceLast {cs start body s kept : List Char} {before : List (List Char)}
    (hstart : splitStart cs = (start, body)) (hdrop : dropEmpty (Text.splitOn '/' body).reverse = s :: before)
    (hslash : '/' ∉ kept) (hdot : kept ≠ ['.']) :
    splitStart (start ++ Text.joinWith ['/'] (kept :: before).reverse) =
      (start, Text.joinWith ['/'] (kept :: before).reverse) := by
  obtain ⟨rest, hsplit⟩ := splitOn_eq_of_dropEmpty hdrop
  obtain ⟨c, hc, -⟩ := filterMap_of_dropEmpty hdrop
  have hsegments := splitOn_replaceLast hdrop hslash
  rcases splitStart_cases cs with ⟨body', rfl, heq⟩ | ⟨body', rfl, hbody, heq⟩ | ⟨hhead, heq⟩ <;>
    cases heq.symm.trans hstart
  · rfl
  · rcases hbody with rfl | ⟨body', rfl⟩
    · -- A dot alone has no component behind it.
      cases hdrop
    · rw [Text.splitOn_sep] at hsplit
      cases hbefore : before.reverse with
      | nil =>
        rw [hbefore] at hsplit
        rw [← (List.cons.inj hsplit).1] at hc
        cases hc
      | cons first middle =>
        rw [hbefore] at hsplit
        rw [List.reverse_cons, hbefore, ← (List.cons.inj hsplit).1]
        cases middle <;> rfl
  · rw [List.nil_append, splitStart_eq_nil_iff]
    refine ⟨head?_replaceLast_ne hhead hslash hdrop, ?_⟩
    rw [hsegments, List.reverse_cons]
    cases hbefore : before.reverse with
    | nil => simpa using hdot
    | cons first middle =>
      have hfirst := (splitStart_eq_nil_iff.mp hstart).2
      rw [hsplit, hbefore] at hfirst
      exact hfirst

/-- The name of a file without its extension.  What would be left as a single dot stays as two. -/
def keptName (name : List Char) : List Char := if stem name = ['.'] then ['.', '.'] else stem name

theorem stem_append {base ext : List Char} (hbase : base ≠ []) (hext : '.' ∉ ext) :
    stem (base ++ '.' :: ext) = base := by
  simp only [stem, Text.splitLast?_append_cons base hext, List.isEmpty_eq_false_iff.mpr hbase, Bool.false_eq_true,
    if_false]

theorem stem_ne_nil {name : List Char} (h : name ≠ []) : stem name ≠ [] := by
  unfold stem
  split
  · next before after hsplit =>
    split
    · exact h
    · next hne => exact fun hnil => hne (List.isEmpty_iff.mpr hnil)
  · exact h

theorem filterMap_eq_nil_of_dropEmpty {ss : List (List Char)} (h : dropEmpty ss.reverse = []) :
    ss.filterMap componentOf? = [] := by
  rw [dropEmpty, List.dropWhile_eq_nil_iff] at h
  rw [List.filterMap_eq_nil_iff]
  intro s hs
  exact Option.isNone_iff_eq_none.mp (h s (List.mem_reverse.mpr hs))

/-- The last segment is replaced by the name without its extension. -/
theorem withoutExtension_eq {p : Path} {start body name : List Char} {before : List (List Char)}
    (hstart : splitStart p.text.toList = (start, body))
    (hdrop : dropEmpty (Text.splitOn '/' body).reverse = name :: before) (hdots : name ≠ ['.', '.'])
    (hlast : stem name = ['.'] → (Text.splitOn '/' body).getLast? = some name) :
    p.withoutExtension = ⟨String.ofList (start ++ Text.joinWith ['/'] (keptName name :: before).reverse)⟩ := by
  have hkept : (if stem name = ['.'] && (Text.splitOn '/' body).reverse.head? = some name then ['.', '.']
      else stem name) = keptName name := by
    rw [keptName, List.head?_reverse]
    by_cases hstem : stem name = ['.']
    · simp [hstem, hlast hstem]
    · simp [hstem]
  simp only [withoutExtension, hstart, hdrop, hkept]

theorem keptName_ne {name : List Char} (h : name ≠ []) : keptName name ≠ [] ∧ keptName name ≠ ['.'] := by
  unfold keptName
  split
  · decide
  · next hstem => exact ⟨stem_ne_nil h, hstem⟩

theorem slash_not_mem_keptName {name : List Char} (h : '/' ∉ name) : '/' ∉ keptName name := by
  unfold keptName
  split
  · decide
  · exact fun hmem => h (stem_subset _ hmem)

theorem normal_not_mem_startOf (start : List Char) (name : String) : .normal name ∉ startOf start := by
  unfold startOf
  split
  · simp
  · split <;> simp

/-- Without its extension a path has the same components but for the last.  A single dot is kept as two only in
the last segment of the text. -/
theorem texts_withoutExtension {p : Path} {cs : List Component} {name : String}
    (h : p.components = cs ++ [.normal name])
    (hlast : stem name.toList = ['.'] →
      (Text.splitOn '/' (splitStart p.text.toList).2).getLast? = some name.toList) :
    p.withoutExtension.components.map (·.text.toList) =
      cs.map (·.text.toList) ++ [keptName name.toList] := by
  cases hstart : splitStart p.text.toList with
  | mk start body =>
    rw [hstart] at hlast
    have hcomponents := componentsOf_eq_of_splitStart hstart
    rw [← components, h] at hcomponents
    cases hdrop : dropEmpty (Text.splitOn '/' body).reverse with
    | nil =>
      -- The path would be its start only.
      rw [filterMap_eq_nil_of_dropEmpty hdrop, List.append_nil] at hcomponents
      have hmem : .normal name ∈ startOf start := hcomponents ▸ List.mem_append_right _ List.mem_cons_self
      exact absurd hmem (normal_not_mem_startOf start name)
    | cons s before =>
      obtain ⟨c, hc, hfilter⟩ := filterMap_of_dropEmpty hdrop
      rw [hfilter, ← List.append_assoc] at hcomponents
      obtain ⟨rfl, hname⟩ := List.append_inj' hcomponents rfl
      cases hname
      obtain rfl : name.toList = s := text_of_componentOf? hc
      have hdots : name.toList ≠ ['.', '.'] := by
        intro hdots
        rw [hdots] at hc
        cases hc
      have hslash : '/' ∉ keptName name.toList := by
        obtain ⟨rest, hsplit⟩ := splitOn_eq_of_dropEmpty hdrop
        have hmem : name.toList ∈ Text.splitOn '/' body := hsplit ▸ List.mem_append_right _ List.mem_cons_self
        exact slash_not_mem_keptName (Text.not_mem_of_mem_splitOn hmem)
      have hne : name.toList ≠ [] := by
        intro hnil
        rw [hnil] at hc
        cases hc
      obtain ⟨hnil, hdot⟩ := keptName_ne hne
      rw [withoutExtension_eq hstart hdrop hdots hlast, components, String.toList_ofList,
        componentsOf_eq_of_splitStart (splitStart_replaceLast hstart hdrop hslash hdot),
        splitOn_replaceLast hdrop hslash, List.reverse_cons, List.filterMap_append]
      cases hcomponent : componentOf? (keptName name.toList) with
      | none => exact absurd (eq_nil_or_dot_of_componentOf? hcomponent) (not_or.mpr ⟨hnil, hdot⟩)
      | some d =>
        rw [List.filterMap_cons_some hcomponent, List.filterMap_nil, ← List.append_assoc, List.map_append,
          List.map_singleton, text_of_componentOf? hcomponent]

end Path

open GoScribe.Path FileTree

/-! ## From the source to the name -/

/-- The module whose name has the given parts. -/
def moduleOf (parts : List (List Char)) : String := String.ofList (Text.joinWith ['.'] parts)

theorem ne_nil_of_normal_mem {p : Path} {name : String} (h : .normal name ∈ p.components) : name.toList ≠ [] := by
  rw [components_eq, List.mem_append] at h
  rcases h with h | h
  · unfold startComponent? at h
    split at h
    · cases List.mem_singleton.mp h
    · split at h
      · cases List.mem_singleton.mp h
      · cases h
  · obtain ⟨s, -, hs⟩ := List.mem_filterMap.mp h
    rcases componentOf?_eq_some hs with ⟨hparent, -⟩ | ⟨heq, hne⟩
    · cases hparent
    · cases heq
      rwa [String.toList_ofList]

/-- A path that ends in a name is the source of a module. -/
theorem moduleName?_eq {p : Path} {cs : List Component} {name : String}
    (h : p.components = cs ++ [.normal name])
    (hlast : stem name.toList = ['.'] →
      (Text.splitOn '/' (splitStart p.text.toList).2).getLast? = some name.toList) :
    moduleName? p = some (moduleOf (cs.map (·.text.toList) ++ [keptName name.toList])) := by
  have hname : name.toList ≠ [] :=
    ne_nil_of_normal_mem (h ▸ List.mem_append_right cs List.mem_cons_self)
  have hne : (Text.joinWith ['.'] (cs.map (·.text.toList) ++ [keptName name.toList])).isEmpty = false := by
    rw [Text.joinWith_concat, List.isEmpty_eq_false_iff]
    exact List.append_ne_nil_of_right_ne_nil _ (keptName_ne hname).1
  simp only [moduleName?, texts_withoutExtension h hlast, hne, Bool.false_eq_true, if_false, moduleOf]

theorem Text.mem_joinWith {α : Type} {sep : List α} {xs : List (List α)} {c : α} (h : c ∈ joinWith sep xs) :
    c ∈ sep ∨ ∃ x ∈ xs, c ∈ x := by
  induction xs using List.reverseRecOn with
  | nil => cases h
  | append_singleton xs x _ =>
    rw [joinWith_concat, List.mem_append, List.mem_flatMap] at h
    rcases h with ⟨y, hy, hc⟩ | hc
    · rcases List.mem_append.mp hc with hc | hc
      · exact .inr ⟨y, List.mem_append_left _ hy, hc⟩
      · exact .inl hc
    · exact .inr ⟨x, List.mem_append_right _ List.mem_cons_self, hc⟩

/-- Only an absolute path gives a name with a slash in it. -/
theorem slash_not_mem_moduleName {p : Path} {m : String} (hp : .root ∉ p.components)
    (h : moduleName? p = some m) : '/' ∉ m.toList := by
  simp only [moduleName?] at h
  split at h
  · cases h
  · rw [← Option.some.inj h, String.toList_ofList]
    intro hslash
    rcases Text.mem_joinWith hslash with hdot | ⟨_, hmem, hslash⟩
    · exact absurd hdot (by decide)
    · obtain ⟨c, hc, rfl⟩ := List.mem_map.mp hmem
      refine slash_not_mem_text hc ?_ hslash
      rintro rfl
      rw [root_mem_components, isAbsolute_withoutExtension, ← root_mem_components] at hc
      exact hp hc

/-! ## From the name to the files -/

theorem FileTree.IsFileName.components_join {name : String} (h : IsFileName name) (dir : Path) :
    (dir.join ⟨name⟩).components = dir.components ++ [.normal name] := by
  have hcomponent : componentOf? name.toList = some (.normal name) := by
    rw [h.1, String.ofList_toList]
  have hstart : (Path.mk name).startComponent? = none :=
    startComponent?_eq_none (Text.splitOn_of_not_mem h.2) (isStep_of_isName h.1)
  rw [Path.components_join h.isAbsolute_eq hstart, components_eq (Path.mk name), hstart, h.steps_eq,
    List.filterMap_cons_some hcomponent]
  rfl

/-- A text without slashes is a name if there is more in it than dots. -/
theorem isFileName_of_mem {name : String} {c : Char} (hc : c ∈ name.toList) (hdot : c ≠ '.')
    (hslash : '/' ∉ name.toList) : IsFileName name := by
  refine ⟨?_, hslash⟩
  have hnot : ∀ cs ∈ [[], ['.'], ['.', '.']], name.toList ≠ cs := by
    rintro cs hcs rfl
    simp only [List.mem_cons, List.not_mem_nil, or_false] at hcs
    rcases hcs with heq | heq | heq <;> simp [heq, hdot] at hc
  cases hcomponent : componentOf? name.toList with
  | none =>
    rcases eq_nil_or_dot_of_componentOf? hcomponent with heq | heq
    · exact absurd heq (hnot _ (by simp))
    · exact absurd heq (hnot _ (by simp))
  | some d =>
    rcases componentOf?_eq_some hcomponent with ⟨-, heq⟩ | ⟨rfl, -⟩
    · exact absurd heq (hnot _ (by simp))
    · exact hcomponent

/-- The parts of a module's name that are not empty. -/
def partNames (moduleName : String) : List String :=
  ((Text.splitOn '.' moduleName.toList).filter fun part => !part.isEmpty).map String.ofList

theorem components_foldl_join {parts : List (List Char)} (hdot : ∀ part ∈ parts, '.' ∉ part)
    (hslash : ∀ part ∈ parts, '/' ∉ part) (dir : Path) :
    (parts.foldl (fun dir part => dir.join ⟨String.ofList part⟩) dir).components =
      dir.components ++ ((parts.filter fun part => !part.isEmpty).map String.ofList).map .normal := by
  induction parts generalizing dir with
  | nil => exact (List.append_nil _).symm
  | cons part parts ih =>
    rw [List.forall_mem_cons] at hdot hslash
    rw [List.foldl_cons, ih hdot.2 hslash.2]
    cases part with
    | nil => rw [Path.components_join rfl rfl]; exact congrArg (· ++ _) (List.append_nil _)
    | cons c cs =>
      have hname : IsFileName (String.ofList (c :: cs)) := by
        refine isFileName_of_mem (c := c) ?_ ?_ ?_
        · rw [String.toList_ofList]
          exact List.mem_cons_self
        · rintro rfl
          exact hdot.1 List.mem_cons_self
        · rw [String.toList_ofList]
          exact hslash.1
      rw [hname.components_join, List.append_assoc]
      rfl

/-- The path of a Go file goes on from the directory of the package with the parts of the module's name and the
name of the file. -/
theorem components_outPath {m : String} (hm : '/' ∉ m.toList) (dir : Path) :
    (outPath dir m).components = dir.components ++ (partNames m ++ [(goFile m).text]).map .normal := by
  have hparts : ∀ part ∈ Text.splitOn '.' m.toList, '/' ∉ part := fun part hpart hslash =>
    hm ((Text.sublist_of_mem_splitOn hpart).subset hslash)
  have hfile : IsFileName (goFile m).text := by
    have htext : (goFile m).text.toList = Text.afterLast '.' m.toList ++ ['.', 'g', 'o'] := by
      rw [goFile, String.toList_append, String.toList_ofList]
      rfl
    refine isFileName_of_mem (c := 'g') ?_ (by decide) ?_
    · rw [htext]
      exact List.mem_append_right _ (by decide)
    · rw [htext, List.mem_append, not_or]
      exact ⟨hparts _ (Text.afterLast_mem_splitOn _ _), by decide⟩
  rw [outPath, ← goFile, hfile.components_join, moduleDir,
    components_foldl_join (fun part hpart => Text.not_mem_of_mem_splitOn hpart) hparts, List.append_assoc,
    ← partNames, List.map_append]
  rfl

/-! ## Sources without further dots -/

/-- A source in directories `dirs` that is called `name`, but for the extension: these names have no dots. -/
structure IsPlainSource (p : Path) (dirs : List String) (name : String) : Prop where
  components_eq : p.components = (dirs ++ [name ++ ".purs"]).map .normal
  dot_not_mem : ∀ part ∈ dirs ++ [name], '.' ∉ part.toList
  name_ne : name ≠ ""

/-- The module of such a source. -/
def plainModule (dirs : List String) (name : String) : String := moduleOf ((dirs ++ [name]).map String.toList)

namespace IsPlainSource

variable {p : Path} {dirs : List String} {name : String} (h : IsPlainSource p dirs name)

include h

theorem part_ne {part : String} (hpart : part ∈ dirs ++ [name]) : part.toList ≠ [] := by
  rcases List.mem_append.mp hpart with hpart | hpart
  · apply ne_nil_of_normal_mem (p := p)
    rw [h.components_eq]
    exact List.mem_map_of_mem (List.mem_append_left _ hpart)
  · rw [List.mem_singleton.mp hpart]
    exact fun hnil => h.name_ne (String.toList_eq_nil_iff.mp hnil)

theorem moduleName?_eq : moduleName? p = some (plainModule dirs name) := by
  have hdot : '.' ∉ name.toList := h.dot_not_mem name (List.mem_append_right _ List.mem_cons_self)
  have hstem : stem (name ++ ".purs").toList = name.toList := by
    rw [String.toList_append]
    exact stem_append (h.part_ne (List.mem_append_right _ List.mem_cons_self)) (by decide)
  have hnotDot : stem (name ++ ".purs").toList ≠ ['.'] := by
    rw [hstem]
    intro heq
    rw [heq] at hdot
    exact hdot List.mem_cons_self
  have hcomponents : p.components = dirs.map .normal ++ [.normal (name ++ ".purs")] := by
    rw [h.components_eq, List.map_append]
    rfl
  rw [GoScribe.moduleName?_eq hcomponents fun heq => absurd heq hnotDot, keptName, if_neg hnotDot, hstem,
    plainModule, List.map_append, List.map_map]
  rfl

theorem splitOn_plainModule :
    Text.splitOn '.' (plainModule dirs name).toList = (dirs ++ [name]).map String.toList := by
  rw [plainModule, moduleOf, String.toList_ofList]
  refine Text.splitOn_joinWith_of_not_mem (by simp) fun cs hcs => ?_
  obtain ⟨part, hpart, rfl⟩ := List.mem_map.mp hcs
  exact h.dot_not_mem part hpart

theorem slash_not_mem_plainModule : '/' ∉ (plainModule dirs name).toList := by
  apply slash_not_mem_moduleName (p := p) _ h.moduleName?_eq
  rw [h.components_eq]
  simp

/-- A module's dump is in a directory that has its name. -/
theorem components_dumpPath (dumpsDir : Path) :
    (dumpPath dumpsDir (plainModule dirs name)).components =
      dumpsDir.components ++ [.normal (plainModule dirs name), .normal dumpFile] := by
  have hmodule : IsFileName (plainModule dirs name) := by
    have hname : name ∈ dirs ++ [name] := List.mem_append_right _ List.mem_cons_self
    obtain ⟨c, hc⟩ := List.exists_mem_of_ne_nil _ (h.part_ne hname)
    refine isFileName_of_mem (c := c) ?_ ?_ h.slash_not_mem_plainModule
    · rw [plainModule, moduleOf, String.toList_ofList, List.map_append, List.map_singleton, Text.joinWith_concat]
      exact List.mem_append_right _ hc
    · rintro rfl
      exact h.dot_not_mem name hname hc
  have hfile : IsFileName dumpFile := isFileName_of_mem (c := 'g') (by decide) (by decide) (by decide)
  rw [dumpPath, hfile.components_join, hmodule.components_join, List.append_assoc]
  rfl

theorem components_outPath (dir : Path) :
    (outPath dir (plainModule dirs name)).components =
      dir.components ++ (dirs ++ [name] ++ [name ++ ".go"]).map .normal := by
  have hsplit := h.splitOn_plainModule
  have hparts : partNames (plainModule dirs name) = dirs ++ [name] := by
    rw [partNames, hsplit, List.filter_eq_self.mpr, List.map_map]
    · exact List.map_id'' (fun part => String.ofList_toList) _
    · intro cs hcs
      obtain ⟨part, hpart, rfl⟩ := List.mem_map.mp hcs
      rw [List.isEmpty_eq_false_iff.mpr (h.part_ne hpart)]
      rfl
  have hfile : (goFile (plainModule dirs name)).text = name ++ ".go" := by
    obtain ⟨pieces, hlast⟩ := Text.exists_splitOn_append '.' (plainModule dirs name).toList
    have heq := hlast [] List.not_mem_nil
    rw [List.append_nil, List.append_nil, hsplit, List.map_append] at heq
    rw [goFile, ← (List.cons.inj (List.append_inj' heq rfl).2).1, String.ofList_toList]
  rw [GoScribe.components_outPath h.slash_not_mem_plainModule, hparts, hfile]

end IsPlainSource

/-- The names with the extension are the same if those without it are. -/
theorem IsPlainSource.parts_ne {p q : Path} {dirs dirs' : List String} {name name' : String}
    (hp : IsPlainSource p dirs name) (hq : IsPlainSource q dirs' name') (hne : p.components ≠ q.components) :
    dirs ++ [name] ≠ dirs' ++ [name'] := by
  intro heq
  obtain ⟨rfl, hname⟩ := List.append_inj' heq rfl
  cases hname
  exact hne (hp.components_eq.trans hq.components_eq.symm)

end GoScribe
