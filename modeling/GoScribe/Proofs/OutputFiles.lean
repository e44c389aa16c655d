import GoScribe.Project.Regenerate
import GoScribe.Proofs.OutputPaths
import GoScribe.Proofs.TreeChanges
import Mathlib.Data.List.TakeWhile

/-!
# Writing below a directory

A path that goes on with names from a directory leads to one location, whatever the tree is like there.  In a
well-formed tree the time of its last change is that of the entry at the location (`modified?_eq`), and to
write a file at it is to make the directories on the way and to put the file there (`install_eq`).
-/

namespace GoScribe

open GoScribe.Path

namespace FileTree

/-! ## Segments and steps -/

theorem exists_splitOn_eq_segments (p : Path) :
    ∃ empty, Text.splitOn '/' p.text.toList = segments p ++ empty ∧ ∀ s ∈ empty, s = [] := by
  have hsplit := List.takeWhile_append_dropWhile (p := fun s : List Char => s.isEmpty)
    (l := (Text.splitOn '/' p.text.toList).reverse)
  refine ⟨((Text.splitOn '/' p.text.toList).reverse.takeWhile fun s => s.isEmpty).reverse, ?_, ?_⟩
  · rw [segments, ← List.reverse_append, hsplit, List.reverse_reverse]
  · intro s hs
    exact List.isEmpty_iff.mp (List.mem_takeWhile_imp (List.mem_reverse.mp hs))

theorem filter_segments (p : Path) : (segments p).filter isStep = p.steps := by
  obtain ⟨empty, hsplit, hempty⟩ := exists_splitOn_eq_segments p
  have hnone : empty.filter isStep = [] := by
    rw [List.filter_eq_nil_iff]
    intro s hs
    rw [hempty s hs]
    exact Bool.false_ne_true
  rw [steps, hsplit, List.filter_append, hnone, List.append_nil]

theorem segments_of_concat {p : Path} {init : List (List Char)} {last : List Char}
    (hsplit : Text.splitOn '/' p.text.toList = init ++ [last]) (hlast : last ≠ []) :
    segments p = init ++ [last] := by
  rw [segments, hsplit, List.reverse_append, List.reverse_singleton, List.singleton_append,
    List.dropWhile_cons_of_neg (mt List.isEmpty_iff.mp hlast), List.reverse_cons, List.reverse_reverse]

theorem segments_of_splitOn {p : Path} (h : EndsInStep (Text.splitOn '/' p.text.toList)) :
    segments p = Text.splitOn '/' p.text.toList := by
  obtain ⟨init, last, hsplit, hlast⟩ := h
  rw [hsplit]
  refine segments_of_concat hsplit ?_
  rintro rfl
  cases hlast

/-- A path whose last segment leads on and which has the steps of `base` and then the names `ss`. -/
structure GoesOn (base : Path) (ss : List (List Char)) (p : Path) : Prop where
  steps_eq : p.steps = base.steps ++ ss
  isAbsolute_eq : p.isAbsolute = base.isAbsolute
  endsInStep : EndsInStep (Text.splitOn '/' p.text.toList)
  isName : ∀ s ∈ ss, IsName s

/-- The steps of a path lead to the location `l`. -/
def IsAt (t : FileTree) (p : Path) (l : Location) : Prop := t.walk (t.start p) p.steps = .ok l

instance (t : FileTree) (p : Path) (l : Location) : Decidable (t.IsAt p l) :=
  inferInstanceAs (Decidable (_ = Except.ok l))

theorem isAt_of_locate {t : FileTree} {p : Path} {l : Location} (h : t.locate p = .ok l) : t.IsAt p l := by
  unfold locate at h
  split at h
  · cases h
  · rw [IsAt, ← filter_segments]
    exact walk_filter_of_eq_ok h

/-- The tree is well-formed, and the directory `base` is in it at `l`. -/
structure HasRoot (t : FileTree) (base : Path) (l : Location) : Prop where
  wellFormed : t.WellFormed
  isAt : t.IsAt base l
  isDirAt : t.isDirAt l

section

variable {t : FileTree} {base p : Path} {l : Location} {ss : List (List Char)}

theorem text_ne_of_endsInStep (h : EndsInStep (Text.splitOn '/' p.text.toList)) : p.text ≠ "" := by
  intro hempty
  obtain ⟨init, last, hsplit, hlast⟩ := h
  rw [hempty] at hsplit
  have hmem : last ∈ Text.splitOn '/' "".toList := hsplit ▸ List.mem_append_right _ List.mem_cons_self
  rw [List.mem_singleton.mp hmem] at hlast
  cases hlast

theorem GoesOn.text_ne (hp : GoesOn base ss p) : p.text ≠ "" := text_ne_of_endsInStep hp.endsInStep

theorem GoesOn.start_eq (hp : GoesOn base ss p) (t : FileTree) : t.start p = t.start base := by
  rw [start, start, hp.isAbsolute_eq]

/-- A path that goes on from a directory is followed from there. -/
theorem GoesOn.locate (hp : GoesOn base ss p) (h : t.HasRoot base l) :
    t.locate p = t.walk l ss := by
  rw [FileTree.locate, if_neg hp.text_ne, segments_of_splitOn hp.endsInStep, ← walk_filter hp.endsInStep,
    ← Path.steps, hp.steps_eq, hp.start_eq, walk_append h.isAt]

theorem GoesOn.createDirs (hp : GoesOn base ss p) (h : t.HasRoot base l) :
    t.createDirs p = t.makeDirs false l ss := by
  rw [FileTree.createDirs, if_neg hp.text_ne, segments_of_splitOn hp.endsInStep,
    ← makeDirs_filter hp.endsInStep, ← Path.steps, hp.steps_eq, hp.start_eq,
    makeDirs_append h.isAt]

theorem GoesOn.endsInSlash (hp : GoesOn base ss p) : endsInSlash p = false := by
  obtain ⟨init, last, hsplit, hlast⟩ := hp.endsInStep
  rw [FileTree.endsInSlash, decide_eq_false]
  intro hslash
  obtain ⟨cs, hcs⟩ := List.getLast?_eq_some_iff.mp hslash
  rw [hcs, Text.splitOn_append] at hsplit
  have hnil : [] = last := (List.append_inj' hsplit rfl).2 |> List.cons.inj |>.1
  rw [← hnil] at hlast
  cases hlast

/-! ## Locations on the way down -/

theorem down_append (l : Location) (ss rs : List (List Char)) :
    down l (ss ++ rs) = down (down l ss) rs := by
  rw [down, down, down, List.map_append, List.reverse_append, List.append_assoc]

theorem walk_names (hss : ∀ s ∈ ss, IsName s)
    (hdirs : ∀ k, l <:+ k → k <:+ down l ss → k ≠ down l ss → t.isDirAt k) :
    t.walk l ss = .ok (down l ss) := by
  induction ss generalizing l with
  | nil => rfl
  | cons s ss ih =>
    rw [List.forall_mem_cons] at hss
    rw [down_cons] at hdirs ⊢
    have hsuffix : String.ofList s :: l <:+ down (String.ofList s :: l) ss := List.suffix_append _ _
    have hl : t.isDirAt l := by
      refine hdirs l (List.suffix_refl l) ((List.suffix_cons _ _).trans hsuffix) ?_
      intro heq
      rw [← heq] at hsuffix
      exact absurd hsuffix.length_le (by simp)
    rw [walk_cons hl, stepTo_of_isName hss.1]
    exact ih hss.2 fun k hk => hdirs k ((List.suffix_cons _ _).trans hk)

theorem eq_down_of_walk (hss : ∀ s ∈ ss, IsName s) {k : Location} (h : t.walk l ss = .ok k) :
    k = down l ss := by
  induction ss generalizing l with
  | nil => exact (Except.ok.inj h).symm
  | cons s ss ih =>
    rw [List.forall_mem_cons] at hss
    obtain ⟨-, h⟩ := walk_cons_eq_ok h
    rw [stepTo_of_isName hss.1] at h
    rw [down_cons]
    exact ih hss.2 h

theorem GoesOn.stat (hp : GoesOn base ss p) {k : Location} (h : t.locate p = .ok k) :
    t.stat p = (t.get? k).elim (.error .notFound) .ok := by
  have hpure : t.locate p = pure k := h
  rw [FileTree.stat, hpure, pure_bind, hp.endsInSlash]
  cases t.get? k with
  | none => rfl
  | some e => cases e <;> rfl

/-- What is found at the path is the entry at the location. -/
theorem GoesOn.toOption_stat (hp : GoesOn base ss p) (h : t.HasRoot base l) :
    (t.stat p).toOption = t.get? (down l ss) := by
  cases hget : t.get? (down l ss) with
  | some e =>
    have hsome : (t.get? (down l ss)).isSome := by rw [hget]; rfl
    have hlocate : t.locate p = .ok (down l ss) := by
      rw [hp.locate h]
      exact walk_names hp.isName fun k _ hk hne => h.wellFormed.isDirAt_of_suffix hsome hk hne
    rw [hp.stat hlocate, hget]
    rfl
  | none =>
    cases hlocate : t.locate p with
    | error e =>
      rw [FileTree.stat, hlocate]
      rfl
    | ok k =>
      rw [hp.stat hlocate, eq_down_of_walk hp.isName ((hp.locate h).symm.trans hlocate), hget]
      rfl

/-- The time of the last change is that of the entry at the location. -/
theorem GoesOn.modified?_eq (hp : GoesOn base ss p) (h : t.HasRoot base l) :
    t.modified? p = (t.get? (down l ss)).map Entry.modified := by
  rw [modified?, hp.toOption_stat h]

/-- The tree with a file at `l`, in place of the one that was there. -/
def writeAt (t : FileTree) (l : Location) (content : ByteArray) : FileTree :=
  if (t.get? l).isSome then t.put l (.file content t.clock) else t.add l (.file content t.clock)

/-- A file is written where it belongs, if its directory is there and no directory has its name. -/
theorem GoesOn.writeFile_eq {name : List Char} (hp : GoesOn base (ss ++ [name]) p)
    (h : t.HasRoot base l) (hdir : t.isDirAt (down l ss)) (content : ByteArray) :
    t.writeFile p content =
      if t.isDirAt (down l (ss ++ [name])) then .error .isADirectory
      else .ok (t.writeAt (down l (ss ++ [name])) content) := by
  have hdown : down l (ss ++ [name]) = String.ofList name :: down l ss := down_append l ss [name]
  obtain ⟨m, hm⟩ := isDirAt_iff.mp hdir
  have hlocate : t.locate p = pure (down l (ss ++ [name])) := by
    rw [hp.locate h]
    refine walk_names hp.isName fun k _ hk hne => ?_
    rw [hdown] at hk hne
    rcases List.suffix_cons_iff.mp hk with heq | hk
    · exact absurd heq hne
    · by_cases hkdown : k = down l ss
      · rw [hkdown]
        exact hdir
      · exact h.wellFormed.isDirAt_of_suffix (by rw [hm]; rfl) hk hkdown
  rw [writeFile, hlocate, pure_bind, hp.endsInSlash, hdown, List.tail_cons, hm, isDirAt, writeAt]
  cases t.get? (String.ofList name :: down l ss) with
  | none => rfl
  | some e => cases e <;> rfl

end

/-! ## The directory of a path -/

theorem dropEmpty_cons {s : List Char} (hs : isStep s) (ss : List (List Char)) :
    dropEmpty (s :: ss) = s :: ss := by
  refine List.dropWhile_cons_of_neg ?_
  rw [← Option.not_isSome, ← isStep, hs]
  exact Bool.false_ne_true

/-- Segments without those at the end that do not lead on. -/
theorem endsInStep_dropEmpty {ss : List (List Char)} (h : ss.filter isStep ≠ []) :
    EndsInStep (dropEmpty ss.reverse).reverse ∧
      (dropEmpty ss.reverse).reverse.filter isStep = ss.filter isStep ∧
      (dropEmpty ss.reverse).reverse <+: ss := by
  induction ss using List.reverseRecOn with
  | nil => exact absurd rfl h
  | append_singleton ss s ih =>
    rw [List.reverse_append, List.reverse_singleton, List.singleton_append]
    cases hs : isStep s with
    | true =>
      rw [dropEmpty_cons hs, List.reverse_cons, List.reverse_reverse]
      exact ⟨⟨ss, s, rfl, hs⟩, rfl, List.prefix_refl _⟩
    | false =>
      have hdrop : dropEmpty (s :: ss.reverse) = dropEmpty ss.reverse := by
        refine List.dropWhile_cons_of_pos ?_
        rw [← Option.not_isSome, ← isStep, hs]
        rfl
      have hfilter : (ss ++ [s]).filter isStep = ss.filter isStep := by
        rw [List.filter_append, List.filter_cons_of_neg (by rw [hs]; exact Bool.false_ne_true)]
        exact List.append_nil _
      rw [hfilter] at h ⊢
      rw [hdrop]
      obtain ⟨hends, hkept, hfront⟩ := ih h
      exact ⟨hends, hkept, hfront.trans (List.prefix_append _ _)⟩

theorem parent?_eq {p : Path} {start body : List Char} {ss : List (List Char)} {last : List Char}
    (hstart : splitStart p.text.toList = (start, body)) (hsplit : Text.splitOn '/' body = ss ++ [last])
    (hlast : isStep last) :
    p.parent? = some ⟨String.ofList (start ++ Text.joinWith ['/'] (dropEmpty ss.reverse).reverse)⟩ := by
  have hdrop : dropEmpty (Text.splitOn '/' body).reverse = last :: ss.reverse := by
    rw [hsplit, List.reverse_append, List.reverse_singleton, List.singleton_append, dropEmpty_cons hlast]
  unfold Path.parent?
  simp only [hstart, hdrop]

theorem EndsInStep.cons {ss : List (List Char)} (h : EndsInStep ss) (s : List Char) :
    EndsInStep (s :: ss) := by
  obtain ⟨init, last, rfl, hlast⟩ := h
  exact ⟨s :: init, last, rfl, hlast⟩

theorem EndsInStep.ne_nil {ss : List (List Char)} (h : EndsInStep ss) : ss ≠ [] := by
  obtain ⟨init, last, rfl, -⟩ := h
  exact List.append_ne_nil_of_right_ne_nil _ (List.cons_ne_nil _ _)

/-- The segments that are left of a text when its last one is taken away. -/
theorem splitOn_keptSegments {body last : List Char} {ss : List (List Char)}
    (hsplit : Text.splitOn '/' body = ss ++ [last]) (hss : ss.filter isStep ≠ []) :
    Text.splitOn '/' (Text.joinWith ['/'] (dropEmpty ss.reverse).reverse) =
      (dropEmpty ss.reverse).reverse := by
  obtain ⟨hends, -, hfront⟩ := endsInStep_dropEmpty hss
  refine Text.splitOn_joinWith_of_not_mem hends.ne_nil fun s hs => ?_
  exact Text.not_mem_of_mem_splitOn (hsplit ▸ List.mem_append_left _ (hfront.subset hs))

/-- `d` is the path `p` without its last segment, if those before it are `init`. -/
structure IsParent (p : Path) (init : List (List Char)) (d : Path) : Prop where
  parent?_eq : p.parent? = some d
  isAbsolute_eq : d.isAbsolute = p.isAbsolute
  steps_eq : d.steps = init.filter isStep
  endsInStep : EndsInStep (Text.splitOn '/' d.text.toList)

section

variable {p : Path} {init : List (List Char)} {last : List Char}
  (hsplit : Text.splitOn '/' p.text.toList = init ++ [last]) (hlast : isStep last)
  (hinit : init.filter isStep ≠ [])

include hsplit hlast hinit

/-- An absolute path: its first segment is empty. -/
theorem exists_isParent_root {body : List Char} (htext : p.text.toList = '/' :: body)
    (hstart : splitStart p.text.toList = (['/'], body)) : ∃ d, IsParent p init d := by
  cases init with
  | nil => exact absurd rfl hinit
  | cons first init =>
    rw [htext, Text.splitOn_sep, List.cons_append] at hsplit
    obtain ⟨rfl, hrest⟩ := List.cons.inj hsplit
    obtain ⟨hends, hkept, -⟩ := endsInStep_dropEmpty (show init.filter isStep ≠ [] from hinit)
    refine ⟨_, parent?_eq hstart hrest hlast, ?_, ?_, ?_⟩
    · rw [isAbsolute_ofList, isAbsolute, htext]
      rfl
    · rw [Path.steps, String.toList_ofList, List.singleton_append, Text.splitOn_sep,
        splitOn_keptSegments hrest hinit]
      exact hkept
    · rw [String.toList_ofList, List.singleton_append, Text.splitOn_sep,
        splitOn_keptSegments hrest hinit]
      exact hends.cons _

/-- A dot in front: it stays, and so does the slash behind it. -/
theorem exists_isParent_current {rest : List Char} (htext : p.text.toList = '.' :: '/' :: rest)
    (hstart : splitStart p.text.toList = (['.'], '/' :: rest)) : ∃ d, IsParent p init d := by
  have hdot (cs : List Char) : Text.splitOn '/' ('.' :: '/' :: cs) = ['.'] :: Text.splitOn '/' cs :=
    Text.splitOn_append '/' ['.'] cs
  cases init with
  | nil => exact absurd rfl hinit
  | cons first init =>
    rw [htext, hdot, List.cons_append] at hsplit
    obtain ⟨rfl, hrest⟩ := List.cons.inj hsplit
    have hbody : Text.splitOn '/' ('/' :: rest) = ([] :: init) ++ [last] := by
      rw [Text.splitOn_sep, hrest, List.cons_append]
    obtain ⟨hends, hkept, hfront⟩ :=
      endsInStep_dropEmpty (show ([] :: init).filter isStep ≠ [] from hinit)
    have hjoin := splitOn_keptSegments hbody hinit
    have hparent := parent?_eq hstart hbody hlast
    generalize (dropEmpty ([] :: init).reverse).reverse = kept at *
    match kept with
    | [] => exact absurd rfl hends.ne_nil
    | [s] =>
      obtain ⟨rfl, -⟩ := List.cons_prefix_cons.mp hfront
      exact absurd hkept.symm hinit
    | s :: r :: kept =>
      obtain ⟨rfl, -⟩ := List.cons_prefix_cons.mp hfront
      have hslash : Text.joinWith ['/'] ([] :: r :: kept) = '/' :: Text.joinWith ['/'] (r :: kept) := rfl
      rw [hslash, Text.splitOn_sep] at hjoin
      have htext' : Text.splitOn '/' ('.' :: '/' :: Text.joinWith ['/'] (r :: kept)) =
          ['.'] :: r :: kept := by
        rw [hdot, (List.cons.inj hjoin).2]
      refine ⟨_, hparent, ?_, ?_, ?_⟩
      · rw [isAbsolute_ofList, isAbsolute, htext]
        rfl
      · rw [Path.steps, String.toList_ofList, List.singleton_append, hslash, htext']
        exact hkept
      · rw [String.toList_ofList, List.singleton_append, hslash, htext']
        obtain ⟨-, hnil⟩ | hends := hends.cons_inv
        · cases hnil
        · exact hends.cons _

/-- Another relative path: its first segment is not empty and stays. -/
theorem exists_isParent_relative (hhead : p.text.toList.head? ≠ some '/')
    (hstart : splitStart p.text.toList = ([], p.text.toList)) : ∃ d, IsParent p init d := by
  obtain ⟨hends, hkept, hfront⟩ := endsInStep_dropEmpty hinit
  have hjoin := splitOn_keptSegments hsplit hinit
  have hfirst : (dropEmpty init.reverse).reverse.head? ≠ some [] := by
    intro hnil
    obtain ⟨rest, hrest⟩ := List.head?_eq_some_iff.mp hnil
    obtain ⟨more, hmore⟩ := hfront
    rw [hrest] at hmore
    rw [← hmore] at hsplit
    cases htext : p.text.toList with
    | nil =>
      rw [htext] at hsplit
      exact absurd (congrArg List.length hsplit) (by simp [Text.splitOn])
    | cons c cs =>
      rw [htext] at hsplit hhead
      refine head?_splitOn_ne_nil (c := c) ?_ cs (by rw [hsplit]; rfl)
      rintro rfl
      exact hhead rfl
  refine ⟨_, parent?_eq hstart hsplit hlast, ?_, ?_, ?_⟩
  · rw [isAbsolute_ofList, isAbsolute, decide_eq_false hhead, List.nil_append, decide_eq_false]
    refine head?_joinWith_ne (fun s hs => ?_) (.inl hfirst)
    exact Text.not_mem_of_mem_splitOn (hsplit ▸ List.mem_append_left _ (hfront.subset hs))
  · rw [Path.steps, String.toList_ofList, List.nil_append, hjoin]
    exact hkept
  · rw [String.toList_ofList, List.nil_append, hjoin]
    exact hends

theorem exists_isParent : ∃ d, IsParent p init d := by
  rcases splitStart_cases p.text.toList with
    ⟨body, htext, hstart⟩ | ⟨body, htext, rfl | ⟨rest, rfl⟩, hstart⟩ | ⟨hhead, hstart⟩
  · exact exists_isParent_root hsplit hlast hinit htext hstart
  · -- A dot alone has no segment that leads on.
    rw [htext] at hsplit
    have hmem : last ∈ Text.splitOn '/' ['.'] := hsplit ▸ List.mem_append_right _ List.mem_cons_self
    rw [List.mem_singleton.mp hmem] at hlast
    cases hlast
  · exact exists_isParent_current hsplit hlast hinit htext hstart
  · exact exists_isParent_relative hsplit hlast hinit hhead hstart

end

theorem dropEmpty_eq_nil {ss : List (List Char)} (h : ss.filter isStep = []) : dropEmpty ss = [] := by
  rw [List.filter_eq_nil_iff] at h
  rw [dropEmpty, List.dropWhile_eq_nil_iff]
  intro s hs
  rw [← Option.not_isSome, ← isStep, Bool.eq_false_iff.mpr (h s hs)]
  rfl

theorem makeDirs_nil_of_isDirAt {t : FileTree} {l : Location} (h : t.isDirAt l) (made : Bool) :
    t.makeDirs made l [] = (t, .ok ()) := by
  rw [makeDirs_nil_of_not_file (fileAt?_eq_none_of_isDirAt h), ensureDir_of_isDirAt h]

/-- There is always a segment behind a slash. -/
theorem exists_of_cons_splitOn_eq {s last rest : List Char} {init : List (List Char)}
    (h : s :: Text.splitOn '/' rest = init ++ [last]) :
    ∃ init', init = s :: init' ∧ Text.splitOn '/' rest = init' ++ [last] := by
  cases init with
  | nil =>
    obtain ⟨r, rs, hrest⟩ := Text.exists_splitOn_eq_cons '/' rest
    rw [hrest] at h
    cases h
  | cons first init =>
    obtain ⟨rfl, hrest⟩ := List.cons.inj h
    exact ⟨init, rfl, hrest⟩

/-- All that is left of a path with one step, when that is taken away, is its start. -/
theorem exists_parent?_of_one_step {p : Path} {init : List (List Char)} {last : List Char}
    (hsplit : Text.splitOn '/' p.text.toList = init ++ [last]) (hlast : isStep last)
    (hinit : init.filter isStep = []) :
    ∃ start, p.parent? = some ⟨String.ofList start⟩ ∧
      (start = ['/'] ∨ (start = ['.'] ∧ p.isAbsolute = false) ∨ start = []) := by
  have hparent {start body : List Char} {ss : List (List Char)}
      (hstart : splitStart p.text.toList = (start, body)) (hbody : Text.splitOn '/' body = ss ++ [last])
      (hss : ss.filter isStep = []) : p.parent? = some ⟨String.ofList start⟩ := by
    rw [parent?_eq hstart hbody hlast, dropEmpty_eq_nil (by rw [List.filter_reverse, hss]; rfl)]
    exact congrArg (fun cs => some (Path.mk (String.ofList cs))) (List.append_nil start)
  rcases splitStart_cases p.text.toList with
    ⟨body, htext, hstart⟩ | ⟨body, htext, rfl | ⟨rest, rfl⟩, hstart⟩ | ⟨-, hstart⟩
  · rw [htext, Text.splitOn_sep] at hsplit
    obtain ⟨init', rfl, hbody⟩ := exists_of_cons_splitOn_eq hsplit
    exact ⟨_, hparent hstart hbody hinit, .inl rfl⟩
  · -- A dot alone has no segment that leads on.
    rw [htext] at hsplit
    have hmem : last ∈ Text.splitOn '/' ['.'] := hsplit ▸ List.mem_append_right _ List.mem_cons_self
    rw [List.mem_singleton.mp hmem] at hlast
    cases hlast
  · rw [htext, show Text.splitOn '/' ('.' :: '/' :: rest) = ['.'] :: Text.splitOn '/' rest from
      Text.splitOn_append '/' ['.'] rest] at hsplit
    obtain ⟨init', rfl, hbody⟩ := exists_of_cons_splitOn_eq hsplit
    have hrest : Text.splitOn '/' ('/' :: rest) = ([] :: init') ++ [last] := by
      rw [Text.splitOn_sep, hbody]
      rfl
    refine ⟨_, hparent hstart hrest hinit, .inr (.inl ⟨rfl, ?_⟩)⟩
    rw [isAbsolute, htext]
    rfl
  · exact ⟨_, hparent hstart hsplit hinit, .inr (.inr rfl)⟩

/-- A path with one step is in the directory that it starts from, which is there. -/
theorem createDirs_parent_of_one_step {p : Path} {init : List (List Char)} {last : List Char}
    (hsplit : Text.splitOn '/' p.text.toList = init ++ [last]) (hlast : isStep last)
    (hinit : init.filter isStep = []) :
    ∃ d, p.parent? = some d ∧ ∀ t : FileTree, t.isDirAt (t.start p) → t.createDirs d = (t, .ok ()) := by
  obtain ⟨start, hparent, hstart⟩ := exists_parent?_of_one_step hsplit hlast hinit
  refine ⟨_, hparent, fun t ht => ?_⟩
  rcases hstart with rfl | ⟨rfl, hrelative⟩ | rfl
  · rfl
  · rw [FileTree.start, hrelative] at ht
    exact (makeDirs_of_isDirAt ht false ['.'] []).trans (makeDirs_nil_of_isDirAt ht false)
  · rfl

/-- The directories that a path needs are those along the names before its last. -/
theorem GoesOn.exists_parent {base p : Path} {ss : List (List Char)} {name : List Char}
    (hp : GoesOn base (ss ++ [name]) p) :
    ∃ d, p.parent? = some d ∧
      ∀ {t : FileTree} {l : Location}, t.HasRoot base l → t.createDirs d = t.makeDirs false l ss := by
  obtain ⟨init, last, hsplit, hlast⟩ := hp.endsInStep
  have hsteps := hp.steps_eq
  rw [Path.steps, hsplit, List.filter_append, List.filter_cons_of_pos hlast, ← List.append_assoc] at hsteps
  have hinit : init.filter isStep = base.steps ++ ss := (List.append_inj' hsteps rfl).1
  by_cases hnil : base.steps ++ ss = []
  · -- The directory is the one that the path starts from.
    obtain ⟨d, hparent, hd⟩ := createDirs_parent_of_one_step hsplit hlast (hinit.trans hnil)
    obtain ⟨hbase, rfl⟩ := List.append_eq_nil_iff.mp hnil
    refine ⟨d, hparent, fun {t l} h => ?_⟩
    have hstart : t.start p = l := by
      have hl := h.isAt
      rw [IsAt, hbase] at hl
      exact (hp.start_eq t).trans (Except.ok.inj hl)
    rw [makeDirs_nil_of_isDirAt h.isDirAt]
    exact hd t (hstart ▸ h.isDirAt)
  · obtain ⟨d, hd⟩ := exists_isParent hsplit hlast (by rw [hinit]; exact hnil)
    have hgoes : GoesOn base ss d :=
      ⟨hd.steps_eq.trans hinit, hd.isAbsolute_eq.trans hp.isAbsolute_eq, hd.endsInStep,
        fun s hs => hp.isName s (List.mem_append_left _ hs)⟩
    exact ⟨d, hd.parent?_eq, fun h => hgoes.createDirs h⟩

/-! ## Installing a file -/

/-- A directory that could be made is there. -/
theorem hasRoot_of_makeDir {t t' : FileTree} (ht : t.WellFormed) (hworking : t.isDirAt t.workingDir)
    {base : Path} (hmake : makeDir t base = (t', .ok ())) {l : Location} (hl : t'.IsAt base l) :
    t'.HasRoot base l := by
  have hcreate : t.createDirs base = (t', .ok ()) := by
    unfold makeDir at hmake
    split at hmake
    · next hcreate =>
      cases hmake
      exact hcreate
    · cases hmake
  have hstart : t.isDirAt (t.start base) := by
    unfold start
    split
    · exact isDirAt_nil t
    · exact hworking
  unfold createDirs at hcreate
  split at hcreate
  · next hempty =>
    cases hcreate
    rw [IsAt, steps_eq_nil_of_text hempty] at hl
    have heq : t.start base = l := Except.ok.inj hl
    exact ⟨ht, by rw [IsAt, steps_eq_nil_of_text hempty, ← heq]; rfl, heq ▸ hstart⟩
  · obtain ⟨ht', hdir, -, k, hwalk, hk⟩ := makeDirs_eq_ok ht (ht.isDirAt_tail hstart) hcreate
    refine ⟨ht', hl, ?_⟩
    rw [IsAt, start, hdir, ← start, ← filter_segments, walk_filter_of_eq_ok hwalk] at hl
    rw [← Except.ok.inj hl]
    exact hk

/-- A path leads where it led as long as the directories stay. -/
theorem HasRoot.of_isDirAt {t t' : FileTree} {base : Path} {l : Location} (h : t.HasRoot base l)
    (ht' : t'.WellFormed) (hdirs : ∀ k, t.isDirAt k → t'.isDirAt k)
    (hworking : t'.workingDir = t.workingDir) : t'.HasRoot base l := by
  refine ⟨ht', ?_, hdirs l h.isDirAt⟩
  rw [IsAt, start, hworking, ← start]
  exact walk_of_isDirAt hdirs h.isAt

theorem HasRoot.ensureDir {t : FileTree} {base : Path} {l k : Location} (h : t.HasRoot base l)
    (hk : t.isDirAt k.tail) : (t.ensureDir k).HasRoot base l := by
  refine h.of_isDirAt (h.wellFormed.ensureDir hk) (fun j hj => ?_) (workingDir_ensureDir t k)
  rw [isDirAt_ensureDir, hj, Bool.true_or]

/-- What installing a file below a directory comes to: a file on the way is an error and nothing changes;
otherwise the directories on the way are there, and the file unless a directory has its name. -/
theorem GoesOn.install_eq {base p d : Path} {ss : List (List Char)} {name : List Char}
    (hp : GoesOn base (ss ++ [name]) p) (hparent : p.parent? = some d) {t : FileTree} {l : Location}
    (hd : t.createDirs d = t.makeDirs false l ss) (h : t.HasRoot base l) (source : String) :
    install t p source =
      match t.blockage l ss with
      | some e => (t, .error (.uncreatable d e))
      | none =>
        if ((way l ss).foldl FileTree.ensureDir t).isDirAt (down l (ss ++ [name])) then
          ((way l ss).foldl FileTree.ensureDir t, .error (.unwritable p .isADirectory))
        else
          (((way l ss).foldl FileTree.ensureDir t).writeAt (down l (ss ++ [name])) source.toUTF8,
            .ok (.written p)) := by
  have hmake := makeDirs_names h.wellFormed h.isDirAt fun s hs => hp.isName s (List.mem_append_left _ hs)
  unfold install
  simp only [makeParent, hparent, makeDir, hd]
  cases hblockage : t.blockage l ss with
  | some e =>
    rw [hblockage] at hmake
    rw [hmake]
  | none =>
    rw [hblockage] at hmake
    obtain ⟨hroot, hdir⟩ := foldl_ensureDir_induction (P := fun t' => t'.HasRoot base l) h.isDirAt
      hblockage h fun t' k _ hk ht' => ht'.ensureDir hk
    rw [hmake]
    simp only [hp.writeFile_eq hroot hdir]
    cases ((way l ss).foldl FileTree.ensureDir t).isDirAt (down l (ss ++ [name])) <;> rfl

end FileTree

end GoScribe
