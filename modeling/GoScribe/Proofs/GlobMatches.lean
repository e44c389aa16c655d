import GoScribe.Proofs.SourceNames
import Mathlib.Data.List.Nodup

/-!
# What a pattern of source files matches

The pattern of source files names a directory, then says that any directories may follow, and then how the name of
the file ends.  Without special characters the directory is followed segment by segment, and the path that is built
on the way has its steps, but not the dots that it starts with (`follow_dir`).  From there the pattern leads to
everything with such a name, file or directory, by each way once (`follow_entries`, `mem_waysTo_iff`,
`nodup_waysTo`).
-/

namespace GoScribe

open GoScribe.Path FileTree

namespace Glob

/-! ## Reading the pattern -/

/-- The text has no character that is special in a pattern. -/
def IsPlain (cs : List Char) : Prop := ∀ c ∈ cs, c ∉ ['*', '?', '[']

instance (cs : List Char) : Decidable (IsPlain cs) := List.decidableBAll _ cs

theorem tokens?_of_isPlain {cs : List Char} (h : IsPlain cs) : tokens? cs.length cs = some (cs.map .char) := by
  induction cs with
  | nil => rfl
  | cons c cs ih =>
    have hc : c ≠ '*' ∧ c ≠ '?' ∧ c ≠ '[' := by simpa using h c List.mem_cons_self
    have hrest := ih fun d hd => h d (List.mem_cons_of_mem c hd)
    rw [List.length_cons, tokens?, hrest]
    · rfl
    · exact fun _ hstar _ => hc.1 hstar
    · exact hc.1
    · exact hc.2.1
    · exact fun _ hbracket _ => hc.2.2 hbracket
    · exact hc.2.2

theorem mapM_eq_some_map {α β : Type} {f : α → Option β} {g : α → β} {as : List α}
    (h : ∀ a ∈ as, f a = some (g a)) : as.mapM f = some (as.map g) := by
  induction as with
  | nil => rfl
  | cons a as ih =>
    rw [List.forall_mem_cons] at h
    rw [List.mapM_cons, h.1, ih h.2]
    rfl

/-- A segment that stands for itself. -/
def literalOf (s : List Char) : Segment := .literal (String.ofList s)

theorem segment?_of_isPlain {cs : List Char} (h : IsPlain cs) :
    segment? cs = some (literalOf cs) := by
  have hne : cs ≠ ['*', '*'] := by
    rintro rfl
    exact h '*' List.mem_cons_self List.mem_cons_self
  have hchars : (cs.map Token.char).mapM Token.char? = some cs := by
    rw [List.mapM_map]
    exact (mapM_eq_some_map (g := id) fun _ _ => rfl).trans (congrArg some (List.map_id cs))
  rw [segment?, if_neg hne, tokens?_of_isPlain h, Option.bind_eq_bind, Option.bind_some, hchars]
  rfl

/-- Any text that ends in `.purs`. -/
def sourceTokens : List Token := .anyText :: ".purs".toList.map .char

theorem collapse_literals (ss : List (List Char)) :
    collapse (ss.map literalOf ++ [.directories, .wildcard sourceTokens]) =
      ss.map literalOf ++ [.directories, .wildcard sourceTokens] := by
  induction ss with
  | nil => rfl
  | cons s ss ih =>
    rw [List.map_cons, List.cons_append, literalOf, collapse, ih]
    exact fun _ hdirs => by cases hdirs

/-- The segments of a pattern of source files. -/
theorem segments?_eq {cs : List Char} {ss : List (List Char)}
    (hsplit : Text.splitOn '/' cs = ss ++ ["**".toList, "*.purs".toList]) (h : ∀ s ∈ ss, IsPlain s) :
    segments? cs = some (ss.map literalOf ++ [.directories, .wildcard sourceTokens]) := by
  have hpattern : ["**".toList, "*.purs".toList].mapM segment? = some [.directories, .wildcard sourceTokens] := rfl
  rw [segments?, hsplit, List.mapM_append,
    mapM_eq_some_map fun s hs => segment?_of_isPlain (h s hs), hpattern, ← collapse_literals]
  rfl

/-! ## Names with an ending -/

theorem matchesText_chars_iff {s cs : List Char} : matchesText (s.map .char) cs ↔ cs = s := by
  induction s generalizing cs with
  | nil => rw [List.map_nil, matchesText_nil, List.isEmpty_iff]
  | cons c s ih =>
    cases cs with
    | nil =>
      rw [List.map_cons, matchesText_cons_nil _ _ Token.noConfusion]
      exact iff_of_false Bool.false_ne_true (List.cons_ne_nil c s).symm
    | cons d cs =>
      rw [List.map_cons, matchesText_cons_cons _ _ _ _ Token.noConfusion, Bool.and_eq_true, ih, Token.accepts,
        beq_iff_eq, List.cons.injEq, eq_comm]

theorem mem_suffixes_iff {α : Type} {s as : List α} : s ∈ suffixes as ↔ s <:+ as := by
  induction as with
  | nil => rw [suffixes, List.mem_singleton, List.suffix_nil]
  | cons a as ih => rw [suffixes, List.mem_cons, ih, List.suffix_cons_iff]

theorem matchesText_sourceTokens_iff {cs : List Char} :
    matchesText sourceTokens cs ↔ ".purs".toList <:+ cs := by
  rw [sourceTokens, matchesText_anyText, List.any_eq_true]
  constructor
  · rintro ⟨s, hs, hmatch⟩
    rw [← matchesText_chars_iff.mp hmatch]
    exact mem_suffixes_iff.mp hs
  · intro h
    exact ⟨_, mem_suffixes_iff.mpr h, matchesText_chars_iff.mpr rfl⟩

/-! ## Following the directory -/

/-- The path that a pattern has built behind the steps `ps`: a dot as long as there are none. -/
def Leads (p : Path) (ps : List (List Char)) : Prop :=
  (ps = [] ∧ p = ⟨"."⟩) ∨ (ps ≠ [] ∧ p.startComponent? = none ∧ p.steps = ps)

theorem Leads.components_eq {p : Path} {ps : List (List Char)} (h : Leads p ps) (hps : ps ≠ []) :
    p.components = ps.filterMap componentOf? := by
  rcases h with ⟨hnil, -⟩ | ⟨-, hstart, hsteps⟩
  · exact absurd hnil hps
  · rw [Path.components_eq, hstart, hsteps]
    rfl

theorem current_not_mem_filterMap (ss : List (List Char)) : .current ∉ ss.filterMap componentOf? := by
  intro h
  obtain ⟨s, -, hs⟩ := List.mem_filterMap.mp h
  rcases componentOf?_eq_some hs with ⟨hparent, -⟩ | ⟨hnormal, -⟩
  · cases hparent
  · cases hnormal

theorem Leads.childPath_eq {p : Path} {ps : List (List Char)} (h : Leads p ps) (name : String) :
    Place.childPath p name = if ps = [] then ⟨name⟩ else p.join ⟨name⟩ := by
  unfold Place.childPath
  by_cases hps : ps = []
  · rcases h with ⟨-, rfl⟩ | ⟨hne, -⟩
    · rw [if_pos hps]
      rfl
    · exact absurd hps hne
  · rw [if_neg hps, if_neg]
    intro hcurrent
    refine current_not_mem_filterMap ps ?_
    rw [← h.components_eq hps, hcurrent]
    exact List.mem_cons_self

theorem Leads.text_ne {p : Path} {ps : List (List Char)} (h : Leads p ps) : p.text ≠ "" := by
  rcases h with ⟨-, rfl⟩ | ⟨hne, -, rfl⟩
  · decide
  · exact fun hempty => hne (steps_eq_nil_of_text hempty)

theorem Leads.childPath {p : Path} {ps : List (List Char)} (h : Leads p ps) {q : Path} {qs : List (List Char)}
    (hq : q.startComponent? = none) (hsteps : q.steps = qs) (hqs : qs ≠ []) :
    Leads (Place.childPath p q.text) (ps ++ qs) := by
  have hrelative : q.isAbsolute = false := by
    rw [Bool.eq_false_iff]
    intro habsolute
    rw [startComponent?, if_pos habsolute] at hq
    cases hq
  rw [h.childPath_eq]
  refine .inr ⟨List.append_ne_nil_of_right_ne_nil ps hqs, ?_⟩
  by_cases hps : ps = []
  · rw [if_pos hps, hps]
    exact ⟨hq, hsteps⟩
  · rcases h with ⟨hnil, -⟩ | ⟨-, hstart, rfl⟩
    · exact absurd hnil hps
    · have hne : p.text ≠ "" := fun hempty => hps (steps_eq_nil_of_text hempty)
      rw [if_neg hps, startComponent?_join hrelative hne, steps_join hrelative]
      exact ⟨hstart, congrArg _ hsteps⟩

section

variable {s : List Char} (hslash : '/' ∉ s)

include hslash

theorem splitOn_text_ofList : Text.splitOn '/' (Path.mk (String.ofList s)).text.toList = [s] := by
  rw [String.toList_ofList, Text.splitOn_of_not_mem hslash]

theorem isAbsolute_ofList_of_not_mem : (Path.mk (String.ofList s)).isAbsolute = false := by
  rw [isAbsolute_ofList, decide_eq_false]
  intro hhead
  obtain ⟨rest, rfl⟩ := List.head?_eq_some_iff.mp hhead
  exact hslash List.mem_cons_self

/-- One more segment behind steps. -/
theorem Leads.childPath_segment {p : Path} {ps : List (List Char)} (h : Leads p ps) (hps : ps ≠ []) :
    Leads (Place.childPath p (String.ofList s)) (ps ++ [s].filter isStep) := by
  have hsteps : (Path.mk (String.ofList s)).steps = [s].filter isStep := by
    rw [steps, splitOn_text_ofList hslash]
  cases hs : isStep s with
  | true =>
    rw [List.filter_cons_of_pos hs, List.filter_nil] at hsteps ⊢
    exact h.childPath (startComponent?_eq_none (splitOn_text_ofList hslash) hs) hsteps (List.cons_ne_nil s [])
  | false =>
    rw [List.filter_cons_of_neg (by rw [hs]; exact Bool.false_ne_true), List.filter_nil] at hsteps ⊢
    have hrelative := isAbsolute_ofList_of_not_mem hslash
    rw [h.childPath_eq, if_neg hps, List.append_nil]
    rcases h with ⟨hnil, -⟩ | ⟨-, hstart, rfl⟩
    · exact absurd hnil hps
    · refine .inr ⟨hps, ?_, ?_⟩
      · rw [startComponent?_join hrelative fun hempty => hps (steps_eq_nil_of_text hempty), hstart]
      · rw [steps_join hrelative, hsteps, List.append_nil]

end

theorem isDirAt_stepTo {t : FileTree} {l k : Location} (hk : t.isDirAt k) {s : List Char} {ss : List (List Char)}
    (hwalk : t.walk l (s :: ss) = .ok k) : t.isDirAt (stepTo l s) := by
  obtain ⟨-, hwalk⟩ := walk_cons_eq_ok hwalk
  cases ss with
  | nil =>
    rw [Except.ok.inj hwalk]
    exact hk
  | cons r ss => exact (walk_cons_eq_ok hwalk).1

section

variable {t : FileTree} {k : Location} (hk : t.isDirAt k) (tail : List Segment)

include hk

/-- A directory on the way is entered, unless the path to it would be empty. -/
theorem follow_literalOf {d : Place} {s : List Char} {ss : List (List Char)}
    (hwalk : t.walk d.location (s :: ss) = .ok k) (segments : List Segment) :
    follow t d (literalOf s :: segments) =
      if Place.childPath d.path (String.ofList s) = ⟨""⟩ then []
      else follow t ⟨Place.childPath d.path (String.ofList s), stepTo d.location s⟩ segments := by
  obtain ⟨m, hm⟩ := isDirAt_iff.mp (isDirAt_stepTo hk hwalk)
  have hchild : d.child (String.ofList s) =
      ⟨Place.childPath d.path (String.ofList s), stepTo d.location s⟩ := by
    rw [Place.child, String.toList_ofList]
  rw [literalOf, follow, Place.hasChild, Place.isDir_eq, (walk_cons_eq_ok hwalk).1, hchild, hm]
  by_cases hempty : (Place.childPath d.path (String.ofList s)).text = ""
  · have hpath : Place.childPath d.path (String.ofList s) = ⟨""⟩ := by rw [← hempty]
    rw [if_pos hpath, if_neg]
    simp [hempty]
  · have hpath : Place.childPath d.path (String.ofList s) ≠ ⟨""⟩ := fun heq => hempty (congrArg Path.text heq)
    rw [if_neg hpath, if_pos]
    simp [hempty]

/-- Behind the first step every segment is followed. -/
theorem follow_steps {p : Path} {l : Location} {ps ss : List (List Char)} (hp : Leads p ps) (hps : ps ≠ [])
    (hss : ∀ s ∈ ss, '/' ∉ s) (hwalk : t.walk l ss = .ok k) :
    ∃ q, Leads q (ps ++ ss.filter isStep) ∧
      follow t ⟨p, l⟩ (ss.map literalOf ++ tail) = follow t ⟨q, k⟩ tail := by
  induction ss generalizing p l ps with
  | nil =>
    cases hwalk
    exact ⟨p, by rwa [List.filter_nil, List.append_nil], rfl⟩
  | cons s ss ih =>
    rw [List.forall_mem_cons] at hss
    have hchild := hp.childPath_segment hss.1 hps
    obtain ⟨q, hq, hfollow⟩ := ih hchild (List.append_ne_nil_of_left_ne_nil hps _) hss.2 (walk_cons_eq_ok hwalk).2
    refine ⟨q, ?_, ?_⟩
    · rw [List.append_assoc, ← List.filter_append] at hq
      exact hq
    · rw [List.map_cons, List.cons_append, follow_literalOf hk hwalk,
        if_neg fun heq => hchild.text_ne (congrArg Path.text heq), hfollow]

/-- The segments of a directory are followed.  The dots that they start with leave no trace; if an empty segment
comes next, nothing is found. -/
theorem follow_dir {l : Location} {ss : List (List Char)} (hss : ∀ s ∈ ss, '/' ∉ s)
    (hwalk : t.walk l ss = .ok k) :
    ((ss.dropWhile (· = ['.'])).head? = some [] → follow t ⟨⟨"."⟩, l⟩ (ss.map literalOf ++ tail) = []) ∧
      ((ss.dropWhile (· = ['.'])).head? ≠ some [] → ∃ q, Leads q (ss.filter isStep) ∧
        follow t ⟨⟨"."⟩, l⟩ (ss.map literalOf ++ tail) = follow t ⟨q, k⟩ tail) := by
  induction ss with
  | nil =>
    cases hwalk
    refine ⟨fun hnil => (nomatch hnil), fun _ => ⟨⟨"."⟩, .inl ⟨rfl, rfl⟩, rfl⟩⟩
  | cons s ss ih =>
    rw [List.forall_mem_cons] at hss
    have hchild : Place.childPath ⟨"."⟩ (String.ofList s) = ⟨String.ofList s⟩ := rfl
    have hfollow := follow_literalOf hk (d := ⟨⟨"."⟩, l⟩) hwalk (ss.map literalOf ++ tail)
    rw [List.map_cons, List.cons_append, hfollow, List.dropWhile_cons, hchild]
    have hwalk' := (walk_cons_eq_ok hwalk).2
    by_cases hdot : s = ['.']
    · subst hdot
      rw [if_pos (decide_eq_true rfl), if_neg (by decide)]
      exact ih hss.2 hwalk'
    · rw [if_neg (by rwa [decide_eq_true_eq]), List.head?_cons]
      by_cases hnil : s = []
      · rw [hnil]
        exact ⟨fun _ => rfl, fun hne => absurd rfl hne⟩
      · have hstep : isStep s := by
          rw [isStep, Option.isSome_iff_ne_none]
          exact fun hnone => (eq_nil_or_dot_of_componentOf? hnone).elim hnil hdot
        have hleads : Leads ⟨String.ofList s⟩ [s] := by
          refine .inr ⟨List.cons_ne_nil s [], startComponent?_eq_none (splitOn_text_ofList hss.1) hstep, ?_⟩
          rw [steps, splitOn_text_ofList hss.1, List.filter_cons_of_pos hstep, List.filter_nil]
        refine ⟨fun heq => absurd (Option.some.inj heq) hnil, fun _ => ?_⟩
        rw [if_neg fun heq => hleads.text_ne (congrArg Path.text heq), List.filter_cons_of_pos hstep]
        exact follow_steps hk tail hleads (List.cons_ne_nil s []) hss.2 hwalk'

end

end Glob

/-! ## Everything below a directory -/

namespace FileTree

theorem wayDown?_eq_some {l k : Location} {names : List String} :
    wayDown? l k = some names ↔ k = names.reverse ++ l := by
  constructor
  · intro h
    unfold wayDown? at h
    split at h
    · next hdrop =>
      have hk := List.take_append_drop (k.length - l.length) k
      rw [beq_iff_eq.mp hdrop] at hk
      rw [← Option.some.inj h, List.reverse_reverse, hk]
    · cases h
  · rintro rfl
    have hlength : (names.reverse ++ l).length - l.length = names.reverse.length := by
      rw [List.length_append, Nat.add_sub_cancel]
    rw [wayDown?, hlength, List.drop_left, if_pos (beq_self_eq_true l), List.take_left, List.reverse_reverse]

theorem dirsBelow_eq (t : FileTree) (l : Location) :
    t.dirsBelow l = t.entries.filterMap fun x =>
      if x.2.isDir then (wayDown? l x.1).filter fun names => !names.isEmpty else none := by
  rw [dirsBelow, below, List.filterMap_filterMap]
  refine List.filterMap_congr fun x _ => ?_
  rcases hway : wayDown? l x.1 with _ | _ | ⟨name, names⟩ <;> simp [hway, Option.filter_some]

/-- Which entry a directory below another comes from. -/
theorem way_eq_some_iff {l : Location} {x : Location × Entry} {dirs : List String} :
    (if x.2.isDir then (wayDown? l x.1).filter fun names => !names.isEmpty else none) = some dirs ↔
      x.2.isDir ∧ dirs ≠ [] ∧ x.1 = dirs.reverse ++ l := by
  cases x.2.isDir with
  | false => simp
  | true =>
    rw [if_pos rfl, Option.filter_eq_some_iff, wayDown?_eq_some, Bool.not_eq_true', List.isEmpty_eq_false_iff,
      eq_self_iff_true, true_and, and_comm]

section

variable {t : FileTree} (ht : t.IsFileSystem)

include ht

/-- An entry that is listed is the one at its location. -/
theorem IsFileSystem.get?_of_mem {l : Location} {e : Entry} (hl : l ≠ []) (h : (l, e) ∈ t.entries) :
    t.get? l = some e := by
  obtain ⟨before, after, hentries⟩ := List.append_of_mem h
  rw [get?_of_ne_nil hl, List.lookup_eq_some_iff]
  refine ⟨before, after, hentries, fun x hx => ?_⟩
  have hnodup := ht.nodup
  rw [hentries, List.map_append, List.map_cons, List.nodup_append] at hnodup
  exact bne_iff_ne.mpr (Ne.symm (hnodup.2.2 _ (List.mem_map_of_mem hx) _ List.mem_cons_self))

theorem IsFileSystem.mem_dirsBelow_iff {l : Location} {dirs : List String} :
    dirs ∈ t.dirsBelow l ↔ dirs ≠ [] ∧ t.isDirAt (dirs.reverse ++ l) := by
  have hne (h : dirs ≠ []) : dirs.reverse ++ l ≠ [] :=
    List.append_ne_nil_of_left_ne_nil (mt List.reverse_eq_nil_iff.mp h) l
  rw [dirsBelow_eq, List.mem_filterMap]
  constructor
  · rintro ⟨⟨k, e⟩, hx, h⟩
    obtain ⟨hdir, hdirs, rfl⟩ := way_eq_some_iff.mp h
    refine ⟨hdirs, ?_⟩
    rw [isDirAt, ht.get?_of_mem (hne hdirs) hx, Option.any_some]
    exact hdir
  · rintro ⟨hdirs, hdir⟩
    obtain ⟨m, hm⟩ := isDirAt_iff.mp hdir
    rw [get?_of_ne_nil (hne hdirs), List.lookup_eq_some_iff] at hm
    obtain ⟨before, after, hentries, -⟩ := hm
    refine ⟨(dirs.reverse ++ l, .dir m), ?_, way_eq_some_iff.mpr ⟨rfl, hdirs, rfl⟩⟩
    rw [hentries]
    exact List.mem_append_right before List.mem_cons_self

theorem IsFileSystem.nodup_dirsBelow (l : Location) : (t.dirsBelow l).Nodup := by
  rw [dirsBelow_eq]
  refine (List.pairwise_map.mp ht.nodup).filterMap _ fun x y hne dirs hdirs dirs' hdirs' heq => hne ?_
  obtain ⟨-, -, hx⟩ := way_eq_some_iff.mp hdirs
  obtain ⟨-, -, hy⟩ := way_eq_some_iff.mp hdirs'
  rw [hx, hy, heq]

end

end FileTree

namespace Glob

/-- The names in a directory that end like that of a source. -/
def sourceNames (t : FileTree) (l : Location) : List String :=
  ((t.children l).map Prod.fst).filter (Segment.wildcard sourceTokens).matchesName

/-- The ways from a directory to everything below it that has the name of a source. -/
def waysTo (t : FileTree) (l : Location) : List (List String) :=
  ([] :: t.dirsBelow l).flatMap fun dirs => (sourceNames t (dirs.reverse ++ l)).map fun name => dirs ++ [name]

/-- The last name on the way is that of a source. -/
def EndsInSource (names : List String) : Prop := ∃ name ∈ names.getLast?, ".purs".toList <:+ name.toList

section

variable {t : FileTree} (ht : t.IsFileSystem) {l : Location}

include ht

/-- The pattern leads to what is there, file or directory. -/
theorem mem_waysTo_iff {names : List String} :
    names ∈ waysTo t l ↔ EndsInSource names ∧ (t.get? (names.reverse ++ l)).isSome := by
  have hmem (dirs : List String) (name : String) : name ∈ sourceNames t (dirs.reverse ++ l) ↔
      (t.get? ((dirs ++ [name]).reverse ++ l)).isSome ∧ ".purs".toList <:+ name.toList := by
    rw [sourceNames, List.mem_filter, mem_names_iff, Segment.matchesName, matchesText_sourceTokens_iff,
      List.reverse_append]
    rfl
  rw [waysTo, List.mem_flatMap]
  constructor
  · rintro ⟨dirs, -, h⟩
    obtain ⟨name, hname, rfl⟩ := List.mem_map.mp h
    obtain ⟨hsome, hends⟩ := (hmem dirs name).mp hname
    exact ⟨⟨name, List.getLast?_concat, hends⟩, hsome⟩
  · rintro ⟨⟨name, hlast, hends⟩, hsome⟩
    obtain ⟨dirs, rfl⟩ := List.getLast?_eq_some_iff.mp hlast
    refine ⟨dirs, ?_, List.mem_map_of_mem ((hmem dirs name).mpr ⟨hsome, hends⟩)⟩
    -- The directory that it is in is one of those below.
    by_cases hdirs : dirs = []
    · rw [hdirs]
      exact List.mem_cons_self
    · rw [List.reverse_append] at hsome
      exact List.mem_cons_of_mem _ (ht.mem_dirsBelow_iff.mpr ⟨hdirs, ht.wellFormed name _ hsome⟩)

theorem nodup_waysTo : (waysTo t l).Nodup := by
  have hdirs : ([] :: t.dirsBelow l).Nodup :=
    List.nodup_cons.mpr ⟨fun hnil => (ht.mem_dirsBelow_iff.mp hnil).1 rfl, ht.nodup_dirsBelow l⟩
  rw [waysTo, List.nodup_flatMap]
  refine ⟨fun dirs _ => ?_, hdirs.imp fun {dirs dirs'} hne names hnames hnames' => hne ?_⟩
  · refine List.Nodup.map (fun name name' h => ?_) ((ht.nodup_names _).filter _)
    exact List.singleton_inj.mp (List.append_cancel_left h)
  · obtain ⟨name, -, rfl⟩ := List.mem_map.mp hnames
    obtain ⟨name', -, h⟩ := List.mem_map.mp hnames'
    exact (List.append_inj' h rfl).1.symm

end

/-- The place of a directory that the pattern leads through. -/
def placeBelow (d : Place) (dirs : List String) : Place := if dirs = [] then d else d.below dirs

theorem location_placeBelow (d : Place) (dirs : List String) :
    (placeBelow d dirs).location = dirs.reverse ++ d.location := by
  unfold placeBelow
  split
  · next hnil => rw [hnil, List.reverse_nil, List.nil_append]
  · rfl

section

variable {t : FileTree} (ht : t.IsFileSystem) {d : Place} (hd : t.isDirAt d.location)

include ht hd

theorem directoriesFrom_eq : directoriesFrom t d = ([] :: t.dirsBelow d.location).map (placeBelow d) := by
  rw [directoriesFrom, Place.isDir_eq, if_pos hd, List.map_cons]
  refine congrArg _ (List.map_congr_left fun dirs hdirs => ?_)
  rw [placeBelow, if_neg (ht.mem_dirsBelow_iff.mp hdirs).1]

theorem isDirAt_placeBelow {dirs : List String} (h : dirs ∈ [] :: t.dirsBelow d.location) :
    t.isDirAt (placeBelow d dirs).location := by
  rw [location_placeBelow]
  rcases List.mem_cons.mp h with rfl | h
  · exact hd
  · exact (ht.mem_dirsBelow_iff.mp h).2

/-- The pattern leads to the end of each way. -/
theorem follow_entries :
    follow t d [.directories, .wildcard sourceTokens] =
      ([] :: t.dirsBelow d.location).flatMap fun dirs =>
        (sourceNames t (dirs.reverse ++ d.location)).map (placeBelow d dirs).child := by
  rw [follow, directoriesFrom_eq ht hd, List.flatMap_map]
  refine List.flatMap_congr fun dirs hdirs => ?_
  rw [matchingChildren_eq, if_pos (isDirAt_placeBelow ht hd hdirs), location_placeBelow]
  exact List.flatMap_singleton' _

end

/-! ## The paths that are found -/

theorem joinWith_eq_intercalate {α : Type} (sep : List α) (xs : List (List α)) :
    Text.joinWith sep xs = sep.intercalate xs := by
  induction xs with
  | nil => rfl
  | cons x xs ih =>
    cases xs with
    | nil => simp [Text.joinWith]
    | cons y xs => rw [Text.joinWith, ih, List.intercalate_cons_cons]

/-- The path along names. -/
def pathAlong (names : List String) : Path := ⟨String.ofList (Text.joinWith ['/'] (names.map String.toList))⟩

theorem text_pathAlong (names : List String) : (pathAlong names).text = "/".intercalate names := by
  rw [← String.toList_inj, pathAlong, String.toList_ofList, String.toList_intercalate, joinWith_eq_intercalate]
  rfl

section

variable {names : List String} (hne : names ≠ []) (hnames : ∀ name ∈ names, IsFileName name)

include hne hnames

theorem splitOn_pathAlong : Text.splitOn '/' (pathAlong names).text.toList = names.map String.toList := by
  rw [pathAlong, String.toList_ofList]
  refine Text.splitOn_joinWith_of_not_mem (mt List.map_eq_nil_iff.mp hne) fun s hs => ?_
  obtain ⟨name, hname, rfl⟩ := List.mem_map.mp hs
  exact (hnames name hname).2

theorem startComponent?_pathAlong : (pathAlong names).startComponent? = none := by
  obtain ⟨name, names, rfl⟩ := List.exists_cons_of_ne_nil hne
  exact startComponent?_eq_none (splitOn_pathAlong hne hnames)
    (isStep_of_isName (hnames name List.mem_cons_self).1)

theorem steps_pathAlong : (pathAlong names).steps = names.map String.toList := by
  rw [steps, splitOn_pathAlong hne hnames, List.filter_eq_self]
  intro s hs
  obtain ⟨name, hname, rfl⟩ := List.mem_map.mp hs
  exact isStep_of_isName (hnames name hname).1

theorem Leads.childPath_pathAlong {p : Path} {ps : List (List Char)} (h : Leads p ps) :
    Leads (Place.childPath p ("/".intercalate names)) (ps ++ names.map String.toList) := by
  rw [← text_pathAlong]
  exact h.childPath (startComponent?_pathAlong hne hnames) (steps_pathAlong hne hnames)
    (mt List.map_eq_nil_iff.mp hne)

end

/-- The path to the end of a way has the names on it behind the steps of the directory. -/
theorem Leads.child {d : Place} {ps : List (List Char)} (h : Leads d.path ps) {dirs : List String} {name : String}
    (hnames : ∀ n ∈ dirs ++ [name], IsFileName n) :
    Leads ((placeBelow d dirs).child name).path (ps ++ (dirs ++ [name]).map String.toList) := by
  have hlast {p : Path} {qs : List (List Char)} (hp : Leads p qs) :
      Leads (Place.childPath p name) (qs ++ [name.toList]) :=
    hp.childPath_pathAlong (List.cons_ne_nil name []) fun n hn => hnames n (List.mem_append_right _ hn)
  rw [List.map_append, ← List.append_assoc]
  refine hlast ?_
  unfold placeBelow
  split
  · next hnil =>
    rw [hnil, List.map_nil, List.append_nil]
    exact h
  · next hne => exact h.childPath_pathAlong hne fun n hn => hnames n (List.mem_append_left _ hn)

theorem getLast?_splitOn_childPath (p : Path) {name : String} (hname : IsFileName name) :
    (Text.splitOn '/' (Place.childPath p name).text.toList).getLast? = some name.toList := by
  have hself : (Text.splitOn '/' name.toList).getLast? = some name.toList := by
    rw [Text.splitOn_of_not_mem hname.2]
    rfl
  unfold Place.childPath
  split
  · exact hself
  · by_cases hp : p.text = ""
    · rw [join_of_text_eq hp]
      exact hself
    · obtain ⟨cs, hjoin, -⟩ := exists_text_join hname.isAbsolute_eq hp
      rw [hjoin, Text.splitOn_append, Text.splitOn_of_not_mem hname.2, List.getLast?_concat]

end Glob

end GoScribe
