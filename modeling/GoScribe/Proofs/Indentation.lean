import GoScribe.Proofs.Marks
import GoScribe.Proofs.NodeLayouts

/-!
# Indentation

How a rendering depends on the depth at which it stands.  A statement keeps its lines and begins each of
them with as many tabs; any other node keeps its text and puts these tabs behind each line feed.  What
else a rendering does is the same everywhere.
-/

namespace GoScribe

/-! ## Lines and tabs -/

namespace Text

/-- The text of whole lines. -/
def unlines (ls : List (List Char)) : List Char := ls.flatMap (· ++ ['\n'])

/-- A text with `n` more tabs behind each line feed. -/
def indentBy (n : Nat) (cs : List Char) : List Char :=
  cs.flatMap fun c => if c = '\n' then '\n' :: List.replicate n '\t' else [c]

theorem unlines_append (ls ls' : List (List Char)) : unlines (ls ++ ls') = unlines ls ++ unlines ls' :=
  List.flatMap_append

theorem unlines_cons (l : List Char) (ls : List (List Char)) :
    unlines (l :: ls) = l ++ '\n' :: unlines ls := by
  rw [unlines, List.flatMap_cons, List.append_assoc]
  rfl

theorem indentBy_append (n : Nat) (cs ds : List Char) :
    indentBy n (cs ++ ds) = indentBy n cs ++ indentBy n ds :=
  List.flatMap_append

theorem indentBy_newline (n : Nat) (cs : List Char) :
    indentBy n ('\n' :: cs) = '\n' :: (List.replicate n '\t' ++ indentBy n cs) :=
  rfl

theorem indentBy_cons (n : Nat) {c : Char} (hc : c ≠ '\n') (cs : List Char) :
    indentBy n (c :: cs) = c :: indentBy n cs := by
  rw [indentBy, List.flatMap_cons, if_neg hc]
  rfl

/-- A text without line feeds is the same everywhere. -/
theorem indentBy_of_not_mem (n : Nat) {cs : List Char} (h : '\n' ∉ cs) : indentBy n cs = cs := by
  induction cs with
  | nil => rfl
  | cons c cs ih =>
    rw [List.mem_cons, not_or] at h
    rw [indentBy_cons n (Ne.symm h.1), ih h.2]

theorem indentBy_zero (cs : List Char) : indentBy 0 cs = cs := by
  induction cs with
  | nil => rfl
  | cons c cs ih =>
    by_cases hc : c = '\n'
    · rw [hc, indentBy_newline, ih]
      rfl
    · rw [indentBy_cons 0 hc, ih]

theorem newline_not_mem_tabs (n : Nat) : '\n' ∉ List.replicate n '\t' :=
  fun h => absurd (List.eq_of_mem_replicate h) (by decide)

/-- Tabs add up. -/
theorem indentBy_one_indentBy (n : Nat) (cs : List Char) :
    indentBy 1 (indentBy n cs) = indentBy (n + 1) cs := by
  induction cs with
  | nil => rfl
  | cons c cs ih =>
    by_cases hc : c = '\n'
    · rw [hc, indentBy_newline, indentBy_newline, indentBy_newline, indentBy_append,
        indentBy_of_not_mem 1 (newline_not_mem_tabs n), ih, List.replicate_succ]
      rfl
    · rw [indentBy_cons n hc, indentBy_cons 1 hc, indentBy_cons (n + 1) hc, ih]

/-- The pieces between the line feeds of a text are its lines, once the last one is ended. -/
theorem unlines_splitOn (cs : List Char) : unlines (splitOn '\n' cs) = cs ++ ['\n'] := by
  induction cs with
  | nil => rfl
  | cons c cs ih =>
    rw [splitOn]
    split
    · next hc =>
      rw [unlines_cons, ih, hc]
      rfl
    · split
      · next hnil =>
        -- There is always a piece.
        rw [hnil] at ih
        exact absurd ih (by simp [unlines])
      · next p ps hsplit =>
        rw [hsplit, unlines_cons] at ih
        rw [unlines_cons, List.cons_append, ih]
        rfl

/-- Tabs behind the line feeds of whole lines are tabs in front of the lines, but for the tabs in front of
the first line, which are at the end. -/
theorem replicate_append_indentBy_unlines (n : Nat) {ls : List (List Char)}
    (h : ∀ l ∈ ls, '\n' ∉ l) :
    List.replicate n '\t' ++ indentBy n (unlines ls) =
      unlines (ls.map (List.replicate n '\t' ++ ·)) ++ List.replicate n '\t' := by
  induction ls with
  | nil => exact List.append_nil _
  | cons l ls ih =>
    rw [List.forall_mem_cons] at h
    rw [unlines_cons, indentBy_append, indentBy_of_not_mem n h.1, indentBy_newline, ih h.2,
      List.map_cons, unlines_cons]
    simp only [List.append_assoc, List.cons_append]

/-- A text that starts `n` tabs in and is ended by a line feed. -/
theorem replicate_append_indentBy_newline (n : Nat) (cs : List Char) :
    List.replicate n '\t' ++ (indentBy n cs ++ ['\n']) =
      unlines ((splitOn '\n' cs).map (List.replicate n '\t' ++ ·)) := by
  have hlines := replicate_append_indentBy_unlines n
    fun l (hl : l ∈ splitOn '\n' cs) => not_mem_of_mem_splitOn hl
  rw [unlines_splitOn, indentBy_append, indentBy_newline] at hlines
  -- The last line feed brings tabs for a line that does not follow.
  refine List.append_cancel_right (Eq.trans ?_ hlines)
  simp [indentBy]

end Text

/-- No line feed is left in a string literal. -/
theorem Text.newline_not_mem_quote (s : List Char) : '\n' ∉ Text.quote s := by
  have hchar : ∀ c, '\n' ∉ Text.escapeChar c := by
    intro c
    rcases Go.escapeChar_cases c with ⟨hplain, hc⟩ | ⟨d, ds, hescape, hd, hds⟩
    · rw [hplain, List.mem_singleton]
      rintro rfl
      exact hc (by decide)
    · rw [hescape, List.mem_cons, List.mem_cons, not_or, not_or]
      exact ⟨by decide, Ne.symm hd, fun h => hds _ h (by decide)⟩
  rw [Text.quote, List.mem_cons, List.mem_append, List.mem_flatMap, List.mem_singleton, not_or, not_or]
  refine ⟨by decide, ?_, by decide⟩
  rintro ⟨c, -, hc⟩
  exact hchar c hc

/-! ## Layouts at every depth -/

/-- What stands inside a line is the same everywhere, but for the tabs behind its line feeds; whole lines
are the same everywhere, but for the tabs in front of them. -/
def Uniform : Placement → (Indent → List Char) → Prop
  | .inside, D => ∀ n, D (.level n) = Text.indentBy n (D .inline)
  | .lines, D => ∃ ls : List (List Char), (∀ l ∈ ls, '\n' ∉ l) ∧
      ∀ n, D (.level n) = Text.unlines (ls.map (List.replicate n '\t' ++ ·))

/-- A text on one line. -/
theorem uniform_of_not_mem {cs : List Char} (h : '\n' ∉ cs) : Uniform .inside fun _ => cs :=
  fun n => (Text.indentBy_of_not_mem n h).symm

/-- A text inside a line makes up lines of its own where tabs are put in front of it and a line feed
behind it. -/
theorem Uniform.row {D : Indent → List Char} (h : Uniform .inside D) :
    Uniform .lines fun i => (Doc.tabs i).chars ++ (D i ++ ['\n']) := by
  refine ⟨Text.splitOn '\n' (D .inline), fun l hl => Text.not_mem_of_mem_splitOn hl, fun n => ?_⟩
  dsimp only
  rw [h n, Doc.chars_tabs]
  exact Text.replicate_append_indentBy_newline n _

/-- The lines of a block are one tab further in than its braces. -/
theorem Uniform.block {D : Indent → List Char} (h : Uniform .lines D) :
    Uniform .inside fun i => '\x7b' :: '\n' :: (D i.deeper ++ ((Doc.tabs i).chars ++ ['\x7d'])) := by
  obtain ⟨ls, hls, hD⟩ := h
  intro n
  have hdeep : ∀ l ∈ ls.map ('\t' :: ·), '\n' ∉ l := by
    rw [List.forall_mem_map]
    intro l hl
    rw [List.mem_cons, not_or]
    exact ⟨by decide, hls l hl⟩
  -- Inside a line the block starts from no tabs, so its lines have the one tab of the block itself.
  have hinner : D (Indent.inline).deeper = Text.unlines (ls.map ('\t' :: ·)) := hD 1
  have houter : D (Indent.level n).deeper =
      Text.unlines ((ls.map ('\t' :: ·)).map (List.replicate n '\t' ++ ·)) := by
    rw [List.map_map]
    refine (hD (n + 1)).trans (congrArg Text.unlines (List.map_congr_left fun l _ => ?_))
    rw [List.replicate_succ', List.append_assoc]
    rfl
  dsimp only
  rw [houter, hinner, Text.indentBy_cons n (by decide), Text.indentBy_newline,
    Text.indentBy_append, ← List.append_assoc (List.replicate n '\t'),
    Text.replicate_append_indentBy_unlines n hdeep, List.append_assoc, Doc.chars_tabs, Doc.chars_tabs]
  rfl

/-- Each way to put a rendering together treats all depths alike. -/
theorem TextLayout.uniform {p : Placement} {D : Indent → List Char}
    (h : TextLayout false ['\n'] p D) : Uniform p D := by
  induction h with
  | text hs => exact uniform_of_not_mem (Text.not_mem_of_avoids hs List.mem_cons_self)
  | quoted s => exact uniform_of_not_mem (Text.newline_not_mem_quote s)
  | division => exact uniform_of_not_mem (by decide)
  | comment hs =>
    apply uniform_of_not_mem
    have hs := Text.not_mem_of_avoids hs List.mem_cons_self
    simp [hs]
  | @bracketed o c D hoc _ ih =>
    intro n
    have hbrackets : ∀ b ∈ Go.brackets, b.1 ≠ '\n' ∧ b.2 ≠ '\n' := by decide
    obtain ⟨ho, hc⟩ := hbrackets _ hoc
    dsimp only
    rw [ih n, Text.indentBy_cons n ho, Text.indentBy_append, Text.indentBy_cons n hc]
    rfl
  | append _ _ ihD ihE =>
    intro n
    dsimp only
    rw [ihD n, ihE n, Text.indentBy_append]
  | block _ ih => exact ih.block
  | loosely hno => cases hno
  | none => exact ⟨[], by simp, fun n => rfl⟩
  | more _ _ ihD ihE =>
    obtain ⟨ls, hls, hD⟩ := ihD
    obtain ⟨ls', hls', hE⟩ := ihE
    refine ⟨ls ++ ls', List.forall_mem_append.mpr ⟨hls, hls'⟩, fun n => ?_⟩
    dsimp only
    rw [hD n, hE n, List.map_append, Text.unlines_append]
  | row _ ih => exact ih.row
  | statement _ ih =>
    -- At any depth the statement ends its line, and only depths count for whole lines.
    exact ih.row
  | @lineComment s hs =>
    have hline : '\n' ∉ '/' :: '/' :: s := by
      have hs := Text.not_mem_of_avoids hs List.mem_cons_self
      simp [hs]
    exact (uniform_of_not_mem hline).row

/-- Whole lines have one tab more in front of them one step further in. -/
theorem Uniform.level_succ_of_lines {D : Indent → List Char} (h : Uniform .lines D) (k : Nat) :
    ∃ ls, (∀ l ∈ ls, '\n' ∉ l ∧ List.replicate k '\t' <+: l) ∧
      D (.level k) = Text.unlines ls ∧ D (.level (k + 1)) = Text.unlines (ls.map ('\t' :: ·)) := by
  obtain ⟨ls, hls, hD⟩ := h
  refine ⟨ls.map (List.replicate k '\t' ++ ·), ?_, hD k, ?_⟩
  · rw [List.forall_mem_map]
    intro l hl
    refine ⟨?_, List.prefix_append _ _⟩
    rw [List.mem_append, not_or]
    exact ⟨Text.newline_not_mem_tabs k, hls l hl⟩
  · rw [List.map_map]
    exact hD (k + 1)

/-- A text inside a line has one tab more behind its line feeds one step further in. -/
theorem Uniform.level_succ_of_inside {D : Indent → List Char} (h : Uniform .inside D) :
    D .inline = D (.level 0) ∧ ∀ k, D (.level (k + 1)) = Text.indentBy 1 (D (.level k)) := by
  constructor
  · rw [h 0, Text.indentBy_zero]
  · intro k
    rw [h (k + 1), h k, Text.indentBy_one_indentBy]

/-! ## Nodes -/

namespace Env

/-- **Indentation is uniform.**  The imports, the diagnostics and the refusal of a node are the same
everywhere.  Let moreover no statement stand in the place of an expression, and no text hold a line feed.
Then a statement is whole lines at every depth, each with at least that many tabs in front, and one step
further in the lines are the same with one more tab.  Any other node has one more tab behind each line
feed, and inside a line it is what it is at the outermost depth. -/
theorem node_indent (env : Env) (n : Node) :
    (∀ i j, (env.node i n).uses = (env.node j n).uses ∧
      (env.node i n).diagnostics = (env.node j n).diagnostics ∧
      (env.node i n).refusal? = (env.node j n).refusal?) ∧
    (env.Avoids ['\n'] →
      (∀ p ∈ n.positions env.options.overlappingInterfaces,
        ∀ s ∈ p.texts, Text.avoids ['\n'] s.toList) →
      (∀ p ∈ n.positions env.options.overlappingInterfaces, p.isSorted) →
      (n.isStatement = true → ∀ k, ∃ ls, (∀ l ∈ ls, '\n' ∉ l ∧ List.replicate k '\t' <+: l) ∧
        (env.node (.level k) n).chars = Text.unlines ls ∧
        (env.node (.level (k + 1)) n).chars = Text.unlines (ls.map ('\t' :: ·))) ∧
      (n.isStatement = false →
        (env.node .inline n).chars = (env.node (.level 0) n).chars ∧
        ∀ k, (env.node (.level (k + 1)) n).chars =
          Text.indentBy 1 (env.node (.level k) n).chars)) := by
  constructor
  · intro i j
    have hmarks : (env.node i n).marks = (env.node j n).marks := by
      rw [env.marks_node i n, env.marks_node j n]
    refine ⟨?_, ?_, ?_⟩
    · rw [← Doc.uses_marks, hmarks, Doc.uses_marks]
    · rw [← Doc.diagnostics_marks, hmarks, Doc.diagnostics_marks]
    · rw [← Doc.refusal?_marks, hmarks, Doc.refusal?_marks]
  · intro henv htexts hsorted
    have hlayout : TextLayout false ['\n'] n.placement fun i => (env.node i n).chars :=
      layout_node (by decide) henv n fun p hp => ⟨htexts p hp, fun _ => hsorted p hp⟩
    have huniform := hlayout.uniform
    constructor
    · intro hstatement
      rw [Node.placement, if_pos hstatement] at huniform
      exact huniform.level_succ_of_lines
    · intro hexpr
      rw [Node.placement, hexpr, if_neg Bool.false_ne_true] at huniform
      exact huniform.level_succ_of_inside

/-- A loop with a function literal, a struct type and a chain of conditions in it. -/
def handlerLoop : Node :=
  .forRange "x" (.sym "xs") (.block [
    .var ⟨"f", "f", [.line " Called once.", .block " For now. "], .empty⟩
      (some (.func ⟨"", "", [], .func [⟨"p", "p", [], .struct ["Base"]
        [⟨"id", "id", [], .named "int"⟩] false []⟩] [] (some (.block [.ret (some (.litStr "\n"))]))⟩)) none,
    .ifElse (.sym "x") (.block [.set (.sym "y") (.litStr "a\nb")])
      (some (.ifElse (.sym "y") (.ret none) (some (.call (.sym "f") []))))])

theorem handlerLoop_indent :
    handlerLoop.isStatement ∧
      ∀ k, ∃ ls, (∀ l ∈ ls, '\n' ∉ l ∧ List.replicate k '\t' <+: l) ∧
        (Env.node ⟨.empty "main" "Main", .importTable, {}⟩ (.level k) handlerLoop).chars =
          Text.unlines ls ∧
        (Env.node ⟨.empty "main" "Main", .importTable, {}⟩ (.level (k + 1)) handlerLoop).chars =
          Text.unlines (ls.map ('\t' :: ·)) := by
  have henv : Env.Avoids ⟨.empty "main" "Main", .importTable, {}⟩ ['\n'] :=
    avoids_importTable (by decide) (by decide) (by decide)
  exact ⟨rfl, ((node_indent _ handlerLoop).2 henv (by decide) (by decide)).1 rfl⟩

end Env

end GoScribe
