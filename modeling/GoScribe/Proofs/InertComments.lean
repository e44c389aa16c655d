import GoScribe.Proofs.DocViews
import GoScribe.Render.NodeDoc
import Mathlib.Data.List.Infix

/-!
# Comments that stay comments

`Go.comments?` takes a text apart into its comments and what stands outside of them: a line comment goes up to the line
end, a block comment up to the first star with a slash behind it.  The texts that a tree supplies for comments and
placeholders are written into comments without a look at what they hold, but for the detail of a placeholder.
`Env.supplied_texts_inert_iff` says which of them stay inside: a line without a line feed, a block without the end of a
block comment, and likewise the kind of a placeholder, which must not start with a slash either.
-/

namespace GoScribe

/-! ## The grammar -/

namespace Go

mutual

/-- The comments of a text, and the text outside of them; nothing if a block comment is left open. -/
def comments? : List Char → Option (List Comment × List Char)
  | [] => some ([], [])
  | '/' :: '/' :: cs => (lineComment? cs).map fun (text, found, outside) =>
    (.line (String.ofList text) :: found, outside)
  | '/' :: '*' :: cs => (blockComment? cs).map fun (text, found, outside) =>
    (.block (String.ofList text) :: found, outside)
  | c :: cs => (comments? cs).map fun (found, outside) => (found, c :: outside)

/-- The text of a line comment behind its two slashes, and what follows.  The line feed is not part of the comment. -/
def lineComment? : List Char → Option (List Char × List Comment × List Char)
  | [] => some ([], [], [])
  | '\n' :: cs => (comments? cs).map fun (found, outside) => ([], found, '\n' :: outside)
  | c :: cs => (lineComment? cs).map fun (text, rest) => (c :: text, rest)

/-- The text of a block comment behind its opening, and what follows. -/
def blockComment? : List Char → Option (List Char × List Comment × List Char)
  | [] => none
  | '*' :: '/' :: cs => (comments? cs).map fun rest => ([], rest)
  | c :: cs => (blockComment? cs).map fun (text, rest) => (c :: text, rest)

end

/-- A text holds the end of a block comment. -/
def HoldsCommentEnd (cs : List Char) : Prop := ['*', '/'] <:+: cs

instance (cs : List Char) : Decidable (HoldsCommentEnd cs) := inferInstanceAs (Decidable (_ <:+: cs))

theorem holdsCommentEnd_cons {c : Char} {cs : List Char} :
    HoldsCommentEnd (c :: cs) ↔ (c = '*' ∧ cs.head? = some '/') ∨ HoldsCommentEnd cs := by
  have hfirst : ['*', '/'] <+: c :: cs ↔ c = '*' ∧ cs.head? = some '/' := by
    cases cs with
    | nil => simp
    | cons d cs => simp [List.cons_prefix_cons, eq_comm]
  rw [HoldsCommentEnd, List.infix_cons_iff, hfirst]
  rfl

/-- The end of a comment may also arise where two texts meet. -/
theorem holdsCommentEnd_append {cs ds : List Char} :
    HoldsCommentEnd (cs ++ ds) ↔
      HoldsCommentEnd cs ∨ HoldsCommentEnd ds ∨ (cs.getLast? = some '*' ∧ ds.head? = some '/') := by
  induction cs with
  | nil => simp [HoldsCommentEnd]
  | cons c cs ih =>
    rw [List.cons_append, holdsCommentEnd_cons, ih, holdsCommentEnd_cons]
    cases cs with
    | nil => simp [HoldsCommentEnd, or_comm]
    | cons d cs =>
      rw [List.cons_append, List.head?_cons, List.head?_cons, List.getLast?_cons_cons, or_assoc]

/-! ### One step -/

theorem comments?_cons {c : Char} (hc : c ≠ '/') (cs : List Char) :
    comments? (c :: cs) = (comments? cs).map fun (found, outside) => (found, c :: outside) := by
  rw [comments?]
  · intro _ h _
    exact hc h
  · intro _ h _
    exact hc h

theorem comments?_append {pre : List Char} (hpre : '/' ∉ pre) (cs : List Char) :
    comments? (pre ++ cs) = (comments? cs).map fun (found, outside) => (found, pre ++ outside) := by
  induction pre with
  | nil =>
    rw [List.nil_append]
    exact Option.map_id'.symm
  | cons c pre ih =>
    rw [List.mem_cons, not_or] at hpre
    rw [List.cons_append, comments?_cons (Ne.symm hpre.1), ih hpre.2, Option.map_map]
    rfl

/-- Where no comment is found, all of the text is outside. -/
theorem outside_of_no_comments {cs outside : List Char} (h : comments? cs = some ([], outside)) : outside = cs := by
  induction cs generalizing outside with
  | nil =>
    cases h
    rfl
  | cons c cs ih =>
    unfold comments? at h
    split at h
    · next heq => cases heq
    · obtain ⟨_, -, heq⟩ := Option.map_eq_some_iff.mp h
      cases heq
    · obtain ⟨_, -, heq⟩ := Option.map_eq_some_iff.mp h
      cases heq
    · next _ _ heq =>
      cases heq
      obtain ⟨⟨found, out⟩, hrest, heq⟩ := Option.map_eq_some_iff.mp h
      cases heq
      rw [ih hrest]

/-! ### Line comments -/

theorem lineComment?_cons {c : Char} (hc : c ≠ '\n') (cs : List Char) :
    lineComment? (c :: cs) = (lineComment? cs).map fun (text, rest) => (c :: text, rest) := by
  rw [lineComment?]
  exact hc

/-- A text without line feeds makes up a line comment. -/
theorem lineComment?_append {s : List Char} (hs : '\n' ∉ s) (cs : List Char) :
    lineComment? (s ++ '\n' :: cs) = (comments? cs).map fun (found, outside) => (s, found, '\n' :: outside) := by
  induction s with
  | nil => rw [List.nil_append, lineComment?]
  | cons c s ih =>
    rw [List.mem_cons, not_or] at hs
    rw [List.cons_append, lineComment?_cons (Ne.symm hs.1), ih hs.2, Option.map_map]
    rfl

/-- No line comment goes over a line end. -/
theorem lineEnd_not_mem_lineComment? {cs text : List Char} {rest : List Comment × List Char}
    (h : lineComment? cs = some (text, rest)) : '\n' ∉ text := by
  induction cs generalizing text with
  | nil =>
    cases h
    exact List.not_mem_nil
  | cons c cs ih =>
    by_cases hc : c = '\n'
    · subst hc
      rw [lineComment?] at h
      obtain ⟨_, -, heq⟩ := Option.map_eq_some_iff.mp h
      cases heq
      exact List.not_mem_nil
    · rw [lineComment?_cons hc] at h
      obtain ⟨⟨t, r⟩, hrest, heq⟩ := Option.map_eq_some_iff.mp h
      cases heq
      rw [List.mem_cons, not_or]
      exact ⟨Ne.symm hc, ih hrest⟩

/-! ### Block comments -/

theorem blockComment?_cons {c : Char} {cs : List Char} (h : ¬(c = '*' ∧ cs.head? = some '/')) :
    blockComment? (c :: cs) = (blockComment? cs).map fun (text, rest) => (c :: text, rest) := by
  rw [blockComment?]
  rintro ds rfl rfl
  exact h ⟨rfl, rfl⟩

/-- A text that does not hold the end of a comment makes up a block comment.  It may end with a star, since that star
has another one behind it. -/
theorem blockComment?_append {s : List Char} (hs : ¬HoldsCommentEnd s) (cs : List Char) :
    blockComment? (s ++ '*' :: '/' :: cs) = (comments? cs).map fun rest => (s, rest) := by
  induction s with
  | nil => rw [List.nil_append, blockComment?]
  | cons c s ih =>
    rw [holdsCommentEnd_cons, not_or] at hs
    have hopen : ¬(c = '*' ∧ (s ++ '*' :: '/' :: cs).head? = some '/') := by
      cases s with
      | nil => simp
      | cons d s => exact hs.1
    rw [List.cons_append, blockComment?_cons hopen, ih hs.2, Option.map_map]
    rfl

/-- A block comment goes up to the first end of a comment. -/
theorem blockComment?_eq_some {cs text : List Char} {rest : List Comment × List Char}
    (h : blockComment? cs = some (text, rest)) :
    ∃ ds, cs = text ++ '*' :: '/' :: ds ∧ comments? ds = some rest ∧ ¬HoldsCommentEnd text := by
  induction cs generalizing text with
  | nil => cases h
  | cons c cs ih =>
    by_cases hc : c = '*' ∧ cs.head? = some '/'
    · obtain ⟨rfl, hslash⟩ := hc
      obtain ⟨ds, rfl⟩ := List.head?_eq_some_iff.mp hslash
      rw [blockComment?] at h
      obtain ⟨_, hrest, heq⟩ := Option.map_eq_some_iff.mp h
      cases heq
      exact ⟨ds, rfl, hrest, by decide⟩
    · rw [blockComment?_cons hc] at h
      obtain ⟨⟨t, r⟩, hrest, heq⟩ := Option.map_eq_some_iff.mp h
      cases heq
      obtain ⟨ds, rfl, hds, ht⟩ := ih hrest
      refine ⟨ds, rfl, hds, ?_⟩
      rw [holdsCommentEnd_cons, not_or]
      refine ⟨?_, ht⟩
      cases t with
      | nil => simp
      | cons d t => exact hc

/-- A block that is followed by code is a single comment exactly if its text does not end it. -/
theorem block_alone_iff {s cs : List Char} (hcs : '/' ∉ cs) :
    (∃ c, comments? ('/' :: '*' :: (s ++ '*' :: '/' :: cs)) = some ([c], cs)) ↔ ¬HoldsCommentEnd s := by
  constructor
  · rintro ⟨c, h⟩
    rw [comments?] at h
    obtain ⟨⟨text, found, outside⟩, hblock, heq⟩ := Option.map_eq_some_iff.mp h
    obtain ⟨ds, hsplit, hds, htext⟩ := blockComment?_eq_some hblock
    simp only [Prod.mk.injEq, List.cons.injEq] at heq
    obtain ⟨⟨-, rfl⟩, rfl⟩ := heq
    -- What follows the comment is all outside, so the comment ends where it was meant to.
    obtain rfl := outside_of_no_comments hds
    rwa [List.append_cancel_right hsplit]
  · intro hs
    have hrest : comments? cs = some ([], cs) := by
      rw [← List.append_nil cs, comments?_append hcs, comments?, Option.map_some]
    rw [comments?, blockComment?_append hs, hrest]
    exact ⟨_, rfl⟩

end Go

/-! ## Comments of the tree -/

namespace Comment

/-- The text of a comment does not end it. -/
def IsClosed : Comment → Prop
  | line text => '\n' ∉ text.toList
  | block text => ¬Go.HoldsCommentEnd text.toList

instance : DecidablePred IsClosed
  | line text => inferInstanceAs (Decidable ('\n' ∉ text.toList))
  | block text => inferInstanceAs (Decidable ¬Go.HoldsCommentEnd text.toList)

/-- A comment as it is written at `i`. -/
def chars (i : Indent) : Comment → List Char
  | line text => (Doc.tabs i).chars ++ '/' :: '/' :: (text.toList ++ ['\n'])
  | block text => (Doc.tabs i).chars ++ '/' :: '*' :: (text.toList ++ '*' :: '/' :: (Doc.endStatement i).chars)

/-- What is written around a comment at `i`. -/
def surroundings (i : Indent) : Comment → List Char
  | line _ => (Doc.tabs i).chars ++ ['\n']
  | block _ => (Doc.tabs i).chars ++ (Doc.endStatement i).chars

variable (i : Indent)

theorem slash_not_mem_tabs : '/' ∉ (Doc.tabs i).chars := by
  rw [Doc.chars_tabs]
  intro h
  cases List.eq_of_mem_replicate h

theorem slash_not_mem_endStatement : '/' ∉ (Doc.endStatement i).chars := by
  cases i with
  | inline => exact List.not_mem_nil
  | level k => rw [Doc.chars_endStatement_level]; decide

theorem blank_of_mem_surroundings {c : Comment} {d : Char} (hd : d ∈ c.surroundings i) : d = '\t' ∨ d = '\n' := by
  have htabs : d ∈ (Doc.tabs i).chars → d = '\t' := by
    rw [Doc.chars_tabs]
    exact List.eq_of_mem_replicate
  have hend : d ∈ (Doc.endStatement i).chars → d = '\n' := by
    cases i with
    | inline => exact fun h => absurd h List.not_mem_nil
    | level k => exact fun h => List.mem_singleton.mp h
  cases c with
  | line text => exact (List.mem_append.mp hd).imp htabs List.mem_singleton.mp
  | block text => exact (List.mem_append.mp hd).imp htabs hend

/-- A closed comment is found as it is, whatever follows it. -/
theorem comments?_chars {c : Comment} (hc : c.IsClosed) (cs : List Char) :
    Go.comments? (c.chars i ++ cs) =
      (Go.comments? cs).map fun (found, outside) => (c :: found, c.surroundings i ++ outside) := by
  cases c with
  | line text =>
    rw [chars, List.append_assoc, List.cons_append, List.cons_append, List.append_assoc, List.singleton_append,
      Go.comments?_append (slash_not_mem_tabs i), Go.comments?, Go.lineComment?_append hc, Option.map_map,
      Option.map_map]
    simp [Function.comp_def, surroundings]
  | block text =>
    rw [chars, List.append_assoc, List.cons_append, List.cons_append, List.append_assoc, List.cons_append,
      List.cons_append, Go.comments?_append (slash_not_mem_tabs i), Go.comments?, Go.blockComment?_append hc,
      Go.comments?_append (slash_not_mem_endStatement i), Option.map_map, Option.map_map, Option.map_map]
    simp [Function.comp_def, surroundings]

/-- A comment that is found as it was meant is closed. -/
theorem isClosed_of_comments? {c : Comment} {found : List Comment} {cs outside : List Char}
    (h : Go.comments? (c.chars i ++ cs) = some (c :: found, outside)) : c.IsClosed := by
  cases c with
  | line text =>
    rw [chars, List.append_assoc, List.cons_append, List.cons_append, Go.comments?_append (slash_not_mem_tabs i),
      Go.comments?, Option.map_map] at h
    obtain ⟨⟨t, rest⟩, hline, heq⟩ := Option.map_eq_some_iff.mp h
    simp only [Function.comp_apply, Prod.mk.injEq, List.cons.injEq, line.injEq] at heq
    obtain ⟨⟨rfl, -⟩, -⟩ := heq
    rw [IsClosed, String.toList_ofList]
    exact Go.lineEnd_not_mem_lineComment? hline
  | block text =>
    rw [chars, List.append_assoc, List.cons_append, List.cons_append, Go.comments?_append (slash_not_mem_tabs i),
      Go.comments?, Option.map_map] at h
    obtain ⟨⟨t, rest⟩, hblock, heq⟩ := Option.map_eq_some_iff.mp h
    simp only [Function.comp_apply, Prod.mk.injEq, List.cons.injEq, block.injEq] at heq
    obtain ⟨⟨rfl, -⟩, -⟩ := heq
    obtain ⟨-, -, -, ht⟩ := Go.blockComment?_eq_some hblock
    rwa [IsClosed, String.toList_ofList]

theorem comments?_flatMap_chars {cs : List Comment} (h : ∀ c ∈ cs, c.IsClosed) :
    Go.comments? (cs.flatMap (chars i)) = some (cs, cs.flatMap (surroundings i)) := by
  induction cs with
  | nil => rfl
  | cons c cs ih =>
    rw [List.forall_mem_cons] at h
    rw [List.flatMap_cons, comments?_chars i h.1, ih h.2]
    rfl

theorem forall_isClosed_of_comments? {cs : List Comment} {outside : List Char}
    (h : Go.comments? (cs.flatMap (chars i)) = some (cs, outside)) : ∀ c ∈ cs, c.IsClosed := by
  induction cs generalizing outside with
  | nil => simp
  | cons c cs ih =>
    rw [List.flatMap_cons] at h
    have hc := isClosed_of_comments? i h
    rw [comments?_chars i hc] at h
    obtain ⟨⟨found, out⟩, hrest, heq⟩ := Option.map_eq_some_iff.mp h
    cases heq
    rw [List.forall_mem_cons]
    exact ⟨hc, ih hrest⟩

end Comment

/-! ## Placeholders -/

open placeholder (splitCommentEnds)

theorem head?_splitCommentEnds (cs : List Char) : (splitCommentEnds cs).head? = cs.head? := by
  fun_cases splitCommentEnds cs <;> rfl

/-- No end of a comment is left where each was split. -/
theorem not_holdsCommentEnd_splitCommentEnds (cs : List Char) : ¬Go.HoldsCommentEnd (splitCommentEnds cs) := by
  fun_induction splitCommentEnds cs with
  | case1 cs ih =>
    simp only [Go.holdsCommentEnd_cons, not_or]
    exact ⟨by simp, by simp, by simp, ih⟩
  | case2 c cs hend ih =>
    rw [Go.holdsCommentEnd_cons, head?_splitCommentEnds, not_or]
    refine ⟨?_, ih⟩
    rintro ⟨rfl, hslash⟩
    obtain ⟨ds, rfl⟩ := List.head?_eq_some_iff.mp hslash
    exact hend ds rfl rfl
  | case3 => decide

/-- The text of the comment that a placeholder is. -/
def placeholderText (kind detail : String) : List Char :=
  "***".toList ++ ('*' :: kind.toList ++ (": ".toList ++ (splitCommentEnds detail.toList ++ "****".toList)))

theorem toList_placeholder (kind detail : String) :
    (placeholder kind detail).toList = '/' :: '*' :: (placeholderText kind detail ++ ['*', '/']) := by
  simp [placeholder, placeholderText]

/-- The detail is split wherever it would end the comment, but the kind is not. -/
theorem holdsCommentEnd_placeholderText (kind detail : String) :
    Go.HoldsCommentEnd (placeholderText kind detail) ↔ Go.HoldsCommentEnd ('*' :: kind.toList) := by
  have hown : ¬Go.HoldsCommentEnd ['*', '*', '*'] ∧ ¬Go.HoldsCommentEnd ['*', '*', '*', '*'] ∧
      ¬Go.HoldsCommentEnd [':', ' '] := by decide
  rw [placeholderText, Go.holdsCommentEnd_append, Go.holdsCommentEnd_append, Go.holdsCommentEnd_append,
    Go.holdsCommentEnd_append]
  simp [hown, not_holdsCommentEnd_splitCommentEnds]

theorem placeholder_alone_iff (kind detail : String) :
    (∃ c, Go.comments? (placeholder kind detail).toList = some ([c], [])) ↔
      ¬Go.HoldsCommentEnd ('*' :: kind.toList) := by
  rw [toList_placeholder, Go.block_alone_iff List.not_mem_nil, holdsCommentEnd_placeholderText]

/-! ## What is written -/

namespace Env

/-- The comments of `cs` that are shown. -/
def shownComments (env : Env) (cs : List Comment) : List Comment :=
  if env.options.includeComments then cs else []

variable (env : Env)

theorem chars_comments (i : Indent) (cs : List Comment) :
    (env.comments i cs).chars = (env.shownComments cs).flatMap (Comment.chars i) := by
  unfold comments shownComments
  split
  · induction cs with
    | nil => rfl
    | cons c cs ih =>
      rw [List.flatMap_cons, Doc.chars_append, ih, List.flatMap_cons]
      cases c <;> simp [Comment.chars]
  · rfl

theorem chars_typeName_unknown {qualifiedName : String} (h : env.resolve qualifiedName = none) :
    (env.typeName qualifiedName).chars = "interface\x7b".toList ++
      '/' :: '*' :: (("UNKNOWN:".toList ++ qualifiedName.toList) ++ '*' :: '/' :: ['\x7d']) := by
  unfold typeName
  rw [h]
  simp only [Doc.chars_append, Doc.chars_note, Doc.chars_str, String.toList_append, List.append_assoc,
    List.nil_append]
  rfl

/-- The name of a type that is not found stays in its comment exactly if it does not hold the end of one. -/
theorem typeName_alone_iff {qualifiedName : String} (h : env.resolve qualifiedName = none) :
    (∃ c, Go.comments? (env.typeName qualifiedName).chars = some ([c], "interface\x7b\x7d".toList)) ↔
      ¬Go.HoldsCommentEnd qualifiedName.toList := by
  have hlabel : Go.HoldsCommentEnd ("UNKNOWN:".toList ++ qualifiedName.toList) ↔
      Go.HoldsCommentEnd qualifiedName.toList := by
    rw [Go.holdsCommentEnd_append]
    have hword : ¬Go.HoldsCommentEnd ['U', 'N', 'K', 'N', 'O', 'W', 'N', ':'] := by decide
    simp [hword]
  have hbrace : '/' ∉ ['\x7d'] := by decide
  rw [chars_typeName_unknown env h, ← hlabel, ← Go.block_alone_iff hbrace,
    Go.comments?_append (by decide : '/' ∉ "interface\x7b".toList)]
  refine exists_congr fun c => ?_
  rw [Option.map_eq_some_iff]
  constructor
  · rintro ⟨⟨found, outside⟩, hfound, heq⟩
    obtain ⟨rfl, hout⟩ := Prod.mk.inj heq
    have hlast : outside = ['\x7d'] := List.append_cancel_left hout
    rwa [hlast] at hfound
  · intro hfound
    exact ⟨_, hfound, rfl⟩

/-- **Comments and placeholders are inert exactly if their texts do not end them.**  Each comment that is shown is found
as one comment with its text, and only tabs and line feeds stand outside, exactly if no line holds a line feed and no
block the end of a comment.  A placeholder is one comment, and nothing besides, exactly if its kind does not hold the end
of a comment, not even together with the star in front of it; its detail is split and makes no difference, and so does
the source name of a function value without a function type.  The name of a type that is not found stays in the comment
between the braces exactly if it does not hold the end of a comment. -/
theorem supplied_texts_inert_iff (i : Indent) :
    (∀ cs, (∃ outside, Go.comments? (env.comments i cs).chars = some (env.shownComments cs, outside) ∧
        ∀ c ∈ outside, c = '\t' ∨ c = '\n') ↔ ∀ c ∈ env.shownComments cs, c.IsClosed) ∧
      (∀ kind detail, (∃ c, Go.comments? (env.node i (.unsupported kind detail)).chars = some ([c], [])) ↔
        ¬Go.HoldsCommentEnd ('*' :: kind.toList)) ∧
      (∀ signature, signature.type.isFunc = false →
        ∃ c, Go.comments? (env.node i (.func signature)).chars = some ([c], [])) ∧
      ∀ qualifiedName, env.resolve qualifiedName = none →
        ((∃ c, Go.comments? (env.typeName qualifiedName).chars = some ([c], "interface\x7b\x7d".toList)) ↔
          ¬Go.HoldsCommentEnd qualifiedName.toList) := by
  refine ⟨fun cs => ?_, fun kind detail => ?_, fun signature hfunc => ?_, fun _ => typeName_alone_iff env⟩
  · rw [chars_comments]
    constructor
    · rintro ⟨outside, hfound, -⟩
      exact Comment.forall_isClosed_of_comments? i hfound
    · intro hclosed
      refine ⟨_, Comment.comments?_flatMap_chars i hclosed, fun d hd => ?_⟩
      obtain ⟨c, -, hc⟩ := List.mem_flatMap.mp hd
      exact Comment.blank_of_mem_surroundings i hc
  · rw [node, Doc.chars_append, Doc.chars_note, Doc.chars_str, List.nil_append]
    exact placeholder_alone_iff kind detail
  · have hchars : (env.node i (.func signature)).chars = (placeholder "Func" signature.sourceName).toList := by
      obtain ⟨name, sourceName, comments, type⟩ := signature
      cases type with
      | func => cases hfunc
      | _ => rw [node, Doc.chars_append, Doc.chars_note, Doc.chars_str, List.nil_append] <;> simp
    rw [hchars]
    exact (placeholder_alone_iff _ _).mpr (by decide)

/-- A module that imports nothing, so that no qualified name is found. -/
def bare : Env := ⟨.empty "main" "Main", .importTable, {}⟩

theorem bare_supplied_texts_inert :
    (∃ outside, Go.comments? (bare.comments (.level 1) [.line " */ /*", .block "/ a\n*"]).chars =
        some ([.line " */ /*", .block "/ a\n*"], outside) ∧ ∀ c ∈ outside, c = '\t' ∨ c = '\n') ∧
      (∃ c, Go.comments? (bare.node .inline (.unsupported "Case*" "/ a */ b")).chars = some ([c], [])) ∧
      (∃ c, Go.comments? (bare.node .inline (.func ⟨"", "*/", [], .empty⟩)).chars = some ([c], [])) ∧
      ∃ c, Go.comments? (bare.typeName "lost./*T").chars = some ([c], "interface\x7b\x7d".toList) := by
  obtain ⟨hcomments, -, -, -⟩ := supplied_texts_inert_iff bare (.level 1)
  obtain ⟨-, hkind, hsource, htype⟩ := supplied_texts_inert_iff bare .inline
  exact ⟨(hcomments _).mpr (by decide), (hkind _ _).mpr (by decide), hsource _ rfl,
    (htype _ (by decide)).mpr (by decide)⟩

/-- A kind, a line, a block and a type name that end the comments they are written into. -/
theorem bare_texts_leak :
    Go.comments? (bare.node .inline (.unsupported "a*/b" "x")).chars =
        some ([.block "****a"], "b: x*****/".toList) ∧
      Go.comments? (bare.node .inline (.unsupported "/" "x")).chars =
        some ([.block "***"], ": x*****/".toList) ∧
      Go.comments? (bare.comments .top [.line "a\nb"]).chars = some ([.line "a"], "\nb\n".toList) ∧
      Go.comments? (bare.comments .top [.block "a */ b"]).chars = some ([.block "a "], " b*/\n".toList) ∧
      Go.comments? (bare.typeName "lost.a*/b").chars =
        some ([.block "UNKNOWN:lost.a"], "interface\x7bb*/\x7d".toList) := by
  decide

end Env

end GoScribe
