import GoScribe.Proofs.Delimiters
import GoScribe.Proofs.Switches

/-!
# The header comment

The text of the header is written line by line, each line behind two slashes.  What a line of it is, is said by
`Text.AreLines` from the way it ends.  The rest of the file starts with the package clause, which is not white
space, so that trimming the end of the file does not reach the header.  Main statement: `header_above`.
-/

namespace GoScribe

namespace Text

/-! ## Lines -/

/-- A text is cut into its lines.  A line ends in a line feed, and a carriage return in front of that belongs to
the end; behind the last line feed there is another line only if there is something. -/
inductive AreLines : List Char → List (List Char) → Prop
  | nil : AreLines [] []
  | last {l : List Char} (hne : l ≠ []) (hl : '\n' ∉ l) : AreLines l [l]
  | feed {l rest : List Char} {ls : List (List Char)} (hl : '\n' ∉ l) (hreturn : l.getLast? ≠ some '\r')
      (hrest : AreLines rest ls) : AreLines (l ++ '\n' :: rest) (l :: ls)
  | returnFeed {l rest : List Char} {ls : List (List Char)} (hl : '\n' ∉ l) (hrest : AreLines rest ls) :
      AreLines (l ++ '\r' :: '\n' :: rest) (l :: ls)

theorem dropCarriageReturn_cases (cs : List Char) :
    cs = dropCarriageReturn cs ++ ['\r'] ∨ (dropCarriageReturn cs = cs ∧ cs.getLast? ≠ some '\r') := by
  unfold dropCarriageReturn
  split
  · next rest hcs =>
    left
    rw [← List.reverse_cons, ← hcs, List.reverse_reverse]
  · next hcs =>
    refine .inr ⟨rfl, fun hlast => ?_⟩
    rw [List.getLast?_eq_head?_reverse, List.head?_eq_some_iff] at hlast
    obtain ⟨rest, hrest⟩ := hlast
    exact hcs rest hrest

/-- A line and the line feed behind it, in front of further lines. -/
theorem AreLines.cons {piece rest : List Char} {ls : List (List Char)} (hpiece : '\n' ∉ piece)
    (hrest : AreLines rest ls) : AreLines (piece ++ '\n' :: rest) (dropCarriageReturn piece :: ls) := by
  have hline : '\n' ∉ dropCarriageReturn piece := fun h => hpiece (dropCarriageReturn_subset piece h)
  rcases dropCarriageReturn_cases piece with hreturn | ⟨heq, hreturn⟩
  · have hjoin := AreLines.returnFeed hline hrest
    rw [hreturn, List.append_assoc]
    rwa [← hreturn]
  · rw [heq]
    exact .feed hpiece hreturn hrest

theorem areLines_joinWith {pieces : List (List Char)} (h : ∀ piece ∈ pieces, '\n' ∉ piece) :
    AreLines (joinWith ['\n'] pieces) (linesOfPieces pieces) := by
  fun_induction linesOfPieces pieces with
  | case1 => exact .nil
  | case2 last hlast =>
    rw [joinWith, List.isEmpty_iff.mp hlast]
    exact .nil
  | case3 last hlast =>
    exact .last (fun hnil => hlast (List.isEmpty_iff.mpr hnil)) (h last List.mem_cons_self)
  | case4 piece next rest ih =>
    rw [List.forall_mem_cons] at h
    rw [joinWith, List.append_assoc]
    exact .cons h.1 (ih h.2)

theorem areLines_lines (cs : List Char) : AreLines cs (lines cs) := by
  have hpieces : ∀ piece ∈ splitOn '\n' cs, '\n' ∉ piece := fun _ hp => not_mem_of_mem_splitOn hp
  have hlines := areLines_joinWith hpieces
  rwa [joinWith_splitOn] at hlines

/-- Nothing else is a way to cut a text into its lines. -/
theorem areLines_iff {cs : List Char} {ls : List (List Char)} : AreLines cs ls ↔ ls = lines cs := by
  have hcut {l : List Char} (hl : '\n' ∉ l) (rest : List Char) :
      lines (l ++ '\n' :: rest) = dropCarriageReturn l :: lines rest := by
    obtain ⟨piece, pieces, hrest⟩ := exists_splitOn_eq_cons '\n' rest
    rw [lines, splitOn_append, splitOn_of_not_mem hl, hrest, List.singleton_append, linesOfPieces, lines, hrest]
  constructor
  · intro h
    induction h with
    | nil => rfl
    | @last l hne hl =>
      rw [lines, splitOn_of_not_mem hl, linesOfPieces, if_neg (mt List.isEmpty_iff.mp hne)]
    | @feed l rest ls hl hreturn _ ih =>
      rw [hcut hl, ih]
      rcases dropCarriageReturn_cases l with heq | ⟨heq, -⟩
      · rw [heq, List.getLast?_concat] at hreturn
        exact absurd rfl hreturn
      · rw [heq]
    | @returnFeed l rest ls hl _ ih =>
      have hreturn : '\n' ∉ l ++ ['\r'] := by
        rw [List.mem_append, not_or]
        exact ⟨hl, by decide⟩
      have hdrop : dropCarriageReturn (l ++ ['\r']) = l := by
        rw [dropCarriageReturn, List.reverse_concat]
        exact List.reverse_reverse l
      rw [List.append_cons, hcut hreturn, hdrop, ih]
  · rintro rfl
    exact areLines_lines cs

/-! ## Trimming -/

theorem trimEnd_cons_of_ne_nil {cs : List Char} (h : trimEnd cs ≠ []) (c : Char) :
    trimEnd (c :: cs) = c :: trimEnd cs := by
  rw [trimEnd]
  split
  · next hnil => exact absurd hnil h
  · next d ds hcs => rw [hcs]

/-- Trimming stops at what is not white space. -/
theorem exists_trimEnd_cons_eq {c : Char} (hc : isBlank c = false) (cs : List Char) :
    ∃ ds, trimEnd (c :: cs) = c :: ds := by
  rw [trimEnd]
  split
  · rw [hc]
    exact ⟨[], rfl⟩
  · next d ds _ => exact ⟨d :: ds, rfl⟩

/-- All that stands in front of something that is not white space stays. -/
theorem trimEnd_append {c : Char} (hc : isBlank c = false) (front cs : List Char) :
    trimEnd (front ++ c :: cs) = front ++ trimEnd (c :: cs) := by
  induction front with
  | nil => rfl
  | cons d front ih =>
    obtain ⟨ds, hds⟩ := exists_trimEnd_cons_eq hc cs
    have hne : trimEnd (front ++ c :: cs) ≠ [] := by
      rw [ih, hds]
      exact List.append_ne_nil_of_right_ne_nil _ (List.cons_ne_nil _ _)
    rw [List.cons_append, trimEnd_cons_of_ne_nil hne, ih, List.cons_append]

end Text

/-! ## The lines of the header -/

namespace Go

/-- The text of a comment line: what stands behind the two slashes and the space that follows them. -/
def commentText (line : List Char) : List Char :=
  match line.drop 2 with
  | ' ' :: text => text
  | text => text

/-- The comment line for a line of text. -/
def commentLine (text : List Char) : List Char :=
  '/' :: '/' :: if text.isEmpty then [] else ' ' :: text

theorem commentText_commentLine (text : List Char) : commentText (commentLine text) = text := by
  cases text <;> rfl

theorem newline_not_mem_commentLine {text : List Char} (h : '\n' ∉ text) : '\n' ∉ commentLine text := by
  cases text with
  | nil => decide
  | cons c cs =>
    show '\n' ∉ ['/', '/', ' '] ++ c :: cs
    rw [List.mem_append, not_or]
    exact ⟨by decide, h⟩

end Go

namespace Env

/-- The header is a comment line for each line of its text, and an empty line. -/
theorem chars_headerDoc (h : String) :
    (headerDoc (some h)).chars =
      ((Text.lines h.toList).map Go.commentLine).flatMap (· ++ ['\n']) ++ ['\n'] := by
  rw [headerDoc, Doc.chars_append, Doc.chars_newline, Doc.chars, List.flatMap_assoc, List.flatMap_map]
  congr 1
  refine List.flatMap_congr fun l _ => ?_
  show Doc.chars _ = _
  cases l with
  | nil => rfl
  | cons c cs =>
    simp only [List.isEmpty_cons, Bool.false_eq_true, if_false, Doc.chars_append, Doc.chars_str,
      Doc.chars_space, Doc.chars_newline, String.toList_ofList]
    rfl

/-- The file below the header starts with the package clause, and is trimmed by itself. -/
theorem assemble_eq (env : Env) (body : Doc) :
    ∃ rest, ∀ header : Option String,
      (assemble { env with options := { env.options with header } } body).toList =
        (headerDoc header).chars ++ ("package".toList ++ rest) := by
  obtain ⟨ds, hds⟩ := Text.exists_trimEnd_cons_eq (c := 'e') (by decide)
    ((" " ++ env.module.name).toList ++ ['\n'] ++ ['\n'] ++
      ((ImportUsage.ofMarks body.uses).block ++ body).chars)
  refine ⟨ds ++ ['\n'], fun header => ?_⟩
  rw [assemble, String.toList_ofList]
  have hchars : (headerDoc header ++ packageDoc env.module ++ (ImportUsage.ofMarks body.uses).block ++
      body).chars = (headerDoc header).chars ++ "packag".toList ++ 'e' ::
        ((" " ++ env.module.name).toList ++ ['\n'] ++ ['\n'] ++
          ((ImportUsage.ofMarks body.uses).block ++ body).chars) := by
    simp [packageDoc, String.toList_append]
  rw [hchars, Text.trimEnd_append (by decide), hds]
  simp

/-- With a header the file is the same below it. -/
theorem file_header (m : Module) (resolver : Resolver) (options : Options) (h : String) :
    file ⟨m, resolver, { options with header := some h }⟩ =
      (file ⟨m, resolver, { options with header := none }⟩).map fun u =>
        { u with source := String.ofList (headerDoc (some h)).chars ++ u.source } := by
  -- The body is rendered without regard to the header.
  have hbody : moduleBody ⟨m, resolver, { options with header := some h }⟩ =
      moduleBody ⟨m, resolver, { options with header := none }⟩ :=
    moduleBody_congr rfl rfl rfl rfl rfl rfl
  simp only [file, hbody]
  generalize moduleBody ⟨m, resolver, { options with header := none }⟩ = body
  have hsource : assemble ⟨m, resolver, { options with header := some h }⟩ body =
      String.ofList (headerDoc (some h)).chars ++
        assemble ⟨m, resolver, { options with header := none }⟩ body := by
    obtain ⟨rest, hrest⟩ := assemble_eq ⟨m, resolver, options⟩ body
    rw [← String.toList_inj, String.toList_append, String.toList_ofList, hrest (some h), hrest none]
    rfl
  cases body.refusal? with
  | some r => rfl
  | none =>
    rw [hsource]
    cases options.strict && !body.diagnostics.isEmpty <;> rfl

theorem package_prefix_of_file {env : Env} (hheader : env.options.header = none) {u : GoFile}
    (hu : env.file = .ok u) : "package".toList <+: u.source.toList := by
  obtain ⟨rest, hrest⟩ := assemble_eq env env.moduleBody
  have hsource := hrest none
  rw [← hheader] at hsource
  rw [eq_of_file_eq_ok _ hu, hsource, hheader]
  exact ⟨rest, rfl⟩

end Env

/-! ## The file -/

namespace Module

/-- **The header stays above the code.**  A header is written as comment lines and an empty line.  Each comment
line starts with two slashes and has no line feed in it, and what the lines say behind the slashes are the lines of
the header's text.  All the rest of the file, from the package clause on, its imports and its diagnostics are those
of the file without a header; where that one is not rendered, neither is this one, and for the same reason. -/
theorem header_above (h : String) :
    ∃ comment : List (List Char),
      (∀ texts, Text.AreLines h.toList texts ↔ comment.map Go.commentText = texts) ∧
      (∀ line ∈ comment, "//".toList <+: line ∧ '\n' ∉ line) ∧
      ∀ (m : Module) (resolver : Resolver) (options : Options),
        (∀ u, m.renderWith resolver { options with header := none } = .ok u →
          "package".toList <+: u.source.toList ∧
          m.renderWith resolver { options with header := some h } =
            .ok { u with source := String.ofList (comment.flatMap (· ++ ['\n']) ++ ['\n']) ++ u.source }) ∧
        ∀ e, m.renderWith resolver { options with header := none } = .error e →
          m.renderWith resolver { options with header := some h } = .error e := by
  refine ⟨(Text.lines h.toList).map Go.commentLine, fun texts => ?_, fun line hline => ?_, ?_⟩
  · have htexts : ((Text.lines h.toList).map Go.commentLine).map Go.commentText = Text.lines h.toList := by
      rw [List.map_map]
      exact List.map_id'' Go.commentText_commentLine _
    rw [htexts, Text.areLines_iff]
    exact eq_comm
  · obtain ⟨text, htext, rfl⟩ := List.mem_map.mp hline
    exact ⟨⟨_, rfl⟩, Go.newline_not_mem_commentLine (Text.not_mem_of_mem_lines htext)⟩
  · intro m resolver options
    rw [← Env.chars_headerDoc]
    simp only [renderWith, Env.file_header]
    constructor
    · intro u hu
      exact ⟨Env.package_prefix_of_file rfl hu, by rw [hu]; rfl⟩
    · intro e he
      rw [he]
      rfl

/-- A module whose name is white space. -/
def nameless : Module where
  name := "\u2003"
  sourceName := "Main"
  imports := []
  decls := []

theorem nameless_header_above :
    (∃ u, nameless.renderWith .importTable { header := none } = .ok u ∧ u.source = "package\n" ∧
      ∃ comment : List (List Char),
        (∀ texts, Text.AreLines "Made by hand.\r\n\n  Keep.\r".toList texts ↔
          comment.map Go.commentText = texts) ∧
        (∀ line ∈ comment, "//".toList <+: line ∧ '\n' ∉ line) ∧
        nameless.renderWith .importTable { header := some "Made by hand.\r\n\n  Keep.\r" } =
          .ok { u with source := String.ofList (comment.flatMap (· ++ ['\n']) ++ ['\n']) ++ u.source }) ∧
      nameless.renderWith .importTable { header := some "Made by hand.\r\n\n  Keep.\r" } = .ok
        { source := "// Made by hand.\n//\n//   Keep.\r\n\npackage\n", imports := [], diagnostics := [] } := by
  constructor
  · have hfile : nameless.renderWith .importTable { header := none } = .ok
        { source := "package\n", imports := [], diagnostics := [] } := by decide +kernel
    obtain ⟨comment, htexts, hlines, hrender⟩ := header_above "Made by hand.\r\n\n  Keep.\r"
    exact ⟨_, hfile, rfl, comment, htexts, hlines, ((hrender nameless .importTable {}).1 _ hfile).2⟩
  · decide +kernel

end Module

end GoScribe
