import GoScribe.Proofs.InertComments
import GoScribe.Proofs.OpenBrackets

/-!
# Composite literals in headers

Between the keyword of a condition or a loop and its body, a brace behind a type name is read as the start
of the body, unless a bracket is open there.  The renderer puts no parentheses around the expressions of a
header, so that a composite literal is shielded only by the brackets that the tree puts around it.
-/

namespace GoScribe

open Go (Delimited)

/-! ## Type names -/

namespace Go.Alphabet

variable {A : Alphabet}

/-- A bare or qualified type name. -/
def isTypeName (A : Alphabet) (cs : List Char) : Bool :=
  match Text.splitOn '.' cs with
  | [name] => A.isIdentifier (String.ofList name)
  | [pkg, name] => A.isIdentifier (String.ofList pkg) && A.isIdentifier (String.ofList name)
  | _ => false

theorem not_mem_of_isWord {s : String} (hs : A.isWord s) {c : Char} (hstart : A.startsName c = false)
    (hcontinue : A.continuesName c = false) : c ∉ s.toList := by
  unfold isWord at hs
  split at hs
  · cases hs
  · next d ds heq =>
    rw [Bool.and_eq_true, List.all_eq_true] at hs
    rw [heq, List.mem_cons, not_or]
    constructor
    · rintro rfl
      rw [hs.1] at hstart
      cases hstart
    · intro hmem
      rw [hs.2 c hmem] at hcontinue
      cases hcontinue

/-- The characters that types other than names are written with. -/
def typeMarks : List Char := ['(', '[', '\x7b', '*']

/-- A type name has no mark of another type. -/
theorem isTypeName_eq_false {cs : List Char} {c : Char} (hc : c ∈ typeMarks) (h : c ∈ cs) :
    A.isTypeName cs = false := by
  have hmark : c ≠ '.' ∧ A.startsName c = false ∧ A.continuesName c = false := by
    simp only [typeMarks, List.mem_cons, List.not_mem_nil, or_false] at hc
    rcases hc with rfl | rfl | rfl | rfl <;> exact ⟨by decide, rfl, rfl⟩
  have hpiece : ∀ p, c ∈ p → A.isIdentifier (String.ofList p) = false := by
    intro p hp
    by_contra hword
    rw [Bool.not_eq_false, isIdentifier_iff] at hword
    have hno := not_mem_of_isWord hword.1 hmark.2.1 hmark.2.2
    rw [String.toList_ofList] at hno
    exact hno hp
  obtain ⟨p, hp, hcp⟩ := Text.exists_mem_splitOn hmark.1 h
  unfold isTypeName
  split
  · next name heq =>
    rw [heq, List.mem_singleton] at hp
    exact hpiece name (hp ▸ hcp)
  · next pkg name heq =>
    rw [heq] at hp
    simp only [List.mem_cons, List.not_mem_nil, or_false] at hp
    rcases hp with rfl | rfl <;> simp [hpiece p hcp]
  · rfl

end Go.Alphabet

namespace Env

/-- A type that is written as a name is written so at every place. -/
theorem isTypeName_type (env : Env) (A : Go.Alphabet) (i j : Indent) (t : GoType) :
    A.isTypeName (env.type i "" t).chars = A.isTypeName (env.type j "" t).chars := by
  have hmarked : (∃ c ∈ Go.Alphabet.typeMarks, ∀ k, c ∈ (env.type k "" t).chars) →
      A.isTypeName (env.type i "" t).chars = A.isTypeName (env.type j "" t).chars := by
    rintro ⟨c, hc, hmem⟩
    rw [Go.Alphabet.isTypeName_eq_false hc (hmem i), Go.Alphabet.isTypeName_eq_false hc (hmem j)]
  cases t with
  | empty | named | unresolved => simp only [type]
  | array elem => exact hmarked ⟨'[', by decide, fun k => by simp [type]⟩
  | pointer target => exact hmarked ⟨'*', by decide, fun k => by simp [type]⟩
  | interface embeds methods isTypeVar =>
    cases hempty : (env.shownEmbeds embeds).isEmpty && methods.isEmpty with
    | true => simp only [type, hempty, if_true]
    | false => exact hmarked ⟨'\x7b', by decide, fun k => by simp [type, hempty]⟩
  | struct embeds fields byPointer methods =>
    refine hmarked ⟨'\x7b', by decide, fun k => ?_⟩
    rw [type]
    split <;> simp
  | func params results body =>
    exact hmarked ⟨'(', by decide, fun k => by simp [type, signatureDoc, Doc.chars_enclose]⟩

/-- A composite literal whose type is written as a name. -/
def isNamedLiteral (env : Env) (A : Go.Alphabet) (i : Indent) : Node → Bool
  | .litArr type _ | .litObj type _ => A.isTypeName (env.type i "" type.type).chars
  | _ => false

theorem isNamedLiteral_eq (env : Env) (A : Go.Alphabet) (i j : Indent) (l : Node) :
    env.isNamedLiteral A i l = env.isNamedLiteral A j l := by
  cases l with
  | litArr | litObj => exact isTypeName_type env A i j _
  | _ => rfl

theorem isComposite_of_isNamedLiteral {env : Env} {A : Go.Alphabet} {i : Indent} {l : Node}
    (h : env.isNamedLiteral A i l) : l.isComposite := by
  cases l with
  | litArr | litObj => rfl
  | _ => cases h

end Env

/-! ## Headers -/

/-- The rendered positions of a header: the statement itself, and those of its expressions. -/
def Node.headerPositions (embeds : Bool) (n : Node) : List Position :=
  .node n :: nodePositions embeds n.operands

theorem Node.positions_subset_header {embeds : Bool} {n e : Node} (he : e ∈ n.operands) :
    e.positions embeds ⊆ n.headerPositions embeds :=
  fun _ hp => List.mem_cons_of_mem _ (mem_nodePositions.mpr ⟨e, he, hp⟩)

namespace Env

/-- The text of a condition or a loop between its tabs and its body. -/
def header (env : Env) (i : Indent) (n : Node) : List Char :=
  (Segment.header i n).flatMap (Stretch.chars env)

/-- In the header of `n` at `i`, the node `l` is written at `k` behind the text `before`. -/
inductive HeaderShows (env : Env) (i : Indent) (n : Node) : List Char → Indent → Node → Prop
  | intro {before before' : List Char} {b : Option Bracket} {j k : Indent} {e l : Node} :
      Segment.HasPart env [⟨none, Segment.header i n⟩] before b j e → env.Shows j e before' k l →
        HeaderShows env i n (before ++ before') k l

theorem exists_bodyDoc_eq (env : Env) (i : Indent) (n : Node) :
    ∃ rest, (bodyDoc i n fun j => env.node j n).chars = '\x7b' :: rest := by
  have hbraces : ∀ lines, ∃ rest, (braces i lines).chars = '\x7b' :: rest := by
    intro lines
    refine ⟨'\n' :: (lines.chars ++ ((Doc.tabs i).chars ++ ['\x7d'])), ?_⟩
    simp [braces]
  cases n with
  | block stmts =>
    cases stmts with
    | nil => exact ⟨['\x7d'], by simp [bodyDoc, node]⟩
    | cons s ss =>
      simp only [bodyDoc, node]
      exact hbraces _
  | _ => exact hbraces _

theorem exists_branch_eq (i : Indent) (cond thenBranch : Node) (elseBranch : Option Node) :
    ∃ ss, Segment.branch i (.ifElse cond thenBranch elseBranch) =
      ⟨none, Segment.header i (.ifElse cond thenBranch elseBranch)⟩ :: Segment.block i thenBranch :: ss := by
  cases elseBranch with
  | none => exact ⟨_, rfl⟩
  | some e => exact ⟨_, rfl⟩

/-- The header stands between the tabs of the statement and the brace of its body. -/
theorem exists_node_eq_header (env : Env) (i : Indent) {n : Node} (hn : n.isControl) :
    ∃ rest, (env.node i n).chars = (Doc.tabs i).chars ++ (env.header i n ++ '\x7b' :: rest) := by
  have hsegments : ∃ body ss, env.segments i n =
      Segment.own (Doc.tabs i) :: ⟨none, Segment.header i n⟩ :: Segment.block i body :: ss := by
    cases n with
    | ifElse cond thenBranch elseBranch =>
      obtain ⟨ss, hbranch⟩ := exists_branch_eq i cond thenBranch elseBranch
      exact ⟨thenBranch, ss ++ [Segment.own (Doc.endStatement i)], by rw [segments, hbranch]; rfl⟩
    | forRange | forClassic | forWhile => exact ⟨_, _, rfl⟩
    | _ => cases hn
  obtain ⟨body, ss, hsegments⟩ := hsegments
  obtain ⟨rest, hbody⟩ := exists_bodyDoc_eq env i body
  refine ⟨rest ++ ss.flatMap (Segment.chars env), ?_⟩
  rw [← chars_segments, hsegments]
  simp [header, hbody]

/-- Behind the word `else` a condition has the same header, without tabs. -/
theorem exists_elseDoc_eq_header (env : Env) (i : Indent) (cond thenBranch : Node) (elseBranch : Option Node) :
    ∃ rest, (env.elseDoc i (some (.ifElse cond thenBranch elseBranch))).chars =
      " else ".toList ++ (env.header i (.ifElse cond thenBranch elseBranch) ++ '\x7b' :: rest) := by
  obtain ⟨ss, hbranch⟩ := exists_branch_eq i cond thenBranch elseBranch
  obtain ⟨rest, hbody⟩ := exists_bodyDoc_eq env i thenBranch
  refine ⟨rest ++ ss.flatMap (Segment.chars env), ?_⟩
  rw [← Segment.chars_branch, hbranch]
  simp [header, hbody]

section

variable {env : Env} {i j : Indent} {n l e : Node} {before : List Char} {path : List Bracket}

/-- Behind the text before a node stands the text of the node. -/
theorem HeaderShows.exists_eq (h : env.HeaderShows i n before j l) :
    ∃ after, env.header i n = before ++ ((env.node j l).chars ++ after) := by
  obtain ⟨hpart, hshows⟩ := h
  obtain ⟨outer, houter⟩ := hpart.exists_eq
  obtain ⟨inner, hinner⟩ := hshows.exists_eq
  rw [List.flatMap_singleton, Segment.chars_unbracketed, hinner] at houter
  refine ⟨inner ++ outer, ?_⟩
  rw [header, houter]
  simp only [List.append_assoc]

theorem parts_headerSegment (i : Indent) (hn : n.isControl) :
    [Segment.mk none (Segment.header i n)].flatMap Segment.parts = n.operands.map (none, ·) := by
  rw [List.flatMap_singleton, Segment.parts_mk, Segment.parts_header i hn]

variable (henv : env.Avoids Text.delimiters) (hn : n.isControl)
  (hfits : ∀ p ∈ n.headerPositions env.options.overlappingInterfaces, p.Fits true Text.delimiters)

include henv hn hfits

theorem delimited_headerSegment (i : Indent) :
    ∀ s ∈ [Segment.mk none (Segment.header i n)], ∀ x ∈ s.inner, Delimited (x.chars env) := by
  rw [List.forall_mem_singleton]
  intro x hx
  cases x with
  | text d => exact Segment.tidy_header (hfits _ List.mem_cons_self).texts d hx
  | part j e =>
    have he : e ∈ n.operands := by
      rw [← Segment.parts_header i hn]
      exact List.mem_flatMap.mpr ⟨_, hx, List.mem_cons_self⟩
    exact delimited_node henv (fun p hp => hfits p (Node.positions_subset_header he hp)) j

/-- The brackets that are open in front of a node in a header are those around it in an expression. -/
theorem HeaderShows.exists_inside (h : env.HeaderShows i n before j l) :
    ∃ e ∈ n.operands, ∃ path, e.Inside path l ∧ Go.openBrackets before = path := by
  obtain ⟨hpart, hshows⟩ := h
  have hmem := hpart.mem_parts
  rw [parts_headerSegment i hn] at hmem
  obtain ⟨e, he, heq⟩ := List.mem_map.mp hmem
  obtain ⟨rfl, rfl⟩ := Prod.mk.inj heq
  have hleaves := hpart.leaves (delimited_headerSegment henv hn hfits i)
  obtain ⟨path, hinside, hinner⟩ := hshows.exists_inside henv fun p hp =>
    hfits p (Node.positions_subset_header he hp)
  have hall := hleaves.append hinner
  rw [Option.toList_none, List.append_nil] at hall
  exact ⟨e, he, path, hinside, hall.openBrackets_eq⟩

theorem exists_headerShows (he : e ∈ n.operands) (h : e.Inside path l) (i : Indent) :
    ∃ before j, env.HeaderShows i n before j l ∧ Go.openBrackets before = path := by
  have hmem : (none, e) ∈ [Segment.mk none (Segment.header i n)].flatMap Segment.parts := by
    rw [parts_headerSegment i hn]
    exact List.mem_map_of_mem he
  obtain ⟨before, j, hpart⟩ := Segment.exists_hasPart hmem
  have hleaves := hpart.leaves (delimited_headerSegment henv hn hfits i)
  obtain ⟨before', k, hshows, hinner⟩ := exists_shows henv h
    (fun p hp => hfits p (Node.positions_subset_header he hp)) j
  have hall := hleaves.append hinner
  rw [Option.toList_none, List.append_nil] at hall
  exact ⟨_, k, ⟨hpart, hshows⟩, hall.openBrackets_eq⟩

/-- **Literals in headers are shielded only by the brackets of the tree.**  The header of a condition or a
loop stands in front of the brace of its body, and each composite literal with a named type that its
expressions render is written in it.  In front of every such literal one of the brackets `shields` is open
exactly if in the tree each of them stands in one: between the parentheses of a call or of an operand, in
an index, or between the braces of another literal or a function. -/
theorem named_literals_shielded_iff (A : Go.Alphabet) (i : Indent) :
    (∃ rest, (env.node i n).chars = (Doc.tabs i).chars ++ (env.header i n ++ '\x7b' :: rest)) ∧
      (∀ before j l, env.HeaderShows i n before j l →
        ∃ after, env.header i n = before ++ ((env.node j l).chars ++ after)) ∧
      (∀ e ∈ n.operands, ∀ l, .node l ∈ e.positions env.options.overlappingInterfaces →
        env.isNamedLiteral A .inline l → ∃ before j, env.HeaderShows i n before j l) ∧
      ∀ shields : List Bracket,
        (∀ before j l, env.HeaderShows i n before j l → env.isNamedLiteral A j l →
          ∃ b ∈ Go.openBrackets before, b ∈ shields) ↔
        ∀ e ∈ n.operands, ∀ path l, e.Inside path l → env.isNamedLiteral A .inline l →
          ∃ b ∈ path, b ∈ shields := by
  refine ⟨exists_node_eq_header env i hn, fun before j l => HeaderShows.exists_eq, ?_, fun shields => ⟨?_, ?_⟩⟩
  · intro e he l hl hnamed
    obtain ⟨path, hinside⟩ := Node.exists_inside (isComposite_of_isNamedLiteral hnamed) hl
    obtain ⟨before, j, hshows, -⟩ := exists_headerShows henv hn hfits he hinside i
    exact ⟨before, j, hshows⟩
  · intro h e he path l hinside hnamed
    obtain ⟨before, j, hshows, hopen⟩ := exists_headerShows henv hn hfits he hinside i
    rw [isNamedLiteral_eq env A .inline j] at hnamed
    rw [← hopen]
    exact h before j l hshows hnamed
  · intro h before j l hshows hnamed
    obtain ⟨e, he, path, hinside, hopen⟩ := hshows.exists_inside henv hn hfits
    rw [isNamedLiteral_eq env A j .inline] at hnamed
    rw [hopen]
    exact h e he path l hinside hnamed

end

end Env

/-- Only the letters and digits of ASCII. -/
def Go.Alphabet.ascii : Go.Alphabet := ⟨fun _ => false, fun _ => false⟩

/-- A literal of a type that is written as a bare name. -/
def Node.person : Node := .litObj ⟨"", "", [], .named "Person"⟩ []

/-- A loop over what a call returns, with a literal among the arguments and another one as an index. -/
def Node.personLoop : Node :=
  .forRange "x" (.index (.call (.sym "f") [person]) person) (.block [])

namespace Env

open Go.Alphabet (ascii)
open Node (person personLoop)

theorem personLoop_literals_shielded :
    (bare.node .inline personLoop).chars =
        "for _, x := range f(Person\x7b\x7d)[Person\x7b\x7d] \x7b\x7d".toList ∧
      (∃ before j, bare.HeaderShows .inline personLoop before j person) ∧
      ∀ before j l, bare.HeaderShows .inline personLoop before j l → bare.isNamedLiteral ascii j l →
        ∃ b ∈ Go.openBrackets before, b ∈ [Bracket.round, .square] := by
  have henv : bare.Avoids Text.delimiters := avoids_importTable (by decide) (by decide) (by decide)
  have htexts : ∀ p ∈ personLoop.headerPositions bare.options.overlappingInterfaces,
      ∀ s ∈ p.texts, Text.avoids Text.delimiters s.toList := by decide
  obtain ⟨-, -, hrendered, hshields⟩ := named_literals_shielded_iff henv (n := personLoop) rfl
    (fun p hp => ⟨htexts p hp, fun hno => by cases hno⟩) ascii .inline
  refine ⟨by decide, hrendered _ List.mem_cons_self person ?_ (by decide), (hshields _).mpr ?_⟩
  · simp [Node.positions, nodePositions, person]
  · intro e he path l hinside hnamed
    obtain rfl := List.mem_singleton.mp he
    -- The way to a literal leads through the index or through the arguments.
    cases hinside with
    | here => cases hnamed
    | inside hmem hinside =>
      simp only [Node.parts, List.mem_cons, Prod.mk.injEq, List.not_mem_nil, or_false] at hmem
      rcases hmem with ⟨rfl, rfl⟩ | ⟨rfl, rfl⟩
      · cases hinside with
        | here => cases hnamed
        | inside hmem hinside =>
          simp only [Node.parts, List.mem_cons, List.map_cons, List.map_nil, Prod.mk.injEq, List.not_mem_nil,
            or_false] at hmem
          rcases hmem with ⟨rfl, rfl⟩ | ⟨rfl, rfl⟩
          · cases hinside with
            | here => cases hnamed
            | inside hmem _ => cases hmem
          · exact ⟨.round, by simp, by decide⟩
      · exact ⟨.square, by simp, by decide⟩

/-- An operand that is a literal gets no parentheses: nothing is open in front of it. -/
theorem person_operand_exposed :
    (bare.node .inline (.ifElse (.op2 .eq (.sym "p") person) (.block []) none)).chars =
        "if p == Person\x7b\x7d \x7b\x7d".toList ∧
      bare.HeaderShows .inline (.ifElse (.op2 .eq (.sym "p") person) (.block []) none) "if p == ".toList .inline
        person ∧
      bare.isNamedLiteral ascii .inline person ∧ Go.openBrackets "if p == ".toList = [] := by
  have hcond : Segment.HasPart bare
      [⟨none, Segment.header .inline (.ifElse (.op2 .eq (.sym "p") person) (.block []) none)⟩] "if ".toList
      none .inline (.op2 .eq (.sym "p") person) :=
    .intro [] [] none [.text (Doc.str "if ")] [.text Doc.space] .inline _
  have hright : Segment.HasPart bare (bare.segments .inline (.op2 .eq (.sym "p") person)) "p == ".toList
      none .inline person :=
    .intro [Segment.operand (.binary .eq) .inline (.sym "p"), Segment.own (Doc.str " == ")] [] none [] []
      .inline _
  exact ⟨by decide, ⟨hcond, .inside hright (.here .inline person)⟩, by decide, by decide⟩

end Env

end GoScribe
