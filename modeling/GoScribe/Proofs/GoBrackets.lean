import GoScribe.Proofs.GoString
import GoScribe.Text.Lines
import Mathlib.Tactic.Common

/-!
# Brackets of a Go text

`scan` runs through a text and collects the brackets that stand outside of string literals, rune literals
and comments.  It keeps the part of the lexer's state that tells these places apart, and stops where a
line end breaks a literal.  A text is `Delimited` if the scan leaves nothing open and the brackets are
nested.
-/

namespace GoScribe.Go

/-! ## The scan -/

/-- The quotes of the literals that end with their line. -/
inductive Quote where
  | double
  | single
deriving DecidableEq, Repr

/-- The character of a quote. -/
def Quote.char : Quote → Char
  | double => '"'
  | single => '\x27'

/-- Where in a text the scan is. -/
inductive Mode where
  | code
  /-- Behind a slash, which may open a comment. -/
  | slash
  | lineComment
  | blockComment
  /-- Behind a star, which may close a block comment. -/
  | star
  | literal (q : Quote)
  /-- Behind a backslash in a literal. -/
  | escape (q : Quote)
  /-- In a string literal between back quotes. -/
  | raw
deriving DecidableEq, Repr

/-- The opening and the closing brackets. -/
def brackets : List (Char × Char) := [('(', ')'), ('[', ']'), ('\x7b', '\x7d')]

/-- The bracket that a character is, if it is one. -/
def bracketOf (c : Char) : List Char :=
  if brackets.any fun p => c = p.1 || c = p.2 then [c] else []

/-- The characters of the code that group, or open a literal or a comment. -/
def codeBreaks : List Char := ['(', ')', '[', ']', '\x7b', '\x7d', '"', '\x27', '\x60', '/']

/-- The mode behind a character of the code. -/
def codeMode (c : Char) : Mode :=
  if c = '/' then .slash
  else if c = Quote.double.char then .literal .double
  else if c = Quote.single.char then .literal .single
  else if c = '\x60' then .raw
  else .code

/-- The mode behind a character, and the bracket that it is.  No literal but one between back quotes goes
on over a line end. -/
def step : Mode → Char → Option (Mode × List Char)
  | .code, c => some (codeMode c, bracketOf c)
  | .slash, c =>
    if c = '/' then some (.lineComment, [])
    else if c = '*' then some (.blockComment, [])
    else some (codeMode c, bracketOf c)
  | .lineComment, c => some (if c = '\n' then .code else .lineComment, [])
  | .blockComment, c => some (if c = '*' then .star else .blockComment, [])
  | .star, c =>
    some (if c = '/' then .code else if c = '*' then .star else .blockComment, [])
  | .literal q, c =>
    if c = '\n' then none
    else some (if c = q.char then .code else if c = '\\' then .escape q else .literal q, [])
  | .escape q, c => if c = '\n' then none else some (.literal q, [])
  | .raw, c => some (if c = '\x60' then .code else .raw, [])

/-- The mode behind a text, and its brackets in order. -/
def scan (m : Mode) : List Char → Option (Mode × List Char)
  | [] => some (m, [])
  | c :: cs =>
    match step m c with
    | none => none
    | some (m', bs) => (scan m' cs).map fun (m'', bs') => (m'', bs ++ bs')

/-- Brackets that are closed in the order in which they were opened. -/
inductive Nested : List Char → Prop
  | nil : Nested []
  | pair {o c : Char} {bs : List Char} : (o, c) ∈ brackets → Nested bs → Nested (o :: (bs ++ [c]))
  | append {bs bs' : List Char} : Nested bs → Nested bs' → Nested (bs ++ bs')

/-- A text that leaves no literal, comment or bracket open. -/
def Delimited (cs : List Char) : Prop :=
  ∃ bs, scan .code cs = some (.code, bs) ∧ Nested bs

/-! ## Runs of the scan -/

theorem scan_cons {m m' m'' : Mode} {c : Char} {cs bs bs' : List Char}
    (hstep : step m c = some (m', bs)) (hscan : scan m' cs = some (m'', bs')) :
    scan m (c :: cs) = some (m'', bs ++ bs') := by
  rw [scan, hstep]
  show (scan m' cs).map _ = _
  rw [hscan]
  rfl

/-- A character that is no bracket. -/
theorem scan_next {m m' m'' : Mode} {c : Char} {cs bs : List Char}
    (hstep : step m c = some (m', [])) (hscan : scan m' cs = some (m'', bs)) :
    scan m (c :: cs) = some (m'', bs) :=
  scan_cons hstep hscan

/-- The scan of a text starts with a step. -/
theorem scan_cons_inv {m m'' : Mode} {c : Char} {cs bs : List Char}
    (h : scan m (c :: cs) = some (m'', bs)) :
    ∃ m' bs₁ bs₂, step m c = some (m', bs₁) ∧ scan m' cs = some (m'', bs₂) ∧ bs = bs₁ ++ bs₂ := by
  rw [scan] at h
  split at h
  · cases h
  · next m' bs₁ hstep =>
    rw [Option.map_eq_some_iff] at h
    obtain ⟨⟨m₂, bs₂⟩, hscan, heq⟩ := h
    obtain ⟨rfl, rfl⟩ : m₂ = m'' ∧ bs₁ ++ bs₂ = bs := by simpa using heq
    exact ⟨m', bs₁, bs₂, hstep, hscan, rfl⟩

/-- A scan goes on where another ended. -/
theorem scan_append {m m' m'' : Mode} {cs ds bs bs' : List Char} (hcs : scan m cs = some (m', bs))
    (hds : scan m' ds = some (m'', bs')) : scan m (cs ++ ds) = some (m'', bs ++ bs') := by
  induction cs generalizing m bs with
  | nil =>
    obtain ⟨rfl, rfl⟩ : m = m' ∧ [] = bs := by simpa [scan] using hcs
    exact hds
  | cons c cs ih =>
    obtain ⟨m₁, bs₁, bs₂, hstep, hscan, rfl⟩ := scan_cons_inv hcs
    rw [List.cons_append, scan_cons hstep (ih hscan), List.append_assoc]

/-- The scan of a text is the scan of a first part, and then that of the rest. -/
theorem scan_append_inv {m m'' : Mode} {cs ds bs : List Char}
    (h : scan m (cs ++ ds) = some (m'', bs)) :
    ∃ m' bs₁ bs₂, scan m cs = some (m', bs₁) ∧ scan m' ds = some (m'', bs₂) ∧ bs = bs₁ ++ bs₂ := by
  induction cs generalizing m bs with
  | nil => exact ⟨m, [], bs, rfl, h, rfl⟩
  | cons c cs ih =>
    obtain ⟨m₁, bs₁, bs₂, hstep, hscan, rfl⟩ := scan_cons_inv h
    obtain ⟨m', bs₃, bs₄, hfirst, hlast, rfl⟩ := ih hscan
    exact ⟨m', bs₁ ++ bs₃, bs₄, scan_cons hstep hfirst, hlast, (List.append_assoc ..).symm⟩

/-- A mode that every character of a text keeps. -/
theorem scan_loop {m : Mode} {cs : List Char} (h : ∀ c ∈ cs, step m c = some (m, [])) :
    scan m cs = some (m, []) := by
  induction cs with
  | nil => rfl
  | cons c cs ih =>
    rw [List.forall_mem_cons] at h
    exact scan_cons h.1 (ih h.2)

/-! ## Texts that are delimited -/

theorem Delimited.nil : Delimited [] :=
  ⟨[], rfl, .nil⟩

theorem Delimited.append {cs ds : List Char} (hcs : Delimited cs) (hds : Delimited ds) :
    Delimited (cs ++ ds) := by
  obtain ⟨bs, hscan, hbs⟩ := hcs
  obtain ⟨bs', hscan', hbs'⟩ := hds
  exact ⟨bs ++ bs', scan_append hscan hscan', hbs.append hbs'⟩

/-- Other characters leave the scan in the code. -/
theorem step_code_plain {c : Char} (hc : c ∉ codeBreaks) : step .code c = some (.code, []) := by
  simp only [codeBreaks, List.mem_cons, List.not_mem_nil, or_false, not_or] at hc
  obtain ⟨h₁, h₂, h₃, h₄, h₅, h₆, h₇, h₈, h₉, h₁₀⟩ := hc
  simp [step, codeMode, bracketOf, brackets, Quote.char, *]

theorem delimited_of_plain {cs : List Char} (h : ∀ c ∈ cs, c ∉ codeBreaks) : Delimited cs :=
  ⟨[], scan_loop fun c hc => step_code_plain (h c hc), .nil⟩

theorem Delimited.bracketed {o c : Char} (hoc : (o, c) ∈ brackets) {cs : List Char}
    (h : Delimited cs) : Delimited (o :: (cs ++ [c])) := by
  obtain ⟨bs, hscan, hbs⟩ := h
  have hstep : step .code o = some (.code, [o]) ∧ step .code c = some (.code, [c]) := by
    simp only [brackets, List.mem_cons, Prod.mk.injEq, List.not_mem_nil, or_false] at hoc
    rcases hoc with ⟨rfl, rfl⟩ | ⟨rfl, rfl⟩ | ⟨rfl, rfl⟩ <;> exact ⟨rfl, rfl⟩
  have hclose : scan .code [c] = some (.code, [c]) := scan_cons hstep.2 rfl
  exact ⟨o :: (bs ++ [c]), scan_cons hstep.1 (scan_append hscan hclose), hbs.pair hoc⟩

/-- A division, with the blanks around it. -/
theorem delimited_division : Delimited [' ', '/', ' '] :=
  ⟨[], rfl, .nil⟩

theorem delimited_lineComment {s : List Char} (hs : '\n' ∉ s) :
    Delimited ('/' :: '/' :: (s ++ ['\n'])) := by
  have hbody : scan .lineComment s = some (.lineComment, []) := by
    refine scan_loop fun c hc => ?_
    have hline : c ≠ '\n' := by
      rintro rfl
      exact hs hc
    simp [step, hline]
  have hend : scan .lineComment ['\n'] = some (.code, []) := rfl
  have hopen : scan .code ['/', '/'] = some (.lineComment, []) := rfl
  exact ⟨[], scan_append hopen (scan_append hbody hend), .nil⟩

/-- A text without slashes does not close the block comment that it stands in. -/
theorem scan_comment {m : Mode} (hm : m = .blockComment ∨ m = .star) {s : List Char} (hs : '/' ∉ s) :
    scan m s = some (.blockComment, []) ∨ scan m s = some (.star, []) := by
  induction s generalizing m with
  | nil => rcases hm with rfl | rfl <;> simp [scan]
  | cons c s ih =>
    rw [List.mem_cons, not_or] at hs
    have hslash : c ≠ '/' := fun h => hs.1 h.symm
    have hstep : step m c = some (if c = '*' then .star else .blockComment, []) := by
      rcases hm with rfl | rfl <;> simp [step, hslash]
    have hnext : (if c = '*' then Mode.star else .blockComment) = .blockComment ∨
        (if c = '*' then Mode.star else .blockComment) = .star := by
      split <;> simp
    rcases ih hnext hs.2 with h | h
    · exact .inl (scan_cons hstep h)
    · exact .inr (scan_cons hstep h)

theorem delimited_comment {s : List Char} (hs : '/' ∉ s) :
    Delimited ('/' :: '*' :: (s ++ ['*', '/'])) := by
  -- Behind a star of its own the text is closed by the star that follows.
  have hclose : ∀ m, m = Mode.blockComment ∨ m = .star → scan m ['*', '/'] = some (.code, []) := by
    rintro m (rfl | rfl) <;> rfl
  have hbody : scan .blockComment (s ++ ['*', '/']) = some (.code, []) := by
    rcases scan_comment (.inl rfl) hs with h | h
    · exact scan_append h (hclose _ (.inl rfl))
    · exact scan_append h (hclose _ (.inr rfl))
  have hopen : scan .code ['/', '*'] = some (.blockComment, []) := rfl
  exact ⟨[], scan_append hopen hbody, .nil⟩

/-- Between double quotes, a character that stands for itself changes nothing. -/
theorem step_literal_plain {c : Char} (hc : c ∉ quoteBreaks) :
    step (.literal .double) c = some (.literal .double, []) := by
  simp only [quoteBreaks, List.mem_cons, List.not_mem_nil, or_false, not_or] at hc
  simp [step, Quote.char, hc]

/-- An escaped character stays inside the literal. -/
theorem scan_escapeChar (c : Char) :
    scan (.literal .double) (Text.escapeChar c) = some (.literal .double, []) := by
  rcases escapeChar_cases c with ⟨heq, hc⟩ | ⟨d, ds, heq, hd, hds⟩
  · rw [heq]
    exact scan_cons (step_literal_plain hc) rfl
  · rw [heq]
    have hescape : step (.escape .double) d = some (.literal .double, []) := if_neg hd
    have hslash : step (.literal .double) '\\' = some (.escape .double, []) := rfl
    exact scan_next hslash (scan_next hescape (scan_loop fun e he => step_literal_plain (hds e he)))

theorem delimited_quote (s : List Char) : Delimited (Text.quote s) := by
  have hbody : scan (.literal .double) (s.flatMap Text.escapeChar) = some (.literal .double, []) := by
    induction s with
    | nil => rfl
    | cons c s ih =>
      rw [List.flatMap_cons]
      exact scan_append (scan_escapeChar c) ih
  have hclose : scan (.literal .double) ['"'] = some (.code, []) := rfl
  have hopen : step .code '"' = some (.literal .double, []) := rfl
  exact ⟨[], scan_next hopen (scan_append hbody hclose), .nil⟩

example : scan .code ('f' :: '(' :: (Text.quote "\")\\".toList ++ [')'])) = some (.code, ['(', ')']) := by
  decide

/-! ## White space at the end of a text -/

/-- The modes that a line end leads back into the code. -/
def Mode.endsWithLine : Mode → Bool
  | code | slash | lineComment => true
  | _ => false

/-- White space is no bracket, and opens nothing that a line end closes. -/
theorem step_blank {m m' : Mode} {c : Char} {bs : List Char} (hc : Text.isBlank c)
    (h : step m c = some (m', bs)) : bs = [] ∧ (m'.endsWithLine → m.endsWithLine) := by
  have hne : ∀ d, Text.isBlank d = false → c ≠ d := by
    rintro d hd rfl
    rw [hd] at hc
    cases hc
  have hcode : step .code c = some (.code, []) := by
    apply step_code_plain
    simp only [codeBreaks, List.mem_cons, List.not_mem_nil, or_false, not_or]
    refine ⟨?_, ?_, ?_, ?_, ?_, ?_, ?_, ?_, ?_, ?_⟩ <;> exact hne _ (by decide)
  have hslash : step .slash c = some (.code, []) := by
    rw [step, if_neg (hne _ (by decide)), if_neg (hne _ (by decide))]
    exact hcode
  -- Outside of code, a blank only moves between modes that a line end leaves alike.
  have hmove {k : Mode} (heq : some (k, ([] : List Char)) = some (m', bs))
      (hk : k.endsWithLine → m.endsWithLine) :
      bs = [] ∧ (m'.endsWithLine → m.endsWithLine) := by
    cases heq
    exact ⟨rfl, hk⟩
  cases m with
  | code | slash =>
    refine ⟨?_, fun _ => rfl⟩
    simp_all
  | lineComment =>
    simp only [step, Option.some.injEq, Prod.mk.injEq] at h
    exact ⟨h.2.symm, fun _ => rfl⟩
  | blockComment =>
    rw [step, if_neg (hne '*' (by decide))] at h
    exact hmove h id
  | star =>
    rw [step, if_neg (hne '/' (by decide)), if_neg (hne '*' (by decide))] at h
    exact hmove h id
  | literal q =>
    have hquote : c ≠ q.char := by cases q <;> exact hne _ (by decide)
    rw [step, if_neg hquote, if_neg (hne '\\' (by decide))] at h
    split at h
    · cases h
    · exact hmove h id
  | escape q =>
    rw [step] at h
    split at h
    · cases h
    · exact hmove h id
  | raw =>
    rw [step, if_neg (hne '\x60' (by decide))] at h
    exact hmove h id

/-- White space that leads back into the code has no brackets, and started where a line end does so. -/
theorem scan_blanks {m : Mode} {ws bs : List Char} (hws : ∀ c ∈ ws, Text.isBlank c)
    (h : scan m ws = some (.code, bs)) : bs = [] ∧ m.endsWithLine := by
  induction ws generalizing m bs with
  | nil =>
    obtain ⟨rfl, rfl⟩ : m = .code ∧ [] = bs := by simpa [scan] using h
    exact ⟨rfl, rfl⟩
  | cons c ws ih =>
    rw [List.forall_mem_cons] at hws
    obtain ⟨m₁, bs₁, bs₂, hstep, hscan, rfl⟩ := scan_cons_inv h
    -- From the end to the front: what follows a character tells from where it was read.
    obtain ⟨rfl, hends⟩ := ih hws.2 hscan
    obtain ⟨rfl, hmode⟩ := step_blank hws.1 hstep
    exact ⟨rfl, hmode hends⟩

/-- White space at the end of a delimited text may be replaced by a line end. -/
theorem Delimited.trimmed {cs ws : List Char} (hws : ∀ c ∈ ws, Text.isBlank c)
    (h : Delimited (cs ++ ws)) : Delimited (cs ++ ['\n']) := by
  obtain ⟨bs, hscan, hbs⟩ := h
  obtain ⟨m, bs₁, bs₂, hfirst, hblanks, rfl⟩ := scan_append_inv hscan
  obtain ⟨rfl, hends⟩ := scan_blanks hws hblanks
  -- The blanks led from this mode into the code, so a single line end does so too.
  have hline : scan m ['\n'] = some (.code, []) := by
    cases m with
    | code | slash | lineComment => rfl
    | _ => cases hends
  exact ⟨bs₁ ++ [], scan_append hfirst hline, hbs⟩

end GoScribe.Go
