import GoScribe.Proofs.GoString
import Mathlib.Tactic.Common

/-!
# Tokens of Go

`Alphabet.tokens` cuts a text into the tokens of Go, each as long as it can be.  It reads names,
keywords, decimal integers, interpreted strings, operators and punctuation, and refuses a text with
any other token in it.

Which characters beyond ASCII are letters or digits is left to an `Alphabet`, so that nothing here
depends on a version of Unicode.
-/

namespace GoScribe.Go

/-- A token of Go. -/
inductive Token where
  | name (s : String)
  | keyword (s : String)
  | int (n : Nat)
  | str (s : String)
  /-- An operator, a piece of punctuation or the opening of a comment. -/
  | symbol (cs : List Char)
  | lineEnd
deriving DecidableEq, Repr

/-- The letters and digits beyond ASCII. -/
structure Alphabet where
  isLetter : Char → Bool
  isDigit : Char → Bool

/-- The keywords of Go. -/
def keywords : List String :=
  ["break", "case", "chan", "const", "continue", "default", "defer", "else", "fallthrough", "for",
    "func", "go", "goto", "if", "import", "interface", "map", "package", "range", "return", "select",
    "struct", "switch", "type", "var"]

/-- The operators and punctuation of Go and the openings of its comments, longer ones first. -/
def symbols : List (List Char) :=
  [['<', '<', '='], ['>', '>', '='], ['&', '^', '='], ['.', '.', '.'],
    ['&', '&'], ['|', '|'], ['<', '-'], ['+', '+'], ['-', '-'], ['=', '='], ['!', '='], ['<', '='],
    ['>', '='], [':', '='], ['+', '='], ['-', '='], ['*', '='], ['/', '='], ['%', '='], ['&', '='],
    ['|', '='], ['^', '='], ['<', '<'], ['>', '>'], ['&', '^'], ['/', '/'], ['/', '*'],
    ['+'], ['-'], ['*'], ['/'], ['%'], ['&'], ['|'], ['^'], ['<'], ['>'], ['='], ['!'], ['~'],
    ['('], [')'], ['['], [']'], ['\x7b'], ['\x7d'], [','], [';'], ['.'], [':']]

/-- The white space inside a line. -/
def isSpace (c : Char) : Bool := c = ' ' || c = '\t' || c = '\r'

/-- The longest symbol in front of a text. -/
def readSymbol (cs : List Char) : Option (Token × List Char) :=
  (symbols.find? (·.isPrefixOf cs)).map fun s => (.symbol s, cs.drop s.length)

/-- A word is a keyword or a name. -/
def wordToken (word : String) : Token :=
  if word ∈ keywords then .keyword word else .name word

namespace Alphabet

/-- A character that a name may start with. -/
def startsName (A : Alphabet) (c : Char) : Bool :=
  if c.toNat < 128 then c.isAlpha || c == '_' else A.isLetter c

/-- A character that a name may go on with. -/
def continuesName (A : Alphabet) (c : Char) : Bool :=
  if c.toNat < 128 then c.isAlphanum || c == '_' else A.isLetter c || A.isDigit c

/-- A decimal integer.  Digits behind a leading zero, and digits that go on as another kind of
number, are not read. -/
def readNumber (A : Alphabet) (cs : List Char) : Option (Token × List Char) :=
  let digits := cs.takeWhile Char.isDigit
  let rest := cs.dropWhile Char.isDigit
  if (digits.head? = some '0' ∧ digits ≠ ['0']) ∨
      rest.head?.any (fun c => c == '.' || A.continuesName c) then none
  else some (.int (Nat.ofDigitChars 10 digits 0), rest)

/-- The token in front of a text that does not start with white space. -/
def nextToken (A : Alphabet) : List Char → Option (Token × List Char)
  | [] => none
  | c :: cs =>
    if c = '\n' then some (.lineEnd, cs)
    else if A.startsName c then
      some (wordToken (String.ofList (c :: cs.takeWhile A.continuesName)),
        cs.dropWhile A.continuesName)
    else if c.isDigit then A.readNumber (c :: cs)
    else if c = '"' then (readString cs).map fun (value, rest) => (.str (String.ofList value), rest)
    else if c = '.' ∧ cs.head?.any Char.isDigit then none
    else readSymbol (c :: cs)

/-- No symbol is empty. -/
theorem length_pos_of_mem_symbols : ∀ s ∈ symbols, 0 < s.length := by decide

/-- A token takes at least one character. -/
theorem nextToken_length {A : Alphabet} {cs rest : List Char} {t : Token}
    (h : A.nextToken cs = some (t, rest)) : rest.length < cs.length := by
  cases cs with
  | nil => cases h
  | cons c cs =>
    have hdrop : ∀ p : Char → Bool, (cs.dropWhile p).length ≤ cs.length := fun p =>
      (List.dropWhile_sublist p).length_le
    rw [nextToken] at h
    split_ifs at h with hline hname hdigit hquote hdot
    · rw [Option.some.injEq, Prod.mk.injEq] at h
      rw [← h.2, List.length_cons]
      omega
    · rw [Option.some.injEq, Prod.mk.injEq] at h
      rw [← h.2, List.length_cons]
      exact Nat.lt_succ_of_le (hdrop _)
    · simp only [readNumber] at h
      split_ifs at h
      rw [Option.some.injEq, Prod.mk.injEq, List.dropWhile_cons_of_pos hdigit] at h
      rw [← h.2, List.length_cons]
      exact Nat.lt_succ_of_le (hdrop _)
    · rw [Option.map_eq_some_iff] at h
      obtain ⟨⟨value, r⟩, hr, heq⟩ := h
      obtain rfl : r = rest := (Prod.mk.inj heq).2
      have := readString_length hr
      rw [List.length_cons]
      omega
    · rw [readSymbol, Option.map_eq_some_iff] at h
      obtain ⟨s, hs, heq⟩ := h
      rw [← (Prod.mk.inj heq).2, List.length_drop, List.length_cons]
      have := length_pos_of_mem_symbols s (List.mem_of_find?_eq_some hs)
      omega

/-- The tokens of a text. -/
def tokens (A : Alphabet) : List Char → Option (List Token)
  | [] => some []
  | c :: cs =>
    if isSpace c then A.tokens cs
    else
      match _h : A.nextToken (c :: cs) with
      | none => none
      | some (t, rest) => (A.tokens rest).map (t :: ·)
termination_by cs => cs.length
decreasing_by
  · simp
  · exact nextToken_length _h

/-! ## Tokens in front of a text -/

/-- The text `cs` starts with the tokens `ts`, and `rest` stands behind them. -/
def Lexes (A : Alphabet) (cs : List Char) (ts : List Token) (rest : List Char) : Prop :=
  A.tokens cs = (A.tokens rest).map (ts ++ ·)

/-- No token stands in front of the whole text. -/
theorem Lexes.refl (A : Alphabet) (cs : List Char) : A.Lexes cs [] cs := by
  simp [Lexes]

/-- Tokens in front of tokens. -/
theorem Lexes.trans {A : Alphabet} {cs mid rest : List Char} {ts us : List Token}
    (h : A.Lexes cs ts mid) (h' : A.Lexes mid us rest) : A.Lexes cs (ts ++ us) rest := by
  unfold Lexes at *
  rw [h, h', Option.map_map]
  simp [Function.comp_def, List.append_assoc]

/-- White space in front of tokens. -/
theorem Lexes.space {A : Alphabet} {c : Char} {cs rest : List Char} {ts : List Token}
    (hc : isSpace c) (h : A.Lexes cs ts rest) : A.Lexes (c :: cs) ts rest := by
  unfold Lexes at *
  rw [tokens, if_pos hc, h]

/-- The next token in front of tokens. -/
theorem Lexes.next {A : Alphabet} {c : Char} {cs mid rest : List Char} {t : Token}
    {ts : List Token} (hc : isSpace c = false) (ht : A.nextToken (c :: cs) = some (t, mid))
    (h : A.Lexes mid ts rest) : A.Lexes (c :: cs) (t :: ts) rest := by
  unfold Lexes at *
  rw [tokens, if_neg (by rw [hc]; decide)]
  split
  · next hnone =>
    rw [ht] at hnone
    cases hnone
  · next t' rest' hsome =>
    rw [ht, Option.some.injEq, Prod.mk.injEq] at hsome
    obtain ⟨rfl, rfl⟩ := hsome
    rw [h, Option.map_map]
    rfl

/-- A text that is all tokens. -/
theorem Lexes.tokens_eq {A : Alphabet} {cs : List Char} {ts : List Token} (h : A.Lexes cs ts []) :
    A.tokens cs = some ts := by
  unfold Lexes at h
  rw [h, tokens, Option.map_some, List.append_nil]

/-! ## Names -/

/-- A name of Go, or one of its keywords. -/
def isWord (A : Alphabet) (s : String) : Bool :=
  match s.toList with
  | [] => false
  | c :: cs => A.startsName c && cs.all A.continuesName

/-- No word of `A` goes on into `rest`. -/
def EndsWord (A : Alphabet) (rest : List Char) : Prop :=
  ∀ c ∈ rest.head?, A.continuesName c = false

/-- Of the ASCII characters only letters and the underscore start a name. -/
theorem startsName_eq_false (A : Alphabet) {c : Char} (hc : c.toNat < 128)
    (h : (c.isAlpha || c == '_') = false) : A.startsName c = false := by
  rw [startsName, if_pos hc, h]

/-- What is neither a letter nor an underscore starts no name, if it is ASCII. -/
theorem ne_of_startsName {A : Alphabet} {c d : Char} (h : A.startsName c) (hd : d.toNat < 128)
    (hd' : (d.isAlpha || d == '_') = false) : c ≠ d := by
  rintro rfl
  rw [startsName_eq_false A hd hd'] at h
  cases h

theorem isSpace_eq_false_iff {c : Char} : isSpace c = false ↔ c ≠ ' ' ∧ c ≠ '\t' ∧ c ≠ '\r' := by
  simp [isSpace, and_assoc]

/-- The word in front of a text is cut off where it ends. -/
theorem takeWhile_append_of_endsWord {p : Char → Bool} {cs rest : List Char}
    (hcs : ∀ c ∈ cs, p c) (hrest : ∀ c ∈ rest.head?, p c = false) :
    (cs ++ rest).takeWhile p = cs ∧ (cs ++ rest).dropWhile p = rest := by
  rw [List.takeWhile_append_of_pos hcs, List.dropWhile_append_of_pos hcs]
  cases rest with
  | nil => simp
  | cons d rest =>
    have hd : ¬ p d = true := by simp [hrest d rfl]
    rw [List.takeWhile_cons_of_neg hd, List.dropWhile_cons_of_neg hd, List.append_nil]
    exact ⟨rfl, rfl⟩

/-- A word is read up to its end. -/
theorem lexes_word {A : Alphabet} {s : String} {rest : List Char} (hs : A.isWord s)
    (hrest : A.EndsWord rest) : A.Lexes (s.toList ++ rest) [wordToken s] rest := by
  unfold isWord at hs
  split at hs
  · cases hs
  · next c cs heq =>
    rw [Bool.and_eq_true, List.all_eq_true] at hs
    obtain ⟨htake, hdrop⟩ := takeWhile_append_of_endsWord hs.2 hrest
    have hspace : isSpace c = false := by
      rw [isSpace_eq_false_iff]
      refine ⟨?_, ?_, ?_⟩ <;> exact ne_of_startsName hs.1 (by decide) (by decide)
    have hline : c ≠ '\n' := ne_of_startsName hs.1 (by decide) (by decide)
    have hnext : A.nextToken (c :: (cs ++ rest)) = some (wordToken s, rest) := by
      rw [nextToken, if_neg hline, if_pos hs.1, htake, hdrop, ← heq, String.ofList_toList]
    rw [heq, List.cons_append]
    exact Lexes.next hspace hnext (Lexes.refl A rest)

/-! ## Numbers -/

/-- The code points of the digits. -/
theorem toNat_of_isDigit {c : Char} (h : c.isDigit) : 48 ≤ c.toNat ∧ c.toNat ≤ 57 := by
  simp only [Char.isDigit, Bool.and_eq_true, decide_eq_true_eq, ge_iff_le,
    UInt32.le_iff_toNat_le] at h
  exact h

/-- White space and line ends are no digits. -/
theorem ne_of_isDigit {c d : Char} (h : c.isDigit) (hd : d.toNat < 48) : c ≠ d := by
  rintro rfl
  have := (toNat_of_isDigit h).1
  omega

/-- A name may go on with a digit. -/
theorem continuesName_of_isDigit (A : Alphabet) {c : Char} (h : c.isDigit) :
    A.continuesName c := by
  have hc := toNat_of_isDigit h
  rw [continuesName, if_pos (by omega), Char.isAlphanum, h]
  simp

/-- No name starts with a digit. -/
theorem startsName_of_isDigit (A : Alphabet) {c : Char} (h : c.isDigit) :
    A.startsName c = false := by
  have hc := toNat_of_isDigit h
  apply startsName_eq_false A (by omega)
  -- The letters and the underscore have greater code points than the digits.
  have hletter : ∀ n : UInt32, 57 < n.toNat → ¬ n ≤ c.val := by
    intro n hn hle
    have hle' : n.toNat ≤ c.toNat := UInt32.le_iff_toNat_le.mp hle
    omega
  have hupper : c.isUpper = false := decide_eq_false fun h => hletter 'A'.val (by decide) h.1
  have hlower : c.isLower = false := by
    show (decide (c.val ≥ 'a'.val) && _) = false
    rw [decide_eq_false (hletter 'a'.val (by decide)), Bool.false_and]
  have hunder : (c == '_') = false := by
    rw [beq_eq_false_iff_ne]
    rintro rfl
    exact absurd hc.2 (by decide)
  show (c.isUpper || c.isLower || c == '_') = false
  rw [hupper, hlower, hunder]
  rfl

/-- The decimal digits of a number are digits. -/
theorem isDigit_of_mem_toDigits {c : Char} {n : Nat} (h : c ∈ Nat.toDigits 10 n) : c.isDigit :=
  Nat.isDigit_of_mem_toDigits (by decide) (by decide) h

/-- A leading zero is the whole number. -/
theorem toDigits_eq_of_head?_eq_zero {n : Nat} (h : (Nat.toDigits 10 n).head? = some '0') :
    Nat.toDigits 10 n = ['0'] := by
  induction n using Nat.strongRecOn with
  | ind n ih =>
    by_cases hn : n < 10
    · rw [Nat.toDigits_of_lt_base hn] at h ⊢
      simp only [List.head?_cons, Option.some.injEq] at h
      rw [h]
    · rw [Nat.toDigits_of_base_le (by decide) (by omega)] at h
      rw [List.head?_append, Option.or_of_isSome (by simp [Nat.toDigits_ne_nil])] at h
      have hdiv := ih (n / 10) (by omega) h
      -- the digits of the quotient are those of zero, but it is not zero
      have hzero : n / 10 = 0 := by
        rw [← Nat.ofDigitChars_ten_toDigits (n := n / 10), hdiv]
        rfl
      omega

/-- Neither a name nor another kind of number goes on into `rest`. -/
def EndsNumber (A : Alphabet) (rest : List Char) : Prop :=
  ∀ c ∈ rest.head?, A.continuesName c = false ∧ c ≠ '.'

/-- A decimal number is read up to its end. -/
theorem lexes_int {A : Alphabet} {n : Nat} {rest : List Char} (hrest : A.EndsNumber rest) :
    A.Lexes (Nat.toDigits 10 n ++ rest) [.int n] rest := by
  have hstop : ∀ c ∈ rest.head?, c.isDigit = false := by
    intro c hc
    by_contra hdigit
    rw [Bool.not_eq_false] at hdigit
    have := continuesName_of_isDigit A hdigit
    rw [(hrest c hc).1] at this
    cases this
  obtain ⟨htake, hdrop⟩ :=
    takeWhile_append_of_endsWord (fun c => isDigit_of_mem_toDigits (c := c) (n := n)) hstop
  have hread : A.readNumber (Nat.toDigits 10 n ++ rest) = some (.int n, rest) := by
    have hlead : ¬ ((Nat.toDigits 10 n).head? = some '0' ∧ Nat.toDigits 10 n ≠ ['0']) := fun h =>
      h.2 (toDigits_eq_of_head?_eq_zero h.1)
    have hend : ¬ rest.head?.any (fun c => c == '.' || A.continuesName c) = true := by
      rw [Option.any_eq_true]
      rintro ⟨c, hc, h⟩
      rw [(hrest c hc).1] at h
      simp [(hrest c hc).2] at h
    rw [readNumber, htake, hdrop, if_neg (not_or.mpr ⟨hlead, hend⟩),
      Nat.ofDigitChars_ten_toDigits]
  cases hdigits : Nat.toDigits 10 n with
  | nil => exact absurd hdigits Nat.toDigits_ne_nil
  | cons c cs =>
    have hc : c.isDigit := isDigit_of_mem_toDigits (n := n) (by rw [hdigits]; exact List.mem_cons_self)
    have hspace : isSpace c = false := by
      rw [isSpace_eq_false_iff]
      refine ⟨?_, ?_, ?_⟩ <;> exact ne_of_isDigit hc (by decide)
    have hline : c ≠ '\n' := ne_of_isDigit hc (by decide)
    rw [hdigits, List.cons_append] at hread
    have hnext : A.nextToken (c :: (cs ++ rest)) = some (.int n, rest) := by
      rw [nextToken, if_neg hline, if_neg (by simp [startsName_of_isDigit A hc]), if_pos hc, hread]
    rw [List.cons_append]
    exact Lexes.next hspace hnext (Lexes.refl A rest)

/-! ## Strings and symbols -/

/-- A quoted text is read as the text. -/
theorem lexes_quote (A : Alphabet) (s : String) (rest : List Char) :
    A.Lexes (Text.quote s.toList ++ rest) [.str s] rest := by
  have hread := readString_quoted s.toList rest
  rw [Text.quote, List.cons_append, List.append_assoc, List.singleton_append]
  refine Lexes.next rfl ?_ (Lexes.refl A rest)
  rw [nextToken, if_neg (by decide), if_neg (by rw [startsName_eq_false A] <;> decide),
    if_neg (by decide), if_pos rfl, hread]
  simp

/-- The characters that only symbols start with, the dot apart. -/
def symbolStarts : List Char :=
  ['(', ')', '[', ']', ',', '+', '-', '*', '/', '%', '&', '|', '^', '<', '>', '=', '!']

/-- A symbol is read where no other kind of token starts. -/
theorem nextToken_symbol (A : Alphabet) {c : Char} {cs : List Char} (hc : c ∈ symbolStarts) :
    A.nextToken (c :: cs) = readSymbol (c :: cs) := by
  simp only [symbolStarts, List.mem_cons, List.not_mem_nil, or_false] at hc
  rcases hc with rfl | rfl | rfl | rfl | rfl | rfl | rfl | rfl | rfl | rfl | rfl | rfl | rfl | rfl |
    rfl | rfl | rfl <;> rfl

/-- Brackets, commas and semicolons are tokens on their own. -/
theorem lexes_bracket (A : Alphabet) {c : Char}
    (hc : c ∈ ['(', ')', '[', ']', '\x7b', '\x7d', ',', ';'])
    {cs rest : List Char} {ts : List Token} (h : A.Lexes cs ts rest) : A.Lexes (c :: cs) (.symbol [c] :: ts) rest := by
  simp only [List.mem_cons, List.not_mem_nil, or_false] at hc
  rcases hc with rfl | rfl | rfl | rfl | rfl | rfl | rfl | rfl <;> exact Lexes.next rfl rfl h

/-- A line end is a token on its own. -/
theorem lexes_lineEnd {A : Alphabet} {cs rest : List Char} {ts : List Token}
    (h : A.Lexes cs ts rest) : A.Lexes ('\n' :: cs) (.lineEnd :: ts) rest :=
  Lexes.next rfl rfl h

/-- A keyword is read up to its end. -/
theorem lexes_keyword {A : Alphabet} {s : String} (hs : A.isWord s) (hkey : s ∈ keywords)
    {cs rest : List Char} {ts : List Token} (hcs : A.EndsWord cs) (h : A.Lexes cs ts rest) :
    A.Lexes (s.toList ++ cs) (.keyword s :: ts) rest := by
  have hword := lexes_word hs hcs
  rw [wordToken, if_pos hkey] at hword
  exact hword.trans h

/-- White space has no tokens. -/
theorem Lexes.blanks {A : Alphabet} {ws cs rest : List Char} {ts : List Token}
    (hws : ∀ c ∈ ws, isSpace c) (h : A.Lexes cs ts rest) : A.Lexes (ws ++ cs) ts rest := by
  induction ws with
  | nil => exact h
  | cons c ws ih =>
    rw [List.forall_mem_cons] at hws
    exact Lexes.space hws.1 (ih hws.2)

/-- Tabs have no tokens. -/
theorem Lexes.tabs {A : Alphabet} {cs rest : List Char} {ts : List Token} (k : Nat)
    (h : A.Lexes cs ts rest) : A.Lexes (List.replicate k '\t' ++ cs) ts rest := by
  refine Lexes.blanks (fun c hc => ?_) h
  rw [List.eq_of_mem_replicate hc]
  rfl

/-- A dot in front of a word. -/
theorem lexes_dot {A : Alphabet} {s : String} (hs : A.isWord s) {cs rest : List Char}
    {ts : List Token} (h : A.Lexes (s.toList ++ cs) ts rest) :
    A.Lexes ('.' :: (s.toList ++ cs)) (.symbol ['.'] :: ts) rest := by
  unfold isWord at hs
  split at hs
  · cases hs
  · next c ds heq =>
    rw [Bool.and_eq_true] at hs
    have hdot : ('.' == c) = false :=
      beq_eq_false_iff_ne.mpr (ne_of_startsName hs.1 (by decide) (by decide)).symm
    have hdigit : c.isDigit = false := by
      by_contra hdigit
      rw [Bool.not_eq_false] at hdigit
      have hstart := hs.1
      rw [startsName_of_isDigit A hdigit] at hstart
      cases hstart
    rw [heq, List.cons_append] at h ⊢
    refine Lexes.next rfl ?_ h
    rw [nextToken, if_neg (by decide), if_neg (by rw [startsName_eq_false A] <;> decide),
      if_neg (by decide), if_neg (by decide), if_neg (by simp [hdigit])]
    simp [readSymbol, symbols, List.find?, List.isPrefixOf, hdot]

end Alphabet

end GoScribe.Go
