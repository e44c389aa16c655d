import GoScribe.Text.Quoted
import GoScribe.Text.Reader

/-!
# Interpreted string literals of Go

`readString` reads what stands behind the opening quote of a string literal of Go, up to the closing
quote.  `quote` writes only what it reads, whatever text follows, so that a literal delimits itself
(`quote_reads_back`).
-/

namespace GoScribe.Go

/-! ## The reader -/

/-- The character that a backslash and one further character stand for. -/
def escaped? : Char → Option Char
  | 'a' => some '\x07'
  | 'b' => some '\x08'
  | 'f' => some '\x0c'
  | 'n' => some '\n'
  | 'r' => some '\r'
  | 't' => some '\t'
  | 'v' => some '\x0b'
  | '\\' => some '\\'
  | '"' => some '"'
  | _ => none

/-- The number that hexadecimal digits stand for. -/
def hexNumber? (digits : List Char) : Option Nat :=
  digits.foldlM (fun n c => (hexValue? c).map (16 * n + ·)) 0

/-- The character of a byte escape.  A byte beyond ASCII is only a part of a character. -/
def byteChar? (n : Nat) : Option Char :=
  if n < 0x80 then some (Char.ofNat n) else none

/-- The character of an escaped code point. -/
def codePoint? (n : Nat) : Option Char :=
  if n.isValidChar then some (Char.ofNat n) else none

/-- A character in front of the value that was read behind it. -/
def withFirst (c : Option Char) (r : Option (List Char × List Char)) :
    Option (List Char × List Char) :=
  c.bind fun c => r.map fun (value, rest) => (c :: value, rest)

/-- The value of a string literal whose opening quote was read, and the text behind its closing
quote. -/
def readString : List Char → Option (List Char × List Char)
  | [] => none
  | '"' :: cs => some ([], cs)
  | '\n' :: _ => none
  | '\\' :: 'x' :: h₁ :: h₂ :: cs =>
    withFirst ((hexNumber? [h₁, h₂]).bind byteChar?) (readString cs)
  | '\\' :: 'u' :: h₁ :: h₂ :: h₃ :: h₄ :: cs =>
    withFirst ((hexNumber? [h₁, h₂, h₃, h₄]).bind codePoint?) (readString cs)
  | '\\' :: c :: cs => withFirst (escaped? c) (readString cs)
  | ['\\'] => none
  | c :: cs => withFirst (some c) (readString cs)

/-- What `withFirst` leaves unread is what was left unread behind the first character. -/
theorem rest_of_withFirst {c : Option Char} {r : Option (List Char × List Char)}
    {value rest : List Char} (h : withFirst c r = some (value, rest)) :
    ∃ v, r = some (v, rest) := by
  simp only [withFirst, Option.bind_eq_some_iff, Option.map_eq_some_iff] at h
  obtain ⟨_, _, ⟨v, r'⟩, hr, heq⟩ := h
  obtain rfl : r' = rest := (Prod.mk.inj heq).2
  exact ⟨v, hr⟩

/-- What is left behind a string literal is shorter than what was there. -/
theorem readString_length {cs value rest : List Char} (h : readString cs = some (value, rest)) :
    rest.length < cs.length := by
  fun_induction readString cs generalizing value rest with
  | case1 => cases h
  | case2 cs =>
    rw [Option.some.injEq, Prod.mk.injEq] at h
    rw [← h.2, List.length_cons]
    omega
  | case3 => cases h
  | case4 _ _ _ ih | case5 _ _ _ _ _ ih | case6 _ _ _ _ ih | case8 _ _ _ _ _ _ _ _ ih =>
    obtain ⟨v, hv⟩ := rest_of_withFirst h
    have := ih hv
    simp only [List.length_cons]
    omega
  | case7 => cases h

/-! ## Hexadecimal digits -/

/-- A written hexadecimal digit has the value it was written for. -/
theorem hexValue?_hexDigit : ∀ n < 16, hexValue? (Text.hexDigit n) = some n := by decide

/-- A number that is short enough is read from its written digits. -/
theorem hexNumber?_hexDigits (k : Nat) {n : Nat} (h : n < Nat.pow 16 k) :
    hexNumber? (Text.hexDigits k n) = some n := by
  induction k generalizing n with
  | zero =>
    obtain rfl : n = 0 := Nat.lt_one_iff.mp h
    rfl
  | succ k ih =>
    have hdiv : n / 16 < Nat.pow 16 k := Nat.div_lt_of_lt_mul (Nat.mul_comm _ 16 ▸ h)
    have hlast := hexValue?_hexDigit (n % 16) (Nat.mod_lt n (by decide))
    have hhead := ih hdiv
    unfold hexNumber? at hhead ⊢
    rw [Text.hexDigits, List.foldlM_append, hhead, Option.bind_eq_bind, Option.bind_some,
      List.foldlM_cons, hlast, Option.map_some, Nat.div_add_mod]
    rfl

/-! ## Reading what is quoted -/

/-- A control character is below the first printable character beyond ASCII. -/
theorem toNat_lt_of_isControl {c : Char} (h : Text.isControl c = true) : c.toNat < 0xA0 := by
  simp only [Text.isControl, Bool.or_eq_true, Bool.and_eq_true, decide_eq_true_eq] at h
  omega

/-- The number of a character is a code point, that character's. -/
theorem codePoint?_toNat {c : Char} : codePoint? c.toNat = some c := by
  have hv : c.toNat.isValidChar := c.valid
  rw [codePoint?, if_pos hv, Char.ofNat_toNat]

/-- A character that neither ends the literal nor escapes another stands for itself. -/
theorem readString_plain {c : Char} {cs : List Char} (hquote : c ≠ '"') (hline : c ≠ '\n')
    (hescape : c ≠ '\\') : readString (c :: cs) = withFirst (some c) (readString cs) := by
  rw [readString]
  · exact hquote
  · exact hline
  · intro _ _ _ h _
    exact hescape h
  · intro _ _ _ _ _ h _
    exact hescape h
  · intro _ _ h _
    exact hescape h
  · intro h _
    exact hescape h

/-- An escaped character is read as the character, whatever follows. -/
theorem readString_escapeChar (c : Char) (cs : List Char) :
    readString (Text.escapeChar c ++ cs) = withFirst (some c) (readString cs) := by
  unfold Text.escapeChar
  split
  case h_10 h₁ h₂ h₃ h₄ h₅ h₆ h₇ h₈ h₉ =>
    split
    · next hc =>
      have hlt := toNat_lt_of_isControl hc
      split
      · next h80 =>
        have hx := hexNumber?_hexDigits 2 (n := c.toNat) (Nat.lt_trans h80 (by decide))
        simp only [Text.hexDigits, List.nil_append, List.cons_append] at hx ⊢
        rw [readString, hx, Option.bind_some, byteChar?, if_pos h80, Char.ofNat_toNat]
      · have hu := hexNumber?_hexDigits 4 (n := c.toNat) (Nat.lt_trans hlt (by decide))
        simp only [Text.hexDigits, List.nil_append, List.cons_append] at hu ⊢
        rw [readString, hu, Option.bind_some, codePoint?_toNat]
    · rw [List.cons_append, List.nil_append, readString_plain h₁ h₃ h₂]
  all_goals rfl

/-- A quoted text is read as the text, and what follows is left. -/
theorem readString_quoted (cs rest : List Char) :
    readString (cs.flatMap Text.escapeChar ++ '"' :: rest) = some (cs, rest) := by
  induction cs with
  | nil => rfl
  | cons c cs ih =>
    rw [List.flatMap_cons, List.append_assoc, readString_escapeChar, ih]
    rfl

/-! ## The shape of what is quoted -/

/-- The characters that do not stand for themselves between quotes. -/
def quoteBreaks : List Char := ['"', '\\', '\n']

/-- Written hexadecimal digits are those of numbers below sixteen. -/
theorem exists_of_mem_hexDigits {k n : Nat} {c : Char} (hc : c ∈ Text.hexDigits k n) :
    ∃ d < 16, c = Text.hexDigit d := by
  induction k generalizing n with
  | zero => cases hc
  | succ k ih =>
    rw [Text.hexDigits, List.mem_append, List.mem_singleton] at hc
    rcases hc with hc | rfl
    · exact ih hc
    · exact ⟨n % 16, Nat.mod_lt n (by decide), rfl⟩

/-- Hexadecimal digits stand for themselves. -/
theorem not_mem_quoteBreaks_of_mem_hexDigits {k n : Nat} {c : Char}
    (hc : c ∈ Text.hexDigits k n) : c ∉ quoteBreaks := by
  have hdigit : ∀ d < 16, Text.hexDigit d ∉ quoteBreaks := by decide
  obtain ⟨d, hd, rfl⟩ := exists_of_mem_hexDigits hc
  exact hdigit d hd

/-- A character is written as itself, or as a backslash with an escape behind it. -/
theorem escapeChar_cases (c : Char) :
    (Text.escapeChar c = [c] ∧ c ∉ quoteBreaks) ∨
      ∃ d ds, Text.escapeChar c = '\\' :: d :: ds ∧ d ≠ '\n' ∧ ∀ e ∈ ds, e ∉ quoteBreaks := by
  unfold Text.escapeChar
  split
  case h_10 h₁ h₂ h₃ h₄ h₅ h₆ h₇ h₈ h₉ =>
    split
    · right
      split
      · exact ⟨'x', _, rfl, by decide, fun e => not_mem_quoteBreaks_of_mem_hexDigits⟩
      · exact ⟨'u', _, rfl, by decide, fun e => not_mem_quoteBreaks_of_mem_hexDigits⟩
    · left
      refine ⟨rfl, ?_⟩
      simp only [quoteBreaks, List.mem_cons, List.not_mem_nil, or_false, not_or]
      exact ⟨h₁, h₂, h₃⟩
  all_goals exact .inr ⟨_, [], rfl, by decide, by simp⟩

/-- No control character is left between the quotes. -/
theorem isControl_of_mem_escapeChar {c d : Char} (hd : d ∈ Text.escapeChar c) :
    Text.isControl d = false := by
  have hdigits : ∀ k n, d ∈ Text.hexDigits k n → Text.isControl d = false := by
    intro k n hmem
    have hdigit : ∀ e < 16, Text.isControl (Text.hexDigit e) = false := by decide
    obtain ⟨e, he, rfl⟩ := exists_of_mem_hexDigits hmem
    exact hdigit e he
  unfold Text.escapeChar at hd
  split at hd
  case h_10 =>
    split at hd
    · split at hd <;> rw [List.mem_cons, List.mem_cons] at hd <;> rcases hd with rfl | rfl | hd
      any_goals rfl
      · exact hdigits 2 c.toNat hd
      · exact hdigits 4 c.toNat hd
    · next hc =>
      rw [List.mem_singleton.mp hd]
      exact (Bool.not_eq_true _).mp hc
  all_goals
    simp only [List.mem_cons, List.not_mem_nil, or_false] at hd
    rcases hd with rfl | rfl <;> rfl

theorem isControl_of_mem_quote {s : List Char} {c : Char} (hc : c ∈ Text.quote s) :
    Text.isControl c = false := by
  simp only [Text.quote, List.mem_cons, List.mem_append, List.mem_flatMap, List.not_mem_nil,
    or_false] at hc
  rcases hc with rfl | ⟨d, _, hd⟩ | rfl
  · rfl
  · exact isControl_of_mem_escapeChar hd
  · rfl

/-! ## Literals as a code -/

/-- The value of the string literal in front of a text, and the text behind it. -/
def readLiteral : List Char → Option (List Char × List Char)
  | '"' :: cs => readString cs
  | _ => none

theorem readLiteral_quote (s t : List Char) : readLiteral (Text.quote s ++ t) = some (s, t) := by
  rw [Text.quote, List.cons_append, List.append_assoc, List.singleton_append]
  exact readString_quoted s t

/-- A literal tells where it ends. -/
theorem quote_append_inj {s s' t t' : List Char} (h : Text.quote s ++ t = Text.quote s' ++ t') :
    s = s' ∧ t = t' := by
  have hread := readLiteral_quote s t
  rw [h, readLiteral_quote, Option.some.injEq, Prod.mk.injEq] at hread
  exact ⟨hread.1.symm, hread.2.symm⟩

/-- **String literals read back and delimit themselves.**  Whatever follows it, a literal is read to its end and
no further, and its value is the text it was written for; so no two texts share a literal.  No control character
stands in a literal. -/
theorem quote_reads_back :
    (∀ s t, readLiteral (Text.quote s ++ t) = some (s, t)) ∧
      (∀ s s', Text.quote s = Text.quote s' → s = s') ∧
      ∀ s, ∀ c ∈ Text.quote s, 0x20 ≤ c.toNat ∧ (c.toNat < 0x7F ∨ 0x9F < c.toNat) := by
  refine ⟨readLiteral_quote, ?_, ?_⟩
  · intro s s' h
    rw [← List.append_nil (Text.quote s), ← List.append_nil (Text.quote s')] at h
    exact (quote_append_inj h).1
  · intro s c hc
    have hcontrol := isControl_of_mem_quote hc
    simp only [Text.isControl, Bool.or_eq_false_iff, Bool.and_eq_false_iff, decide_eq_false_iff_not]
      at hcontrol
    omega

end GoScribe.Go
