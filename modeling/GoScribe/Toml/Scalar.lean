import GoScribe.Number.Reading

/-!
# Numbers and dates in TOML

Which texts are numbers, dates and times.  A number with a fraction or an exponent has to fit a double
if it is positive; a day has to be one that some month has.
-/

namespace GoScribe

namespace Toml

/-- Digits of a class, with single underscores between them. -/
def isDigits (p : Char → Bool) : List Char → Bool
  | [] => false
  | [c] => p c
  | c :: '_' :: cs => p c && isDigits p cs
  | c :: cs => p c && isDigits p cs

/-- A text without a sign in front. -/
def dropSign : List Char → List Char
  | '+' :: cs => cs
  | '-' :: cs => cs
  | cs => cs

/-- A text with a minus sign in front. -/
def isNegative (cs : List Char) : Bool := cs.head? = some '-'

/-- Digits without a superfluous zero in front. -/
def isWhole (cs : List Char) : Bool :=
  isDigits Char.isDigit cs && !(cs.head? = some '0' && cs.length > 1)

/-- A text without its underscores. -/
def dropUnderscores (cs : List Char) : List Char := cs.filter (· != '_')

/-- The number that digits of a base stand for, underscores left out. -/
def digitsIn (base : Nat) (cs : List Char) : Nat :=
  (dropUnderscores cs).foldl
    (fun n c => n * base + (if c.isDigit then c.toNat - 48 else c.toLower.toNat - 87)) 0

/-- A number fits 64 bits with a sign. -/
def fitsInt64 (negative : Bool) (n : Nat) : Bool :=
  if negative then n ≤ Nat.pow 2 63 else n < Nat.pow 2 63

/-- A hexadecimal digit. -/
def isHexDigit (c : Char) : Bool :=
  c.isDigit || ('a' ≤ c && c ≤ 'f') || ('A' ≤ c && c ≤ 'F')

/-- An integer. -/
def isInteger (cs : List Char) : Bool :=
  match cs with
  | '0' :: 'x' :: ds => isDigits isHexDigit ds && fitsInt64 false (digitsIn 16 ds)
  | '0' :: 'o' :: ds => isDigits (fun c => '0' ≤ c && c ≤ '7') ds && fitsInt64 false (digitsIn 8 ds)
  | '0' :: 'b' :: ds => isDigits (fun c => c == '0' || c == '1') ds && fitsInt64 false (digitsIn 2 ds)
  | _ => isWhole (dropSign cs) && fitsInt64 (isNegative cs) (digitsIn 10 (dropSign cs))

/-- A text before the first character of a class, and the text behind that character, if there is
one. -/
def splitFirst (p : Char → Bool) (cs : List Char) : List Char × Option (List Char) :=
  (cs.takeWhile (!p ·),
    match cs.dropWhile (!p ·) with
    | [] => none
    | _ :: rest => some rest)

/-- The number that digits with a sign in front stand for. -/
def signedValue (cs : List Char) : Int :=
  if isNegative cs then -(digitsIn 10 (dropSign cs) : Int) else digitsIn 10 (dropSign cs)

/-- A decimal with the given whole and fractional digits and exponent rounds to infinity.  The place
of its first digit decides unless that is the last one that doubles have. -/
def overflows (whole fraction : List Char) (exponent : Int) : Bool :=
  let digits := (dropUnderscores (whole ++ fraction)).dropWhile (· == '0')
  let power := exponent - (dropUnderscores fraction).length
  let places := digits.length + power
  if digits.isEmpty || places ≤ Double.maxPower then false
  else if Double.maxPower + 1 < places then true
  else
    !(Double.ofRatio (digitsValue digits * Nat.pow 10 power.toNat)
      (Nat.pow 10 (-power).toNat)).isFinite

/-- A number with a fraction or an exponent. -/
def isFloat (cs : List Char) : Bool :=
  let body := dropSign cs
  if body = ['i', 'n', 'f'] || body = ['n', 'a', 'n'] then true
  else
    let (mantissa, exponent) := splitFirst (fun c => c == 'e' || c == 'E') body
    let (whole, fraction) := splitFirst (· == '.') mantissa
    isWhole whole && (fraction.isSome || exponent.isSome) &&
      (fraction.map (isDigits Char.isDigit)).getD true &&
      (exponent.map fun e => isDigits Char.isDigit (dropSign e)).getD true &&
      (isNegative cs || !overflows whole (fraction.getD []) (signedValue (exponent.getD [])))

/-- A number. -/
def isNumber (cs : List Char) : Bool := isInteger cs || isFloat cs

/-! ## Dates and times -/

/-- A number of exactly `width` digits. -/
def fixedNumber? (width : Nat) (cs : List Char) : Option Nat :=
  if cs.length = width && cs.all Char.isDigit then some (digitsValue cs) else none

/-- A date.  The length of the month does not count. -/
def isDate (cs : List Char) : Bool :=
  match cs with
  | [a, b, c, d, '-', e, f, '-', g, h] =>
    match fixedNumber? 4 [a, b, c, d], fixedNumber? 2 [e, f], fixedNumber? 2 [g, h] with
    | some _, some month, some day => 1 ≤ month && month ≤ 12 && 1 ≤ day && day ≤ 31
    | _, _, _ => false
  | _ => false

/-- A two-digit number up to `max`. -/
def isTwoDigits (max : Nat) (a b : Char) : Bool :=
  match fixedNumber? 2 [a, b] with
  | some n => n ≤ max
  | none => false

/-- The text behind a time, if there is a time in front. -/
def afterTime? (cs : List Char) : Option (List Char) :=
  match cs with
  | a :: b :: ':' :: c :: d :: ':' :: e :: f :: rest =>
    if isTwoDigits 23 a b && isTwoDigits 59 c d && isTwoDigits 60 e f then
      match rest with
      | '.' :: g :: more => if g.isDigit then some (more.dropWhile Char.isDigit) else none
      | '.' :: [] => none
      | _ => some rest
    else none
  | _ => none

/-- A time. -/
def isTime (cs : List Char) : Bool := afterTime? cs = some []

/-- The distance of a time from universal time. -/
def isOffset (cs : List Char) : Bool :=
  match cs with
  | ['Z'] => true
  | ['z'] => true
  | [sign, a, b, ':', c, d] => (sign == '+' || sign == '-') && isTwoDigits 23 a b && isTwoDigits 59 c d
  | _ => false

/-- A time, which may have an offset. -/
def isOffsetTime (cs : List Char) : Bool :=
  match afterTime? cs with
  | some rest => rest.isEmpty || isOffset rest
  | none => false

/-- A date, a time, or both with a letter between them. -/
def isMoment (cs : List Char) : Bool :=
  isDate cs || isTime cs ||
    (isDate (cs.take 10) && ((cs.drop 10).head? = some 'T' || (cs.drop 10).head? = some 't') &&
      isOffsetTime (cs.drop 11))

end Toml

end GoScribe
