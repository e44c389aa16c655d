/-!
# Double-precision numbers

A double is kept as its 64 bits, so that it can be told apart and reasoned about exactly.  A finite
double is `± significand · 2 ^ (exponent - 1074)`; rounding a quotient of natural numbers to the
nearest double is done in exact arithmetic.
-/

namespace GoScribe

/-- A number of the binary64 format, given by its bits. -/
structure Double where
  bits : UInt64
deriving DecidableEq, Repr

namespace Double

/-- The bits of positive infinity. -/
def infinityBits : Nat := 2047 * Nat.pow 2 52

/-- The bits without the sign. -/
def magnitude (d : Double) : Nat := d.bits.toNat % Nat.pow 2 63

/-- The sign bit is set. -/
def isNegative (d : Double) : Bool := Nat.pow 2 63 ≤ d.bits.toNat

/-- The double is neither infinite nor a NaN. -/
def isFinite (d : Double) : Bool := d.magnitude < infinityBits

/-- The double is not a number. -/
def isNaN (d : Double) : Bool := infinityBits < d.magnitude

/-- The double is one of the two zeros. -/
def isZero (d : Double) : Bool := d.magnitude == 0

/-- Equality of the numbers: the zeros are equal, and a NaN equals nothing. -/
def sameNumber (a b : Double) : Bool :=
  !a.isNaN && !b.isNaN && (a.bits == b.bits || (a.isZero && b.isZero))

/-- The double of the given magnitude bits and sign. -/
def ofMagnitude (negative : Bool) (magnitude : Nat) : Double :=
  ⟨UInt64.ofNat (if negative then Nat.pow 2 63 + magnitude else magnitude)⟩

/-- The exponent of a finite double, counted from that of the smallest positive double. -/
def exponent (d : Double) : Nat := d.magnitude / Nat.pow 2 52 - 1

/-- The significand of a finite double. -/
def significand (d : Double) : Nat :=
  if d.magnitude / Nat.pow 2 52 = 0 then d.magnitude
  else d.magnitude % Nat.pow 2 52 + Nat.pow 2 52

/-- The absolute value of a finite double, as a quotient. -/
def ratio (d : Double) : Nat × Nat :=
  (d.significand * Nat.pow 2 d.exponent, Nat.pow 2 1074)

/-! ## Rounding -/

/-- The quotient `num / den` rounded to the nearest integer, a half to the even neighbour. -/
def roundHalfEven (num den : Nat) : Nat :=
  let q := num / den
  let r := num % den
  if 2 * r < den then q
  else if den < 2 * r then q + 1
  else if q % 2 = 0 then q else q + 1

/-- The magnitude bits of the double nearest to `num / den`, infinite when it is out of range. -/
def roundMagnitude (num den : Nat) : Nat :=
  let scaled := num * Nat.pow 2 1074
  let exponent := (scaled / den).log2 - 52
  min infinityBits (exponent * Nat.pow 2 52 + roundHalfEven scaled (den * Nat.pow 2 exponent))

/-- The double nearest to `num / den`. -/
def ofRatio (num den : Nat) : Double :=
  ofMagnitude false (roundMagnitude num den)

/-- The double nearest to a natural number. -/
def ofNat (n : Nat) : Double := ofRatio n 1

/-- The product of two non-negative finite doubles, rounded. -/
def mul (a b : Double) : Double :=
  ofRatio (a.ratio.1 * b.ratio.1) (a.ratio.2 * b.ratio.2)

/-- The quotient of two non-negative finite doubles, rounded. -/
def div (a b : Double) : Double :=
  ofRatio (a.ratio.1 * b.ratio.2) (a.ratio.2 * b.ratio.1)

/-- The double of opposite sign. -/
def negate (d : Double) : Double :=
  ofMagnitude (!d.isNegative) d.magnitude

end Double

end GoScribe
