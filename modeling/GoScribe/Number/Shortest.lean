import GoScribe.Number.Double

/-!
# Shortest decimal texts

The decimal text of a finite double has the fewest significant digits that still read back as that
double, and among those it is the nearest to the exact value.  It is written positionally, never with
an exponent.

All comparisons are made in exact arithmetic: a double and the two ends of the interval of reals that
round to it are multiples of `2 ^ -1076`.
-/

namespace GoScribe

/-- A decimal number `0.d₁d₂… · 10 ^ point`. -/
structure Decimal where
  digits : List Char
  point : Int
deriving DecidableEq, Repr

namespace Double

/-- The reals that round to a double, in units of `2 ^ -1076`. -/
structure RoundingInterval where
  low : Nat
  value : Nat
  high : Nat
  /-- The ends belong to the interval. -/
  closed : Bool

/-- The rounding interval of the absolute value of a finite double.  The gap below a power of two is
half the gap above it. -/
def roundingInterval (d : Double) : RoundingInterval :=
  let s := d.significand
  let unit := Nat.pow 2 d.exponent
  let below := if s = Nat.pow 2 52 && 0 < d.exponent then 1 else 2
  { low := (4 * s - below) * unit
    value := 4 * s * unit
    high := (4 * s + 2) * unit
    closed := s % 2 = 0 }

/-- `n / den` lies in the interval, where `den` counts units. -/
def RoundingInterval.contains (i : RoundingInterval) (n den : Nat) : Bool :=
  if i.closed then i.low * den ≤ n && n ≤ i.high * den
  else i.low * den < n && n < i.high * den

/-- Ten to an integer power, as a quotient. -/
def powerOfTen (e : Int) : Nat × Nat :=
  (Nat.pow 10 e.toNat, Nat.pow 10 (-e).toNat)

/-- The least exponent `e` for which a positive double is below `10 ^ e`. -/
def decimalPoint (d : Double) : Int :=
  let value := (roundingInterval d).value
  let estimate := ((value.log2 : Int) - 1076) * 30103 / 100000
  let (num, den) := powerOfTen (estimate + 1)
  if value * den < num * Nat.pow 2 1076 then estimate + 1 else estimate + 2

/-- The multiple of `10 ^ (point - count)` that is nearest to the double among its two neighbours on
that grid, provided it lies in the interval; a tie goes to the larger. -/
def digitsOnGrid? (i : RoundingInterval) (point : Int) (count : Nat) : Option Nat :=
  let (num, den) := powerOfTen (point - count)
  let unit := num * Nat.pow 2 1076
  let value := i.value * den
  let lower := value / unit
  let below := i.contains (lower * unit) den
  let above := i.contains ((lower + 1) * unit) den
  if below && above then
    if 2 * (value % unit) < unit then some lower else some (lower + 1)
  else if below then some lower
  else if above then some (lower + 1)
  else none

/-- The digits of the shortest grid from `count` digits on that meets the interval; at most `more`
grids are tried. -/
def shortestFrom (i : RoundingInterval) (point : Int) (count : Nat) : Nat → Nat × Nat
  | 0 => (count, (digitsOnGrid? i point count).getD 0)
  | more + 1 =>
    match digitsOnGrid? i point count with
    | some n => (count, n)
    | none => shortestFrom i point (count + 1) more

/-- Digits without the zeros at their end. -/
def dropTrailingZeros (digits : List Char) : List Char :=
  (digits.reverse.dropWhile (· == '0')).reverse

/-- The shortest decimal that reads back as the absolute value of a finite double. -/
def shortest (d : Double) : Decimal :=
  if d.isZero then { digits := ['0'], point := 1 }
  else
    let point := decimalPoint d
    let (count, n) := shortestFrom (roundingInterval d) point 1 16
    let digits := Nat.toDigits 10 n
    { digits := dropTrailingZeros digits, point := point + digits.length - count }

end Double

/-- A decimal in positional notation. -/
def Decimal.positional (d : Decimal) : List Char :=
  if d.point ≤ 0 then '0' :: '.' :: (List.replicate (-d.point).toNat '0' ++ d.digits)
  else
    let whole := d.digits.take d.point.toNat
    let fraction := d.digits.drop d.point.toNat
    let zeros := List.replicate (d.point.toNat - d.digits.length) '0'
    if fraction.isEmpty then whole ++ zeros
    else whole ++ '.' :: fraction

/-- The Go literal of a finite double: always with a decimal point, never with an exponent. -/
def Double.literal (d : Double) : List Char :=
  let digits := d.shortest.positional
  let text := if digits.contains '.' then digits else digits ++ ['.', '0']
  if d.isNegative then '-' :: text else text

end GoScribe
