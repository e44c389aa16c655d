import GoScribe.Number.Double

/-!
# Reading decimal numbers

A decimal text gives the digits of its significand and a power of ten.  As many leading digits as fit
64 bits are kept; their number is rounded to a double, which is then scaled by one rounded power of
ten.
-/

namespace GoScribe

/-- The value of a decimal digit. -/
def digitValue (c : Char) : Nat := c.toNat - 48

/-- The number that a string of decimal digits stands for. -/
def digitsValue (digits : List Char) : Nat :=
  digits.foldl (fun n c => n * 10 + digitValue c) 0

namespace Double

/-- Ten to a power, rounded. -/
def tenTo (e : Nat) : Double := ofNat (Nat.pow 10 e)

/-- The greatest power of ten that is a finite double. -/
def maxPower : Nat := 308

/-- A non-negative double divided by ten to the power `e`, in steps of the greatest power. -/
def unscale (d : Double) (e : Nat) : Double :=
  if e ≤ maxPower then d.div (tenTo e)
  else if d.isZero then d
  else unscale (d.div (tenTo maxPower)) (e - maxPower)
termination_by e
decreasing_by simp [maxPower] at *; omega

/-- A non-negative double times ten to the power `e`; `none` if it is out of range. -/
def scale (d : Double) (e : Nat) : Option Double :=
  if d.isZero then some d
  else if e ≤ maxPower then
    let scaled := d.mul (tenTo e)
    if scaled.isFinite then some scaled else none
  else none

/-- The digits that are kept of a significand: each further one as long as the number so far fits 64
bits.  The second component counts the digits that are left out. -/
def keepDigits (start : Nat) : List Char → Nat × Nat
  | [] => (start, 0)
  | c :: cs =>
    let next := start * 10 + digitValue c
    if next < UInt64.size then keepDigits next cs else (start, (c :: cs).length)

/-- The double that a decimal with the given whole and fractional digits and exponent is read as;
`none` if it is out of range. -/
def ofDecimal? (negative : Bool) (whole fraction : List Char) (exponent : Int) : Option Double :=
  let (n, dropped) := keepDigits 0 whole
  let (m, unread) := keepDigits n fraction
  let e : Int := exponent + dropped - (fraction.length - unread : Nat)
  let d := if 0 ≤ e then scale (ofNat m) e.toNat else some (unscale (ofNat m) (-e).toNat)
  if negative then d.map negate else d

end Double

end GoScribe
