import GoScribe.Number.Double

/-!
# JSON values

A JSON text is read into a tree.  Some well-formed texts stand for no value: a string with half of a
surrogate pair, a number out of range.  They are kept as `unreadable`, so that a reader of the tree
can pass over them where it takes no interest in them.
-/

namespace GoScribe

/-- A JSON value. -/
inductive Json where
  | null
  | bool (value : Bool)
  /-- A number without fraction and exponent that fits 64 bits, signed if it is negative. -/
  | int (value : Int)
  /-- Any other number. -/
  | float (value : Double)
  | str (value : String)
  | arr (elems : List Json)
  /-- The members in order, repeated keys included. -/
  | obj (members : List (String × Json))
  /-- A well-formed text without a value. -/
  | unreadable

namespace Json

mutual

/-- Equality of values, numbers compared as numbers. -/
def same : Json → Json → Bool
  | null, null => true
  | bool a, bool b => a == b
  | int a, int b => a == b
  | float a, float b => a.sameNumber b
  | str a, str b => a == b
  | arr xs, arr ys => sameElems xs ys
  | obj xs, obj ys => sameMembers xs ys
  | _, _ => false

/-- Equality of lists of values. -/
def sameElems : List Json → List Json → Bool
  | [], [] => true
  | x :: xs, y :: ys => same x y && sameElems xs ys
  | _, _ => false

/-- Equality of lists of members. -/
def sameMembers : List (String × Json) → List (String × Json) → Bool
  | [], [] => true
  | (k, x) :: xs, (l, y) :: ys => k == l && same x y && sameMembers xs ys
  | _, _ => false

end

end Json

end GoScribe
