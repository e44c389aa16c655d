/-!
# Indentation

Where a node stands: inside a line, or on lines of its own at some depth.
-/

namespace GoScribe

/-- The place of a node in the layout. -/
inductive Indent where
  /-- Inside a line: no tabs in front, no line end behind. -/
  | inline
  /-- On lines of its own, `depth` tabs in. -/
  | level (depth : Nat)
deriving DecidableEq, Repr

namespace Indent

/-- The outermost statement position. -/
def top : Indent := level 0

/-- The place is a statement position. -/
def isStatement : Indent → Bool
  | inline => false
  | level _ => true

/-- How many tabs a line that starts here begins with. -/
def tabs : Indent → Nat
  | inline => 0
  | level n => n

/-- The statement position one tab further in. -/
def deeper (i : Indent) : Indent :=
  level (i.tabs + 1)

end Indent

end GoScribe
