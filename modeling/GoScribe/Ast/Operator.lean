/-!
# Operators

The unary and binary operators of Go expressions, with the text that each is written as.
-/

namespace GoScribe

/-- A Go operator in front of one operand. -/
inductive UnaryOp where
  | not
  | neg
  | plus
  | complement
  | deref
  | addressOf
deriving DecidableEq, Repr

/-- A Go operator between two operands. -/
inductive BinaryOp where
  | add
  | sub
  | mul
  | div
  | rem
  | and
  | or
  | bitAnd
  | bitOr
  | bitXor
  | bitClear
  | shl
  | shr
  | eq
  | ne
  | lt
  | le
  | gt
  | ge
deriving DecidableEq, Repr

namespace UnaryOp

/-- The text of a unary operator. -/
def symbol : UnaryOp → String
  | .not => "!"
  | .neg => "-"
  | .plus => "+"
  | .complement => "^"
  | .deref => "*"
  | .addressOf => "&"

/-- Every unary operator. -/
def all : List UnaryOp :=
  [.not, .neg, .plus, .complement, .deref, .addressOf]

/-- The unary operator written as `s`. -/
def ofSymbol? (s : String) : Option UnaryOp :=
  all.find? (·.symbol == s)

end UnaryOp

namespace BinaryOp

/-- The text of a binary operator. -/
def symbol : BinaryOp → String
  | .add => "+"
  | .sub => "-"
  | .mul => "*"
  | .div => "/"
  | .rem => "%"
  | .and => "&&"
  | .or => "||"
  | .bitAnd => "&"
  | .bitOr => "|"
  | .bitXor => "^"
  | .bitClear => "&^"
  | .shl => "<<"
  | .shr => ">>"
  | .eq => "=="
  | .ne => "!="
  | .lt => "<"
  | .le => "<="
  | .gt => ">"
  | .ge => ">="

/-- Every binary operator. -/
def all : List BinaryOp :=
  [.add, .sub, .mul, .div, .rem, .and, .or, .bitAnd, .bitOr, .bitXor, .bitClear, .shl, .shr,
    .eq, .ne, .lt, .le, .gt, .ge]

/-- The binary operator written as `s`. -/
def ofSymbol? (s : String) : Option BinaryOp :=
  all.find? (·.symbol == s)

/-- The operators whose chains mean the same however they are grouped, so that a chain of one of
them is written without parentheses. -/
def isAssociative : BinaryOp → Bool
  | .add | .mul | .and | .bitAnd | .or | .bitOr => true
  | _ => false

end BinaryOp

end GoScribe
