import GoScribe.Ast.Tree

/-!
# Parentheses

Whether a node needs parentheses depends on what it is an operand of.  An operator inside another is
always put in parentheses, except in a chain of one associative operator.
-/

namespace GoScribe

/-- What a node is an operand of. -/
inductive Parent where
  /-- No operator binds the node. -/
  | none
  | unary (op : UnaryOp)
  | binary (op : BinaryOp)
  /-- The node is called. -/
  | callee
deriving DecidableEq, Repr

/-- A node has to be put in parentheses as an operand of `parent`.  A negative number does behind a
minus sign, where two signs would read as one token. -/
def Node.needsParens (parent : Parent) : Node → Bool
  | .op1 .. => parent ≠ .none
  | .op2 op _ _ =>
    match parent with
    | .none => false
    | .unary _ | .callee => true
    | .binary parentOp => parentOp ≠ op || !op.isAssociative
  | .litInt value => parent = .unary .neg && value < 0
  | .litNum value => parent = .unary .neg && value.isFinite && value.isNegative
  | _ => false

end GoScribe
