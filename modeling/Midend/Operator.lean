/-!
# Operators

The two-operand and one-operand operations of arithmetic, bits and comparison.
-/

namespace Midend

/-- An operation on two values. -/
inductive BinaryOp where
  | add | sub | mul | div | rem
  | and | or | xor | shl | shr
  | eq | ne | lt | le | gt | ge
deriving DecidableEq, Repr, Inhabited

/-- An operation on one value: negation, logical complement, bitwise complement. -/
inductive UnaryOp where
  | neg | not | bitNot
deriving DecidableEq, Repr, Inhabited

/-- A comparison gives a truth value whatever the type of its operands. -/
def BinaryOp.isComparison : BinaryOp → Bool
  | .eq | .ne | .lt | .le | .gt | .ge => true
  | _ => false

/-- The written form of an operation on two values. -/
def BinaryOp.text : BinaryOp → String
  | .add => "add"
  | .sub => "sub"
  | .mul => "mul"
  | .div => "div"
  | .rem => "rem"
  | .and => "and"
  | .or => "or"
  | .xor => "xor"
  | .shl => "shl"
  | .shr => "shr"
  | .eq => "eq"
  | .ne => "ne"
  | .lt => "lt"
  | .le => "le"
  | .gt => "gt"
  | .ge => "ge"

/-- The written form of an operation on one value. -/
def UnaryOp.text : UnaryOp → String
  | .neg => "neg"
  | .not => "not"
  | .bitNot => "bitnot"

end Midend
