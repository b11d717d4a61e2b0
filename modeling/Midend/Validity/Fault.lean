import Midend.Inst

/-!
# Faults

What can be wrong with a function, where, and how it is reported.
-/

namespace Midend

/-- What is wrong. -/
inductive Fault where
  | duplicateFunction (name : String)
  | emptyFunctionName
  | missingEntry
  | entryHasPredecessors
  | emptyLabel
  | duplicateLabel (label : String)
  | duplicateValueId
  | terminatorNotLast
  | phiNotAtHead
  | unknownOperand (value : ValueId)
  | unknownBlockRef (block : BlockId)
  | emptyCallee
  | emptySlotName
  | successorMismatch (expected actual : List BlockId)
  | asymmetricEdge (src dst : BlockId)
  | emptyPhi
  | phiArity (incoming predecessors : Nat)
  | incomingNotPredecessor (block : BlockId)
  | duplicateIncoming (block : BlockId)
  | missingIncoming (block : BlockId)
  | incomingTypeMismatch (value : ValueId) (expected found : Ty)
  | comptimeMismatch
deriving DecidableEq, Repr

/-- A list of block names with brackets around it and around each number. -/
def blockList (bs : List BlockId) : String :=
  "[" ++ ", ".intercalate (bs.map fun b => s!"BlockId({b.index})") ++ "]"

/-- The wording of a fault. -/
def Fault.text : Fault → String
  | .duplicateFunction n => s!"duplicate function name '{n}'"
  | .emptyFunctionName => "function has an empty name"
  | .missingEntry => "function has blocks but no entry block"
  | .entryHasPredecessors => "entry block has predecessors"
  | .emptyLabel => "block has an empty label"
  | .duplicateLabel l => s!"duplicate block label '{l}'"
  | .duplicateValueId => "value id used more than once"
  | .terminatorNotLast => "terminator is not the last instruction"
  | .phiNotAtHead => "phi follows a non-phi instruction"
  | .unknownOperand v => s!"operand {v.text} does not resolve in this function"
  | .unknownBlockRef b => s!"block reference {b.text} does not resolve in this function"
  | .emptyCallee => "call has an empty callee name"
  | .emptySlotName => "local has an empty name"
  | .successorMismatch expected actual =>
    s!"successors {blockList actual} do not match terminator targets {blockList expected}"
  | .asymmetricEdge a b => s!"edge {a.text} -> {b.text} is not mirrored on both blocks"
  | .emptyPhi => "phi has no incoming values"
  | .phiArity n m => s!"phi has {n} incoming values but the block has {m} predecessors"
  | .incomingNotPredecessor b => s!"phi incoming block {b.text} is not a predecessor"
  | .duplicateIncoming b => s!"phi names incoming block {b.text} more than once"
  | .missingIncoming b => s!"predecessor {b.text} has no phi incoming value"
  | .incomingTypeMismatch v expected found =>
    s!"phi incoming {v.text} has type {found.text}, expected {expected.text}"
  | .comptimeMismatch => "comptime flag does not match operands"

/-- A fault and where it was found. -/
structure Violation where
  /-- The name of the function. -/
  function : String
  /-- The block that the fault concerns. -/
  block : Option BlockId
  /-- The value that the fault concerns. -/
  value : Option ValueId
  /-- What is wrong. -/
  fault : Fault
deriving DecidableEq, Repr

/-- The place and the wording of a violation. -/
def Violation.text (v : Violation) : String :=
  let block := (v.block.map fun b => ":" ++ b.text).getD ""
  let value := (v.value.map fun i => ":" ++ i.text).getD ""
  v.function ++ block ++ value ++ ": " ++ v.fault.text

/-- All violations that an examination found, in the order in which it found them. -/
structure Report where
  /-- The violations in order. -/
  violations : List Violation
deriving DecidableEq, Repr

namespace Report

/-- Whether nothing is wrong. -/
def isValid (r : Report) : Bool := r.violations.isEmpty

/-- Whether some fault satisfies a test. -/
def has (r : Report) (p : Fault → Bool) : Bool := r.violations.any fun v => p v.fault

/-- One line for each violation. -/
def text (r : Report) : String :=
  if r.isValid then "valid" else String.join (r.violations.map fun v => v.text ++ "\n")

end Report

end Midend
