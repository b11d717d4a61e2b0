import Midend.Ident
import Midend.Literal
import Midend.Operator
import Midend.Ty

/-!
# Instructions

An instruction is a value of its function: it has a name, a type, a flag that says whether it is
known at compile time, and an operation. Operations name the values they read and the blocks they
mention.

* `Op.operands` lists the values an operation reads, in order; `Op.mapOperands` renames them.
* `Op.blockRefs` lists the blocks it mentions; `Op.mapBlocks` renames them.
* `Op.targets` lists the blocks that control can go to next, each once.
-/

namespace Midend

/-- One pair of a phi: the value that it takes when control comes from the given block. -/
structure Incoming where
  /-- The block that control comes from. -/
  block : BlockId
  /-- The value taken then. -/
  value : ValueId
deriving DecidableEq, Repr, Inhabited

/-- What an instruction does. -/
inductive Op where
  /-- A constant. -/
  | const (c : Literal)
  /-- The storage of a named variable; the value is a pointer to it. -/
  | slot (name : String)
  /-- Reads from memory. -/
  | load (ptr : ValueId)
  /-- Writes to memory. -/
  | store (ptr value : ValueId)
  /-- An operation on two values. -/
  | binary (op : BinaryOp) (lhs rhs : ValueId)
  /-- An operation on one value. -/
  | unary (op : UnaryOp) (operand : ValueId)
  /-- A call of a function by name. -/
  | call (callee : String) (args : List ValueId)
  /-- Goes to one of two blocks, as a condition says. -/
  | branch (condition : ValueId) (onTrue onFalse : BlockId)
  /-- Goes to a block. -/
  | jump (target : BlockId)
  /-- Leaves the function. -/
  | ret (value : Option ValueId)
  /-- Storage on the stack for a value of the given type; the value is a pointer to it. -/
  | alloca (allocated : Ty)
  /-- Converts a value to the type of the instruction. -/
  | convert (operand : ValueId)
  /-- Takes the value that belongs to the block that control came from. -/
  | phi (incoming : List Incoming)
deriving DecidableEq, Repr, Inhabited

namespace Op

/-- Whether the operation ends a block. -/
def isTerminator : Op → Bool
  | .branch .. | .jump _ | .ret _ => true
  | _ => false

/-- Whether the operation is a phi. -/
def isPhi : Op → Bool
  | .phi _ => true
  | _ => false

/-- Whether the operation chooses between two blocks. -/
def isBranch : Op → Bool
  | .branch .. => true
  | _ => false

/-- The values that the operation reads, in order. -/
def operands : Op → List ValueId
  | .const _ | .slot _ | .alloca _ | .jump _ => []
  | .load p => [p]
  | .store p v => [p, v]
  | .binary _ a b => [a, b]
  | .unary _ a | .convert a => [a]
  | .call _ args => args
  | .branch c _ _ => [c]
  | .ret v => v.toList
  | .phi incoming => incoming.map (·.value)

/-- The blocks that control can go to next, each once. -/
def targets : Op → List BlockId
  | .jump t => [t]
  | .branch _ t e => if t = e then [t] else [t, e]
  | _ => []

/-- The blocks that the operation mentions: where it goes to, or where a phi expects control to
come from. -/
def blockRefs : Op → List BlockId
  | .phi incoming => incoming.map (·.block)
  | op => op.targets

/-- The short name of the kind of operation. -/
def opcode : Op → String
  | .const _ => "const"
  | .slot _ => "local"
  | .load _ => "load"
  | .store .. => "store"
  | .binary .. => "binary"
  | .unary .. => "unary"
  | .call .. => "call"
  | .branch .. => "br"
  | .jump _ => "jmp"
  | .ret _ => "ret"
  | .alloca _ => "alloca"
  | .convert _ => "convert"
  | .phi _ => "phi"

/-- Renames the values that the operation reads. -/
def mapOperands (g : ValueId → ValueId) : Op → Op
  | .load p => .load (g p)
  | .store p v => .store (g p) (g v)
  | .binary op a b => .binary op (g a) (g b)
  | .unary op a => .unary op (g a)
  | .call callee args => .call callee (args.map g)
  | .branch c t e => .branch (g c) t e
  | .ret v => .ret (v.map g)
  | .convert a => .convert (g a)
  | .phi incoming => .phi (incoming.map fun i => { i with value := g i.value })
  | op => op

/-- Renames the blocks that the operation mentions. -/
def mapBlocks (g : BlockId → BlockId) : Op → Op
  | .branch c t e => .branch c (g t) (g e)
  | .jump t => .jump (g t)
  | .phi incoming => .phi (incoming.map fun i => { i with block := g i.block })
  | op => op

@[simp] theorem operands_mapOperands (g : ValueId → ValueId) (op : Op) :
    (op.mapOperands g).operands = op.operands.map g := by
  cases op <;> simp [mapOperands, operands]
  case ret v => cases v <;> rfl

@[simp] theorem blockRefs_mapOperands (g : ValueId → ValueId) (op : Op) :
    (op.mapOperands g).blockRefs = op.blockRefs := by
  cases op <;> simp [mapOperands, blockRefs, targets]

@[simp] theorem targets_mapOperands (g : ValueId → ValueId) (op : Op) :
    (op.mapOperands g).targets = op.targets := by
  cases op <;> simp [mapOperands, targets]

@[simp] theorem isTerminator_mapOperands (g : ValueId → ValueId) (op : Op) :
    (op.mapOperands g).isTerminator = op.isTerminator := by
  cases op <;> rfl

@[simp] theorem isPhi_mapOperands (g : ValueId → ValueId) (op : Op) :
    (op.mapOperands g).isPhi = op.isPhi := by
  cases op <;> rfl

@[simp] theorem operands_mapBlocks (g : BlockId → BlockId) (op : Op) :
    (op.mapBlocks g).operands = op.operands := by
  cases op <;> simp [mapBlocks, operands]

@[simp] theorem isTerminator_mapBlocks (g : BlockId → BlockId) (op : Op) :
    (op.mapBlocks g).isTerminator = op.isTerminator := by
  cases op <;> rfl

@[simp] theorem isPhi_mapBlocks (g : BlockId → BlockId) (op : Op) :
    (op.mapBlocks g).isPhi = op.isPhi := by
  cases op <;> rfl

end Op

/-- An instruction of a block, which is also a value of its function. -/
structure Inst where
  /-- The name of the value. -/
  id : ValueId
  /-- The type of the value. -/
  ty : Ty
  /-- Whether the value is known at compile time. -/
  comptime : Bool
  /-- What the instruction does. -/
  op : Op
deriving DecidableEq, Repr, Inhabited

namespace Inst

/-- Whether the instruction ends a block. -/
def isTerminator (i : Inst) : Bool := i.op.isTerminator

/-- Whether the instruction is a phi. -/
def isPhi (i : Inst) : Bool := i.op.isPhi

/-- Renames the values that the instruction reads. -/
def mapOperands (g : ValueId → ValueId) (i : Inst) : Inst := { i with op := i.op.mapOperands g }

/-- Renames the blocks that the instruction mentions. -/
def mapBlocks (g : BlockId → BlockId) (i : Inst) : Inst := { i with op := i.op.mapBlocks g }

/-- Adds a pair to a phi, which stays known at compile time only if the new value is. -/
def addIncoming (i : Inst) (pair : Incoming) (comptime : Bool) : Inst :=
  match i.op with
  | .phi incoming => { i with op := .phi (incoming ++ [pair]), comptime := i.comptime && comptime }
  | _ => i

/-- Drops the pairs of a phi that belong to the given block. -/
def dropIncoming (i : Inst) (pred : BlockId) : Inst :=
  match i.op with
  | .phi incoming => { i with op := .phi (incoming.filter (·.block ≠ pred)) }
  | _ => i

/-- The number of pairs of a phi that belong to the given block. -/
def countIncoming (i : Inst) (pred : BlockId) : Nat :=
  match i.op with
  | .phi incoming => incoming.countP (·.block = pred)
  | _ => 0

end Inst

end Midend
