import Midend.Inst
import Midend.Sorted.Set

/-!
# Basic blocks

A block is a list of instructions with a label, and a record of the blocks that control can come
from and go to. In a finished block the phis come first and one terminator comes last; a block
under construction may have no terminator yet.
-/

namespace Midend

/-- A set of block names. -/
abbrev BlockSet := SortedSet BlockId

/-- A list of instructions with one way in and one way out. -/
structure Block where
  /-- The name of the block. -/
  id : BlockId
  /-- The label under which the block is listed. -/
  label : String
  /-- The instructions in order. -/
  insts : List Inst := []
  /-- The blocks that control can come from. -/
  preds : BlockSet := ∅
  /-- The blocks that control can go to. -/
  succs : BlockSet := ∅
deriving DecidableEq, Inhabited

namespace Block

/-- The last instruction, if it is a terminator. -/
def terminator? (b : Block) : Option Inst := b.insts.getLast?.filter (·.isTerminator)

/-- Whether the last instruction is a terminator. -/
def hasTerminator (b : Block) : Bool := b.terminator?.isSome

/-- The instructions without the terminator at the end. -/
def body (b : Block) : List Inst := if b.hasTerminator then b.insts.dropLast else b.insts

/-- The phis of the block. -/
def phis (b : Block) : List Inst := b.insts.filter (·.isPhi)

/-- Whether the block has a phi. -/
def hasPhi (b : Block) : Bool := b.insts.any (·.isPhi)

/-- The first instruction of the given name. -/
def value? (b : Block) (v : ValueId) : Option Inst := b.insts.find? (·.id = v)

/-- Whether some instruction mentions the given block. -/
def mentions (b : Block) (other : BlockId) : Bool := b.insts.any (other ∈ ·.op.blockRefs)

/-- The blocks that the terminator can go to. -/
def targets (b : Block) : List BlockId := (b.terminator?.map (·.op.targets)).getD []

/-- Adds an instruction: a phi after the phis at the head, any other at the end. -/
def place (b : Block) (i : Inst) : Block :=
  if i.isPhi then
    { b with insts := b.insts.takeWhile (·.isPhi) ++ i :: b.insts.dropWhile (·.isPhi) }
  else { b with insts := b.insts ++ [i] }

/-- Changes the first of the listed instructions that has the given name. -/
def updateFirst (v : ValueId) (g : Inst → Inst) : List Inst → List Inst
  | [] => []
  | i :: l => if i.id = v then g i :: l else i :: updateFirst v g l

/-- Changes the first instruction of the given name. -/
def update (b : Block) (v : ValueId) (g : Inst → Inst) : Block :=
  { b with insts := updateFirst v g b.insts }

/-- Removes the first instruction of the given name. -/
def erase (b : Block) (v : ValueId) : Block := { b with insts := b.insts.eraseP (·.id = v) }

/-- Changes every instruction. -/
def mapInsts (b : Block) (g : Inst → Inst) : Block := { b with insts := b.insts.map g }

end Block

end Midend
