import Midend.Flow.Order

/-!
# Strict functions

In a strict function every value is computed before it is read, whichever way control takes. For
a phi that means: before control leaves the block that the value belongs to.

Only the blocks that control can reach count. Paths are those of the recorded edges, so strictness
does not depend on how dominance is computed.
-/

namespace Midend

namespace Func

/-- Control can reach the block from the entry. -/
def Live (f : Func) (b : BlockId) : Prop := ∃ e, f.entry = some e ∧ f.flow.Reaches e b

/-- Control cannot reach the second block from the entry without going through the first. -/
def Guards (f : Func) (d b : BlockId) : Prop :=
  ∀ e, f.entry = some e → f.flow.Dominates e d b

/-- The block holds the value. -/
def DefinedIn (f : Func) (v : ValueId) (b : BlockId) : Prop :=
  ∃ blk, f.block? b = some blk ∧ ∃ i ∈ blk.insts, i.id = v

/-- Every value is computed before it is read. -/
structure Strict (f : Func) : Prop where
  /-- No instruction reads a terminator. -/
  operand_isValue : ∀ i ∈ f.insts, ∀ v ∈ i.op.operands, ∀ j ∈ f.insts, j.id = v →
    j.isTerminator = false
  /-- What an instruction reads comes before it in its block or in a block on every way to it. -/
  operand_defined : ∀ b blk, f.Live b → f.block? b = some blk →
    ∀ earlier i later, blk.insts = earlier ++ i :: later → i.isPhi = false →
      ∀ v ∈ i.op.operands,
        (∃ j ∈ earlier, j.id = v) ∨ ∃ d, d ≠ b ∧ f.Guards d b ∧ f.DefinedIn v d
  /-- The value that a phi takes from a block comes in a block on every way to the end of it. -/
  incoming_defined : ∀ b blk, f.Live b → f.block? b = some blk →
    ∀ i ∈ blk.insts, ∀ incoming, i.op = .phi incoming → ∀ p ∈ incoming, f.Live p.block →
      ∃ d, f.Guards d p.block ∧ f.DefinedIn p.value d

end Func

end Midend
