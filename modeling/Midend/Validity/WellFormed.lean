import Midend.Func.Consistent

/-!
# Well-formed functions

What a function has to satisfy, said of its parts and without going through them in any order.

* `Func.FlagRight`: the compile-time flag of an instruction agrees with its operands.
* `Block.Ordered`: phis first, one terminator at the end at most.
* `Func.WellFormed`: the whole.
-/

namespace Midend

namespace Func

/-- The compile-time flag of an instruction agrees with its operands. A phi may be known less than
its operands are. -/
def FlagRight (f : Func) (i : Inst) : Prop :=
  match i.op with
  | .const _ => i.comptime = true
  | .binary .. | .unary .. | .call .. | .convert _ =>
    i.comptime = true ↔ ∀ v ∈ i.op.operands, f.isComptime v
  | .phi _ => i.comptime = true → ∀ v ∈ i.op.operands, f.isComptime v
  | _ => i.comptime = false

end Func

/-- The phis of a block form its head, and only its last instruction may be a terminator. -/
structure Block.Ordered (b : Block) : Prop where
  phis_lead : ∀ earlier i later, b.insts = earlier ++ i :: later → i.isPhi →
    ∀ j ∈ earlier, j.isPhi
  terminator_last : ∀ earlier i later, b.insts = earlier ++ i :: later → i.isTerminator →
    later = []

namespace Func

/-- A phi of a block has one pair for each predecessor, and the values have its type. -/
structure PhiRight (f : Func) (b : Block) (i : Inst) (incoming : List Incoming) : Prop where
  ne_nil : incoming ≠ []
  perm_preds : (incoming.map (·.block)).Perm b.preds.toList
  ty_eq : ∀ p ∈ incoming, ∀ ty, f.tyOf? p.value = some ty → ty = i.ty

/-- An instruction of a block mentions what the function has, and is what it should be. -/
structure InstRight (f : Func) (b : Block) (i : Inst) : Prop where
  operand_mem : ∀ v ∈ i.op.operands, f.hasValue v
  blockRef_mem : ∀ a ∈ i.op.blockRefs, f.hasBlock a
  callee_ne : ∀ args, i.op ≠ .call "" args
  slot_ne : i.op ≠ .slot ""
  phi : ∀ incoming, i.op = .phi incoming → f.PhiRight b i incoming
  flag : f.FlagRight i

/-- A block is in order, and its edges are those of its terminator. -/
structure BlockRight (f : Func) (b : Block) : Prop where
  label_ne : b.label ≠ ""
  ordered : b.Ordered
  mem_succs : ∀ s, s ∈ b.succs ↔ ∃ i, b.insts.getLast? = some i ∧ s ∈ i.op.targets
  inst : ∀ i ∈ b.insts, f.InstRight b i

/-- A function is in order: it has a name and, if it has blocks, one where control enters and
nothing leads to, labels and names that tell blocks and values apart, edges recorded on both sides,
and blocks in order. -/
structure WellFormed (f : Func) : Prop where
  name_ne : f.name ≠ ""
  entry : f.layout ≠ [] → ∃ e blk, f.entry = some e ∧ f.block? e = some blk ∧ blk.preds = ∅
  labels_nodup : (f.blocks.map (·.label)).Nodup
  values_nodup : (f.insts.map (·.id)).Nodup
  mirrored : f.Mirrored
  block : ∀ b ∈ f.blocks, f.BlockRight b

end Func

end Midend
