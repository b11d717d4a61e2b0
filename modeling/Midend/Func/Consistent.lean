import Midend.Func.Edges

/-!
# Consistent functions

A function is consistent if its parts agree with each other: the layout lists the arena, blocks
bear their own names, labels tell blocks apart, edges are recorded on both sides, the entry is
there, values have different names, and no name that is still to be handed out is in use.

Nothing is said about the instructions themselves. A function without blocks is consistent; one read
from data need not be.

* `Func.Mirrored`: every edge is recorded on both sides; `Func.addEdge` and `Func.removeEdge` keep
  it.
* `Func.Consistent`: all of the above.
-/

namespace Midend

namespace Func

/-- Every edge is recorded on both sides. A block that the function does not have records nothing,
so both ends of an edge are blocks of the function. -/
def Mirrored (f : Func) : Prop := ∀ a b, b ∈ f.succs a ↔ a ∈ f.preds b

theorem Mirrored.addEdge {f : Func} (h : f.Mirrored) (a b : BlockId) : (f.addEdge a b).Mirrored := by
  intro x y
  rw [mem_succs_addEdge, mem_preds_addEdge, h x y]
  grind

theorem Mirrored.removeEdge {f : Func} (h : f.Mirrored) (a b : BlockId) :
    (f.removeEdge a b).Mirrored := by
  intro x y
  rw [mem_succs_removeEdge, mem_preds_removeEdge, ← h x y]
  grind

/-- The parts of a function agree with each other. -/
structure Consistent (f : Func) : Prop where
  /-- The layout lists no block twice. -/
  layout_nodup : f.layout.Nodup
  /-- The layout lists the blocks of the arena. -/
  mem_layout : ∀ b, b ∈ f.layout ↔ f.hasBlock b
  /-- Every block bears the name under which it is kept. -/
  id_eq : ∀ b blk, f.block? b = some blk → blk.id = b
  /-- Every block has a label. -/
  label_ne : ∀ b blk, f.block? b = some blk → blk.label ≠ ""
  /-- Different blocks have different labels. -/
  label_inj : ∀ a b blk blk', f.block? a = some blk → f.block? b = some blk' →
    blk.label = blk'.label → a = b
  /-- Every edge is recorded on both sides. -/
  mirrored : f.Mirrored
  /-- The entry is a block of the function. -/
  entry_mem : ∀ e, f.entry = some e → f.hasBlock e
  /-- Only a function without blocks has no entry. -/
  entry_none : f.entry = none → f.layout = []
  /-- Different instructions have different names. -/
  values_nodup : (f.insts.map (·.id)).Nodup
  /-- The names of blocks have been handed out. -/
  block_lt : ∀ b, f.hasBlock b → b.index < f.ids.nextBlock
  /-- The names of values have been handed out. -/
  value_lt : ∀ i ∈ f.insts, i.id.index < f.ids.nextValue

theorem Consistent.empty (name : String) (returnTy : Ty) : (empty name returnTy).Consistent where
  layout_nodup := List.nodup_nil
  mem_layout _ := ⟨fun h => absurd h List.not_mem_nil, fun h => nomatch h⟩
  id_eq _ _ h := nomatch h
  label_ne _ _ h := nomatch h
  label_inj _ _ _ _ h := nomatch h
  mirrored _ _ :=
    ⟨fun h => absurd h (SortedSet.not_mem_empty _), fun h => absurd h (SortedSet.not_mem_empty _)⟩
  entry_mem _ h := nomatch h
  entry_none _ := rfl
  values_nodup := List.nodup_nil
  block_lt _ h := nomatch h
  value_lt _ h := absurd h List.not_mem_nil

end Func

end Midend
