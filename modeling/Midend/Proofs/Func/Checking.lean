import Mathlib.Data.List.Nodup
import Midend.Func.Consistent

/-!
# Checking whether a function is consistent

Whatever is said of every block or of every edge can be checked over the arena, so it can be decided
whether edges are recorded on both sides (`mirrored_iff`) and whether a function is consistent
(`consistent_iff`).
-/

namespace Midend

namespace Func

variable {f : Func} {a b : BlockId}

theorem mem_keys_iff : b ∈ f.arena.keys ↔ ∃ blk, f.block? b = some blk := SortedMap.mem_keys_iff

theorem hasBlock_iff_mem_keys : f.hasBlock b = true ↔ b ∈ f.arena.keys := by
  rw [mem_keys_iff, hasBlock_eq_isSome, Option.isSome_iff_exists]

theorem forall_block_iff {P : BlockId → Block → Prop} :
    (∀ b blk, f.block? b = some blk → P b blk) ↔
      ∀ b ∈ f.arena.keys, ∀ blk ∈ f.block? b, P b blk :=
  ⟨fun h b _ blk hBlk => h b blk hBlk,
    fun h b blk hBlk => h b (mem_keys_iff.mpr ⟨blk, hBlk⟩) blk hBlk⟩

theorem mem_keys_of_mem_succs (h : b ∈ f.succs a) : a ∈ f.arena.keys := by
  obtain ⟨blk, hBlk, -⟩ := mem_succs_iff.mp h
  exact mem_keys_iff.mpr ⟨blk, hBlk⟩

theorem mem_keys_of_mem_preds (h : a ∈ f.preds b) : b ∈ f.arena.keys := by
  obtain ⟨blk, hBlk, -⟩ := mem_preds_iff.mp h
  exact mem_keys_iff.mpr ⟨blk, hBlk⟩

theorem mirrored_iff : f.Mirrored ↔
    (∀ a ∈ f.arena.keys, ∀ b ∈ (f.succs a).toList, a ∈ f.preds b) ∧
      ∀ b ∈ f.arena.keys, ∀ a ∈ (f.preds b).toList, b ∈ f.succs a := by
  constructor
  · exact fun h => ⟨fun a _ b edge => (h a b).mp edge, fun b _ a edge => (h a b).mpr edge⟩
  · rintro ⟨hLeave, hEnter⟩ a b
    exact ⟨fun edge => hLeave a (mem_keys_of_mem_succs edge) b edge,
      fun edge => hEnter b (mem_keys_of_mem_preds edge) a edge⟩

instance (f : Func) : Decidable f.Mirrored := decidable_of_iff _ mirrored_iff.symm

theorem consistent_iff : f.Consistent ↔
    (f.layout.Nodup ∧ (∀ b ∈ f.layout, b ∈ f.arena.keys) ∧ ∀ b ∈ f.arena.keys, b ∈ f.layout) ∧
    (∀ b ∈ f.arena.keys, ∀ blk ∈ f.block? b, blk.id = b ∧ blk.label ≠ "" ∧
      b.index < f.ids.nextBlock ∧
        ∀ a ∈ f.arena.keys, ∀ blk' ∈ f.block? a, blk'.label = blk.label → a = b) ∧
    f.Mirrored ∧
    ((∀ e ∈ f.entry, e ∈ f.arena.keys) ∧ (f.entry = none → f.layout = [])) ∧
    (f.insts.map (·.id)).Nodup ∧ ∀ i ∈ f.insts, i.id.index < f.ids.nextValue := by
  constructor
  · intro h
    refine ⟨⟨h.layout_nodup, fun b hb => ?_, fun b hb => ?_⟩, fun b hb blk hBlk => ?_, h.mirrored,
      ⟨fun e he => hasBlock_iff_mem_keys.mp (h.entry_mem e he), h.entry_none⟩, h.values_nodup, h.value_lt⟩
    · exact hasBlock_iff_mem_keys.mp ((h.mem_layout b).mp hb)
    · exact (h.mem_layout b).mpr (hasBlock_iff_mem_keys.mpr hb)
    · exact ⟨h.id_eq b blk hBlk, h.label_ne b blk hBlk, h.block_lt b (hasBlock_iff_mem_keys.mpr hb),
        fun a _ blk' hBlk' => h.label_inj a b blk' blk hBlk' hBlk⟩
  · rintro ⟨⟨hNodup, hSub, hSup⟩, hBlock, hMirrored, ⟨hEntry, hNone⟩, hValues, hLt⟩
    have hEach := forall_block_iff.mpr hBlock
    refine ⟨hNodup, fun b => ⟨fun hb => ?_, fun hb => ?_⟩, fun b blk hBlk => (hEach b blk hBlk).1,
      fun b blk hBlk => (hEach b blk hBlk).2.1, fun a b blk blk' hBlk hBlk' hEq => ?_, hMirrored,
      fun e he => hasBlock_iff_mem_keys.mpr (hEntry e he), hNone, hValues, fun b hb => ?_, hLt⟩
    · exact hasBlock_iff_mem_keys.mpr (hSub b hb)
    · exact hSup b (hasBlock_iff_mem_keys.mp hb)
    · exact (hEach b blk' hBlk').2.2.2 a (mem_keys_iff.mpr ⟨blk, hBlk⟩) blk hBlk hEq
    · obtain ⟨blk, hBlk⟩ := mem_keys_iff.mp (hasBlock_iff_mem_keys.mp hb)
      exact (hEach b blk hBlk).2.2.1

instance (f : Func) : Decidable f.Consistent := decidable_of_iff _ consistent_iff.symm

end Func

end Midend
