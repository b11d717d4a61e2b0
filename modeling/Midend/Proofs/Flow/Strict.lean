import Midend.Proofs.Flow.Bypass
import Midend.Proofs.Func.Checking

/-!
# Checking whether a function is strict

Strictness is checked over the arena, at each place of each block in reach (`strict_iff`).
-/

namespace Midend

/-- The elements of a list, each with those before it. -/
def places {α : Type} : List α → List (List α × α)
  | [] => []
  | a :: l => ([], a) :: (places l).map fun p => (a :: p.1, p.2)

theorem mem_places {α : Type} {l front : List α} {a : α} :
    (front, a) ∈ places l ↔ ∃ back, l = front ++ a :: back := by
  induction l generalizing front with
  | nil => simp [places]
  | cons x l ih =>
    rw [places, List.mem_cons, List.mem_map]
    constructor
    · rintro (hEq | ⟨⟨front', a'⟩, hMem, hEq⟩)
      · obtain ⟨rfl, rfl⟩ := Prod.mk.inj hEq
        exact ⟨l, rfl⟩
      · obtain ⟨rfl, rfl⟩ := Prod.mk.inj hEq
        obtain ⟨back, rfl⟩ := ih.mp hMem
        exact ⟨back, rfl⟩
    · rintro ⟨back, hEq⟩
      cases front with
      | nil =>
        obtain ⟨rfl, rfl⟩ := List.cons.inj hEq
        exact .inl rfl
      | cons y front =>
        obtain ⟨rfl, rfl⟩ := List.cons.inj hEq
        exact .inr ⟨(front, a), ih.mpr ⟨back, rfl⟩, rfl⟩

/-- The pairs of an operation: those of a phi. -/
def Op.incoming : Op → List Incoming
  | .phi incoming => incoming
  | _ => []

theorem Op.mem_incoming {op : Op} {p : Incoming} :
    p ∈ op.incoming ↔ ∃ incoming, op = .phi incoming ∧ p ∈ incoming := by
  cases op <;> simp [Op.incoming]

namespace Func

variable {f : Func} {b d : BlockId} {v : ValueId}

instance (f : Func) (v : ValueId) (b : BlockId) : Decidable (f.DefinedIn v b) :=
  inferInstanceAs (Decidable (∃ blk ∈ f.block? b, ∃ i ∈ blk.insts, i.id = v))

theorem mem_keys_of_definedIn (h : f.DefinedIn v d) : d ∈ f.arena.keys := by
  obtain ⟨blk, hBlk, -⟩ := h
  exact mem_keys_iff.mpr ⟨blk, hBlk⟩

/-- What the instructions of a list read comes before them, or in a block on every way to theirs. -/
def OperandsDefined (f : Func) (b : BlockId) (l : List Inst) : Prop :=
  ∀ p ∈ places l, p.2.isPhi = false → ∀ v ∈ p.2.op.operands,
    (∃ j ∈ p.1, j.id = v) ∨ ∃ d ∈ f.arena.keys, d ≠ b ∧ f.Guards d b ∧ f.DefinedIn v d

/-- What the phis of a list take from a block comes on every way to the end of it. -/
def IncomingDefined (f : Func) (l : List Inst) : Prop :=
  ∀ i ∈ l, ∀ p ∈ i.op.incoming, f.Live p.block →
    ∃ d ∈ f.arena.keys, f.Guards d p.block ∧ f.DefinedIn p.value d

instance (f : Func) (b : BlockId) (l : List Inst) : Decidable (f.OperandsDefined b l) := by
  unfold OperandsDefined
  infer_instance

instance (f : Func) (l : List Inst) : Decidable (f.IncomingDefined l) := by
  unfold IncomingDefined
  infer_instance

theorem strict_iff : f.Strict ↔
    (∀ i ∈ f.insts, ∀ v ∈ i.op.operands, ∀ j ∈ f.insts, j.id = v → j.isTerminator = false) ∧
    ∀ b ∈ f.arena.keys, ∀ blk ∈ f.block? b, f.Live b →
      f.OperandsDefined b blk.insts ∧ f.IncomingDefined blk.insts := by
  constructor
  · intro h
    refine ⟨h.operand_isValue, fun b _ blk hBlk hb => ⟨fun ⟨earlier, i⟩ hp hPhi v hv => ?_, ?_⟩⟩
    · obtain ⟨later, hSplit⟩ := mem_places.mp hp
      refine (h.operand_defined b blk hb hBlk earlier i later hSplit hPhi v hv).imp_right ?_
      rintro ⟨d, hne, hd, hDef⟩
      exact ⟨d, mem_keys_of_definedIn hDef, hne, hd, hDef⟩
    · intro i hi p hp hLive
      obtain ⟨incoming, hOp, hp⟩ := Op.mem_incoming.mp hp
      obtain ⟨d, hd, hDef⟩ := h.incoming_defined b blk hb hBlk i hi incoming hOp p hp hLive
      exact ⟨d, mem_keys_of_definedIn hDef, hd, hDef⟩
  · rintro ⟨hValue, hBlock⟩
    have hEach := fun b blk (hb : f.Live b) (hBlk : f.block? b = some blk) =>
      hBlock b (mem_keys_iff.mpr ⟨blk, hBlk⟩) blk hBlk hb
    refine ⟨hValue, fun b blk hb hBlk earlier i later hSplit hPhi v hv => ?_, ?_⟩
    · have hPlace := mem_places.mpr ⟨later, hSplit⟩
      refine ((hEach b blk hb hBlk).1 (earlier, i) hPlace hPhi v hv).imp_right ?_
      rintro ⟨d, -, hd⟩
      exact ⟨d, hd⟩
    · intro b blk hb hBlk i hi incoming hOp p hp hLive
      obtain ⟨d, -, hd⟩ := (hEach b blk hb hBlk).2 i hi p (Op.mem_incoming.mpr ⟨incoming, hOp, hp⟩) hLive
      exact ⟨d, hd⟩

instance (f : Func) : Decidable f.Strict := decidable_of_iff _ strict_iff.symm

end Func

end Midend
