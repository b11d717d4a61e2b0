import Midend.Proofs.Func.Checking
import Midend.Proofs.Func.Construction
import Midend.Shape.Request

/-!
# Requests that are refused

A request to build or to revise a function checks what it is given. If it is refused, the function
is left as it was, with its edges and the names that are free (`Outcome.Atomic`). All but one check
before they do anything. Exchanging a terminator takes the old one away first, since the new one
must not read it; when the new one is refused the old one is put back with its edges. That gives the
function back only if the edges were recorded before (`Recorded`), because a target that was not
recorded would be recorded then.

* `replaceTerminator_cases_of_last`: what exchanging a terminator comes to.
* `refused_requests_undone`: no request that is refused changes anything, and what changes when a
  terminator is exchanged.
-/

namespace Midend

/-- A request that is refused leaves the state as it was. -/
def Outcome.Atomic {σ α : Type} (o : Outcome σ α) (s : σ) : Prop :=
  ∀ e, o.answer = .error e → o.state = s

namespace Outcome

variable {σ α : Type}

theorem atomic_ok (a : α) (s t : σ) : (ok a t).Atomic s := by
  intro e h
  cases h

theorem atomic_fail (e : Error) (s : σ) : (fail e s : Outcome σ α).Atomic s := fun _ _ => rfl

end Outcome

namespace Func

variable {f g : Func} {b c x : BlockId} {old : Inst} {front : List Inst} {op : Op}

/-! ## Requests that check first -/

theorem createBlock_atomic (f : Func) (label : String) : (f.createBlock label).Atomic f := by
  unfold createBlock
  split
  · exact Outcome.atomic_fail _ f
  · exact Outcome.atomic_ok _ f _

theorem append_atomic (f : Func) (b : BlockId) (ty : Ty) (op : Op) : (f.append b ty op).Atomic f := by
  unfold append
  split
  · exact Outcome.atomic_fail _ f
  · exact Outcome.atomic_ok _ f _

theorem addIncoming_atomic (f : Func) (phi : ValueId) (pred : BlockId) (value : ValueId) :
    (f.addIncoming phi pred value).Atomic f := by
  unfold addIncoming
  split
  · exact Outcome.atomic_fail _ f
  split
  · exact Outcome.atomic_fail _ f
  split
  · exact Outcome.atomic_fail _ f
  · exact Outcome.atomic_ok _ f _

theorem replaceBlocks_atomic (f : Func) (removed : List BlockId) (blk : Block) :
    (f.replaceBlocks removed blk).Atomic f := by
  unfold replaceBlocks
  split
  · exact Outcome.atomic_fail _ f
  · exact Outcome.atomic_ok _ f _

/-! ## Terminators -/

/-- The targets of the terminator at the end of a block are recorded as blocks that it leads to. -/
def Recorded (f : Func) : Prop :=
  ∀ b blk, f.block? b = some blk → ∀ c ∈ blk.targets, c ∈ blk.succs

instance (f : Func) : Decidable f.Recorded := decidable_of_iff _ forall_block_iff.symm

theorem Recorded.mem_succs (hr : f.Recorded) (hCode : f.code b = front ++ [old])
    (hOld : old.isTerminator = true) (hc : c ∈ old.op.targets) : c ∈ f.succs b := by
  obtain ⟨blk, hBlk, -⟩ := mem_code_iff.mp (by simp [hCode] : old ∈ f.code b)
  refine mem_succs_iff.mpr ⟨blk, hBlk, hr b blk hBlk c ?_⟩
  rw [Block.targets, terminator?_of_code hBlk hCode hOld]
  exact hc

theorem Recorded.of_last (h : ∀ b front old, f.code b = front ++ [old] → old.isTerminator = true →
    ∀ c ∈ old.op.targets, c ∈ f.succs b) : f.Recorded := by
  intro b blk hBlk c hc
  rw [Block.targets] at hc
  cases hLast : blk.terminator? with
  | none =>
    rw [hLast] at hc
    exact absurd hc List.not_mem_nil
  | some old =>
    rw [hLast] at hc
    obtain ⟨front, hCode, hOld⟩ :=
      code_of_terminator? (Option.bind_eq_some_iff.mpr ⟨blk, hBlk, hLast⟩)
    obtain ⟨blk', hBlk', hMem⟩ := mem_succs_iff.mp (h b front old hCode hOld c hc)
    rwa [Option.some.inj (hBlk.symm.trans hBlk')]

/-- Exchanging a terminator is refused at once; or the block is left without its old terminator, and
then the new one is appended, or that is refused and the old one is put back. -/
theorem replaceTerminator_cases_of_last (f : Func) (b : BlockId) (ty : Ty) (op : Op) :
    (∃ e, f.replaceTerminator b ty op = .fail e f) ∨
      ∃ front old, f.code b = front ++ [old] ∧ old.isTerminator = true ∧ op.isTerminator = true ∧
        ((f.dropTerminator b old).Accepts b op ∧ f.replaceTerminator b ty op =
            .ok ⟨f.ids.nextValue⟩ ((f.dropTerminator b old).addInst b ty op) ∨
          ∃ e, f.replaceTerminator b ty op =
            .fail e ((f.dropTerminator b old).restoreTerminator b old)) := by
  cases hOp : op.isTerminator with
  | false =>
    left
    rw [replaceTerminator, hOp]
    exact ⟨_, rfl⟩
  | true =>
  rw [replaceTerminator, hOp]
  cases hBlk : f.block? b with
  | none => exact .inl ⟨_, rfl⟩
  | some blk =>
  cases hLast : blk.terminator? with
  | none =>
    left
    simp only [hLast]
    exact ⟨_, rfl⟩
  | some old =>
    obtain ⟨front, hCode, hOld⟩ :=
      code_of_terminator? (Option.bind_eq_some_iff.mpr ⟨blk, hBlk, hLast⟩)
    obtain ⟨-, hIds, -⟩ := dropTerminator_spec hCode
    refine .inr ⟨front, old, hCode, hOld, rfl, ?_⟩
    simp only [hLast, append]
    cases hRefuse : (f.dropTerminator b old).refuseAppend? b op with
    | some e => exact .inr ⟨e, rfl⟩
    | none =>
      refine .inl ⟨accepts_of_refuseAppend? hRefuse, ?_⟩
      rw [← hIds]
      rfl

theorem replaceTerminator_atomic (hf : f.Mirrored) (hr : f.Recorded) (b : BlockId) (ty : Ty)
    (op : Op) : (f.replaceTerminator b ty op).Atomic f := by
  rcases replaceTerminator_cases_of_last f b ty op with
    ⟨e, hEq⟩ | ⟨front, old, hCode, hOld, -, ⟨-, hEq⟩ | ⟨e, hEq⟩⟩
  · rw [hEq]
    exact Outcome.atomic_fail e f
  · rw [hEq]
    exact Outcome.atomic_ok _ f _
  · rw [hEq, restoreTerminator_dropTerminator hf hCode fun c => hr.mem_succs hCode hOld]
    exact Outcome.atomic_fail e f

/-- A block has a new terminator for its old one. The edges to the targets of the old one are gone,
those to the targets of the new one are there; the blocks, the code of the others and the edges that
leave them have stayed. -/
structure Retargeted (f : Func) (b : BlockId) (front : List Inst) (old new : Inst) (g : Func) :
    Prop where
  frame : SameFrame f g
  code_before : f.code b = front ++ [old]
  old_terminator : old.isTerminator = true
  code_self : g.code b = front ++ [new]
  code_of_ne : ∀ x, x ≠ b → g.code x = f.code x
  mem_succs_self : ∀ c, c ∈ g.succs b ↔ (c ∈ f.succs b ∧ c ∉ old.op.targets) ∨ c ∈ new.op.targets
  mem_succs_of_ne : ∀ x, x ≠ b → ∀ c, c ∈ g.succs x ↔ c ∈ f.succs x
  mirrored : g.Mirrored

theorem replaceTerminator_retargeted {ty : Ty} {v : ValueId} (hf : f.Mirrored)
    (h : (f.replaceTerminator b ty op).answer = .ok v) :
    ∃ front old, Retargeted f b front old ⟨v, ty, false, op⟩ (f.replaceTerminator b ty op).state := by
  rcases replaceTerminator_cases_of_last f b ty op with
    ⟨e, hEq⟩ | ⟨front, old, hCode, hOld, hOp, ⟨hAccepts, hEq⟩ | ⟨e, hEq⟩⟩
  · rw [hEq] at h
    cases h
  swap
  · rw [hEq] at h
    cases h
  rw [hEq] at h
  obtain rfl := Except.ok.inj h
  obtain ⟨hDrop, hIds, hSelf, hOther, hLeft⟩ := dropTerminator_spec hCode
  have hTargets : ∀ c ∈ op.targets, (f.dropTerminator b old).hasBlock c = true := by
    intro c hc
    exact hAccepts.blockRefs c ((blockRefs_of_isTerminator hOp).symm ▸ hc)
  obtain ⟨hAdd, -, hSelf', hOther', hLeft'⟩ := addInst_terminator ty hOp hAccepts.hasBlock hTargets
  rw [hEq]
  have hFrame := hDrop.trans hAdd
  refine ⟨front, old, hFrame, hCode, hOld, ?_, ?_, ?_, ?_, hFrame.mirrored hf⟩
  · rw [Outcome.state_ok, hSelf', hSelf, hIds]
  · intro x hx
    rw [Outcome.state_ok, hOther' x hx, hOther x hx]
  · intro c
    rw [Outcome.state_ok, hLeft', hLeft]
    simp
  · intro x hx c
    rw [Outcome.state_ok, hLeft', hLeft]
    simp [hx]

/-! ## All requests -/

/-- **A request that is refused changes nothing.** Whatever a consistent function whose terminators
have their edges is asked for, and with whatever arguments, it is the same function afterwards if the
request is refused. If a terminator is exchanged, the block leads to where it led to but for the
targets of the old terminator, and to the targets of the new one; edges stay recorded on both sides,
and the code of the other blocks stays. -/
theorem refused_requests_undone (f : Func) (hf : f.Consistent) (hr : f.Recorded) :
    (∀ label, (f.createBlock label).Atomic f) ∧
    (∀ b ty op, (f.append b ty op).Atomic f) ∧
    (∀ phi pred v, (f.addIncoming phi pred v).Atomic f) ∧
    (∀ b ty op, (f.replaceTerminator b ty op).Atomic f) ∧
    (∀ removed blk, (f.replaceBlocks removed blk).Atomic f) ∧
    ∀ b ty op v, (f.replaceTerminator b ty op).answer = .ok v →
      ∃ front old, Retargeted f b front old ⟨v, ty, false, op⟩ (f.replaceTerminator b ty op).state :=
  ⟨createBlock_atomic f, append_atomic f, addIncoming_atomic f,
    replaceTerminator_atomic hf.mirrored hr, replaceBlocks_atomic f,
    fun _ _ _ _ => replaceTerminator_retargeted hf.mirrored⟩

/-- A block that leads to itself, as long as `%1` says so, and then to the end. -/
def revolving : Func :=
  [.createBlock "entry", .createBlock "turn", .createBlock "exit", .append ⟨0⟩ .void (.jump ⟨1⟩),
    .append ⟨1⟩ .bool (.const (.bool true)), .append ⟨1⟩ .void (.branch ⟨1⟩ ⟨1⟩ ⟨2⟩),
    .append ⟨2⟩ .void (.ret none)].foldl build (.empty "revolving" .void)

/-- A terminator that reads the one that it is to replace is refused, and the edge of the block to
itself is there again. -/
theorem revolving_requests_undone :
    (revolving.replaceTerminator ⟨1⟩ .void (.branch ⟨2⟩ ⟨1⟩ ⟨2⟩)).answer =
        .error (.unknownValue ⟨2⟩) ∧
      (revolving.replaceTerminator ⟨1⟩ .void (.branch ⟨2⟩ ⟨1⟩ ⟨2⟩)).state = revolving ∧
      (revolving.replaceTerminator ⟨1⟩ .void (.jump ⟨0⟩)).answer = .ok ⟨4⟩ ∧
      (revolving.replaceTerminator ⟨1⟩ .void (.jump ⟨0⟩)).state.Mirrored := by
  obtain ⟨-, -, -, hAtomic, -, hGranted⟩ :=
    refused_requests_undone revolving (by decide +kernel) (by decide +kernel)
  have hRefused : (revolving.replaceTerminator ⟨1⟩ .void (.branch ⟨2⟩ ⟨1⟩ ⟨2⟩)).answer =
      .error (.unknownValue ⟨2⟩) := by decide +kernel
  have hOk : (revolving.replaceTerminator ⟨1⟩ .void (.jump ⟨0⟩)).answer = .ok ⟨4⟩ := by
    decide +kernel
  obtain ⟨front, old, hRetargeted⟩ := hGranted _ _ _ _ hOk
  exact ⟨hRefused, hAtomic _ _ _ _ hRefused, hOk, hRetargeted.mirrored⟩

end Func

end Midend
