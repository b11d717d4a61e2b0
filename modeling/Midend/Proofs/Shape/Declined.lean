import Midend.Proofs.Func.Refusal
import Midend.Proofs.Shape.Split
import Midend.Proofs.Validity.Regular
import Midend.Shape.Merge
import Midend.Shape.Thread

/-!
# Changes of shape that are declined

Merging two blocks, threading a jump and splitting an edge are declined where they cannot be done.
Blocks are merged and jumps are threaded by a single request, and if that is refused nothing has
changed. An edge is split by several: a block is added for it and gets a jump before the terminator
at the start of the edge is exchanged. If that terminator is refused, because it reads a value that
is not there, the block is removed again. The code, the edges and the layout are those from before;
but the names of the block and of its jump have been taken, and they are not given back
(`Attached.removeBlock`).

* `declined_unchanged_iff`: what is declined leaves the function alone, unless it is the splitting
  of a critical edge that a terminator stands for; then two names are gone.
-/

namespace Midend

namespace Func

variable {f g : Func} {a b c s x : BlockId}

/-! ## A block that comes and goes -/

/-- The second function has one block more than the first, at the end of its layout, and edges at
it; other names may be free. -/
structure Attached (f : Func) (s : BlockId) (g : Func) : Prop where
  new : f.hasBlock s = false
  there : g.hasBlock s = true
  bare_of_ne : ∀ x, x ≠ s → (g.block? x).map Block.bare = (f.block? x).map Block.bare
  name_eq : g.name = f.name
  returnTy_eq : g.returnTy = f.returnTy
  params_eq : g.params = f.params
  layout_eq : g.layout = f.layout ++ [s]
  entry_eq : g.entry = f.entry
  mem_succs_of_ne : ∀ x c, x ≠ s → c ≠ s → (c ∈ g.succs x ↔ c ∈ f.succs x)
  mirrored : g.Mirrored

/-- Removing such a block leaves nothing of it but the names that were taken for it. -/
theorem Attached.removeBlock (h : Attached f s g) (hf : f.Arranged) :
    (g.removeBlock s).2 = { f with ids := g.ids } := by
  have hEntry : g.entry ≠ some s := by
    intro hEq
    have hs := hf.entry_mem s (h.entry_eq ▸ hEq)
    rw [h.new] at hs
    cases hs
  have hShrunk := removeBlock_shrunk h.mirrored h.there hEntry
  have hDisc := SameCode.disconnect g s
  have hSame : SameCode { f with ids := g.ids } (g.removeBlock s).2 := by
    constructor
    · intro x
      rw [Func.removeBlock, if_pos h.there]
      refine (congrArg (·.map Block.bare) (block?_detach g s x)).trans ?_
      by_cases hx : x = s
      · have hNone : f.block? s = none := by
          rw [← Option.isNone_iff_eq_none, ← Option.isSome_eq_false_iff]
          exact h.new
        rw [if_pos hx, hx]
        exact congrArg (·.map Block.bare) hNone.symm
      · rw [if_neg hx, hDisc.bare_eq]
        exact h.bare_of_ne x hx
    · rw [hShrunk.name_eq]
      exact h.name_eq
    · rw [Func.removeBlock, if_pos h.there]
      exact hDisc.returnTy_eq.trans h.returnTy_eq
    · rw [Func.removeBlock, if_pos h.there]
      exact hDisc.params_eq.trans h.params_eq
    · have hStay : ∀ x ∈ f.layout, decide (x ≠ s) = true := by
        intro x hx
        refine decide_eq_true fun hEq => ?_
        rw [hf.mem_layout, hEq, h.new] at hx
        cases hx
      rw [hShrunk.layout_eq, h.layout_eq, List.filter_append, List.filter_eq_self.mpr hStay]
      simp
    · rw [hShrunk.entry_eq]
      exact h.entry_eq
    · rw [hShrunk.ids_eq]
  refine hSame.eq_of_mem_succs hf.mirrored (hShrunk.mirrored h.mirrored) fun x c => ?_
  rw [hShrunk.mem_succs, decide_eq_true_iff, decide_eq_true_iff]
  constructor
  · rintro ⟨hc, hx, hcs⟩
    exact (h.mem_succs_of_ne x c hx hcs).mp hc
  · intro hc
    have hx : x ≠ s := fun hEq => not_mem_succs_of_not_hasBlock h.new c (hEq ▸ hc)
    have hcs : c ≠ s := fun hEq => hf.mirrored.not_mem_succs_of_not_hasBlock h.new x (hEq ▸ hc)
    exact ⟨(h.mem_succs_of_ne x c hx hcs).mpr hc, hx, hcs⟩

theorem addInst_addBlock_attached (hf : f.Arranged) (hEntry : f.entry ≠ none) (label : String)
    (ty : Ty) (op : Op) :
    Attached f ⟨f.ids.nextBlock⟩ ((f.addBlock label).addInst ⟨f.ids.nextBlock⟩ ty op) := by
  have hNew := hf.not_hasBlock_next
  have hGrown := addBlock_grown f label hNew
  have hThere : (f.addBlock label).hasBlock ⟨f.ids.nextBlock⟩ = true :=
    (hGrown.hasBlock_iff _).mpr (.inl rfl)
  have hApp := addInst_appended hThere ty op
  obtain ⟨e, he⟩ := Option.ne_none_iff_exists'.mp hEntry
  -- the instruction first, without its edges
  generalize hMid : { (f.addBlock label).modifyBlock ⟨f.ids.nextBlock⟩
    (·.place ((f.addBlock label).newInst ty op)) with
      ids := (f.addBlock label).ids.takeValue.2 } = mid
  have hSame : SameCode mid ((f.addBlock label).addInst ⟨f.ids.nextBlock⟩ ty op) := by
    rw [← hMid]
    exact SameCode.addEdges _ _ op.targets
  constructor
  · exact hNew
  · rw [hApp.frame.hasBlock_eq, hThere]
  · intro x hx
    rw [hSame.bare_eq, ← hMid]
    exact congrArg (·.map Block.bare) ((block?_modifyBlock_of_ne (f.addBlock label) _ hx).trans
      ((f.block?_addBlock label x).trans (if_neg hx)))
  · rw [hSame.name_eq, ← hMid]
    rfl
  · rw [hSame.returnTy_eq, ← hMid]
    rfl
  · rw [hSame.params_eq, ← hMid]
    rfl
  · rw [hApp.frame.layout_eq, hGrown.layout_eq]
  · rw [hApp.frame.entry_eq, hGrown.entry_eq, he]
    rfl
  · intro x c hx hc
    rw [hApp.mem_succs, hGrown.mem_succs]
    simp [hx]
  · exact hApp.frame.mirrored (hGrown.mirrored hf.mirrored)

theorem ids_addInst_addBlock (f : Func) (label : String) (ty : Ty) (op : Op) :
    ((f.addBlock label).addInst ⟨f.ids.nextBlock⟩ ty op).ids =
      ⟨f.ids.nextBlock + 1, f.ids.nextValue + 1⟩ :=
  (SameCode.addEdges _ _ op.targets).ids_eq

theorem Recorded.addInst_addBlock (hr : f.Recorded) (hf : f.Arranged) (label : String) (ty : Ty)
    {op : Op} (hTargets : ∀ c ∈ op.targets, f.hasBlock c = true) :
    ((f.addBlock label).addInst ⟨f.ids.nextBlock⟩ ty op).Recorded := by
  have hGrown := addBlock_grown f label hf.not_hasBlock_next
  have hApp := addInst_appended ((hGrown.hasBlock_iff _).mpr (.inl rfl)) ty op
  apply Recorded.of_last
  intro x front old hCode hOld c hc
  rw [hApp.mem_succs]
  by_cases hx : x = ⟨f.ids.nextBlock⟩
  · have hLast : old = (f.addBlock label).newInst ty op := by
      have hMem : old ∈ ((f.addBlock label).addInst ⟨f.ids.nextBlock⟩ ty op).code x := by
        simp [hCode]
      rw [hx, hApp.code_self, mem_placed, hGrown.code_self] at hMem
      simpa using hMem
    rw [hLast] at hc
    exact .inr ⟨hx, hc, (hGrown.hasBlock_iff c).mpr (.inr (hTargets c hc))⟩
  · rw [hApp.code_of_ne x hx, hGrown.code_of_ne x hx] at hCode
    exact .inl ((hGrown.mem_succs x c).mpr ⟨hx, hr.mem_succs hCode hOld hc⟩)

/-! ## Splitting that is declined -/

/-- If the terminator at the start of the edge is refused, the new block has its jump and nothing else
has happened. -/
theorem rewire_addBlock_of_error (hf : f.Arranged) (hr : f.Recorded) (edge : b ∈ f.succs a)
    (label : String) (old : Inst) {e : Error}
    (h : ((f.addBlock label).rewire a b ⟨f.ids.nextBlock⟩ old).answer = .error e) :
    ((f.addBlock label).rewire a b ⟨f.ids.nextBlock⟩ old).state =
      (f.addBlock label).addInst ⟨f.ids.nextBlock⟩ .void (.jump b) := by
  have hGrown := addBlock_grown f label hf.not_hasBlock_next
  have hEntry : f.entry ≠ none := by
    obtain ⟨e, he⟩ := hf.exists_entry (hasBlock_of_mem_succs edge)
    rw [he]
    exact Option.some_ne_none e
  have hb : ∀ c ∈ (Op.jump b).targets, f.hasBlock c = true := by
    intro c hc
    rw [List.mem_singleton.mp hc]
    exact hf.mirrored.hasBlock_target edge
  have hAppend : (f.addBlock label).append ⟨f.ids.nextBlock⟩ .void (.jump b) =
      .ok ⟨(f.addBlock label).ids.nextValue⟩
        ((f.addBlock label).addInst ⟨f.ids.nextBlock⟩ .void (.jump b)) := by
    apply append_terminator .void rfl ((hGrown.hasBlock_iff _).mpr (.inl rfl))
    · simp [hGrown.code_self]
    · exact fun v hv => absurd hv List.not_mem_nil
    · exact fun c hc => (hGrown.hasBlock_iff c).mpr (.inr (hb c hc))
  rw [rewire, hAppend, Outcome.andThen_ok] at h ⊢
  have hAttached := addInst_addBlock_attached hf hEntry label .void (.jump b)
  exact replaceTerminator_atomic hAttached.mirrored (hr.addInst_addBlock hf label .void hb) _ _ _ e h

/-- Splitting is tried: the edge is critical, and the block where it starts has a terminator. -/
def Tries (f : Func) (a b : BlockId) : Prop :=
  f.isCritical a b = true ∧ ((f.block? a).bind (·.terminator?)).isSome = true

instance (f : Func) (a b : BlockId) : Decidable (f.Tries a b) :=
  inferInstanceAs (Decidable (_ ∧ _))

theorem splitEdge_of_not_tries (h : ¬ f.Tries a b) : f.splitEdge a b = (none, f) := by
  rw [splitEdge]
  split
  · rename_i old hOld hCritical
    exact absurd ⟨hCritical, Option.isSome_of_eq_some hOld⟩ h
  · rfl

theorem splitEdge_of_tries (hf : f.Arranged) (hr : f.Recorded) (h : f.Tries a b)
    (hNone : (f.splitEdge a b).1 = none) :
    (f.splitEdge a b).2 = { f with ids := ⟨f.ids.nextBlock + 1, f.ids.nextValue + 1⟩ } := by
  obtain ⟨hCritical, hSome⟩ := h
  obtain ⟨old, hOld⟩ := Option.isSome_iff_exists.mp hSome
  have edge := (isCritical_iff.mp hCritical).1
  have hCreate : f.createBlock (f.splitLabel a b) =
      ⟨.ok ⟨f.ids.nextBlock⟩, f.addBlock (f.splitLabel a b)⟩ := by
    rw [createBlock, f.refuseLabel?_splitLabel a b]
    rfl
  obtain ⟨e, he⟩ := hf.exists_entry (hasBlock_of_mem_succs edge)
  have hAttached := addInst_addBlock_attached hf (he ▸ Option.some_ne_none e) (f.splitLabel a b)
    .void (.jump b)
  have hError := fun e => rewire_addBlock_of_error (e := e) hf hr edge (f.splitLabel a b) old
  rw [splitEdge, hOld, hCritical] at hNone ⊢
  simp only [hCreate] at hNone ⊢
  rcases hEq : (f.addBlock (f.splitLabel a b)).rewire a b ⟨f.ids.nextBlock⟩ old with ⟨answer, mid⟩
  rw [hEq] at hNone hError
  cases answer with
  | ok v => cases hNone
  | error e =>
    obtain rfl : mid = (f.addBlock (f.splitLabel a b)).addInst ⟨f.ids.nextBlock⟩ .void (.jump b) :=
      hError e rfl
    rw [← ids_addInst_addBlock f (f.splitLabel a b) .void (.jump b)]
    exact hAttached.removeBlock hf

/-! ## What is declined -/

theorem mergeBlocks_of_declined (h : (f.mergeBlocks a b).1 = false) : (f.mergeBlocks a b).2 = f := by
  rw [mergeBlocks] at h ⊢
  split at h
  · rfl
  rename_i blk _
  have hAtomic := f.replaceBlocks_atomic [a, b] blk
  rw [applyMerge] at h ⊢
  rcases hEq : f.replaceBlocks [a, b] blk with ⟨answer, g⟩
  rw [hEq] at h hAtomic
  cases answer with
  | ok u => cases h
  | error e => exact hAtomic e rfl

theorem threadJump_of_declined (hf : f.Mirrored) (hr : f.Recorded)
    (h : (f.threadJump a b).1 = false) : (f.threadJump a b).2 = f := by
  rw [threadJump] at h ⊢
  split at h
  · rfl
  rename_i d _
  split at h
  · rename_i hUnsafe
    rw [if_pos hUnsafe]
  rename_i hSafe
  rw [if_neg hSafe]
  have hAtomic := replaceTerminator_atomic hf hr a .void (.jump d)
  rcases hEq : f.replaceTerminator a .void (.jump d) with ⟨answer, g⟩
  rw [hEq] at h hAtomic
  cases answer with
  | ok v => cases h
  | error e => exact hAtomic e rfl

/-- **What is declined changes nothing but free names.** A consistent function whose terminators have
their edges is left as it was, with one exception. If an edge is not split although it is critical
and the block where it starts has a terminator, the function is the same but that one name for a
block and one for a value are no longer free. -/
theorem declined_unchanged_iff (f : Func) (a b : BlockId) (hf : f.Consistent) (hr : f.Recorded) :
    ((f.mergeBlocks a b).1 = false → (f.mergeBlocks a b).2 = f) ∧
    ((f.threadJump a b).1 = false → (f.threadJump a b).2 = f) ∧
    ((f.splitEdge a b).1 = none →
      ((f.splitEdge a b).2 = f ↔ ¬ f.Tries a b) ∧
      (f.Tries a b → (f.splitEdge a b).2 =
        { f with ids := ⟨f.ids.nextBlock + 1, f.ids.nextValue + 1⟩ })) := by
  refine ⟨mergeBlocks_of_declined, threadJump_of_declined hf.mirrored hr, fun hNone => ?_⟩
  have hTries := fun h : f.Tries a b => splitEdge_of_tries hf.arranged hr h hNone
  refine ⟨⟨fun hSame h => ?_, fun h => by rw [splitEdge_of_not_tries h]⟩, hTries⟩
  have hNext := congrArg (·.ids.nextBlock) (hSame.symm.trans (hTries h))
  exact absurd hNext (Nat.succ_ne_self _).symm

/-- Two blocks that lead to each other, without the value that their branches read. -/
def hanging : Func := (crossing.removeValue ⟨0⟩).2

theorem hanging_declined_unchanged_iff :
    (hanging.mergeBlocks ⟨1⟩ ⟨2⟩).2 = hanging ∧ (hanging.threadJump ⟨0⟩ ⟨1⟩).2 = hanging ∧
      (hanging.splitEdge ⟨1⟩ ⟨2⟩).2 = hanging ∧ (hanging.splitEdge ⟨0⟩ ⟨1⟩).2 ≠ hanging ∧
      (hanging.splitEdge ⟨0⟩ ⟨1⟩).2 = { hanging with ids := ⟨6, 7⟩ } := by
  have hConsistent : hanging.Consistent := by decide +kernel
  have hRecorded : hanging.Recorded := by decide +kernel
  obtain ⟨hMerge, -, hPlain⟩ := declined_unchanged_iff hanging ⟨1⟩ ⟨2⟩ hConsistent hRecorded
  obtain ⟨-, hThread, hSplit⟩ := declined_unchanged_iff hanging ⟨0⟩ ⟨1⟩ hConsistent hRecorded
  have hTries : hanging.Tries ⟨0⟩ ⟨1⟩ := by decide +kernel
  obtain ⟨hIff, hEq⟩ := hSplit (by decide +kernel)
  exact ⟨hMerge (by decide +kernel), hThread (by decide +kernel),
    (hPlain (by decide +kernel)).1.mpr (by decide +kernel), fun hSame => hIff.mp hSame hTries,
    hEq hTries⟩

/-- The edge is not split, and yet two names are gone. -/
theorem hanging_split_takes_names :
    hanging.Consistent ∧
      (∀ x ∈ hanging.layout, ∀ i ∈ hanging.code x, ∀ c ∈ i.op.targets, c ∈ hanging.succs x) ∧
      (hanging.splitEdge ⟨0⟩ ⟨1⟩).1 = none ∧ hanging.ids = ⟨5, 6⟩ ∧
      (hanging.splitEdge ⟨0⟩ ⟨1⟩).2.ids = ⟨6, 7⟩ := by
  decide +kernel

end Func

end Midend
