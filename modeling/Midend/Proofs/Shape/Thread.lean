import Midend.Proofs.Func.Terminators
import Midend.Proofs.Shape.Restriction
import Midend.Shape.Thread

/-!
# Threading jumps keeps a function lawful and strict

A jump is threaded in two steps: the terminator of the block is exchanged (`Detour.regular`), and
then the trampoline may be removed, which restricts the function to the other blocks
(`Detour.removeBlock_regular`). A trampoline computes nothing, so nothing is missed on the shorter
way.
-/

namespace Midend

namespace Func

variable {f g : Func} {a b c e p t d x : BlockId} {v : ValueId}

/-- The first block jumps to a trampoline that leads to the third, which has no phi. -/
structure Detour (f : Func) (p t d : BlockId) : Prop where
  ne : p ≠ t
  leaves : ∃ front old, f.code p = front ++ [old] ∧ old.op = .jump t
  bounces : ∃ i, f.code t = [i] ∧ i.op = .jump d
  no_phi : ∀ i ∈ f.code d, i.isPhi = false

theorem Sequenced.mem_succs_of_jump (hf : f.Sequenced) {front : List Inst} {old : Inst}
    (hCode : f.code p = front ++ [old]) (hOp : old.op = .jump t) : c ∈ f.succs p ↔ c = t := by
  rw [hf.mem_succs_of_last hCode, hOp]
  exact List.mem_singleton

theorem trampolineTarget?_eq_some_iff :
    f.trampolineTarget? t = some d ↔ ∃ i, f.code t = [i] ∧ i.op = .jump d := by
  constructor
  · intro h
    obtain ⟨blk, hBlk, h⟩ := Option.bind_eq_some_iff.mp h
    split at h
    · rename_i i hInsts
      split at h
      · rename_i u hOp
        exact ⟨i, by rw [code_of_block? hBlk, hInsts], Option.some.inj h ▸ hOp⟩
      · cases h
    · cases h
  · rintro ⟨i, hCode, hOp⟩
    obtain ⟨blk, hBlk, -⟩ := mem_code_iff.mp (hCode ▸ List.mem_singleton.mpr rfl : i ∈ f.code t)
    rw [code_of_block? hBlk] at hCode
    simp [trampolineTarget?, hBlk, hCode, hOp]

theorem endsWithJump_iff :
    f.endsWithJump p = true ↔ ∃ front old u, f.code p = front ++ [old] ∧ old.op = .jump u := by
  rw [endsWithJump, Option.any_eq_true]
  constructor
  · rintro ⟨old, hOld, hJump⟩
    obtain ⟨blk, hBlk, hTerm⟩ := Option.bind_eq_some_iff.mp hOld
    rw [Block.terminator?, Option.filter_eq_some_iff] at hTerm
    obtain ⟨front, hInsts⟩ := List.getLast?_eq_some_iff.mp hTerm.1
    split at hJump
    · rename_i u hOp
      exact ⟨front, old, u, by rw [code_of_block? hBlk, hInsts], hOp⟩
    · cases hJump
  · rintro ⟨front, old, u, hCode, hOp⟩
    obtain ⟨blk, hBlk, -⟩ := mem_code_iff.mp (by rw [hCode]; simp : old ∈ f.code p)
    have hOld : old.isTerminator = true := by rw [Inst.isTerminator, hOp]; rfl
    refine ⟨old, Option.bind_eq_some_iff.mpr ⟨blk, hBlk, terminator?_of_code hBlk hCode hOld⟩, ?_⟩
    rw [hOp]

/-- A jump can be threaded if it is to a trampoline that leads on, and not back to itself. -/
theorem isThreadSafe_iff (hf : f.Sequenced) (hm : f.Mirrored)
    (hTarget : f.trampolineTarget? t = some d) : f.isThreadSafe p t d = true ↔
      f.Detour p t d ∧ t ≠ d ∧ f.inTrampolineCycle t = false := by
  have hBounces := trampolineTarget?_eq_some_iff.mp hTarget
  rw [isThreadSafe]
  constructor
  · intro hSafe
    split at hSafe
    · cases hSafe
    rename_i hNot
    rw [not_or, not_or, not_not, hasSucc_iff] at hNot
    obtain ⟨hpt, htd, hEdge⟩ := hNot
    simp only [hTarget, Bool.and_eq_true, Option.any_eq_true, Bool.not_eq_true'] at hSafe
    obtain ⟨⟨⟨hEnds, blk, hBlk, hPhi⟩, hCycle⟩, -⟩ := hSafe
    obtain ⟨front, old, u, hCode, hOp⟩ := endsWithJump_iff.mp hEnds
    have hu : t = u := (hf.mem_succs_of_jump hCode hOp).mp hEdge
    refine ⟨⟨hpt, ⟨front, old, hCode, hu ▸ hOp⟩, hBounces, fun i hi => ?_⟩, htd, hCycle⟩
    rw [code_of_block? hBlk] at hi
    rw [Block.hasPhi, List.any_eq_false] at hPhi
    simpa using hPhi i hi
  · rintro ⟨⟨hpt, ⟨front, old, hCode, hOp⟩, -, hPhi⟩, htd, hCycle⟩
    have hEdge : t ∈ f.succs p := (hf.mem_succs_of_jump hCode hOp).mpr rfl
    obtain ⟨i, hBounce, hJump⟩ := hBounces
    have hBounce' : f.code t = [] ++ [i] := hBounce
    have hOn : d ∈ f.succs t := (hf.mem_succs_of_jump hBounce' hJump).mpr rfl
    obtain ⟨blk, hBlk⟩ := hasBlock_iff.mp (hm.hasBlock_target hOn)
    have hNone : blk.hasPhi = false := by
      rw [Block.hasPhi, List.any_eq_false, ← code_of_block? hBlk]
      simpa using hPhi
    rw [if_neg (by simp [hpt, htd, hasSucc_iff.mpr hEdge])]
    simp [hTarget, endsWithJump_iff.mpr ⟨front, old, t, hCode, hOp⟩, hBlk, hNone, hCycle]

namespace Detour

theorem mem_succs_start (h : f.Detour p t d) (hf : f.Sequenced) : c ∈ f.succs p ↔ c = t := by
  obtain ⟨front, old, hCode, hOp⟩ := h.leaves
  exact hf.mem_succs_of_jump hCode hOp

theorem mem_succs_trampoline (h : f.Detour p t d) (hf : f.Sequenced) : c ∈ f.succs t ↔ c = d := by
  obtain ⟨i, hCode, hOp⟩ := h.bounces
  have hCode' : f.code t = [] ++ [i] := hCode
  exact hf.mem_succs_of_jump hCode' hOp

theorem not_computes (h : f.Detour p t d) (v : ValueId) : ¬ f.Computes t v := by
  rintro ⟨i, hi, hTerm, -⟩
  obtain ⟨j, hCode, hOp⟩ := h.bounces
  rw [hCode, List.mem_singleton] at hi
  rw [hi, Inst.isTerminator, hOp] at hTerm
  cases hTerm

/-- The terminator of the first block has been exchanged for a jump to the third. -/
def Taken (f : Func) (p d : BlockId) (g : Func) : Prop :=
  ∃ front new, Exchanged f p front new g ∧ new.op = .jump d

theorem exists_taken (h : f.Detour p t d) (hf : f.Sequenced) (hm : f.Mirrored) (ty : Ty) :
    ∃ v g, f.replaceTerminator p ty (.jump d) = .ok v g ∧ Taken f p d g := by
  obtain ⟨front, old, hCode, hOp⟩ := h.leaves
  have hOld : old.isTerminator = true := by rw [Inst.isTerminator, hOp]; rfl
  have hd : f.hasBlock d = true := hm.hasBlock_target ((h.mem_succs_trampoline hf).mpr rfl)
  obtain ⟨g, hEq, hEx⟩ := replaceTerminator_exchanged ty (.jump d) hCode hOld
    (hf.not_isTerminator_front hCode) (fun _ => hf.mem_succs_of_last hCode) rfl
    (fun v hv => absurd hv List.not_mem_nil) (fun c hc => List.mem_singleton.mp hc ▸ hd)
  exact ⟨_, g, hEq, front, _, hEx, rfl⟩

theorem mem_succs_taken (hg : Taken f p d g) :
    c ∈ g.succs x ↔ (x = p ∧ c = d) ∨ (x ≠ p ∧ c ∈ f.succs x) := by
  obtain ⟨front, new, hEx, hOp⟩ := hg
  rw [hEx.mem_succs, hOp]
  exact or_congr_left (and_congr_right fun _ => List.mem_singleton)

theorem listed_taken (hg : Taken f p d g) (hf : f.Listed) : g.Listed := by
  obtain ⟨front, new, hEx, hOp⟩ := hg
  refine hEx.listed hf fun v hv => ?_
  rw [hOp] at hv
  exact absurd hv List.not_mem_nil

section Taken

variable (h : f.Detour p t d) (hg : Taken f p d g)
include h hg

theorem code_trampoline : g.code t = f.code t := by
  obtain ⟨front, new, hEx, -⟩ := hg
  exact hEx.code_of_ne t h.ne.symm

theorem wired (hf : f.Wired) : g.Wired := by
  obtain ⟨front, new, hEx, hOp⟩ := id hg
  refine ⟨hEx.sequenced hf.toSequenced, fun x i hi hPhi => ?_⟩
  rcases hEx.mem_code hi with hi | ⟨-, rfl⟩
  · -- Neither end of the detour has a phi, and no other block sees control come another way.
    have hxt : x ≠ t := by
      rintro rfl
      obtain ⟨j, hCode, hJump⟩ := h.bounces
      rw [hCode, List.mem_singleton] at hi
      rw [hi, Inst.isPhi, hJump] at hPhi
      cases hPhi
    have hxd : x ≠ d := by
      rintro rfl
      rw [h.no_phi i hi] at hPhi
      cases hPhi
    refine (hf.pairs x i hi).congr (fun a => ?_) hPhi
    have hStart := h.mem_succs_start hf.toSequenced (c := x)
    rw [mem_succs_taken hg]
    grind
  · rw [isPhi_eq_false_of_isTerminator hEx.new_terminator] at hPhi
    cases hPhi

theorem lawful (hf : f.Lawful) : g.Lawful := by
  obtain ⟨front, new, hEx, -⟩ := id hg
  refine ⟨hEx.frame.framed hf.toFramed, listed_taken hg hf.toListed, (wired h hg hf.toWired).pairs, ?_⟩
  intro e he a edge
  rw [hEx.frame.entry_eq] at he
  rcases (mem_succs_taken hg).mp edge with ⟨-, rfl⟩ | ⟨-, edge⟩
  · exact hf.entry_first e he t ((h.mem_succs_trampoline hf.toSequenced).mpr rfl)
  · exact hf.entry_first e he a edge

theorem live (hf : f.Sequenced) (hb : g.Live b) : f.Live b := by
  obtain ⟨front, new, hEx, -⟩ := id hg
  refine hb.induct (P := f.Live) ?_ ?_
  · intro e he
    exact ⟨e, hEx.frame.entry_eq ▸ he, .refl e⟩
  · intro a b _ ha edge
    rcases (mem_succs_taken hg).mp edge with ⟨rfl, rfl⟩ | ⟨-, edge⟩
    · exact (ha.step ((h.mem_succs_start hf).mpr rfl)).step ((h.mem_succs_trampoline hf).mpr rfl)
    · exact ha.step edge

/-- A way around a block, other than the trampoline, leads around it before as well. -/
theorem guards (hf : f.Sequenced) (hd : f.Guards x b) (hxt : x ≠ t) : g.Guards x b := by
  obtain ⟨front, new, hEx, -⟩ := id hg
  rw [guards_iff_not_bypasses] at hd ⊢
  refine fun hBy => hd (hBy.induct (P := f.Bypasses x) ?_ ?_)
  · intro e he hne
    exact .entry (hEx.frame.entry_eq ▸ he) hne
  · intro a b _ ha edge hne
    rcases (mem_succs_taken hg).mp edge with ⟨rfl, rfl⟩ | ⟨-, edge⟩
    · exact (ha.step ((h.mem_succs_start hf).mpr rfl) hxt.symm).step
        ((h.mem_succs_trampoline hf).mpr rfl) hne
    · exact ha.step edge hne

theorem regular (hf : f.Regular) : g.Regular := by
  obtain ⟨front, new, hEx, hOp⟩ := id hg
  have hCarry : ∀ v b x, f.Guards x b → f.Computes x v → g.Guards x b ∧ g.Computes x v := by
    intro v b x hx hDef
    have hxt : x ≠ t := fun hEq => h.not_computes v (hEq ▸ hDef)
    exact ⟨guards h hg hf.toSequenced hx hxt, hEx.computes_iff.mpr hDef⟩
  refine ⟨lawful h hg hf.toLawful, ?_, ?_⟩
  · intro b hb earlier i later hCode hPhi v hv
    rcases hEx.code_cases hCode with ⟨later', hCode'⟩ | ⟨-, rfl, -⟩
    · exact (hf.operand b (live h hg hf.toSequenced hb) earlier i later' hCode' hPhi v hv).imp
        (hCarry v b)
    · rw [hOp] at hv
      exact absurd hv List.not_mem_nil
  · intro b hb i hi incoming hPhi q hq hLive
    rcases hEx.mem_code hi with hi | ⟨-, rfl⟩
    · obtain ⟨x, hx, hDef⟩ := hf.incoming b (live h hg hf.toSequenced hb) i hi incoming hPhi q hq
        (live h hg hf.toSequenced hLive)
      exact ⟨x, hCarry _ _ x hx hDef⟩
    · rw [hOp] at hPhi
      cases hPhi

theorem hasBlock_trampoline : g.hasBlock t = true := by
  obtain ⟨i, hCode, -⟩ := h.bounces
  refine hasBlock_of_mem_code (i := i) ?_
  rw [code_trampoline h hg, hCode]
  exact List.mem_singleton.mpr rfl

/-- The block after the trampoline has no phi, so no phi has a pair for the trampoline. -/
theorem ne_trampoline_of_phi (hf : f.Sequenced) {i : Inst} (hi : i ∈ g.code x) (hPhi : i.isPhi = true)
    (edge : x ∈ g.succs a) : a ≠ t := by
  obtain ⟨front, new, hEx, -⟩ := id hg
  intro hat
  have hxd : x = d := by
    rcases (mem_succs_taken hg).mp edge with ⟨hap, -⟩ | ⟨-, edge⟩
    · exact absurd (hap.symm.trans hat) h.ne
    · rw [hat] at edge
      exact (h.mem_succs_trampoline hf).mp edge
  rcases hEx.mem_code hi with hi | ⟨-, rfl⟩
  · rw [h.no_phi i (hxd ▸ hi)] at hPhi
    cases hPhi
  · rw [isPhi_eq_false_of_isTerminator hEx.new_terminator] at hPhi
    cases hPhi

/-- Once nothing leads to the trampoline any more it can be removed. -/
theorem removeBlock_regular (hf : f.Regular) (hEmpty : (g.preds t).isEmpty = true)
    (hEntry : g.entry ≠ some t) : (g.removeBlock t).2.Regular := by
  have hReg := regular h hg hf
  obtain ⟨front, new, hEx, hOp⟩ := id hg
  have hUnled : ∀ a, ¬ t ∈ g.succs a := fun a edge =>
    SortedSet.isEmpty_iff.mp hEmpty a ((hReg.mirrored a t).mp edge)
  have hPair : ∀ x, ∀ i ∈ g.code x, i.isPhi = true → ∀ a, x ∈ g.succs a → a ≠ t :=
    fun x i hi hPhi a edge => ne_trampoline_of_phi h hg hf.toSequenced hi hPhi edge
  have ht := hasBlock_trampoline h hg
  have hShrunk := removeBlock_shrunk hReg.mirrored ht hEntry
  have hRes : Restricts g (· ≠ t) (g.removeBlock t).2 := by
    refine hShrunk.restricts (.refl g) rfl (fun _ => rfl) ?_ hReg.toFramed
    intro x _
    conv => lhs; rw [← List.map_id (g.code x)]
    refine List.map_congr_left fun i hi => (Inst.keepIncoming_eq_self fun hPhi a ha => ?_).symm
    exact decide_eq_true (hPair x i hi hPhi a (((hReg.pairs x i hi hPhi).2.2 a).mp ha))
  refine hRes.regular hReg ⟨?_, ?_, ?_, ?_⟩
  · exact fun e he => decide_eq_true fun hEq => hEntry (hEq ▸ he)
  · exact fun a b _ edge => decide_eq_true fun hEq => hUnled a (hEq ▸ edge)
  · intro b _ i hi v hv
    obtain ⟨ty, known, c, j, hj, hTerm, hId, -⟩ :=
      (hReg.reads b i hi).operand v (Inst.mem_operands_keepIncoming hv)
    refine ⟨c, decide_eq_true fun hEq => h.not_computes v ?_, definedIn_iff.mpr ⟨j, hj, hId⟩⟩
    exact hEx.computes_iff.mp ⟨j, hEq ▸ hj, hTerm, hId⟩
  · intro b _ i hi hPhi
    obtain ⟨hNe, -, hMem⟩ := hReg.pairs b i hi hPhi
    obtain ⟨a, ha⟩ := List.exists_mem_of_ne_nil _ hNe
    have edge := (hMem a).mp ha
    exact ⟨a, edge, decide_eq_true (hPair b i hi hPhi a edge)⟩

end Taken

end Detour

theorem entry_removeBlock (hEntry : f.entry ≠ some t) : (f.removeBlock t).2.entry = f.entry := by
  rw [removeBlock]
  by_cases ht : f.hasBlock t = true
  · rw [if_pos ht]
    exact if_neg hEntry
  · rw [if_neg ht]

/-- A jump is threaded, and the trampoline may go, or nothing happens. -/
theorem threadJump_cases (hf : f.Sequenced) (hm : f.Mirrored) (p t : BlockId) :
    (f.threadJump p t = (false, f) ∧
      ∀ d, f.Detour p t d → t ≠ d → f.inTrampolineCycle t = true) ∨
    ∃ d g, f.Detour p t d ∧ f.inTrampolineCycle t = false ∧ Detour.Taken f p d g ∧
      (f.threadJump p t = (true, g) ∨ (g.preds t).isEmpty = true ∧ g.entry ≠ some t ∧
        f.threadJump p t = (true, (g.removeBlock t).2)) := by
  rw [Func.threadJump]
  split
  · rename_i hTarget
    refine .inl ⟨rfl, fun d hDetour => ?_⟩
    rw [trampolineTarget?_eq_some_iff.mpr hDetour.bounces] at hTarget
    cases hTarget
  rename_i d hTarget
  have hSafeIff := isThreadSafe_iff (p := p) hf hm hTarget
  split
  · rename_i hUnsafe
    rw [Bool.not_eq_true'] at hUnsafe
    refine .inl ⟨rfl, fun d' hDetour hne => ?_⟩
    obtain rfl : d = d' := by
      rw [trampolineTarget?_eq_some_iff.mpr hDetour.bounces] at hTarget
      exact (Option.some.inj hTarget).symm
    by_contra hCycle
    rw [hSafeIff.mpr ⟨hDetour, hne, Bool.of_not_eq_true hCycle⟩] at hUnsafe
    cases hUnsafe
  rename_i hSafe
  rw [Bool.not_eq_true', Bool.not_eq_false] at hSafe
  obtain ⟨hDetour, -, hCycle⟩ := hSafeIff.mp hSafe
  obtain ⟨v, g, hEq, hTaken⟩ := hDetour.exists_taken hf hm .void
  refine .inr ⟨d, g, hDetour, hCycle, hTaken, ?_⟩
  rw [hEq, Outcome.ok]
  by_cases hRemove : ((g.preds t).isEmpty && decide (g.entry ≠ some t)) = true
  · have hRemove' := hRemove
    rw [Bool.and_eq_true, decide_eq_true_iff] at hRemove'
    exact .inr ⟨hRemove'.1, hRemove'.2, congrArg (Prod.mk true) (if_pos hRemove)⟩
  · exact .inl (congrArg (Prod.mk true) (if_neg hRemove))

theorem threadAt_snd (f : Func) (t : BlockId) : (f.threadAt t).2 =
    if f.isTrampoline t then
      (f.preds t).toList.foldl (fun g p => (g.threadJump p t).2) f
    else f := by
  rw [threadAt]
  split
  · refine (List.foldl_hom Prod.snd fun s p => ?_).symm
    obtain ⟨n, g⟩ := s
    dsimp only
    rcases g.threadJump p t with ⟨done, h⟩
    cases done <;> rfl
  · rfl

theorem threadRound_snd (f : Func) :
    f.threadRound.2 = f.layout.foldl (fun g t => (g.threadAt t).2) f :=
  (List.foldl_hom Prod.snd fun _ _ => rfl).symm

section Induct

variable {P : Func → Prop} (hStep : ∀ g p t, P g → P (g.threadJump p t).2)
include hStep

/-- What threading any jump keeps, threading the jumps to a trampoline keeps. -/
theorem threadAt_induct (t : BlockId) (hf : P f) : P (f.threadAt t).2 := by
  rw [threadAt_snd]
  split
  · exact List.foldlRecOn _ _ hf fun g hg p _ => hStep g p t hg
  · exact hf

/-- What threading any jump keeps, threading them in rounds keeps. -/
theorem threadJumps_induct (limit : Nat) (hf : P f) : P (f.threadJumps limit).2 := by
  induction limit generalizing f with
  | zero => exact hf
  | succ limit ih =>
    have hNext : P f.threadRound.2 := by
      rw [threadRound_snd]
      exact List.foldlRecOn _ _ hf fun g hg t _ => threadAt_induct hStep t hg
    rw [Func.threadJumps]
    split
    · rename_i hEq
      rwa [hEq] at hNext
    · rename_i hEq
      rw [hEq] at hNext
      exact ih hNext

end Induct

theorem RegularFrom.threadJump (hf : f.RegularFrom e) (p t : BlockId) :
    (f.threadJump p t).2.RegularFrom e := by
  rcases threadJump_cases hf.toSequenced hf.mirrored p t with
    ⟨hEq, -⟩ | ⟨d, g, hDetour, -, hTaken, hEq | ⟨hEmpty, hEntry, hEq⟩⟩
  · rwa [hEq]
  all_goals
    have hFrom : g.entry = some e := by
      obtain ⟨front, new, hEx, -⟩ := hTaken
      exact hEx.frame.entry_eq.trans hf.entry_eq
    rw [hEq]
  · exact ⟨hDetour.regular hTaken hf.toRegular, hFrom⟩
  · exact ⟨hDetour.removeBlock_regular hTaken hf.toRegular hEmpty hEntry,
      (entry_removeBlock hEntry).trans hFrom⟩

theorem RegularFrom.threadJumps (limit : Nat) (hf : f.RegularFrom e) :
    (f.threadJumps limit).2.RegularFrom e :=
  threadJumps_induct (P := (RegularFrom · e)) (fun _ p t hg => hg.threadJump p t) limit hf

end Func

end Midend
