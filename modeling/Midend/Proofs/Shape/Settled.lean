import Midend.Proofs.Shape.Circle
import Midend.Proofs.Trace.Thread

/-!
# One round threads every jump

A relay is a trampoline past which jumps can be led: it leads to a block without phis, and
trampolines do not lead from it back to it. A jump is threaded exactly if it is to a relay
(`threadJump_relay`). It is then to another block, which may be a relay whose turn is over; but then
the relay that was left out would itself have been a jump to that block, and those have all been
threaded in that turn. So once a block has had its turn no jump to it can be threaded any more, for
the rest of the round (`Settling`). No block becomes a relay (`Threaded.relay`).

* `Func.threadJumps_settles`: nothing is left to thread, after the first round already.
-/

namespace Midend

namespace Func

variable {f g : Func} {d p q t u x : BlockId}

/-- The block ends with a jump to the other. -/
def JumpsTo (f : Func) (p t : BlockId) : Prop :=
  ∃ front old, f.code p = front ++ [old] ∧ old.op = .jump t

/-- Jumps to the trampoline can be led past it to the other block. -/
structure Relay (f : Func) (t d : BlockId) : Prop where
  target : f.trampolineTarget? t = some d
  no_phi : ∀ i ∈ f.code d, i.isPhi = false
  not_circles : ¬ f.Circles t

/-! ## Jumps and relays -/

theorem jumpsTo_of_trampolineTarget? (h : f.trampolineTarget? t = some d) : f.JumpsTo t d := by
  obtain ⟨i, hCode, hOp⟩ := trampolineTarget?_eq_some_iff.mp h
  exact ⟨[], i, hCode, hOp⟩

theorem JumpsTo.eq (h : f.JumpsTo p t) (h' : f.JumpsTo p u) : t = u := by
  obtain ⟨front, old, hCode, hOp⟩ := h
  obtain ⟨front', old', hCode', hOp'⟩ := h'
  rw [hCode] at hCode'
  obtain ⟨-, hLast⟩ := List.append_inj' hCode' rfl
  obtain ⟨rfl, -⟩ := List.cons.inj hLast
  rw [hOp] at hOp'
  exact Op.jump.inj hOp'

theorem JumpsTo.mem_succs (h : f.JumpsTo p t) (hf : f.Sequenced) : t ∈ f.succs p := by
  obtain ⟨front, old, hCode, hOp⟩ := h
  exact (hf.mem_succs_of_jump hCode hOp).mpr rfl

theorem JumpsTo.mem_layout (h : f.JumpsTo p t) (hf : f.Sequenced) (hc : f.Consistent) :
    t ∈ f.layout :=
  (hc.mem_layout t).mpr (hc.mirrored.hasBlock_target (h.mem_succs hf))

theorem Relay.ne (h : f.Relay t d) : t ≠ d := by
  rintro rfl
  exact h.not_circles ⟨t, h.target, .refl t⟩

theorem no_phi_of_trampolineTarget? (h : f.trampolineTarget? t = some d) :
    ∀ i ∈ f.code t, i.isPhi = false := by
  obtain ⟨j, hCode, hOp⟩ := trampolineTarget?_eq_some_iff.mp h
  intro i hi
  rw [hCode, List.mem_singleton] at hi
  rw [hi, Inst.isPhi, hOp]
  rfl

/-! ## One jump -/

/-- The first block jumps to the third in place of the second, which may be gone. -/
structure Threaded (f : Func) (p t d : BlockId) (g : Func) : Prop where
  start : ∃ front old new, f.code p = front ++ [old] ∧ old.op = .jump t ∧
    g.code p = front ++ [new] ∧ new.op = .jump d
  code_eq : ∀ x, x ≠ p → x ≠ t → g.code x = f.code x
  trampoline : g.code t = f.code t ∨ g.code t = []

namespace Threaded

variable (h : Threaded f p t d g)
include h

theorem code_cases (hx : x ≠ p) : g.code x = f.code x ∨ g.code x = [] := by
  by_cases hxt : x = t
  · exact hxt ▸ h.trampoline
  · exact .inl (h.code_eq x hx hxt)

theorem jumpsTo (hJump : g.JumpsTo q u) : (q = p ∧ u = d) ∨ (q ≠ p ∧ f.JumpsTo q u) := by
  by_cases hq : q = p
  · obtain ⟨front, old, new, -, -, hCode, hOp⟩ := h.start
    rw [hq] at hJump
    exact .inl ⟨hq, hJump.eq ⟨front, new, hCode, hOp⟩⟩
  · obtain ⟨front, old, hCode, hOp⟩ := hJump
    rcases h.code_cases hq with hEq | hEq
    · exact .inr ⟨hq, front, old, hEq ▸ hCode, hOp⟩
    · simp [hEq] at hCode

theorem target (hTarget : g.trampolineTarget? x = some u) :
    (x = p ∧ u = d ∧ f.trampolineTarget? p = some t) ∨ (x ≠ p ∧ f.trampolineTarget? x = some u) := by
  obtain ⟨i, hCode, hOp⟩ := trampolineTarget?_eq_some_iff.mp hTarget
  by_cases hx : x = p
  · obtain ⟨front, old, new, hBefore, hOld, hAfter, hNew⟩ := h.start
    rw [hx, hAfter, List.append_eq_singleton_iff] at hCode
    rcases hCode with ⟨rfl, hSame⟩ | ⟨-, hSame⟩
    · obtain ⟨rfl, -⟩ := List.cons.inj hSame
      refine .inl ⟨hx, Op.jump.inj (hOp.symm.trans hNew), ?_⟩
      exact trampolineTarget?_eq_some_iff.mpr ⟨old, hBefore, hOld⟩
    · cases hSame
  · rcases h.code_cases hx with hEq | hEq
    · exact .inr ⟨hx, trampolineTarget?_eq_some_iff.mpr ⟨i, hEq ▸ hCode, hOp⟩⟩
    · simp [hEq] at hCode

theorem no_phi (hRelay : f.Relay t d) (hx : ∀ i ∈ g.code x, i.isPhi = false) :
    ∀ i ∈ f.code x, i.isPhi = false := by
  intro i hi
  by_cases hxt : x = t
  · exact no_phi_of_trampolineTarget? hRelay.target i (hxt ▸ hi)
  by_cases hxp : x = p
  · obtain ⟨front, old, new, hBefore, hOld, hAfter, -⟩ := h.start
    rw [hxp, hBefore, List.mem_append, List.mem_singleton] at hi
    rcases hi with hi | rfl
    · refine hx i ?_
      rw [hxp, hAfter]
      exact List.mem_append_left _ hi
    · rw [Inst.isPhi, hOld]
      rfl
  · exact hx i (h.code_eq x hxp hxt ▸ hi)

/-- A circle of trampolines leads neither through the relay nor through what jumps to it. -/
theorem target_of_circles (hRelay : f.Relay t d) (hx : f.Circles x)
    (hTarget : f.trampolineTarget? x = some u) : g.trampolineTarget? x = some u := by
  have hxt : x ≠ t := fun hEq => hRelay.not_circles (hEq ▸ hx)
  have hxp : x ≠ p := by
    rintro rfl
    obtain ⟨front, old, new, hCode, hOp, -⟩ := h.start
    obtain rfl : u = t := (jumpsTo_of_trampolineTarget? hTarget).eq ⟨front, old, hCode, hOp⟩
    exact hRelay.not_circles (hx.next hTarget)
  rw [trampolineTarget?_eq_some_iff, h.code_eq x hxp hxt]
  exact trampolineTarget?_eq_some_iff.mp hTarget

theorem circles (hRelay : f.Relay t d) (hx : f.Circles x) : g.Circles x := by
  -- every block on the circle is on a circle itself
  have hAlong : ∀ {a path}, f.hops.Walk a path x → f.Circles a → g.hops.Reaches a x := by
    intro a path w
    generalize hEnd : x = goal at w
    induction w with
    | nil a => exact fun _ => .refl a
    | cons edge rest ih =>
      intro ha
      have hTarget := mem_next_hops.mp edge
      have hKept := h.target_of_circles hRelay ha hTarget
      exact ((Digraph.Reaches.refl _).step (mem_next_hops.mpr hKept)).trans
        (ih hEnd (ha.next hTarget))
  obtain ⟨u, hTarget, path, w⟩ := id hx
  exact ⟨u, h.target_of_circles hRelay hx hTarget, hAlong w (hx.next hTarget)⟩

/-- No block becomes a relay. -/
theorem relay (hRelay : f.Relay t d) (hx : g.Relay x u) : ∃ c, f.Relay x c := by
  have hNot : ¬ f.Circles x := fun hCircles => hx.not_circles (h.circles hRelay hCircles)
  rcases h.target hx.target with ⟨rfl, -, hTarget⟩ | ⟨-, hTarget⟩
  · exact ⟨t, hTarget, no_phi_of_trampolineTarget? hRelay.target, hNot⟩
  · exact ⟨u, hTarget, h.no_phi hRelay hx.no_phi, hNot⟩

end Threaded

namespace Detour

variable (h : f.Detour p t d) (hg : Taken f p d g)
include h hg

theorem threaded : Threaded f p t d g := by
  obtain ⟨front, old, new, hBefore, hOld, hAfter, hNew, -⟩ := exists_code_taken h hg
  refine ⟨⟨front, old, new, hBefore, hOld, hAfter, hNew⟩, fun x hx _ => ?_,
    .inl (code_trampoline h hg)⟩
  obtain ⟨_, _, hEx, -⟩ := hg
  exact hEx.code_of_ne x hx

theorem threaded_removeBlock (hm : f.Mirrored) (hEntry : g.entry ≠ some t) :
    Threaded f p t d (g.removeBlock t).2 := by
  have hThreaded := threaded h hg
  obtain ⟨front, new, hEx, -⟩ := id hg
  have hShrunk := removeBlock_shrunk (hEx.frame.mirrored hm) (hasBlock_trampoline h hg) hEntry
  have hCode : ∀ x, x ≠ t → (g.removeBlock t).2.code x = g.code x := fun x hx =>
    hShrunk.code_eq x (decide_eq_true hx)
  refine ⟨?_, fun x hxp hxt => (hCode x hxt).trans (hThreaded.code_eq x hxp hxt), .inr ?_⟩
  · rw [hCode p h.ne]
    exact hThreaded.start
  · refine code_of_not_hasBlock (Bool.of_not_eq_true fun ht => ?_)
    exact of_decide_eq_true ((hShrunk.hasBlock_iff t).mp ht).1 rfl

end Detour

/-- A jump is threaded exactly if it is to a relay. -/
theorem threadJump_relay (hc : f.Consistent) (hf : f.Sequenced) (p t : BlockId) :
    (f.threadJump p t = (false, f) ∧ ∀ d, f.JumpsTo p t → ¬ f.Relay t d) ∨
    ∃ d, f.JumpsTo p t ∧ f.Relay t d ∧ (f.threadJump p t).1 = true ∧
      Threaded f p t d (f.threadJump p t).2 := by
  have hCircles := inTrampolineCycle_iff (b := t) hc
  rcases threadJump_cases hf hc.mirrored p t with
    ⟨hEq, hNone⟩ | ⟨d, g, hDetour, hCycle, hTaken, hEq⟩
  · refine .inl ⟨hEq, fun d hJump hRelay => hRelay.not_circles ?_⟩
    have hpt : p ≠ t := by
      rintro rfl
      exact hRelay.ne (hJump.eq (jumpsTo_of_trampolineTarget? hRelay.target))
    have hBounces := trampolineTarget?_eq_some_iff.mp hRelay.target
    exact hCircles.mp (hNone d ⟨hpt, hJump, hBounces, hRelay.no_phi⟩ hRelay.ne)
  · have hRelay : f.Relay t d :=
      ⟨trampolineTarget?_eq_some_iff.mpr hDetour.bounces, hDetour.no_phi, fun h => by
        rw [hCircles.mpr h] at hCycle
        cases hCycle⟩
    refine .inr ⟨d, hDetour.leaves, hRelay, ?_⟩
    rcases hEq with hEq | ⟨-, hEntry, hEq⟩
    · rw [hEq]
      exact ⟨rfl, hDetour.threaded hTaken⟩
    · rw [hEq]
      exact ⟨rfl, hDetour.threaded_removeBlock hTaken hc.mirrored hEntry⟩

theorem Wired.threadJump (hw : f.Wired) (hc : f.Consistent) (p t : BlockId) :
    (f.threadJump p t).2.Wired :=
  (Retraces.threadJump ⟨hc, hw, fun _ => .rfl⟩ p t).wired

/-! ## One round -/

/-- A jump that can be threaded is still to be looked at. -/
structure Settling (pending : BlockId → BlockId → Prop) (f : Func) : Prop where
  consistent : f.Consistent
  wired : f.Wired
  rest : ∀ p t d, f.JumpsTo p t → f.Relay t d → pending p t

namespace Settling

theorem imp {pending pending' : BlockId → BlockId → Prop} (h : Settling pending f)
    (hImp : ∀ p t d, f.JumpsTo p t → f.Relay t d → pending p t → pending' p t) :
    Settling pending' f :=
  ⟨h.consistent, h.wired, fun p t d hJump hRelay =>
    hImp p t d hJump hRelay (h.rest p t d hJump hRelay)⟩

variable {order preds : List BlockId}

theorem threadJump (h : Settling (fun q u => u ∈ order ∨ u = t ∧ q ∈ p :: preds) f) :
    Settling (fun q u => u ∈ order ∨ u = t ∧ q ∈ preds) (f.threadJump p t).2 := by
  have hOthers : ∀ q u, q ≠ p ∨ u ≠ t → (u ∈ order ∨ u = t ∧ q ∈ p :: preds) →
      u ∈ order ∨ u = t ∧ q ∈ preds := by
    rintro q u hne (hu | ⟨rfl, hq⟩)
    · exact .inl hu
    · refine .inr ⟨rfl, (List.mem_cons.mp hq).resolve_left ?_⟩
      exact hne.resolve_right fun hnu => hnu rfl
  rcases threadJump_relay h.consistent h.wired.toSequenced p t with
    ⟨hEq, hNone⟩ | ⟨d, -, hRelay, -, hThreaded⟩
  · rw [hEq]
    refine h.imp fun q u d hJump hRelay => hOthers q u ?_
    by_contra hSame
    rw [not_or, not_not, not_not] at hSame
    obtain ⟨rfl, rfl⟩ := hSame
    exact hNone d hJump hRelay
  · refine ⟨h.consistent.threadJump p t, h.wired.threadJump h.consistent p t, ?_⟩
    intro q u e hJump hLater
    obtain ⟨c, hBefore⟩ := hThreaded.relay hRelay hLater
    rcases hThreaded.jumpsTo hJump with ⟨rfl, rfl⟩ | ⟨hq, hOld⟩
    · -- the relay that was left out is a jump to the same block
      have hOn := h.rest t u c (jumpsTo_of_trampolineTarget? hRelay.target) hBefore
      exact .inl (hOn.resolve_right fun hSelf => hRelay.ne hSelf.1.symm)
    · exact hOthers q u (.inl hq) (h.rest q u c hOld hBefore)

theorem foldl_threadJump (h : Settling (fun q u => u ∈ order ∨ u = t ∧ q ∈ preds) f) :
    Settling (fun _ u => u ∈ order) (preds.foldl (fun g p => (g.threadJump p t).2) f) := by
  induction preds generalizing f with
  | nil => exact h.imp fun _ _ _ _ _ hu => hu.resolve_right fun hNone => List.not_mem_nil hNone.2
  | cons p preds ih => exact ih h.threadJump

/-- When a block has had its turn, no jump to it can be threaded any more. -/
theorem threadAt (h : Settling (fun _ u => u ∈ t :: order) f) :
    Settling (fun _ u => u ∈ order) (f.threadAt t).2 := by
  rw [threadAt_snd]
  split
  · refine foldl_threadJump (h.imp fun q u _ hJump _ hu => ?_)
    rcases List.mem_cons.mp hu with rfl | hu
    · exact .inr ⟨rfl, (h.consistent.mirrored q u).mp (hJump.mem_succs h.wired.toSequenced)⟩
    · exact .inl hu
  · rename_i hNot
    refine h.imp fun q u d _ hRelay hu => (List.mem_cons.mp hu).resolve_left ?_
    rintro rfl
    rw [isTrampoline, hRelay.target] at hNot
    exact hNot rfl

theorem foldl_threadAt (h : Settling (fun _ u => u ∈ order) f) :
    Settling (fun _ _ => False) (order.foldl (fun g t => (g.threadAt t).2) f) := by
  induction order generalizing f with
  | nil => exact h.imp fun _ u _ _ _ hu => List.not_mem_nil hu
  | cons t order ih => exact ih h.threadAt

theorem threadRound (hc : f.Consistent) (hw : f.Wired) :
    Settling (fun _ _ => False) f.threadRound.2 := by
  rw [threadRound_snd]
  exact foldl_threadAt ⟨hc, hw, fun _ _ _ hJump _ => hJump.mem_layout hw.toSequenced hc⟩

theorem threadJump_eq (h : Settling (fun _ _ => False) f) (p t : BlockId) :
    f.threadJump p t = (false, f) := by
  rcases threadJump_relay h.consistent h.wired.toSequenced p t with
    ⟨hEq, -⟩ | ⟨d, hJump, hRelay, -⟩
  · exact hEq
  · exact (h.rest p t d hJump hRelay).elim

end Settling

theorem threadRound_of_fixed (h : ∀ p t, f.threadJump p t = (false, f)) :
    f.threadRound = (0, f) := by
  have hAt : ∀ t, f.threadAt t = (0, f) := by
    intro t
    rw [threadAt]
    split
    · exact List.foldl_fixed' (fun p => by simp [h]) _
    · rfl
  exact List.foldl_fixed' (fun t => by simp [hAt]) _

theorem threadJumps_of_fixed (h : ∀ p t, f.threadJump p t = (false, f)) (limit : Nat) :
    f.threadJumps limit = (0, f) := by
  cases limit with
  | zero => rfl
  | succ limit =>
    rw [threadJumps, threadRound_of_fixed h]
    rfl

/-- **Threading jumps reaches its end.** In a consistent and valid function, when one round for each
block has been allowed, no jump is left that can be threaded, and threading jumps again does
nothing. The first round has done it all. -/
theorem threadJumps_settles (f : Func) (hConsistent : f.Consistent) (hValid : f.isValid = true) :
    let g := (f.threadJumps f.layout.length).2
    g = f.threadRound.2 ∧ (∀ p t, g.threadJump p t = (false, g)) ∧
      ∀ limit, g.threadJumps limit = (0, g) := by
  have hRetraces := Retraces.of_isValid hConsistent hValid
  have hSettled := (Settling.threadRound hConsistent hRetraces.wired).threadJump_eq
  have hFirst : (f.threadJumps f.layout.length).2 = f.threadRound.2 := by
    cases hLayout : f.layout with
    | nil =>
      rw [threadRound, hLayout]
      rfl
    | cons b order =>
      rw [List.length_cons, threadJumps]
      split
      · rename_i g hEq
        rw [hEq]
      · rename_i n g _ hEq
        rw [hEq] at hSettled ⊢
        rw [threadJumps_of_fixed hSettled]
  rw [hFirst]
  exact ⟨rfl, hSettled, threadJumps_of_fixed hSettled⟩

theorem relays_settles :
    relays.Consistent ∧ relays.isValid = true ∧ (relays.threadJumps relays.layout.length).1 = 4 ∧
      (relays.threadJumps relays.layout.length).2 = relays.threadRound.2 ∧
      (∀ p t, (relays.threadJumps relays.layout.length).2.threadJump p t =
        (false, (relays.threadJumps relays.layout.length).2)) ∧
      ∀ limit, (relays.threadJumps relays.layout.length).2.threadJumps limit =
        (0, (relays.threadJumps relays.layout.length).2) := by
  have hConsistent : relays.Consistent := by decide +kernel
  have hValid : relays.isValid = true := by decide +kernel
  exact ⟨hConsistent, hValid, by decide +kernel, threadJumps_settles relays hConsistent hValid⟩

end Func

end Midend
