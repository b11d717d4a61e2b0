import Midend.Proofs.Shape.Thread
import Midend.Proofs.Trace.Basic

/-!
# Threading jumps changes no trace

A jump that is threaded leads past a block of which nothing is seen. The run that takes the detour
and the one that does not are followed together (`Detour.shows_of_runs`, `Detour.shows_of_runs_taken`);
they differ in where control is said to come from only at the end of the detour, where no phi looks.
-/

namespace Midend

namespace Func

variable {f g : Func} {c p t d x : BlockId} {came : Option BlockId} {seen : List Observation}

namespace Detour

theorem exists_code_taken (h : f.Detour p t d) (hg : Taken f p d g) :
    ∃ front old new, f.code p = front ++ [old] ∧ old.op = .jump t ∧ g.code p = front ++ [new] ∧
      new.op = .jump d ∧ ∀ i ∈ front, i.isTerminator = false := by
  obtain ⟨front, new, hEx, hNew⟩ := hg
  obtain ⟨front', old', hCode, hOld⟩ := h.leaves
  rcases hEx.code_before with hEq | ⟨old, hEq, -⟩
  · have hOpen := hEx.front_open old' (by simp [← hEq, hCode])
    rw [Inst.isTerminator, hOld] at hOpen
    cases hOpen
  · rw [hEq] at hCode
    obtain ⟨-, hLast⟩ := List.append_inj' hCode rfl
    obtain ⟨rfl, -⟩ := List.cons.inj hLast
    exact ⟨front, old, new, hEq, hOld, hEx.code_self, hNew, hEx.front_open⟩

theorem observedAt_trampoline (h : f.Detour p t d) (came next : Option BlockId) :
    f.observedAt t came next = [] := by
  obtain ⟨i, hCode, hOp⟩ := h.bounces
  rw [observedAt_eq, hCode, List.flatMap_singleton, Inst.observed_jump hOp]

section Taken

variable (h : f.Detour p t d) (hg : Taken f p d g)
include h hg

theorem observedAt_start (came next next' : Option BlockId) :
    f.observedAt p came next = f.observedAt p came next' := by
  obtain ⟨front, old, new, hCode, hOld, -, -, hFront⟩ := exists_code_taken h hg
  rw [observedAt_of_last hCode hFront came (Inst.observed_jump hOld came next),
    observedAt_of_last hCode hFront came (Inst.observed_jump hOld came next')]

/-- A block shows what it showed, whether its terminator has been exchanged or not. -/
theorem observedAt_taken (x : BlockId) (came next : Option BlockId) :
    g.observedAt x came next = f.observedAt x came next := by
  by_cases hx : x = p
  · obtain ⟨front, old, new, hCode, hOld, hCode', hNew, hFront⟩ := exists_code_taken h hg
    rw [hx, observedAt_of_last hCode hFront came (Inst.observed_jump hOld came next),
      observedAt_of_last hCode' hFront came (Inst.observed_jump hNew came next)]
  · obtain ⟨front, new, hEx, -⟩ := hg
    rw [observedAt_eq, observedAt_eq, hEx.code_of_ne x hx]

theorem no_phi_taken : ∀ i ∈ g.code d, i.isPhi = false := by
  obtain ⟨front, new, hEx, -⟩ := id hg
  intro i hi
  rcases hEx.mem_code hi with hi | ⟨-, rfl⟩
  · exact h.no_phi i hi
  · exact isPhi_eq_false_of_isTerminator hEx.new_terminator

/-- A run that takes the detour is shown without it. The second half is for a run that is in the
middle of the detour; the other function is then at its end already. -/
theorem shows_of_runs (hf : f.Sequenced) (hRun : f.Runs came x seen) :
    g.Shows came x seen ∧ (x = t → g.Shows came d seen) := by
  induction hRun with
  | stop came x =>
    refine ⟨?_, fun hx => ?_⟩
    · rw [← observedAt_taken h hg]
      exact .stop g came x
    · rw [hx, h.observedAt_trampoline]
      exact .nil g came d
  | @step came x n seen edge rest ih =>
    refine ⟨?_, fun hx => ?_⟩
    · by_cases hx : x = p
      · rw [hx] at edge ih ⊢
        have hn : n = t := (h.mem_succs_start hf).mp edge
        rw [observedAt_start h hg came (some n) (some d), ← observedAt_taken h hg]
        exact .step ((mem_succs_taken hg).mpr (.inl ⟨rfl, rfl⟩)) (ih.2 hn)
      · rw [← observedAt_taken h hg]
        exact .step ((mem_succs_taken hg).mpr (.inr ⟨hx, edge⟩)) ih.1
    · rw [hx] at edge
      obtain rfl : n = d := (h.mem_succs_trampoline hf).mp edge
      rw [hx, h.observedAt_trampoline, List.nil_append]
      exact ih.1.of_no_phi (no_phi_taken h hg) came

theorem shows_of_runs_taken (hf : f.Sequenced) (hRun : g.Runs came x seen) : f.Shows came x seen := by
  induction hRun with
  | stop came x =>
    rw [observedAt_taken h hg]
    exact .stop f came x
  | @step came x n seen edge rest ih =>
    rw [observedAt_taken h hg]
    rcases (mem_succs_taken hg).mp edge with ⟨rfl, rfl⟩ | ⟨-, edge⟩
    · rw [observedAt_start h hg came (some n) (some t)]
      have hBounce : f.Shows (some x) t (f.observedAt t (some x) (some n) ++ seen) :=
        .step ((h.mem_succs_trampoline hf).mpr rfl) (ih.of_no_phi h.no_phi (some t))
      rw [h.observedAt_trampoline, List.nil_append] at hBounce
      exact .step ((h.mem_succs_start hf).mpr rfl) hBounce
    · exact .step edge ih

theorem observable_taken (hf : f.Sequenced) (seen : List Observation) :
    g.Observable seen ↔ f.Observable seen := by
  have hEntry : g.entry = f.entry := by
    obtain ⟨front, new, hEx, -⟩ := hg
    exact hEx.frame.entry_eq
  constructor
  · intro hSeen
    exact hSeen.of_runs hEntry.symm fun e longer _ hRun => shows_of_runs_taken h hg hf hRun
  · intro hSeen
    exact hSeen.of_runs hEntry fun e longer _ hRun => (shows_of_runs h hg hf hRun).1

/-- A trampoline that nothing leads to any more can be removed. -/
theorem retraces_removeBlock (hf : f.Sequenced) (hc : g.Consistent) (hw : g.Wired)
    (hEmpty : (g.preds t).isEmpty = true) (hEntry : g.entry ≠ some t) :
    Retraces g (g.removeBlock t).2 := by
  have hUnled : ∀ a, ¬ t ∈ g.succs a := fun a edge =>
    SortedSet.isEmpty_iff.mp hEmpty a ((hc.mirrored a t).mp edge)
  have hShrunk := removeBlock_shrunk hc.mirrored (hasBlock_trampoline h hg) hEntry
  apply hShrunk.retraces (hc.removeBlock t) hw
  · intro e he
    exact decide_eq_true fun hEq => hEntry (hEq ▸ he)
  · intro x c _ edge
    exact decide_eq_true fun hEq => hUnled x (hEq ▸ edge)
  · intro x i hi hPhi a edge
    exact decide_eq_true (ne_trampoline_of_phi h hg hf hi hPhi edge)

end Taken

end Detour

theorem Retraces.threadJump (hf : Retraces f g) (p t : BlockId) :
    Retraces f (g.threadJump p t).2 := by
  apply hf.trans
  have hc := hf.consistent.threadJump p t
  have hSeq := hf.wired.toSequenced
  rcases threadJump_cases hSeq hf.consistent.mirrored p t with
    ⟨hEq, -⟩ | ⟨d, h, hDetour, -, hTaken, hEq | ⟨hEmpty, hEntry, hEq⟩⟩
  · rw [hEq]
    exact hf.refl_right
  · rw [hEq] at hc ⊢
    exact ⟨hc, hDetour.wired hTaken hf.wired, hDetour.observable_taken hTaken hSeq⟩
  · have hTakenCons : h.Consistent := by
      obtain ⟨front, new, hEx, -⟩ := hTaken
      exact hEx.frame.consistent hf.consistent (hEx.numbered hf.consistent.numbered)
    have hWired := hDetour.wired hTaken hf.wired
    rw [hEq]
    exact Retraces.trans ⟨hTakenCons, hWired, hDetour.observable_taken hTaken hSeq⟩
      (hDetour.retraces_removeBlock hTaken hSeq hTakenCons hWired hEmpty hEntry)

/-- **Threading jumps preserves execution.** Whatever the limit on rounds, threading the jumps of a
consistent and valid function changes nothing that can be seen of an execution. -/
theorem threadJumps_keeps_traces (f : Func) (hConsistent : f.Consistent) (hValid : f.isValid = true)
    (limit : Nat) (seen : List Observation) :
    (f.threadJumps limit).2.Observable seen ↔ f.Observable seen :=
  (threadJumps_induct (P := Retraces f) (fun _ p t hg => hg.threadJump p t) limit
    (.of_isValid hConsistent hValid)).observable_iff seen

/-- Two ways lead through the same two blocks that only jump, on to a loop whose end only jumps as
well; two more blocks that only jump lead to each other. -/
def relays : Func :=
  [.createBlock "entry", .createBlock "left", .createBlock "right", .createBlock "relay",
    .createBlock "gate", .createBlock "landing", .createBlock "loop", .createBlock "latch",
    .createBlock "exit", .createBlock "ping", .createBlock "pong",
    .append ⟨0⟩ .bool (.const (.bool true)), .append ⟨0⟩ (.scalar .i32) (.const (.int 9)),
    .append ⟨0⟩ .void (.branch ⟨0⟩ ⟨1⟩ ⟨2⟩), .append ⟨1⟩ (.scalar .i32) (.binary .add ⟨1⟩ ⟨1⟩),
    .append ⟨1⟩ .void (.jump ⟨3⟩), .append ⟨2⟩ .void (.jump ⟨3⟩), .append ⟨3⟩ .void (.jump ⟨4⟩),
    .append ⟨4⟩ .void (.jump ⟨5⟩), .append ⟨5⟩ (.scalar .i32) (.unary .neg ⟨1⟩),
    .append ⟨5⟩ .void (.jump ⟨6⟩), .append ⟨6⟩ (.scalar .i32) (.phi [⟨⟨5⟩, ⟨8⟩⟩]),
    .append ⟨6⟩ .void (.branch ⟨0⟩ ⟨7⟩ ⟨8⟩), .append ⟨7⟩ .void (.jump ⟨6⟩),
    .addIncoming ⟨10⟩ ⟨7⟩ ⟨1⟩, .append ⟨8⟩ .void (.ret (some ⟨10⟩)), .append ⟨9⟩ .void (.jump ⟨10⟩),
    .append ⟨10⟩ .void (.jump ⟨9⟩)].foldl build (.empty "relays" (.scalar .i32))

theorem relays_keeps_traces :
    relays.Consistent ∧ relays.isValid = true ∧ (relays.threadJumps 2).1 = 4 ∧
      (relays.threadJumps 2).2.layout.length = 9 ∧
      ∀ seen, (relays.threadJumps 2).2.Observable seen ↔ relays.Observable seen := by
  have hConsistent : relays.Consistent := by decide +kernel
  have hValid : relays.isValid = true := by decide +kernel
  exact ⟨hConsistent, hValid, by decide +kernel, by decide +kernel,
    threadJumps_keeps_traces relays hConsistent hValid 2⟩

end Func

end Midend
