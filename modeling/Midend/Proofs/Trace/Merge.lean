import Midend.Proofs.Trace.Basic

/-!
# Merging blocks changes no trace

Where one function goes from the first block to the second, the other goes on in the merged block;
what is seen there is what was seen of both (`Fused.observedAt_first`). Behind them control is said
to come from the second block before, and from the first one after, and the phis have been told.
-/

namespace Midend

namespace Func

variable {f g : Func} {a b x : BlockId} {front : List Inst} {came came' : Option BlockId}
  {seen : List Observation}

namespace Adjoins

/-- Nothing is seen of the terminator between the two blocks. -/
theorem observedAt_first (hAdj : f.Adjoins a b front) (hf : f.Sequenced)
    (came next : Option BlockId) :
    f.observedAt a came next = front.flatMap (·.observed came none) := by
  obtain ⟨old, hCode, -⟩ := hAdj.code_first
  apply observedAt_of_last hCode (hf.not_isTerminator_front hCode) came
  apply Inst.observed_of_only_target
  intro c
  rw [← hf.mem_succs_of_last hCode, hAdj.mem_succs_first]

theorem map_seat_first (hAdj : f.Adjoins a b front) (hCame : f.Comes came a) :
    came.map (seat a b) = came := by
  cases came with
  | none => rfl
  | some y =>
    have hy : y ≠ b := fun hEq => hAdj.no_return (hEq ▸ hCame y rfl)
    rw [Option.map_some, seat_of_ne hy]

/-- Only the first block leads to the second. -/
theorem ne_of_mem_succs (hAdj : f.Adjoins a b front) {n : BlockId} (edge : n ∈ f.succs x)
    (hx : x ≠ a) : n ≠ b :=
  fun hEq => hx ((hAdj.mem_succs_second x).mp (hEq ▸ edge))

end Adjoins

namespace Fused

section

variable (h : Fused f a b front g) (hAdj : f.Adjoins a b front)
include h hAdj

theorem observedAt_first (hf : f.Sequenced) (came next next' : Option BlockId) :
    g.observedAt a came next = f.observedAt a came next' ++ f.observedAt b (some a) next := by
  obtain ⟨old, hCode, -⟩ := hAdj.code_first
  rw [observedAt_eq g, h.code_first, List.flatMap_append, hAdj.observedAt_first hf,
    ← observedAt_eq, observedAt_of_no_phi hAdj.no_phi came (some a)]
  congr 1
  exact List.flatMap_congr fun i hi =>
    Inst.observed_of_not_isTerminator (hf.not_isTerminator_front hCode i hi) came next none

theorem observedAt_other (hf : f.Wired) (hxa : x ≠ a) (hxb : x ≠ b) (hCame : f.Comes came x)
    (next : Option BlockId) :
    g.observedAt x (came.map (seat a b)) next = f.observedAt x came next := by
  have hNot : ¬ x ∈ f.succs a := fun edge => hxb ((hAdj.mem_succs_first x).mp edge)
  rw [observedAt_eq, observedAt_eq, h.code_of_ne x hxa hxb, List.flatMap_map]
  refine List.flatMap_congr fun i hi => Inst.observed_moveIncoming ?_ ?_ next
  · intro hPhi ha
    exact hNot (((hf.pairs x i hi hPhi).2.2 a).mp ha)
  · intro hEq
    exact hNot (hCame a hEq)

/-- A run is shown by the merged function. The second half is for a run that is in the second block;
the other function has been in the merged one since the first. -/
theorem shows_of_runs (hf : f.Wired) (hRun : f.Runs came x seen) (hCame : f.Comes came x) :
    (x ≠ b → g.Shows (came.map (seat a b)) x seen) ∧
      (x = b → ∀ came', g.Shows came' a (f.observedAt a came' none ++ seen)) := by
  have hSeq := hf.toSequenced
  induction hRun with
  | stop came x =>
    refine ⟨fun hxb => ?_, fun hxb came' => ?_⟩
    · by_cases hxa : x = a
      · rw [hxa] at hCame ⊢
        rw [hAdj.map_seat_first hCame]
        refine (Shows.stop g came a).mono ?_
        rw [observedAt_first h hAdj hSeq came none none]
        exact List.prefix_append ..
      · rw [← observedAt_other h hAdj hf hxa hxb hCame]
        exact .stop g _ x
    · rw [hxb, observedAt_of_no_phi hAdj.no_phi came (some a), ← observedAt_first h hAdj hSeq]
      exact .stop g came' a
  | @step came x n seen edge rest ih =>
    have ih := ih (.edge edge)
    refine ⟨fun hxb => ?_, fun hxb came' => ?_⟩
    · by_cases hxa : x = a
      · rw [hxa] at hCame edge ⊢
        rw [hAdj.map_seat_first hCame, hAdj.observedAt_first hSeq came (some n),
          ← hAdj.observedAt_first hSeq came none]
        exact ih.2 ((hAdj.mem_succs_first n).mp edge) came
      · have hNext := ih.1 (hAdj.ne_of_mem_succs edge hxa)
        rw [Option.map_some, seat_of_ne hxb] at hNext
        rw [← observedAt_other h hAdj hf hxa hxb hCame]
        exact .step ((h.mem_succs x n).mpr (.inr ⟨hxa, hxb, edge⟩)) hNext
    · rw [hxb] at edge ih
      have hNext := ih.1 (hAdj.ne_of_mem_succs edge hAdj.ne.symm)
      rw [Option.map_some, seat_second] at hNext
      rw [hxb, observedAt_of_no_phi hAdj.no_phi came (some a), ← List.append_assoc,
        ← observedAt_first h hAdj hSeq]
      exact .step ((h.mem_succs a n).mpr (.inl ⟨rfl, edge⟩)) hNext

/-- Where the merged function goes through the merged block, the other goes through both. -/
theorem shows_of_runs_fused (hf : f.Wired) (hRun : g.Runs came' x seen) (hxb : x ≠ b)
    (hCame : f.Comes came x) (hSeat : came' = came.map (seat a b)) : f.Shows came x seen := by
  have hSeq := hf.toSequenced
  have hEdge : b ∈ f.succs a := (hAdj.mem_succs_first b).mpr rfl
  induction hRun generalizing came with
  | stop came' x =>
    by_cases hxa : x = a
    · rw [hxa] at hCame ⊢
      rw [hSeat, hAdj.map_seat_first hCame, observedAt_first h hAdj hSeq came none (some b)]
      exact .step hEdge (.stop f (some a) b)
    · rw [hSeat, observedAt_other h hAdj hf hxa hxb hCame]
      exact .stop f came x
  | @step came' x n seen edge rest ih =>
    rcases (h.mem_succs x n).mp edge with ⟨hxa, edge⟩ | ⟨hxa, -, edge⟩
    · have hNext : f.Shows (some b) n seen :=
        ih (hAdj.ne_of_mem_succs edge hAdj.ne.symm) (.edge edge) (by simp [hxa])
      rw [hxa] at hCame ⊢
      rw [hSeat, hAdj.map_seat_first hCame, observedAt_first h hAdj hSeq came (some n) (some b),
        List.append_assoc]
      exact .step hEdge (.step edge hNext)
    · have hNext : f.Shows (some x) n seen :=
        ih (hAdj.ne_of_mem_succs edge hxa) (.edge edge) (by simp [seat_of_ne hxb])
      rw [hSeat, observedAt_other h hAdj hf hxa hxb hCame]
      exact .step edge hNext

theorem observable_iff (hf : f.Wired) (seen : List Observation) :
    g.Observable seen ↔ f.Observable seen := by
  have hStart : ∀ e, f.entry = some e → e ≠ b := fun e he hEq => hAdj.entry_ne (hEq ▸ he)
  constructor
  · intro hSeen
    refine hSeen.of_runs h.entry_eq.symm fun e longer he hRun => ?_
    exact shows_of_runs_fused h hAdj hf hRun (hStart e (h.entry_eq ▸ he)) (.none f e) rfl
  · intro hSeen
    refine hSeen.of_runs h.entry_eq fun e longer he hRun => ?_
    exact (shows_of_runs h hAdj hf hRun (.none f e)).1 (hStart e he)

end

end Fused

theorem Retraces.mergeBlocks (hf : Retraces f g) (a b : BlockId) :
    Retraces f (g.mergeBlocks a b).2 := by
  apply hf.trans
  have hc := hf.consistent.mergeBlocks a b
  rcases mergeBlocks_cases hf.consistent.arranged hf.wired a b with hEq | ⟨front, hAdj, hFused⟩
  · rw [hEq]
    exact hf.refl_right
  · exact ⟨hc, hFused.wired hAdj hf.wired, hFused.observable_iff hAdj hf.wired⟩

/-- **Merging blocks preserves execution.** Merging all the blocks that can be merged in a consistent
and valid function changes nothing that can be seen of an execution. -/
theorem mergeAll_keeps_traces (f : Func) (hConsistent : f.Consistent) (hValid : f.isValid = true)
    (seen : List Observation) : f.mergeAll.2.Observable seen ↔ f.Observable seen :=
  (mergeAll_induct (P := Retraces f) (fun _ a b hg => hg.mergeBlocks a b)
    (.of_isValid hConsistent hValid)).observable_iff seen

/-- The entry leads to the second block by both sides of a branch and the second to the third; the
loop behind them has two blocks as well. Its phi has a pair for each last one. -/
def chained : Func :=
  [.createBlock "entry", .createBlock "second", .createBlock "third", .createBlock "head",
    .createBlock "body", .createBlock "tail", .createBlock "exit",
    .append ⟨0⟩ .bool (.const (.bool true)), .append ⟨0⟩ (.scalar .i32) (.const (.int 9)),
    .append ⟨0⟩ .void (.branch ⟨0⟩ ⟨1⟩ ⟨1⟩), .append ⟨1⟩ (.scalar .i32) (.binary .add ⟨1⟩ ⟨1⟩),
    .append ⟨1⟩ .void (.jump ⟨2⟩), .append ⟨2⟩ .void (.jump ⟨3⟩),
    .append ⟨3⟩ (.scalar .i32) (.phi [⟨⟨2⟩, ⟨3⟩⟩]), .append ⟨3⟩ .void (.branch ⟨0⟩ ⟨4⟩ ⟨6⟩),
    .append ⟨4⟩ (.scalar .i32) (.binary .add ⟨6⟩ ⟨1⟩), .append ⟨4⟩ .void (.jump ⟨5⟩),
    .append ⟨5⟩ (.scalar .i32) (.unary .neg ⟨8⟩), .append ⟨5⟩ .void (.jump ⟨3⟩),
    .addIncoming ⟨6⟩ ⟨5⟩ ⟨10⟩, .append ⟨6⟩ .void (.ret (some ⟨6⟩))].foldl build
      (.empty "chained" (.scalar .i32))

theorem chained_keeps_traces :
    chained.Consistent ∧ chained.isValid = true ∧ chained.mergeAll.1 = 3 ∧
      ∀ seen, chained.mergeAll.2.Observable seen ↔ chained.Observable seen := by
  have hConsistent : chained.Consistent := by decide +kernel
  have hValid : chained.isValid = true := by decide +kernel
  exact ⟨hConsistent, hValid, by decide +kernel, mergeAll_keeps_traces chained hConsistent hValid⟩

end Func

end Midend
