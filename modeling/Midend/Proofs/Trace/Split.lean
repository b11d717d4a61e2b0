import Midend.Proofs.Trace.Basic

/-!
# Splitting critical edges changes no trace

Where one function goes along an edge, the other goes through a block that only jumps. At the end of
the edge control is said to come from that block, and the phis have been told; at its start the
branch leads to that block, on the same side (`Bridge.observedAt_led`). A terminator that reads a
value which is not there without it cannot be exchanged, and its edge stays as it is.
-/

namespace Midend

namespace Func

variable {f g : Func} {a b c s x : BlockId} {front : List Inst} {came came' next : Option BlockId}
  {seen : List Observation}

namespace Bridge

/-- Where control is said to come from after the edge has been led through the new block. -/
def cameBy (a b s x : BlockId) (came : Option BlockId) : Option BlockId :=
  if x = b then came.map fun y => if y = a then s else y else came

/-- Where control goes next after the edge has been led through the new block. -/
def goBy (a b s x : BlockId) (next : Option BlockId) : Option BlockId :=
  if x = a then next.map fun y => if y = b then s else y else next

theorem cameBy_edge : cameBy a b s b (some a) = some s := by simp [cameBy]

theorem cameBy_of_ne {n : BlockId} (hNot : ¬ (x = a ∧ n = b)) :
    cameBy a b s n (some x) = some x := by
  rw [cameBy]
  split
  · rename_i hn
    have hx : x ≠ a := fun hx => hNot ⟨hx, hn⟩
    simp [hx]
  · rfl

theorem goBy_edge : goBy a b s a (some b) = some s := by simp [goBy]

theorem goBy_of_ne {n : BlockId} (hNot : ¬ (x = a ∧ n = b)) :
    goBy a b s x (some n) = some n := by
  rw [goBy]
  split
  · rename_i hx
    have hn : n ≠ b := fun hn => hNot ⟨hx, hn⟩
    simp [hn]
  · rfl

theorem goBy_none : goBy a b s x none = none := by
  rw [goBy]
  split <;> rfl

section

variable (hg : Bridge f a b s front g)
include hg

/-- The branch at the start of the edge is seen to take the same side. -/
theorem observedAt_bridge (hf : f.Sequenced) (hxs : x ≠ s) (came : Option BlockId)
    (hNext : ∀ n, next = some n → n ∈ f.succs x) :
    g.observedAt x came (goBy a b s x next) = f.observedAt x came next := by
  obtain ⟨mid, jump, old, new, hMid, -, hCode, hOld, hEx, hNew⟩ := hg.built
  by_cases hxa : x = a
  · subst hxa
    have hLast : ∀ c, c ∈ f.succs x ↔ c ∈ old.op.targets := fun c => hf.mem_succs_of_last hCode
    rw [observedAt_eq, observedAt_eq, hEx.code_self, hCode, List.flatMap_append,
      List.flatMap_append, List.flatMap_singleton, List.flatMap_singleton, goBy, if_pos rfl]
    congr 1
    · exact List.flatMap_congr fun i hi =>
        Inst.observed_of_not_isTerminator (hf.not_isTerminator_front hCode i hi) came _ next
    · apply Inst.observed_of_mapBlocks hNew ((hLast b).mp hg.edge)
      · intro y hy z hz hEq
        have hys : y ≠ s := fun h => hg.unled x (h ▸ (hLast y).mpr hy)
        have hzs : z ≠ s := fun h => hg.unled x (h ▸ (hLast z).mpr hz)
        grind
      · exact fun n hn => (hLast n).mp (hNext n hn)
  · rw [observedAt_eq, observedAt_eq, hEx.code_of_ne x hxa, hMid.code_of_ne x hxs, goBy,
      if_neg hxa]

/-- The phis at the end of the edge take the values that they took. -/
theorem observedAt_told (hf : f.Wired) (hCame : f.Comes came x) (next : Option BlockId) :
    (g.rewrite b (·.map (·.moveIncoming a s))).observedAt x (cameBy a b s x came) next =
      g.observedAt x came next := by
  have hNone := hf.not_mem_succs_of_empty hg.empty
  rw [observedAt_eq, observedAt_eq, code_told, List.flatMap_map]
  refine List.flatMap_congr fun i hi => ?_
  by_cases hxb : x = b
  · rw [told, if_pos hxb, cameBy, if_pos hxb]
    apply Inst.observed_moveIncoming
    · intro hPhi hs
      rcases mem_code hg hi with hi | hTerm
      · exact hNone x (((hf.pairs x i hi hPhi).2.2 s).mp hs)
      · rw [isPhi_eq_false_of_isTerminator hTerm] at hPhi
        cases hPhi
    · intro hEq
      exact hNone x (hCame s hEq)
  · rw [told, if_neg hxb, cameBy, if_neg hxb]

theorem observedAt_led (hf : f.Wired) (hxs : x ≠ s) (hCame : f.Comes came x)
    (hNext : ∀ n, next = some n → n ∈ f.succs x) :
    (g.rewrite b (·.map (·.moveIncoming a s))).observedAt x (cameBy a b s x came)
      (goBy a b s x next) = f.observedAt x came next := by
  rw [observedAt_told hg hf hCame, observedAt_bridge hg hf.toSequenced hxs came hNext]

theorem observedAt_new (came next : Option BlockId) :
    (g.rewrite b (·.map (·.moveIncoming a s))).observedAt s came next = [] := by
  obtain ⟨jump, hCode, hJump⟩ := code_led_new hg
  rw [observedAt_eq, hCode, List.flatMap_singleton]
  exact Inst.observed_jump hJump came next

/-- A run along the edge is shown by going through the new block. -/
theorem shows_of_runs (hf : f.Wired) (hRun : f.Runs came x seen) (hxs : x ≠ s)
    (hCame : f.Comes came x) :
    (g.rewrite b (·.map (·.moveIncoming a s))).Shows (cameBy a b s x came) x seen := by
  have hEdges := fun y c => mem_succs_led hg hf.toSequenced (x := y) (c := c)
  induction hRun with
  | stop came x =>
    rw [← observedAt_led hg hf hxs hCame (fun n hn => by cases hn), goBy_none]
    exact .stop _ _ x
  | @step came x n seen edge rest ih =>
    have hNext := ih (fun hn => hg.unled x (hn ▸ edge)) (.edge edge)
    rw [← observedAt_led hg hf hxs hCame (fun m hm => by cases hm; exact edge)]
    by_cases hEdge : x = a ∧ n = b
    · obtain ⟨rfl, rfl⟩ := hEdge
      rw [cameBy_edge] at hNext
      have hVia : (g.rewrite n (·.map (·.moveIncoming x s))).Shows (some x) s seen := by
        rw [← List.nil_append seen, ← observedAt_new hg (some x) (some n)]
        exact .step ((hEdges s n).mpr (.inl ⟨rfl, rfl⟩)) hNext
      rw [goBy_edge]
      exact .step ((hEdges x s).mpr (.inr (.inl ⟨rfl, .inl rfl⟩))) hVia
    · rw [cameBy_of_ne hEdge] at hNext
      rw [goBy_of_ne hEdge]
      refine .step ((hEdges x n).mpr (.inr ?_)) hNext
      by_cases hxa : x = a
      · exact .inl ⟨hxa, .inr ⟨hxa ▸ edge, fun hn => hEdge ⟨hxa, hn⟩⟩⟩
      · exact .inr ⟨hxs, hxa, edge⟩

/-- A run through the new block is shown by going along the edge. The second half is for a run that
is in the new block; the other function is at the end of the edge already. -/
theorem shows_of_runs_led (hf : f.Wired)
    (hRun : (g.rewrite b (·.map (·.moveIncoming a s))).Runs came' x seen) :
    (x ≠ s → ∀ came, f.Comes came x → came' = cameBy a b s x came → f.Shows came x seen) ∧
      (x = s → f.Shows (some a) b seen) := by
  have hEdges := fun y c => mem_succs_led hg hf.toSequenced (x := y) (c := c)
  induction hRun with
  | stop came' x =>
    refine ⟨fun hxs came hCame hEq => ?_, fun hx => ?_⟩
    · rw [hEq, ← goBy_none (a := a) (b := b) (s := s) (x := x),
        observedAt_led hg hf hxs hCame (fun n hn => by cases hn)]
      exact .stop f came x
    · rw [hx, observedAt_new hg]
      exact .nil f (some a) b
  | @step came' x n seen edge rest ih =>
    rcases (hEdges x n).mp edge with ⟨rfl, rfl⟩ | ⟨rfl, rfl | ⟨edge, hnb⟩⟩ | ⟨hxs, hxa, edge⟩
    · refine ⟨fun hxs => absurd rfl hxs, fun _ => ?_⟩
      rw [observedAt_new hg, List.nil_append]
      exact ih.1 (second_ne hg) (some a) (.edge hg.edge) cameBy_edge.symm
    · refine ⟨fun hxs came hCame hEq => ?_, fun hx => absurd hx (first_ne hg)⟩
      rw [hEq, ← goBy_edge (a := x) (b := b) (s := n),
        observedAt_led hg hf hxs hCame (fun m hm => by cases hm; exact hg.edge)]
      exact .step hg.edge (ih.2 rfl)
    · have hNot : ¬ (x = x ∧ n = b) := fun h => hnb h.2
      refine ⟨fun hxs came hCame hEq => ?_, fun hx => absurd hx (first_ne hg)⟩
      rw [hEq, ← goBy_of_ne (s := s) hNot,
        observedAt_led hg hf hxs hCame (fun m hm => by cases hm; exact edge)]
      exact .step edge (ih.1 (fun hn => hg.unled x (hn ▸ edge)) (some x) (.edge edge)
        (cameBy_of_ne hNot).symm)
    · have hNot : ¬ (x = a ∧ n = b) := fun h => hxa h.1
      refine ⟨fun _ came hCame hEq => ?_, fun hx => absurd hx hxs⟩
      rw [hEq, ← goBy_of_ne (s := s) hNot,
        observedAt_led hg hf hxs hCame (fun m hm => by cases hm; exact edge)]
      exact .step edge (ih.1 (fun hn => hg.unled x (hn ▸ edge)) (some x) (.edge edge)
        (cameBy_of_ne hNot).symm)

theorem observable_iff (hf : f.Wired) (seen : List Observation) :
    (g.rewrite b (·.map (·.moveIncoming a s))).Observable seen ↔ f.Observable seen := by
  have hEntry : (g.rewrite b (·.map (·.moveIncoming a s))).entry = f.entry := (frame hg).entry_eq
  have hStart : ∀ e, f.entry = some e → e ≠ s := fun e he hEq => hg.entry_ne (hEq ▸ he)
  have hNone : ∀ e, cameBy a b s e none = none := fun e => by
    rw [cameBy]
    split <;> rfl
  constructor
  · intro hSeen
    refine hSeen.of_runs hEntry.symm fun e longer he hRun => ?_
    exact (shows_of_runs_led hg hf hRun).1 (hStart e (hEntry ▸ he)) none (.none f e) (hNone e).symm
  · intro hSeen
    refine hSeen.of_runs hEntry fun e longer he hRun => ?_
    exact hNone e ▸ shows_of_runs hg hf hRun (hStart e he) (.none f e)

end

end Bridge

/-- A new block that is taken away again leaves nothing behind. -/
theorem Grown.retraces_removeBlock {h : Func} {label : String} {jump : Inst}
    (hGrown : Grown f s label g) (hf : f.Consistent) (hw : f.Wired) (hEntry : g.entry = f.entry)
    (hStart : f.entry ≠ some s) (hArranged : g.Arranged) (hJump : Exchanged g s [] jump h)
    (hc : (h.removeBlock s).2.Consistent) : Retraces f (h.removeBlock s).2 := by
  have hShrunk := removeBlock_shrunk (hJump.frame.mirrored hArranged.mirrored)
    (by rw [hJump.frame.hasBlock_eq]; exact (hGrown.hasBlock_iff s).mpr (.inl rfl))
    (by rw [hJump.frame.entry_eq, hEntry]; exact hStart)
  have hFresh : f.hasBlock s = false := hGrown.id_eq ▸ hf.arranged.not_hasBlock_next
  refine .of_same hc hw ?_ ?_ ?_
  · rw [hShrunk.entry_eq, hJump.frame.entry_eq, hEntry]
  · intro x
    by_cases hx : x = s
    · rw [hx, code_of_not_hasBlock hFresh]
      refine code_of_not_hasBlock (Bool.eq_false_iff.mpr fun hHas => ?_)
      exact of_decide_eq_true ((hShrunk.hasBlock_iff s).mp hHas).1 rfl
    · rw [hShrunk.code_eq x (decide_eq_true hx), hJump.code_of_ne x hx, hGrown.code_of_ne x hx]
  · intro x c
    rw [hShrunk.mem_succs, hJump.mem_succs, hGrown.succs_eq hf.arranged, decide_eq_true_iff,
      decide_eq_true_iff]
    constructor
    · rintro ⟨⟨hx, -⟩ | ⟨-, edge⟩, hne, -⟩
      · exact absurd hx hne
      · exact edge
    · intro edge
      have hx : x ≠ s := fun hx => not_mem_succs_of_not_hasBlock hFresh c (hx ▸ edge)
      have hc : c ≠ s := fun hc => hf.mirrored.not_mem_succs_of_not_hasBlock hFresh x (hc ▸ edge)
      exact ⟨.inr ⟨hx, edge⟩, hx, hc⟩

theorem Retraces.splitEdge (hf : Retraces f g) (a b : BlockId) :
    Retraces f (g.splitEdge a b).2 := by
  apply hf.trans
  have hc := hf.consistent.splitEdge a b
  rcases splitEdge_cases hf.wired.toSequenced hf.consistent.arranged a b with ⟨-, hEq⟩ |
    ⟨-, s, label, mid, front, old, hGrown, hArranged, hEntry, hStart, -, -,
      ⟨h, hBridge, hEq⟩ | ⟨jump, h, hJump, hEq, -⟩⟩
  · rw [hEq]
    exact hf.refl_right
  · have hCode := hGrown.code_eq hf.consistent.arranged
    have hSuccs := fun x c => hGrown.succs_eq hf.consistent.arranged (c := c) x
    have hMid := hf.wired.of_same hCode hSuccs
    rw [hEq] at hc ⊢
    refine ⟨hc, hBridge.wired hMid, fun seen => (hBridge.observable_iff hMid seen).trans ?_⟩
    exact observable_congr (K := fun _ => True) hEntry (fun _ _ => trivial) (fun x _ => hCode x)
      (fun x c _ => hSuccs x c) fun _ _ _ _ => trivial
  · rw [hEq] at hc ⊢
    exact hGrown.retraces_removeBlock hf.consistent hf.wired hEntry hStart hArranged hJump hc

theorem Wired.perm_preds (hf : f.Wired) (hm : f.Mirrored) {blk : Block} {i : Inst}
    {incoming : List Incoming} (hBlk : f.block? b = some blk) (hi : i ∈ blk.insts)
    (hOp : i.op = .phi incoming) : (incoming.map (·.block)).Perm blk.preds.toList := by
  rw [← code_of_block? hBlk] at hi
  obtain ⟨-, hNodup, hMem⟩ := hf.pairs b i hi (by rw [Inst.isPhi, hOp]; rfl)
  rw [hOp] at hNodup hMem
  refine perm_preds_iff.mpr ⟨hNodup, fun a => (hMem a).trans ((hm a b).trans ?_)⟩
  rw [preds, hBlk]
  rfl

/-- **Splitting critical edges preserves execution.** Splitting all critical edges of a consistent and
valid function changes nothing that can be seen of an execution, and every phi has one pair for each
predecessor of its block. -/
theorem splitAll_keeps_traces (f : Func) (hConsistent : f.Consistent) (hValid : f.isValid = true) :
    (∀ seen, f.splitAll.2.Observable seen ↔ f.Observable seen) ∧
      ∀ b blk, f.splitAll.2.block? b = some blk → ∀ i ∈ blk.insts, ∀ incoming,
        i.op = .phi incoming → (incoming.map (·.block)).Perm blk.preds.toList := by
  have hSplit : Retraces f f.splitAll.2 :=
    splitAll_induct (P := Retraces f) (fun _ a b hg => hg.splitEdge a b)
      (.of_isValid hConsistent hValid)
  refine ⟨hSplit.observable_iff, fun b blk hBlk i hi incoming hOp => ?_⟩
  exact hSplit.wired.perm_preds hSplit.consistent.mirrored hBlk hi hOp

/-- All edges but the last are critical, one of them leads from a block to itself, and two blocks
branch between the same two. The condition of the last branch is the name of the first one, which is
gone once that has been exchanged. -/
def tangled : Func :=
  [.createBlock "entry", .createBlock "loop", .createBlock "join", .createBlock "exit",
    .append ⟨0⟩ .bool (.const (.bool true)), .append ⟨0⟩ (.scalar .i32) (.const (.int 1)),
    .append ⟨0⟩ (.scalar .i32) (.const (.int 2)), .append ⟨0⟩ .void (.branch ⟨0⟩ ⟨1⟩ ⟨2⟩),
    .append ⟨1⟩ (.scalar .i32) (.phi [⟨⟨0⟩, ⟨1⟩⟩]), .append ⟨1⟩ (.scalar .i32) (.binary .add ⟨4⟩ ⟨1⟩),
    .append ⟨1⟩ .void (.branch ⟨0⟩ ⟨1⟩ ⟨2⟩), .append ⟨2⟩ (.scalar .i32) (.phi [⟨⟨0⟩, ⟨2⟩⟩, ⟨⟨1⟩, ⟨5⟩⟩]),
    .append ⟨2⟩ .void (.branch ⟨3⟩ ⟨1⟩ ⟨3⟩), .addIncoming ⟨4⟩ ⟨1⟩ ⟨5⟩, .addIncoming ⟨4⟩ ⟨2⟩ ⟨7⟩,
    .append ⟨3⟩ .void (.ret (some ⟨7⟩))].foldl build (.empty "tangled" (.scalar .i32))

theorem tangled_keeps_traces :
    tangled.Consistent ∧ tangled.isValid = true ∧ tangled.splitAll.1 = 4 ∧
      tangled.splitAll.2.isCritical ⟨2⟩ ⟨1⟩ = true ∧
      (∀ seen, tangled.splitAll.2.Observable seen ↔ tangled.Observable seen) ∧
      ∀ b blk, tangled.splitAll.2.block? b = some blk → ∀ i ∈ blk.insts, ∀ incoming,
        i.op = .phi incoming → (incoming.map (·.block)).Perm blk.preds.toList := by
  have hConsistent : tangled.Consistent := by decide +kernel
  have hValid : tangled.isValid = true := by decide +kernel
  exact ⟨hConsistent, hValid, by decide +kernel, by decide +kernel,
    splitAll_keeps_traces tangled hConsistent hValid⟩

end Func

end Midend
