import Midend.Proofs.Flow.Bypass
import Midend.Proofs.Graph.Frontier

/-!
# The dominator tree and the frontiers of blocks

What is known of immediate dominators and frontiers of nodes, read for the flow graph of a function.

* `idom_forms_tree`: immediate dominators lead from every block in reach through its dominators to
  the entry, and hang every such block but the entry below one other.
* `mem_frontier_iff_guards`: a frontier holds the ends of the edges that lead out of what a block
  strictly dominates, and nothing else.
-/

namespace Midend

namespace Func

variable {f : Func} {a b d e s : BlockId}

theorem mem_dominators_iff (hMirrored : f.Mirrored) {cap : Nat} {r : Fixpoint Dominance}
    (h : f.dominance cap = .ok r) (hConv : r.isConverged = true) (hb : f.Live b) :
    d ∈ r.value.dominators b ↔ f.Guards d b := by
  obtain ⟨e, hEntry, rfl⟩ := entry_of_dominance h
  have hViews := flowFrom_views hMirrored hEntry
  rw [guards_iff hEntry]
  exact FlowGraph.exact_doms hViews hConv b (mem_reversePostorder.mpr hb) d

theorem idom?_eq_some_iff_guards (hMirrored : f.Mirrored) {cap : Nat} {r : Fixpoint Dominance}
    (h : f.dominance cap = .ok r) (hConv : r.isConverged = true) :
    r.value.idom? b = some d ↔ f.Live b ∧ (d ≠ b ∧ f.Guards d b) ∧
      ∀ c, c ≠ b → f.Guards c b → f.Guards c d := by
  obtain ⟨e, hEntry, rfl⟩ := entry_of_dominance h
  rw [FlowGraph.idom?_eq_some_iff (flowFrom_views hMirrored hEntry) hConv, live_iff hEntry]
  simp only [guards_iff hEntry]
  constructor
  · rintro ⟨hReach, hne, hd, hNearest⟩
    exact ⟨hReach, ⟨hne, hd⟩, hNearest⟩
  · rintro ⟨hReach, ⟨hne, hd⟩, hNearest⟩
    exact ⟨hReach, hne, hd, hNearest⟩

/-- **Immediate dominators form a tree.** Where edges are recorded on both sides and dominance has
converged, the entry and the blocks out of reach have no immediate dominator. Every other block has
one, which strictly dominates it and which its other strict dominators dominate. The way up from a
block in reach leads to the entry, visits its dominators and no other block, and none of them twice.
Every block in reach but the entry is listed once below one block and below no other. -/
theorem idom_forms_tree (f : Func) (hMirrored : f.Mirrored) {e : BlockId}
    (hEntry : f.entry = some e) {cap : Nat} {r : Fixpoint Dominance}
    (hDom : f.dominance cap = .ok r) (hConv : r.isConverged = true) :
    (∀ b, r.value.idom? b = none ↔ b = e ∨ ¬ f.Live b) ∧
    (∀ d b, r.value.idom? b = some d ↔ f.Live b ∧ (d ≠ b ∧ f.Guards d b) ∧
      ∀ c, c ≠ b → f.Guards c b → f.Guards c d) ∧
    (∀ b, f.Live b → ∃ chain, r.value.upward.Walk b chain e ∧ chain.Nodup ∧
      ∀ d, d ∈ chain ↔ d ∈ r.value.dominators b) ∧
    ∀ b, f.Live b → b ≠ e → ∃ d, ∀ a, (r.value.children a).count b = if a = d then 1 else 0 := by
  have hViews := flowFrom_views hMirrored hEntry
  obtain rfl : r = (f.flowFrom e).dominators cap :=
    (Except.ok.inj ((dominance_eq hEntry cap).symm.trans hDom)).symm
  refine ⟨?_, ?_, ?_, ?_⟩
  · intro b
    rw [live_iff hEntry]
    exact FlowGraph.idom?_eq_none_iff hViews hConv
  · exact fun d b => idom?_eq_some_iff_guards hMirrored hDom hConv
  · intro b hb
    obtain ⟨chain, w, hNodup, hMem⟩ :=
      FlowGraph.exists_walk_upward hViews hConv ((live_iff hEntry).mp hb)
    refine ⟨chain, w, hNodup, fun d => ?_⟩
    rw [mem_dominators_iff hMirrored hDom hConv hb, guards_iff hEntry]
    exact hMem d
  · intro b hb hne
    have hReach := (live_iff hEntry).mp hb
    obtain ⟨d, hImm⟩ := Digraph.exists_immediate hReach hne
    refine ⟨d, fun a => ?_⟩
    exact FlowGraph.count_children hViews f.nodup_reversePostorder hConv hReach hImm

theorem crossing_idom_forms_tree : crossing.Mirrored ∧ crossing.entry = some ⟨0⟩ ∧
    ∃ r, crossing.dominance 5 = .ok r ∧ r.isConverged = true ∧
      (∀ b, r.value.idom? b = none ↔ b = ⟨0⟩ ∨ ¬ crossing.Live b) ∧
      (∃ chain, r.value.upward.Walk ⟨3⟩ chain ⟨0⟩ ∧ chain.Nodup ∧
        ∀ d, d ∈ chain ↔ d ∈ r.value.dominators ⟨3⟩) ∧
      ∃ d, ∀ a, (r.value.children a).count ⟨3⟩ = if a = d then 1 else 0 := by
  have hMirrored : crossing.Mirrored := by decide +kernel
  have hConv : ((crossing.flowFrom ⟨0⟩).dominators 5).isConverged = true := by decide +kernel
  have hLive : crossing.Live ⟨3⟩ := by decide +kernel
  obtain ⟨hNone, -, hUp, hBelow⟩ := idom_forms_tree crossing hMirrored rfl rfl hConv
  exact ⟨hMirrored, rfl, _, rfl, hConv, hNone, hUp ⟨3⟩ hLive, hBelow ⟨3⟩ hLive (by decide)⟩

/-- **Frontiers are the textbook ones.** Where edges are recorded on both sides, nothing leads to the
entry and dominance has converged: a block is in the frontier of another one just when both can be
reached, the other one dominates a predecessor of it that can be reached, and does not strictly
dominate the block itself. -/
theorem mem_frontier_iff_guards (f : Func) (hMirrored : f.Mirrored)
    (hEntry : ∀ e, f.entry = some e → ∀ a, ¬ a ∈ f.preds e) {cap : Nat} {r : Fixpoint Dominance}
    (hDom : f.dominance cap = .ok r) (hConv : r.isConverged = true) (b s : BlockId) :
    s ∈ r.value.frontier b ↔ f.Live b ∧ f.Live s ∧
      (∃ p, p ∈ f.preds s ∧ f.Live p ∧ f.Guards b p) ∧ ¬ (b ≠ s ∧ f.Guards b s) := by
  obtain ⟨e, he, rfl⟩ := entry_of_dominance hDom
  have hViews := flowFrom_views hMirrored he
  constructor
  · intro hs
    obtain ⟨⟨p, hp, edge, hb⟩, hOut⟩ :=
      FlowGraph.edge_of_mem_frontier hViews (fun _ _ _ edge => edge) hConv hs
    have hLive : f.Live p := (live_iff he).mpr hp
    have hGuards : f.Guards b p := (guards_iff he).mpr hb
    refine ⟨hGuards.live hLive, hLive.step edge, ⟨p, (hMirrored p s).mp edge, hLive, hGuards⟩, ?_⟩
    exact fun hStrict => hOut ⟨hStrict.1, (guards_iff he).mp hStrict.2⟩
  · rintro ⟨-, -, ⟨p, hp, hLive, hb⟩, hOut⟩
    have edge : s ∈ f.flow.next p := (hMirrored p s).mpr hp
    have hRoot : s ≠ e := by
      rintro rfl
      exact hEntry s he p hp
    rw [guards_iff he] at hb hOut
    exact FlowGraph.mem_frontier_of_edge hViews hConv ((live_iff he).mp hLive) edge hRoot hb hOut

/-- Each of the blocks of `crossing` that lead to each other is in the frontier of the other. The last
block has a second predecessor that is out of reach, and is in no frontier. -/
theorem crossing_mem_frontier_iff : crossing.Mirrored ∧
    (∀ e, crossing.entry = some e → ∀ a, ¬ a ∈ crossing.preds e) ∧
    ∃ r, crossing.dominance 5 = .ok r ∧ r.isConverged = true ∧
      ⟨2⟩ ∈ r.value.frontier ⟨1⟩ ∧ ⟨1⟩ ∈ r.value.frontier ⟨2⟩ ∧ ¬ ⟨3⟩ ∈ r.value.frontier ⟨2⟩ ∧
        ¬ ⟨3⟩ ∈ r.value.frontier ⟨4⟩ := by
  have hMirrored : crossing.Mirrored := by decide +kernel
  have hEntry : ∀ e, crossing.entry = some e → ∀ a, ¬ a ∈ crossing.preds e := by
    intro e he a
    obtain rfl : e = ⟨0⟩ := (Option.some.inj he).symm
    rw [← SortedSet.mem_toList, show (crossing.preds ⟨0⟩).toList = [] by decide +kernel]
    exact List.not_mem_nil
  have hConv : ((crossing.flowFrom ⟨0⟩).dominators 5).isConverged = true := by decide +kernel
  have hIff := mem_frontier_iff_guards crossing hMirrored hEntry rfl hConv
  refine ⟨hMirrored, hEntry, _, rfl, hConv, (hIff ⟨1⟩ ⟨2⟩).mpr ?_, (hIff ⟨2⟩ ⟨1⟩).mpr ?_, ?_, ?_⟩
  · exact ⟨by decide +kernel, by decide +kernel,
      ⟨⟨1⟩, by decide +kernel, by decide +kernel, .refl _ _⟩, by decide +kernel⟩
  · exact ⟨by decide +kernel, by decide +kernel,
      ⟨⟨2⟩, by decide +kernel, by decide +kernel, .refl _ _⟩, by decide +kernel⟩
  · intro hMem
    exact ((hIff ⟨2⟩ ⟨3⟩).mp hMem).2.2.2 (by decide +kernel)
  · intro hMem
    exact absurd ((hIff ⟨4⟩ ⟨3⟩).mp hMem).1 (by decide +kernel)

end Func

end Midend
