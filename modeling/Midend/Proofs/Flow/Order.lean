import Midend.Proofs.Flow.Bypass
import Midend.Proofs.Func.Code
import Midend.Proofs.Graph.Closing

/-!
# Reverse postorder, back edges and cycles

The order in which a search leaves the blocks decides which edges close a cycle: those that do not
lead forward in it. A search that begins at every block of the layout in turn misses no cycle,
because when it is over every block has been left.

* `reversePostorder_decides_backEdges`: the order from the entry and its back edges.
* `hasCycle_iff_onCycle`: whether there is a cycle anywhere.
-/

namespace Midend

namespace Func

theorem nodup_next_flow (f : Func) (b : BlockId) : (f.flow.next b).Nodup := (f.succs b).nodup_toList

/-- **Back edges are the edges that do not lead forward.** Where the entry is a block of the function,
reverse postorder begins with it and lists the blocks in reach, each once. The edges that close a
cycle are those between listed blocks whose target does not come after their source, each once; if
the blocks in reach lie on no cycle there are none, and every edge leads forward. -/
theorem reversePostorder_decides_backEdges (f : Func) {e : BlockId} (hEntry : f.entry = some e)
    (hBlock : f.hasBlock e = true) :
    let order := f.reversePostorder
    order.head? = some e ∧ order.Nodup ∧ (∀ b, b ∈ order ↔ f.flow.Reaches e b) ∧
      (∀ b, b ∈ order ↔ b ∈ f.reachable e) ∧ f.backEdges.Nodup ∧
      (∀ u v, (u, v) ∈ f.backEdges ↔
        u ∈ order ∧ v ∈ order ∧ v ∈ f.succs u ∧ order.idxOf v ≤ order.idxOf u) ∧
      ((∀ b, f.flow.Reaches e b → ¬ f.flow.OnCycle b) →
        f.backEdges = [] ∧ ∀ u ∈ order, ∀ v ∈ f.succs u, order.idxOf u < order.idxOf v) := by
  intro order
  have hOrder : order = (f.flow.sweep [e]).left := by
    change f.reversePostorder = _
    rw [reversePostorder, hEntry]
    rfl
  have hBack : f.backEdges = (f.flow.sweep [e]).closing := by
    rw [backEdges, hEntry]
    rfl
  obtain ⟨new, hExplored⟩ := Digraph.sweep_explored f.flow_bounded e
  obtain ⟨hRanked, -⟩ := Digraph.sweep_ranked f.flow_bounded f.nodup_next_flow [e]
  have hReach : ∀ b, b ∈ order ↔ f.flow.Reaches e b := fun b =>
    mem_reversePostorder.trans (live_iff hEntry)
  have hMem : ∀ u v, (u, v) ∈ f.backEdges ↔
      u ∈ order ∧ v ∈ order ∧ v ∈ f.succs u ∧ order.idxOf v ≤ order.idxOf u := by
    intro u v
    rw [hBack, hRanked.mem_closing_iff, ← hOrder, mem_next_flow]
    refine and_congr_right fun hu => (and_iff_right_of_imp fun h => ?_).symm
    exact (hReach v).mpr (((hReach u).mp hu).step h.1)
  refine ⟨?_, nodup_reversePostorder f, hReach, fun b => ?_, ?_, hMem, fun hNone => ?_⟩
  · rw [hOrder, hExplored.left_eq]
    rfl
  · rw [hReach, mem_reachable, and_iff_right hBlock]
  · rw [hBack]
    exact hRanked.closing_nodup
  · have hNil : f.backEdges = [] := by
      refine List.eq_nil_iff_forall_not_mem.mpr ?_
      rintro ⟨u, v⟩ hEdge
      refine hNone u ((hReach u).mp ((hMem u v).mp hEdge).1) ?_
      exact hRanked.onCycle_of_mem_closing (hBack ▸ hEdge)
    refine ⟨hNil, fun u hu v edge => Nat.lt_of_not_le fun hLe => ?_⟩
    have hv : v ∈ order := (hReach v).mpr (((hReach u).mp hu).step edge)
    exact List.not_mem_nil (hNil ▸ (hMem u v).mpr ⟨hu, hv, edge, hLe⟩)

theorem crossing_decides_backEdges :
    crossing.entry = some ⟨0⟩ ∧ crossing.hasBlock ⟨0⟩ = true ∧
      crossing.backEdges = [(⟨2⟩, ⟨1⟩)] ∧
      let order := crossing.reversePostorder
      order.head? = some ⟨0⟩ ∧ order.Nodup ∧ (∀ b, b ∈ order ↔ crossing.flow.Reaches ⟨0⟩ b) ∧
        (∀ b, b ∈ order ↔ b ∈ crossing.reachable ⟨0⟩) ∧ crossing.backEdges.Nodup ∧
        (∀ u v, (u, v) ∈ crossing.backEdges ↔
          u ∈ order ∧ v ∈ order ∧ v ∈ crossing.succs u ∧ order.idxOf v ≤ order.idxOf u) ∧
        ((∀ b, crossing.flow.Reaches ⟨0⟩ b → ¬ crossing.flow.OnCycle b) →
          crossing.backEdges = [] ∧
            ∀ u ∈ order, ∀ v ∈ crossing.succs u, order.idxOf u < order.idxOf v) :=
  ⟨rfl, rfl, by decide +kernel, reversePostorder_decides_backEdges crossing rfl rfl⟩

/-- **Cycles are found wherever they are.** In a function whose layout lists all its blocks, the
search finds a cycle just if some block lies on one, in reach of the entry or not. -/
theorem hasCycle_iff_onCycle (f : Func) (hLayout : ∀ b, f.hasBlock b = true → b ∈ f.layout) :
    f.hasCycle = true ↔ ∃ b, f.hasBlock b = true ∧ f.flow.OnCycle b := by
  obtain ⟨hRanked, hStarts⟩ := Digraph.sweep_ranked f.flow_bounded f.nodup_next_flow f.layout
  rw [hasCycle, Bool.not_eq_true', List.isEmpty_eq_false_iff_exists_mem]
  constructor
  · rintro ⟨⟨u, v⟩, hEdge⟩
    exact ⟨u, hasBlock_of_mem_succs (hRanked.closing_edge u v hEdge),
      hRanked.onCycle_of_mem_closing hEdge⟩
  · rintro ⟨b, hb, hCycle⟩
    refine List.exists_mem_of_ne_nil _ fun hNone => ?_
    exact hRanked.not_onCycle hNone (hStarts (hLayout b hb)) hCycle

/-- Control enters a block and leaves the function; two other blocks lead to each other. -/
def aside : Func :=
  [.createBlock "entry", .createBlock "x", .createBlock "y", .append ⟨0⟩ .void (.ret none),
    .append ⟨1⟩ .void (.jump ⟨2⟩), .append ⟨2⟩ .void (.jump ⟨1⟩)].foldl build (.empty "aside" .void)

theorem aside_hasCycle_iff : (∀ b, aside.hasBlock b = true → b ∈ aside.layout) ∧
    aside.hasCycle = true ∧ aside.backEdges = [] ∧
      (aside.hasCycle = true ↔ ∃ b, aside.hasBlock b = true ∧ aside.flow.OnCycle b) := by
  have hConsistent : aside.Consistent := by decide +kernel
  have hLayout : ∀ b, aside.hasBlock b = true → b ∈ aside.layout := fun b hb =>
    (hConsistent.mem_layout b).mpr hb
  exact ⟨hLayout, by decide +kernel, by decide +kernel, hasCycle_iff_onCycle aside hLayout⟩

end Func

end Midend
