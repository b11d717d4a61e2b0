import Midend.Flow.Dominance
import Midend.Flow.Strict
import Midend.Proofs.Func.Checking
import Midend.Proofs.Graph.BreadthFirst
import Midend.Proofs.Graph.DepthFirst
import Midend.Proofs.Graph.Dominators
import Midend.Shape.Request

/-!
# Dominance between blocks is dominance along paths

The searches and the fixpoint, read for the flow graph of a function.

* `mem_reversePostorder`: reverse postorder lists the blocks that control can reach, each once, and
  every block after those that guard it (`guard_before`).
* `mem_reachable`: the set of blocks reachable from a block.
* `dominance_agrees_with_paths`: the dominance that is computed never misses a block that lies on
  every path, and if the computation converges it finds no other.
-/

namespace Midend

namespace Func

variable {f : Func} {a b d e : BlockId}

/-! ## The flow graph -/

@[simp] theorem mem_next_flow : b ∈ f.flow.next a ↔ b ∈ f.succs a := Iff.rfl

theorem flow_bounded (f : Func) : f.flow.Bounded := by
  intro a b h
  obtain ⟨blk, hBlk, hMem⟩ := mem_succs_iff.mp (mem_next_flow.mp h)
  have hEntry : (a, blk) ∈ f.arena.toList := SortedMap.get?_eq_some_iff.mp hBlk
  exact List.mem_flatMap.mpr ⟨blk, List.mem_map.mpr ⟨_, hEntry, rfl⟩, hMem⟩

theorem live_iff (hEntry : f.entry = some e) : f.Live b ↔ f.flow.Reaches e b :=
  ⟨fun ⟨_, h, hReach⟩ => (Option.some.inj (hEntry.symm.trans h)) ▸ hReach,
    fun hReach => ⟨e, hEntry, hReach⟩⟩

theorem guards_iff (hEntry : f.entry = some e) : f.Guards d b ↔ f.flow.Dominates e d b :=
  ⟨fun h => h e hEntry, fun h _ h' => (Option.some.inj (hEntry.symm.trans h')) ▸ h⟩

theorem Live.step (h : f.Live a) (edge : b ∈ f.succs a) : f.Live b := by
  obtain ⟨e, hEntry, hReach⟩ := h
  exact ⟨e, hEntry, hReach.step edge⟩

/-- Control enters a block from another one in its reach, or at the entry. -/
theorem Live.cases (h : f.Live b) : f.entry = some b ∨ ∃ a, f.Live a ∧ b ∈ f.succs a := by
  obtain ⟨e, hEntry, path, w⟩ := h
  rcases w.snoc_cases with ⟨rfl, -⟩ | ⟨front, a, w', edge, -⟩
  · exact .inl hEntry
  · exact .inr ⟨a, ⟨e, hEntry, front, w'⟩, edge⟩

theorem Guards.refl (f : Func) (b : BlockId) : f.Guards b b := fun _ _ => .refl _ _

theorem Guards.trans (h : f.Guards d a) (h' : f.Guards a b) : f.Guards d b :=
  fun e hEntry => (h e hEntry).trans (h' e hEntry)

theorem Guards.live (h : f.Guards d b) (hb : f.Live b) : f.Live d := by
  obtain ⟨e, hEntry, hReach⟩ := hb
  exact ⟨e, hEntry, (h e hEntry).reaches hReach⟩

/-- A block that guards another one guards every block before it. -/
theorem Guards.of_edge (h : f.Guards d b) (hne : d ≠ b) (edge : b ∈ f.succs a) : f.Guards d a :=
  fun e hEntry => (h e hEntry).of_edge hne edge

theorem Guards.antisymm (h : f.Guards d b) (h' : f.Guards b d) (hb : f.Live b) : d = b := by
  obtain ⟨e, hEntry, hReach⟩ := hb
  exact (h e hEntry).antisymm (h' e hEntry) hReach

/-! ## Searches -/

/-- Reverse postorder lists the blocks that control can reach. -/
theorem mem_reversePostorder : b ∈ f.reversePostorder ↔ f.Live b := by
  cases hEntry : f.entry with
  | none =>
    refine iff_of_false ?_ fun ⟨e, h, _⟩ => by rw [hEntry] at h; cases h
    rw [reversePostorder, hEntry]
    exact List.not_mem_nil
  | some e =>
    rw [live_iff hEntry, reversePostorder, hEntry]
    exact Digraph.mem_left_sweep f.flow_bounded

theorem nodup_reversePostorder (f : Func) : f.reversePostorder.Nodup := by
  rw [reversePostorder]
  cases f.entry with
  | none => exact List.nodup_nil
  | some e => exact Digraph.nodup_left_sweep f.flow_bounded e

/-- In reverse postorder a block stands after the blocks that guard it. -/
theorem guard_before {front back : List BlockId} (hEq : f.reversePostorder = front ++ b :: back)
    (hne : d ≠ b) (h : f.Guards d b) : d ∈ front := by
  have hLive : f.Live b := by rw [← mem_reversePostorder, hEq]; simp
  obtain ⟨e, hEntry, -⟩ := hLive
  rw [reversePostorder, hEntry] at hEq
  exact Digraph.dominator_before f.flow_bounded hEq hne (h e hEntry)

theorem mem_reachable : b ∈ f.reachable a ↔ f.hasBlock a = true ∧ f.flow.Reaches a b := by
  rw [reachable]
  split
  · rw [SortedSet.mem_ofList, Digraph.mem_reachable f.flow_bounded]
    exact (and_iff_right ‹_›).symm
  · exact iff_of_false (SortedSet.not_mem_empty b) fun h => ‹¬ _› h.1

/-! ## Dominance -/

/-- With edges recorded on both sides, the flow graph from the entry shows the edges that leave. -/
theorem flowFrom_views (hMirrored : f.Mirrored) (hEntry : f.entry = some e) :
    (f.flowFrom e).Views f.flow where
  mem_nodes _ := mem_reversePostorder.trans (live_iff hEntry)
  mem_preds a p _ := (hMirrored p a).symm

theorem dominance_eq (hEntry : f.entry = some e) (cap : Nat) :
    f.dominance cap = .ok ((f.flowFrom e).dominators cap) := by
  rw [dominance, hEntry]

theorem entry_of_dominance {cap : Nat} {r : Fixpoint Dominance} (h : f.dominance cap = .ok r) :
    ∃ e, f.entry = some e ∧ r = (f.flowFrom e).dominators cap := by
  rw [dominance] at h
  split at h
  · cases h
  · rename_i e hEntry
    exact ⟨e, hEntry, (Except.ok.inj h).symm⟩

/-- Blocks are scanned in reverse postorder, however far the sets of dominators have shrunk. -/
theorem nodes_of_dominance {cap : Nat} {r : Fixpoint Dominance} (h : f.dominance cap = .ok r) :
    r.value.nodes = f.reversePostorder := by
  obtain ⟨e, -, rfl⟩ := entry_of_dominance h
  exact FlowGraph.nodes_dominators _ cap

theorem guards_of_dominates (hMirrored : f.Mirrored) {cap : Nat} {r : Fixpoint Dominance}
    (h : f.dominance cap = .ok r) (hConv : r.isConverged = true)
    (hd : r.value.dominates d b = true) : f.Guards d b := by
  obtain ⟨e, hEntry, rfl⟩ := entry_of_dominance h
  exact (guards_iff hEntry).mpr
    (FlowGraph.path_of_dominates (flowFrom_views hMirrored hEntry) hConv hd)

theorem dominates_of_guards (hMirrored : f.Mirrored) {cap : Nat} {r : Fixpoint Dominance}
    (h : f.dominance cap = .ok r) (hb : f.Live b) (hd : f.Guards d b) :
    r.value.dominates d b = true := by
  obtain ⟨e, hEntry, rfl⟩ := entry_of_dominance h
  exact FlowGraph.dominates_of_path (flowFrom_views hMirrored hEntry) cap ((live_iff hEntry).mp hb)
    (hd e hEntry)

/-- **Dominance is path dominance.** Where edges are recorded on both sides, dominance is computed
whatever the limit of rounds. It has every block that lies on every path to a block in reach; if the
rounds converge it has no other; and a block out of reach is dominated by itself alone. -/
theorem dominance_agrees_with_paths (f : Func) (hMirrored : f.Mirrored) {e : BlockId}
    (hEntry : f.entry = some e) (cap : Nat) :
    ∃ r, f.dominance cap = .ok r ∧
      (∀ d b, f.Live b → f.Guards d b → r.value.dominates d b = true) ∧
      (r.isConverged = true →
        ∀ d b, f.Live b → (r.value.dominates d b = true ↔ f.Guards d b)) ∧
      ∀ d b, ¬ f.Live b → (r.value.dominates d b = true ↔ d = b) := by
  have hEq := dominance_eq hEntry cap
  refine ⟨_, hEq, fun d b hb hd => dominates_of_guards hMirrored hEq hb hd, ?_, ?_⟩
  · intro hConv d b hb
    exact ⟨guards_of_dominates hMirrored hEq hConv, dominates_of_guards hMirrored hEq hb⟩
  · intro d b hb
    rw [live_iff hEntry] at hb
    exact FlowGraph.dominates_iff_eq_of_not_reaches (flowFrom_views hMirrored hEntry) cap hb

/-- Two blocks that lead to each other and can both be entered first, and a block out of reach. -/
def crossing : Func :=
  [.createBlock "entry", .createBlock "left", .createBlock "right", .createBlock "exit",
    .createBlock "lost", .append ⟨0⟩ .bool (.const (.bool true)),
    .append ⟨0⟩ .void (.branch ⟨0⟩ ⟨1⟩ ⟨2⟩), .append ⟨1⟩ .void (.jump ⟨2⟩),
    .append ⟨2⟩ .void (.branch ⟨0⟩ ⟨1⟩ ⟨3⟩), .append ⟨3⟩ .void (.ret none),
    .append ⟨4⟩ .void (.jump ⟨3⟩)].foldl build (.empty "crossing" .void)

theorem crossing_dominance_agrees : crossing.Mirrored ∧ crossing.entry = some ⟨0⟩ ∧
    ∃ r, crossing.dominance 2 = .ok r ∧ r.isConverged = true ∧
      (∀ d b, crossing.Live b → (r.value.dominates d b = true ↔ crossing.Guards d b)) ∧
      ∀ d b, ¬ crossing.Live b → (r.value.dominates d b = true ↔ d = b) := by
  have hMirrored : crossing.Mirrored := by decide +kernel
  have hRounds : (crossing.dominance 2).toOption.any (·.isConverged) = true := by decide +kernel
  obtain ⟨r, hEq, -, hAgrees, hOut⟩ := dominance_agrees_with_paths crossing hMirrored rfl 2
  rw [hEq] at hRounds
  have hConv : r.isConverged = true := hRounds
  exact ⟨hMirrored, rfl, r, hEq, hConv, hAgrees hConv, hOut⟩

end Func

end Midend
