import Midend.Proofs.Flow.Dominance
import Midend.Proofs.Graph.Frontier
import Midend.Variable.Placement

/-!
# A phi wherever two definitions meet

A variable gets a phi in the iterated dominance frontier of the blocks that define it. That is
enough: if control can come to a block from two of them on ways that have not met before, the
variable needs a phi there (`needsPhi_of_join`).
-/

namespace Midend

theorem PhiPlacement.needsPhi_compute {dom : Dominance} {defs : SortedMap String BlockSet}
    {name : String} {blocks : BlockSet} (hDefs : defs.get? name = some blocks) {z : BlockId} :
    (compute dom defs).needsPhi name z = true ↔ z ∈ dom.iteratedFrontier blocks.toList := by
  have hGet : (defs.mapValues fun blocks => dom.iteratedFrontier blocks.toList).get? name =
      some (dom.iteratedFrontier blocks.toList) := by
    rw [SortedMap.get?_mapValues, hDefs]
    rfl
  have hKey : name ∈ (defs.mapValues fun blocks => dom.iteratedFrontier blocks.toList).keys :=
    SortedMap.mem_keys_iff.mpr ⟨_, hGet⟩
  rw [needsPhi, blocksFor?, compute, SortedMap.get?_tabulate, if_pos hKey, hGet]
  generalize dom.iteratedFrontier blocks.toList = sites
  -- a set without members is not kept, and nothing is in it
  by_cases hEmpty : sites.isEmpty = true
  · have hNone : ¬ z ∈ sites := SortedSet.isEmpty_iff.mp hEmpty z
    simp [Option.filter, hEmpty, hNone]
  · simp [Option.filter, hEmpty]

namespace Func

/-- **Phis cover every join.** Where edges are recorded on both sides, nothing leads to the entry
and dominance has converged: if control can come from two blocks that define a variable to a third
on ways that have nothing in common before it, the variable needs a phi there. -/
theorem needsPhi_of_join (f : Func) (hMirrored : f.Mirrored)
    (hEntry : ∀ e, f.entry = some e → ∀ a, ¬ a ∈ f.preds e) {cap : Nat} {r : Fixpoint Dominance}
    (hDom : f.dominance cap = .ok r) (hConv : r.isConverged = true)
    (defs : SortedMap String BlockSet) (name : String) {blocks : BlockSet}
    (hDefs : defs.get? name = some blocks) {x y z : BlockId} (hx : x ∈ blocks) (hy : y ∈ blocks)
    (hxLive : f.Live x) (hyLive : f.Live y) {p q : List BlockId}
    (wx : f.flow.Walk x (p ++ [z]) z) (wy : f.flow.Walk y (q ++ [z]) z) (hp : p ≠ []) (hq : q ≠ [])
    (hApart : ∀ a ∈ p, a ∉ q) : (PhiPlacement.compute r.value defs).needsPhi name z = true := by
  obtain ⟨e, he, rfl⟩ := entry_of_dominance hDom
  have hRoot : ∀ a, e ∉ f.flow.next a := fun a edge => hEntry e he a ((hMirrored a e).mp edge)
  rw [PhiPlacement.needsPhi_compute hDefs]
  exact FlowGraph.mem_iteratedFrontier_of_join (flowFrom_views hMirrored he) hConv hRoot hx hy
    ((live_iff he).mp hxLive) ((live_iff he).mp hyLive) wx wy hp hq hApart

/-- The blocks of `crossing` that lead to each other, and a variable defined in one of them and at
the entry: it needs a phi in the other. -/
theorem crossing_needsPhi : crossing.Mirrored ∧
    (∀ e, crossing.entry = some e → ∀ a, ¬ a ∈ crossing.preds e) ∧
    ((crossing.flowFrom ⟨0⟩).dominators 5).isConverged = true ∧
    crossing.flow.Walk ⟨0⟩ [⟨0⟩, ⟨1⟩] ⟨1⟩ ∧ crossing.flow.Walk ⟨2⟩ [⟨2⟩, ⟨1⟩] ⟨1⟩ ∧
    (PhiPlacement.compute ((crossing.flowFrom ⟨0⟩).dominators 5).value
      ((∅ : SortedMap String BlockSet).insert "v" (.ofList [⟨0⟩, ⟨2⟩]))).needsPhi "v" ⟨1⟩ = true := by
  have hMirrored : crossing.Mirrored := by decide +kernel
  have hEntry : ∀ e, crossing.entry = some e → ∀ a, ¬ a ∈ crossing.preds e := by
    intro e he a
    obtain rfl : e = ⟨0⟩ := (Option.some.inj he).symm
    rw [← SortedSet.mem_toList, show (crossing.preds ⟨0⟩).toList = [] by decide +kernel]
    exact List.not_mem_nil
  have hConv : ((crossing.flowFrom ⟨0⟩).dominators 5).isConverged = true := by decide +kernel
  have edge : (⟨1⟩ : BlockId) ∈ crossing.flow.next ⟨0⟩ := by decide +kernel
  have edge' : (⟨1⟩ : BlockId) ∈ crossing.flow.next ⟨2⟩ := by decide +kernel
  have wx : crossing.flow.Walk ⟨0⟩ [⟨0⟩, ⟨1⟩] ⟨1⟩ := .cons edge (.nil _)
  have wy : crossing.flow.Walk ⟨2⟩ [⟨2⟩, ⟨1⟩] ⟨1⟩ := .cons edge' (.nil _)
  refine ⟨hMirrored, hEntry, hConv, wx, wy, ?_⟩
  exact needsPhi_of_join (p := [⟨0⟩]) (q := [⟨2⟩]) crossing hMirrored hEntry rfl hConv _ "v"
    (SortedMap.get?_insert_self ..) (by decide) (by decide)
    (mem_reversePostorder.mp (by decide +kernel)) (mem_reversePostorder.mp (by decide +kernel))
    wx wy (by simp) (by simp) (by decide)

end Func

end Midend
