import Midend.Proofs.Graph.Iterated
import Midend.Proofs.Graph.Tree

/-!
# Dominance frontiers and the places where ways meet

An edge that leads out of what a node strictly dominates ends in the frontier of the node
(`mem_frontier_of_edge`). If its end has several predecessors, the node is met on the way up the
tree of immediate dominators; the way does not stop below it, and it is long enough because every
step up leaves a dominator behind (`mem_climb`). If it has one, that predecessor dominates it, and
so does the node. Nothing else is in the frontier (`edge_of_mem_frontier`): the way up from
a predecessor stops before it meets a strict dominator of the end.

The iterated frontier is closed (`DomTree.frontier_subset_iteratedFrontier`), and that gives the
theorem on joins. Where two ways from given nodes meet for the first time is in the iterated frontier
of these nodes (`mem_iteratedFrontier_of_join`).
-/

namespace Midend

namespace FlowGraph

variable {ν : Type} [Key ν] {G : FlowGraph ν} {g : Digraph ν} {sets : NodeSets ν}
  {a b d p s x y z : ν}

/-! ## The way up the tree -/

/-- A dominator is met on the way up, unless the way stops below it. -/
theorem mem_climb (h : G.Views g) (hs : G.Exact g sets) {idoms : SortedMap ν ν}
    (hIdoms : ∀ a ∈ G.nodes, ∀ d, idoms.get? a = some d ↔ g.Immediate G.root d a)
    {stop : Option ν} (hStop : ∀ a, some a = stop → ¬ g.Dominates G.root b a) (fuel : Nat)
    (ha : a ∈ G.nodes) (hFuel : (sets.of a).size ≤ fuel) (hb : g.Dominates G.root b a) :
    b ∈ climb idoms stop fuel a := by
  induction fuel generalizing a with
  | zero =>
    have hNone : (sets.of a).toList = [] := List.length_eq_zero_iff.mp (Nat.le_zero.mp hFuel)
    have hSelf : a ∈ (sets.of a).toList := (hs a ha a).mpr (.refl _ _)
    rw [hNone] at hSelf
    exact absurd hSelf List.not_mem_nil
  | succ fuel ih =>
    rw [climb, if_neg fun hEq => hStop a hEq hb]
    by_cases hba : b = a
    · rw [hba]
      exact List.mem_cons_self
    · have hReach := (h.mem_nodes a).mp ha
      have hRoot : a ≠ G.root := by
        rintro rfl
        exact hba hb.eq_root
      obtain ⟨d, hImm⟩ := Digraph.exists_immediate hReach hRoot
      have hLess := hs.size_lt h ha hImm.ne hImm.dominates
      have hd : d ∈ G.nodes := (h.mem_nodes d).mpr (hImm.dominates.reaches hReach)
      rw [(hIdoms a ha d).mpr hImm]
      apply List.mem_cons_of_mem
      exact ih hd (by omega) (hImm.nearest b hba hb)

/-- What is met on the way up from a node dominates it, and lies below the place to stop at. -/
theorem dominates_of_mem_climb (h : G.Views g) {idoms : SortedMap ν ν}
    (hIdoms : ∀ a ∈ G.nodes, ∀ d, idoms.get? a = some d ↔ g.Immediate G.root d a)
    {stop : Option ν} (fuel : Nat) (ha : a ∈ G.nodes) (hb : b ∈ climb idoms stop fuel a) :
    g.Dominates G.root b a ∧ some b ≠ stop ∧
      ∀ d, stop = some d → g.Dominates G.root d a → g.Dominates G.root d b := by
  induction fuel generalizing a with
  | zero => exact absurd hb List.not_mem_nil
  | succ fuel ih =>
    rw [climb] at hb
    split at hb
    · exact absurd hb List.not_mem_nil
    rename_i hGoOn
    rcases List.mem_cons.mp hb with rfl | hb
    · exact ⟨.refl _ _, hGoOn, fun d _ hd => hd⟩
    cases hIdom : idoms.get? a with
    | none =>
      rw [hIdom] at hb
      exact absurd hb List.not_mem_nil
    | some c =>
      rw [hIdom] at hb
      have hImm := (hIdoms a ha c).mp hIdom
      have hc : c ∈ G.nodes :=
        (h.mem_nodes c).mpr (hImm.dominates.reaches ((h.mem_nodes a).mp ha))
      obtain ⟨hbc, hStop, hBelow⟩ := ih hc hb
      refine ⟨hbc.trans hImm.dominates, hStop, fun d hd hda => ?_⟩
      -- the way goes on from this node, so the place to stop at is above it
      have hne : d ≠ a := by
        rintro rfl
        exact hGoOn hd.symm
      exact hBelow d hd (hImm.nearest d hne hda)

/-! ## Frontiers -/

theorem mem_frontier_iff {limit : Nat} : s ∈ (G.dominators limit).value.frontier b ↔
    (b, s) ∈ G.localPairs (G.dominators limit).value.doms ++
      G.joinPairs (G.dominators limit).value.idoms := by
  rw [DomTree.frontier, NodeSets.of, dominators, Fixpoint.value_map]
  exact SortedMap.mem_gather

theorem mem_localPairs : (b, s) ∈ G.localPairs sets ↔
    b ∈ G.nodes ∧ s ∈ G.succs b ∧ s ∈ G.nodes ∧ ¬ (b ≠ s ∧ b ∈ sets.of s) := by
  simp only [localPairs, List.mem_flatMap, List.mem_map, List.mem_filter, decide_eq_true_eq,
    Prod.mk.injEq]
  constructor
  · rintro ⟨a, ha, c, ⟨hSucc, hNode, hOut⟩, rfl, rfl⟩
    exact ⟨ha, hSucc, hNode, hOut⟩
  · rintro ⟨hb, hSucc, hNode, hOut⟩
    exact ⟨b, hb, s, ⟨hSucc, hNode, hOut⟩, rfl, rfl⟩

theorem mem_joinPairs {idoms : SortedMap ν ν} : (b, s) ∈ G.joinPairs idoms ↔
    s ∈ G.nodes ∧ ¬ (G.memberPreds s).length < 2 ∧ ∃ p ∈ G.memberPreds s,
      b ∈ climb idoms (idoms.get? s) (G.nodes.length + 1) p := by
  rw [joinPairs, List.mem_flatMap]
  constructor
  · rintro ⟨join, hJoin, hMem⟩
    dsimp only at hMem
    split at hMem
    · exact absurd hMem List.not_mem_nil
    · rename_i hMany
      obtain ⟨p, hp, hMem⟩ := List.mem_flatMap.mp hMem
      obtain ⟨a, ha, hEq⟩ := List.mem_map.mp hMem
      obtain ⟨rfl, rfl⟩ := Prod.mk.inj hEq
      exact ⟨hJoin, hMany, p, hp, ha⟩
  · rintro ⟨hJoin, hMany, p, hp, hb⟩
    refine ⟨s, hJoin, ?_⟩
    dsimp only
    rw [if_neg hMany]
    exact List.mem_flatMap.mpr ⟨p, hp, List.mem_map.mpr ⟨b, hb, rfl⟩⟩

/-- A node is entered for the first time from a predecessor that is reached without it. -/
theorem exists_pred_avoiding (hReach : g.Reaches G.root s) (hs : s ≠ G.root) :
    ∃ q front, g.Walk G.root front q ∧ s ∈ g.next q ∧ s ∉ front := by
  obtain ⟨path, w⟩ := hReach
  obtain ⟨front, back, rfl, hNot, w₁, -⟩ := w.split_first w.right_mem
  rcases w₁.snoc_cases with ⟨hEq, -⟩ | ⟨front', q, w', edge, hFront⟩
  · exact absurd hEq.symm hs
  · rw [List.append_cancel_right hFront] at hNot
    exact ⟨q, front', w', edge, hNot⟩

/-- What dominates the only predecessor of a node strictly dominates the node. -/
theorem dominates_of_only_pred (h : G.Views g) (hPred : p ∈ G.memberPreds s) (hs : s ≠ G.root)
    (hFew : (G.memberPreds s).length < 2) (hb : g.Dominates G.root b p) :
    b ≠ s ∧ g.Dominates G.root b s := by
  have hOnly : ∀ q, g.Reaches G.root q → s ∈ g.next q → q = p := by
    intro q hq edge
    have hMem : q ∈ G.memberPreds s := h.mem_memberPreds.mpr ⟨hq, edge⟩
    cases hPreds : G.memberPreds s with
    | nil =>
      rw [hPreds] at hMem
      exact absurd hMem List.not_mem_nil
    | cons r rest =>
      rw [hPreds, List.length_cons] at hFew
      have hNil : rest = [] := List.length_eq_zero_iff.mp (by omega)
      rw [hPreds, hNil, List.mem_singleton] at hMem hPred
      rw [hMem, hPred]
  obtain ⟨hReach, edge⟩ := h.mem_memberPreds.mp hPred
  constructor
  · rintro rfl
    obtain ⟨q, front, w, edge', hNot⟩ := exists_pred_avoiding (hReach.step edge) hs
    rw [hOnly q ⟨front, w⟩ edge'] at w
    exact hNot (hb front w)
  · intro path w
    rcases w.snoc_cases with ⟨hEq, -⟩ | ⟨front, q, w', edge', rfl⟩
    · exact absurd hEq.symm hs
    · rw [hOnly q ⟨front, w'⟩ edge'] at w'
      exact List.mem_append_left _ (hb front w')

/-- An edge out of what a node strictly dominates leads to the frontier of the node. -/
theorem mem_frontier_of_edge (h : G.Views g) {limit : Nat}
    (hConv : (G.dominators limit).isConverged = true) (hp : g.Reaches G.root p)
    (edge : s ∈ g.next p) (hs : s ≠ G.root) (hb : g.Dominates G.root b p)
    (hOut : ¬ (b ≠ s ∧ g.Dominates G.root b s)) :
    s ∈ (G.dominators limit).value.frontier b := by
  have hPred : p ∈ G.memberPreds s := h.mem_memberPreds.mpr ⟨hp, edge⟩
  have hReach : g.Reaches G.root s := hp.step edge
  have hMany : ¬ (G.memberPreds s).length < 2 := fun hFew =>
    hOut (dominates_of_only_pred h hPred hs hFew hb)
  have hIdoms := get?_idoms_eq_some_iff h hConv
  have hNode : s ∈ G.nodes := (h.mem_nodes s).mpr hReach
  -- the way up stops at the immediate dominator of the join, which is not below the node
  have hStop : ∀ a, some a = (G.dominators limit).value.idoms.get? s →
      ¬ g.Dominates G.root b a := by
    intro a ha hba
    have hImm := (hIdoms s hNode a).mp ha.symm
    apply hOut
    refine ⟨?_, hba.trans hImm.dominates⟩
    rintro rfl
    exact hImm.ne (hImm.dominates.antisymm hba hReach)
  have hExact := exact_doms h hConv
  have hpNode : p ∈ G.nodes := (h.mem_nodes p).mpr hp
  have hSize := hExact.size_le h hpNode
  have hClimb := mem_climb h hExact hIdoms hStop (G.nodes.length + 1) hpNode (by omega) hb
  rw [mem_frontier_iff]
  apply List.mem_append_right
  exact mem_joinPairs.mpr ⟨hNode, hMany, p, hPred, hClimb⟩

/-- The way up from a predecessor of a node to below its immediate dominator meets no strict
dominator of the node. -/
theorem not_dominates_of_mem_climb (h : G.Views g) {idoms : SortedMap ν ν}
    (hIdoms : ∀ a ∈ G.nodes, ∀ d, idoms.get? a = some d ↔ g.Immediate G.root d a) (fuel : Nat)
    (hp : g.Reaches G.root p) (edge : s ∈ g.next p)
    (hb : b ∈ climb idoms (idoms.get? s) fuel p) : ¬ (b ≠ s ∧ g.Dominates G.root b s) := by
  rintro ⟨hne, hStrict⟩
  have hRoot : s ≠ G.root := by
    rintro rfl
    exact hne hStrict.eq_root
  obtain ⟨d, hImm⟩ := Digraph.exists_immediate (hp.step edge) hRoot
  have hIdom := (hIdoms s ((h.mem_nodes s).mpr (hp.step edge)) d).mpr hImm
  obtain ⟨hbp, hStop, hBelow⟩ := dominates_of_mem_climb h hIdoms fuel ((h.mem_nodes p).mpr hp) hb
  -- such a node would be the immediate dominator itself, where the way ends
  have hbd : g.Dominates G.root b d := hImm.nearest b hne hStrict
  have hdb : g.Dominates G.root d b := hBelow d hIdom (hImm.dominates.of_edge hImm.ne edge)
  have hEq : b = d := hbd.antisymm hdb (hdb.reaches (hbp.reaches hp))
  rw [hEq, hIdom] at hStop
  exact hStop rfl

/-- The frontier of a node holds no more than the ends of edges out of what it strictly dominates. -/
theorem edge_of_mem_frontier (h : G.Views g) (hSuccs : ∀ a ∈ G.nodes, ∀ s ∈ G.succs a, s ∈ g.next a)
    {limit : Nat} (hConv : (G.dominators limit).isConverged = true)
    (hs : s ∈ (G.dominators limit).value.frontier b) :
    (∃ p, g.Reaches G.root p ∧ s ∈ g.next p ∧ g.Dominates G.root b p) ∧
      ¬ (b ≠ s ∧ g.Dominates G.root b s) := by
  have hIdoms := get?_idoms_eq_some_iff h hConv
  rw [mem_frontier_iff, List.mem_append, mem_localPairs, mem_joinPairs] at hs
  rcases hs with ⟨hNode, hSucc, hNode', hOut⟩ | ⟨hNode, -, p, hPred, hClimb⟩
  · refine ⟨⟨b, (h.mem_nodes b).mp hNode, hSuccs b hNode s hSucc, .refl _ _⟩, ?_⟩
    rwa [exact_doms h hConv s hNode' b] at hOut
  · obtain ⟨hp, edge⟩ := h.mem_memberPreds.mp hPred
    have hbp := (dominates_of_mem_climb h hIdoms _ ((h.mem_nodes p).mpr hp) hClimb).1
    exact ⟨⟨p, hp, edge, hbp⟩, not_dominates_of_mem_climb h hIdoms _ hp edge hClimb⟩

/-- As long as a walk from a node does not enter its frontier, the node strictly dominates it. -/
theorem dominates_along (h : G.Views g) {limit : Nat}
    (hConv : (G.dominators limit).isConverged = true) (hRoot : ∀ p, G.root ∉ g.next p)
    {path : List ν} (w : g.Walk x path z) (hx : g.Reaches G.root x)
    (hb : g.Dominates G.root b x)
    (hAvoid : ∀ s ∈ path.tail, ¬ s ∈ (G.dominators limit).value.frontier b) :
    ∀ s ∈ path.tail, b ≠ s ∧ g.Dominates G.root b s := by
  induction w with
  | nil a => exact fun s hs => absurd hs List.not_mem_nil
  | @cons a m c path edge rest ih =>
    change ∀ s ∈ path, b ≠ s ∧ g.Dominates G.root b s
    change ∀ s ∈ path, ¬ s ∈ (G.dominators limit).value.frontier b at hAvoid
    have hNext : b ≠ m ∧ g.Dominates G.root b m := by
      by_contra hOut
      have hm : m ≠ G.root := by
        rintro rfl
        exact hRoot a edge
      exact hAvoid m rest.left_mem (mem_frontier_of_edge h hConv hx edge hm hb hOut)
    have hLater := ih (hx.step edge) hNext.2 fun s hs => hAvoid s (List.mem_of_mem_tail hs)
    obtain ⟨later, rfl⟩ := rest.exists_cons
    intro s hs
    rcases List.mem_cons.mp hs with rfl | hs
    · exact hNext
    · exact hLater s hs

end FlowGraph

/-! ## Joins -/

namespace FlowGraph

variable {ν : Type} [Key ν] {G : FlowGraph ν} {g : Digraph ν} {x y z : ν} {l p q : List ν}

/-- The last node of a way to a place outside of the iterated frontier that belongs to the frontier
or to the nodes it starts from strictly dominates the place. -/
theorem exists_last_source (h : G.Views g) {limit : Nat}
    (hConv : (G.dominators limit).isConverged = true) (hRoot : ∀ p, G.root ∉ g.next p)
    (hx : x ∈ l) (hReach : g.Reaches G.root x) (w : g.Walk x (p ++ [z]) z) (hp : p ≠ [])
    (hz : ¬ z ∈ (G.dominators limit).value.iteratedFrontier l) :
    ∃ b back, b ∈ p ∧ back ⊆ p ∧ g.Walk b (b :: (back ++ [z])) z ∧ b ≠ z ∧
      g.Dominates G.root b z := by
  let source : ν → Prop := fun a => a ∈ l ∨ a ∈ (G.dominators limit).value.iteratedFrontier l
  have hHead : x ∈ p := by
    obtain ⟨rest, hEq⟩ := w.exists_cons
    cases p with
    | nil => exact absurd rfl hp
    | cons a p =>
      rw [(List.cons.inj hEq).1]
      exact List.mem_cons_self
  obtain ⟨front, b, back, rfl, hb, hBack⟩ := exists_last (P := source) ⟨x, hHead, .inl hx⟩
  have hEq : (front ++ b :: back) ++ [z] = front ++ b :: (back ++ [z]) := by simp
  obtain ⟨w₁, w₂⟩ := w.split hEq
  have hStrict : ∀ s ∈ back ++ [z], b ≠ s ∧ g.Dominates G.root b s := by
    apply dominates_along h hConv hRoot w₂ (hReach.trans ⟨_, w₁⟩) (.refl _ _)
    intro s hs hFrontier
    have hMem := DomTree.frontier_subset_iteratedFrontier hb hFrontier
    rcases List.mem_append.mp hs with hs | hs
    · exact hBack s hs (.inr hMem)
    · rw [List.mem_singleton.mp hs] at hMem
      exact hz hMem
  obtain ⟨hne, hDom⟩ := hStrict z (List.mem_append_right _ (List.mem_singleton_self z))
  refine ⟨b, back, by simp, ?_, w₂, hne, hDom⟩
  exact fun s hs => List.mem_append_right _ (List.mem_cons_of_mem _ hs)

/-- Where ways from two of the nodes meet and have not met before is in the iterated frontier. -/
theorem mem_iteratedFrontier_of_join (h : G.Views g) {limit : Nat}
    (hConv : (G.dominators limit).isConverged = true) (hRoot : ∀ p, G.root ∉ g.next p)
    (hx : x ∈ l) (hy : y ∈ l) (hxReach : g.Reaches G.root x) (hyReach : g.Reaches G.root y)
    (wx : g.Walk x (p ++ [z]) z) (wy : g.Walk y (q ++ [z]) z) (hp : p ≠ []) (hq : q ≠ [])
    (hApart : ∀ a ∈ p, a ∉ q) : z ∈ (G.dominators limit).value.iteratedFrontier l := by
  by_contra hz
  obtain ⟨b, back, hbp, hBack, wb, hbz, hb⟩ :=
    exists_last_source h hConv hRoot hx hxReach wx hp hz
  obtain ⟨c, back', hcq, hBack', wc, hcz, hc⟩ :=
    exists_last_source h hConv hRoot hy hyReach wy hq hz
  -- neither lies on the way from the other, so each dominates the other
  have hbc : g.Dominates G.root b c := by
    apply hb.of_walk wc
    intro hMem
    rcases List.mem_append.mp hMem with hMem | hMem
    · exact hApart b hbp (hBack' hMem)
    · exact hbz (List.mem_singleton.mp hMem)
  have hcb : g.Dominates G.root c b := by
    apply hc.of_walk wb
    intro hMem
    rcases List.mem_append.mp hMem with hMem | hMem
    · exact hApart c (hBack hMem) hcq
    · exact hcz (List.mem_singleton.mp hMem)
  have hReach : g.Reaches G.root c := hc.reaches (hxReach.trans ⟨_, wx⟩)
  have hEq : b = c := hbc.antisymm hcb hReach
  exact hApart b hbp (hEq ▸ hcq)

end FlowGraph

end Midend
