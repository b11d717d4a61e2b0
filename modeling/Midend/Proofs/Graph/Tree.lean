import Mathlib.Data.List.Nodup
import Midend.Proofs.Graph.Dominators

/-!
# The nearest dominator

The dominators of a node lie one behind the other. Of those of any kind, the one that a walk to the
node visits last is dominated by all the others: a walk to it can be prolonged to the node without
meeting any of them again (`exists_nearest`). So every node that the root reaches, the root apart,
has one strict dominator that all the others dominate (`exists_immediate`), and no second one
(`Immediate.unique`).

`idom?_eq_some_iff`: if the rounds converge, this is the immediate dominator that is computed. From
every node that the root reaches, immediate dominators lead through all its dominators up to the root
(`exists_walk_upward`), so they form a tree (`count_children`).
-/

namespace Midend

/-- A list that holds an element of a kind, cut at the last one. -/
theorem exists_last {α : Type} {P : α → Prop} {l : List α} (h : ∃ x ∈ l, P x) :
    ∃ front d back, l = front ++ d :: back ∧ P d ∧ ∀ x ∈ back, ¬ P x := by
  induction l with
  | nil =>
    obtain ⟨x, hx, -⟩ := h
    exact absurd hx List.not_mem_nil
  | cons a l ih =>
    by_cases hLater : ∃ x ∈ l, P x
    · obtain ⟨front, d, back, rfl, hd, hBack⟩ := ih hLater
      exact ⟨a :: front, d, back, rfl, hd, hBack⟩
    · obtain ⟨x, hx, hPx⟩ := h
      rcases List.mem_cons.mp hx with rfl | hx
      · exact ⟨[], x, l, rfl, hPx, fun y hy hPy => hLater ⟨y, hy, hPy⟩⟩
      · exact absurd ⟨x, hx, hPx⟩ hLater

/-- A search by a test that no two elements pass finds the one that does. -/
theorem find?_eq_some_of_unique {α : Type} {p : α → Bool} {l : List α} {d : α}
    (hUnique : ∀ x ∈ l, ∀ y ∈ l, p x = true → p y = true → x = y) :
    l.find? p = some d ↔ d ∈ l ∧ p d = true := by
  constructor
  · intro hFind
    exact ⟨List.mem_of_find?_eq_some hFind, List.find?_some hFind⟩
  · rintro ⟨hMem, hd⟩
    obtain ⟨d', hFind⟩ := Option.isSome_iff_exists.mp (List.find?_isSome.mpr ⟨d, hMem, hd⟩)
    rw [hUnique d hMem d' (List.mem_of_find?_eq_some hFind) hd (List.find?_some hFind)]
    exact hFind

namespace Digraph

variable {ν : Type} {g : Digraph ν} {root a b d x : ν}

theorem Walk.exists_cons {path : List ν} (w : g.Walk a path b) : ∃ rest, path = a :: rest := by
  cases w <;> exact ⟨_, rfl⟩

/-- A dominator of the end of a walk that is not met on the way dominates the beginning. -/
theorem Dominates.of_walk (h : g.Dominates root x b) {back : List ν} (w : g.Walk d (d :: back) b)
    (hx : x ∉ back) : g.Dominates root x d := by
  intro path w'
  have hMem : x ∈ path ++ back := h _ (w'.trans w)
  rcases List.mem_append.mp hMem with hMem | hMem
  · exact hMem
  · exact absurd hMem hx

/-- Of the dominators of a node that are of a kind, there is one that the others dominate. -/
theorem exists_nearest {P : ν → Prop} (hReach : g.Reaches root b)
    (hP : ∀ x, P x → g.Dominates root x b) (hSome : ∃ x, P x) :
    ∃ d, P d ∧ ∀ x, P x → g.Dominates root x d := by
  obtain ⟨path, w⟩ := hReach
  obtain ⟨x, hx⟩ := hSome
  obtain ⟨front, d, back, hPath, hd, hBack⟩ := exists_last ⟨x, hP x hx path w, hx⟩
  refine ⟨d, hd, ?_⟩
  intro y hy
  apply (hP y hy).of_walk (w.split hPath).2
  exact fun hMem => hBack y hMem hy

/-- The first node is the strict dominator of the second that every other one dominates. -/
structure Immediate (g : Digraph ν) (root d a : ν) : Prop where
  ne : d ≠ a
  dominates : g.Dominates root d a
  nearest : ∀ x, x ≠ a → g.Dominates root x a → g.Dominates root x d

theorem exists_immediate (hReach : g.Reaches root a) (hne : a ≠ root) :
    ∃ d, g.Immediate root d a := by
  have hRoot : ∃ x, x ≠ a ∧ g.Dominates root x a := ⟨root, hne.symm, .root root a⟩
  obtain ⟨d, ⟨hda, hd⟩, hNearest⟩ := exists_nearest hReach (fun x hx => hx.2) hRoot
  exact ⟨d, hda, hd, fun x hxa hx => hNearest x ⟨hxa, hx⟩⟩

theorem Immediate.ne_root (h : g.Immediate root d a) : a ≠ root := by
  rintro rfl
  exact h.ne h.dominates.eq_root

theorem Immediate.unique [DecidableEq ν] {d' : ν} (h : g.Immediate root d a)
    (h' : g.Immediate root d' a) (hReach : g.Reaches root a) : d = d' := by
  have hdd' := h'.nearest d h.ne h.dominates
  have hd'd := h.nearest d' h'.ne h'.dominates
  exact hdd'.antisymm hd'd (h'.dominates.reaches hReach)

end Digraph

namespace FlowGraph

variable {ν : Type} [Key ν] {G : FlowGraph ν} {g : Digraph ν} {sets : NodeSets ν} {a d : ν}

/-- The sets are those of the dominators. -/
def Exact (G : FlowGraph ν) (g : Digraph ν) (sets : NodeSets ν) : Prop :=
  ∀ a ∈ G.nodes, ∀ d, d ∈ sets.of a ↔ g.Dominates G.root d a

theorem exact_doms (h : G.Views g) {limit : Nat}
    (hConv : (G.dominators limit).isConverged = true) :
    G.Exact g (G.dominators limit).value.doms := by
  have hDesc := descending_doms h limit
  exact fun a ha d => ⟨(settled_doms h hConv).dominates h hDesc, hDesc.upper a d ha⟩

theorem Exact.size_le (h : G.Views g) (hs : G.Exact g sets) (ha : a ∈ G.nodes) :
    (sets.of a).size ≤ G.nodes.length := by
  apply (sets.of a).nodup_toList.length_le_of_subset
  intro d hd
  have hDom := (hs a ha d).mp hd
  exact (h.mem_nodes d).mpr (hDom.reaches ((h.mem_nodes a).mp ha))

/-- A strict dominator has fewer dominators. -/
theorem Exact.size_lt (h : G.Views g) (hs : G.Exact g sets) (ha : a ∈ G.nodes) (hne : d ≠ a)
    (hd : g.Dominates G.root d a) : (sets.of d).size < (sets.of a).size := by
  have hReach := (h.mem_nodes a).mp ha
  have hNode : d ∈ G.nodes := (h.mem_nodes d).mpr (hd.reaches hReach)
  have hNot : a ∉ (sets.of d).toList := fun hMem =>
    hne (hd.antisymm ((hs d hNode a).mp hMem) hReach)
  have hSub : a :: (sets.of d).toList ⊆ (sets.of a).toList := by
    intro x hx
    rcases List.mem_cons.mp hx with rfl | hx
    · exact (hs x ha x).mpr (.refl _ _)
    · exact (hs a ha x).mpr (((hs d hNode x).mp hx).trans hd)
  have hLength := (List.nodup_cons.mpr ⟨hNot, (sets.of d).nodup_toList⟩).length_le_of_subset hSub
  rw [List.length_cons] at hLength
  unfold SortedSet.size
  omega

/-- The test for the closest dominator looks at the sets only. -/
theorem closest?_eq_some_iff (h : G.Views g) (hs : G.Exact g sets) (ha : a ∈ G.nodes) :
    G.closest? sets a = some d ↔ g.Immediate G.root d a := by
  have hReach := (h.mem_nodes a).mp ha
  have hTest : ∀ d ∈ (sets.of a).toList, ((decide (d ≠ a ∧ (sets.of a).toList.all fun other =>
      decide (other = a ∨ other ∈ sets.of d))) = true ↔ g.Immediate G.root d a) := by
    intro d hd
    rw [SortedSet.mem_toList, hs a ha] at hd
    have hNode : d ∈ G.nodes := (h.mem_nodes d).mpr (hd.reaches hReach)
    rw [decide_eq_true_iff, List.all_eq_true]
    constructor
    · rintro ⟨hne, hAll⟩
      refine ⟨hne, hd, fun x hxa hx => ?_⟩
      have hMem := of_decide_eq_true (hAll x ((hs a ha x).mpr hx))
      exact (hs d hNode x).mp (hMem.resolve_left hxa)
    · intro hImm
      refine ⟨hImm.ne, fun x hx => decide_eq_true ?_⟩
      by_cases hxa : x = a
      · exact .inl hxa
      · exact .inr ((hs d hNode x).mpr (hImm.nearest x hxa ((hs a ha x).mp hx)))
  unfold closest?
  split
  · rename_i hRoot
    exact iff_of_false (by simp) fun hImm => hImm.ne_root hRoot
  · refine (find?_eq_some_of_unique ?_).trans ⟨fun hd => (hTest d hd.1).mp hd.2, fun hImm => ?_⟩
    · intro x hx y hy hTestX hTestY
      exact ((hTest x hx).mp hTestX).unique ((hTest y hy).mp hTestY) hReach
    · have hMem : d ∈ (sets.of a).toList := (hs a ha d).mpr hImm.dominates
      exact ⟨hMem, (hTest d hMem).mpr hImm⟩

theorem idoms_dominators (G : FlowGraph ν) (limit : Nat) :
    (G.dominators limit).value.idoms =
      SortedMap.tabulate G.nodes (G.closest? (G.dominators limit).value.doms) := by
  rw [dominators, Fixpoint.value_map]
  rfl

theorem idom?_eq_some_iff (h : G.Views g) {limit : Nat}
    (hConv : (G.dominators limit).isConverged = true) :
    (G.dominators limit).value.idom? a = some d ↔
      g.Reaches G.root a ∧ g.Immediate G.root d a := by
  rw [DomTree.idom?, idoms_dominators, SortedMap.get?_tabulate, ← h.mem_nodes]
  by_cases ha : a ∈ G.nodes
  · rw [if_pos ha, closest?_eq_some_iff h (exact_doms h hConv) ha, and_iff_right ha]
  · simp [ha]

theorem get?_idoms_eq_some_iff (h : G.Views g) {limit : Nat}
    (hConv : (G.dominators limit).isConverged = true) :
    ∀ a ∈ G.nodes, ∀ d,
      (G.dominators limit).value.idoms.get? a = some d ↔ g.Immediate G.root d a := by
  intro a ha d
  exact (idom?_eq_some_iff h hConv).trans (and_iff_right ((h.mem_nodes a).mp ha))

/-- The root and what it does not reach have no immediate dominator, and everything else has. -/
theorem idom?_eq_none_iff (h : G.Views g) {limit : Nat}
    (hConv : (G.dominators limit).isConverged = true) :
    (G.dominators limit).value.idom? a = none ↔ a = G.root ∨ ¬ g.Reaches G.root a := by
  constructor
  · intro hNone
    by_contra hNot
    rw [not_or, not_not] at hNot
    obtain ⟨d, hImm⟩ := Digraph.exists_immediate hNot.2 hNot.1
    rw [(idom?_eq_some_iff h hConv).mpr ⟨hNot.2, hImm⟩] at hNone
    cases hNone
  · intro hOut
    cases hSome : (G.dominators limit).value.idom? a with
    | none => rfl
    | some d =>
      obtain ⟨hReach, hImm⟩ := (idom?_eq_some_iff h hConv).mp hSome
      rcases hOut with hRoot | hNot
      · exact absurd hRoot hImm.ne_root
      · exact absurd hReach hNot

end FlowGraph

/-! ## The way up -/

namespace DomTree

variable {ν : Type} [Key ν] {t : DomTree ν} {a b : ν}

/-- The graph in which the only edge from a node leads to its immediate dominator. -/
def upward (t : DomTree ν) : Digraph ν where
  next a := (t.idom? a).toList
  bound := t.nodes

@[simp] theorem mem_next_upward : b ∈ t.upward.next a ↔ t.idom? a = some b := Option.mem_toList

end DomTree

namespace FlowGraph

variable {ν : Type} [Key ν] {G : FlowGraph ν} {g : Digraph ν} {a b d : ν}

/-- What dominates a node is the node or dominates its immediate dominator. -/
theorem dominates_iff_of_immediate (hImm : g.Immediate G.root d a) {x : ν} :
    g.Dominates G.root x a ↔ x = a ∨ g.Dominates G.root x d := by
  constructor
  · intro hx
    by_cases hEq : x = a
    · exact .inl hEq
    · exact .inr (hImm.nearest x hEq hx)
  · rintro (rfl | hx)
    · exact .refl _ _
    · exact hx.trans hImm.dominates

/-- The way up from a node leads through its dominators to the root and meets each of them once. -/
theorem exists_walk_upward (h : G.Views g) {limit : Nat}
    (hConv : (G.dominators limit).isConverged = true) (ha : g.Reaches G.root a) :
    ∃ chain, (G.dominators limit).value.upward.Walk a chain G.root ∧ chain.Nodup ∧
      ∀ d, d ∈ chain ↔ g.Dominates G.root d a := by
  have hExact := exact_doms h hConv
  -- every step up leaves a dominator behind
  generalize hSize : ((G.dominators limit).value.doms.of a).size = n
  induction n using Nat.strongRecOn generalizing a with
  | ind n ih =>
    by_cases hRoot : a = G.root
    · subst hRoot
      refine ⟨[G.root], .nil _, List.nodup_singleton _, fun d => ?_⟩
      rw [List.mem_singleton]
      exact ⟨fun hd => hd ▸ .refl _ _, Digraph.Dominates.eq_root⟩
    · obtain ⟨d, hImm⟩ := Digraph.exists_immediate ha hRoot
      have hd : g.Reaches G.root d := hImm.dominates.reaches ha
      have hLess := hExact.size_lt h ((h.mem_nodes a).mpr ha) hImm.ne hImm.dominates
      obtain ⟨chain, w, hNodup, hMem⟩ := ih _ (hSize ▸ hLess) hd rfl
      have edge : d ∈ (G.dominators limit).value.upward.next a := by
        rw [DomTree.mem_next_upward]
        exact (idom?_eq_some_iff h hConv).mpr ⟨ha, hImm⟩
      have hNew : a ∉ chain := by
        rw [hMem]
        exact fun had => hImm.ne (hImm.dominates.antisymm had ha)
      refine ⟨a :: chain, .cons edge w, List.nodup_cons.mpr ⟨hNew, hNodup⟩, fun x => ?_⟩
      rw [List.mem_cons, hMem, dominates_iff_of_immediate hImm]

/-- A node is listed once below its immediate dominator, and below no other node. -/
theorem count_children (h : G.Views g) (hNodes : G.nodes.Nodup) {limit : Nat}
    (hConv : (G.dominators limit).isConverged = true) (hb : g.Reaches G.root b)
    (hImm : g.Immediate G.root d b) :
    ((G.dominators limit).value.children a).count b = if a = d then 1 else 0 := by
  have hIdom := (idom?_eq_some_iff h hConv).mpr ⟨hb, hImm⟩
  have hNodup : ((G.dominators limit).value.children a).Nodup := by
    rw [DomTree.children, nodes_dominators]
    exact hNodes.filter _
  have hMem : b ∈ (G.dominators limit).value.children a ↔ a = d := by
    rw [DomTree.children, nodes_dominators, List.mem_filter, hIdom, decide_eq_true_eq,
      Option.some_inj, and_iff_right ((h.mem_nodes b).mpr hb), eq_comm]
  rw [hNodup.count, if_congr hMem rfl rfl]

end FlowGraph

end Midend
