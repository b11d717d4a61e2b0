import Mathlib.Data.List.Nodup
import Midend.Proofs.Graph.Dominators

/-!
# One round for each node is enough

Every round takes account of walks that are one edge longer: what is still in the set of a node
after `k` rounds lies on every walk from the root to the node that has at most `k` edges
(`Narrowed`). The order in which a round visits the nodes does not matter, since a set that has been
brought up to date already can only be smaller than it has to be.

A walk that visits no node twice is no longer than there are nodes to visit, and what lies on every
such walk lies on every walk. So the sets are exact one round before the limit is reached, and the
last round finds that they do not change (`solve_isConverged`). Limits beyond that make no
difference (`solve_eq_of_le`).

Nothing is asked of the graph. Walks follow the edges along which the sets are computed (`inflow`);
a node that none of them leads to keeps the full set.
-/

namespace Midend

namespace Digraph

variable {ν : Type} {g : Digraph ν} {a b d root : ν} {path : List ν}

/-- A walk can be cut short to one that visits no node twice. -/
theorem Walk.exists_nodup (w : g.Walk a path b) :
    ∃ short, g.Walk a short b ∧ short.Nodup ∧ short ⊆ path := by
  induction w with
  | nil a => exact ⟨[a], .nil a, List.nodup_singleton a, fun _ h => h⟩
  | @cons a m b path edge rest ih =>
    obtain ⟨short, w, hNodup, hSub⟩ := ih
    by_cases ha : a ∈ short
    · -- the walk comes back to where it began, and the way there is left out
      obtain ⟨front, back, rfl⟩ := List.append_of_mem ha
      refine ⟨a :: back, (w.split rfl).2, (List.nodup_append.mp hNodup).2.1, ?_⟩
      intro x hx
      exact List.mem_cons_of_mem a (hSub (List.mem_append_right front hx))
    · exact ⟨a :: short, .cons edge w, List.nodup_cons.mpr ⟨ha, hNodup⟩,
        List.cons_subset_cons a hSub⟩

theorem Dominates.of_nodup (h : ∀ path, g.Walk root path a → path.Nodup → d ∈ path) :
    g.Dominates root d a := by
  intro path w
  obtain ⟨short, w', hNodup, hSub⟩ := w.exists_nodup
  exact hSub (h short w' hNodup)

end Digraph

namespace FlowGraph

variable {ν : Type} [Key ν] {G : FlowGraph ν} {sets sets' : NodeSets ν} {a d p : ν} {k n : Nat}
  {done : List ν}

/-- The nodes with the edges along which their sets are computed. -/
def inflow (G : FlowGraph ν) : Digraph ν where
  next p := G.nodes.filter (p ∈ G.memberPreds ·)
  bound := G.nodes

theorem mem_next_inflow : a ∈ G.inflow.next p ↔ a ∈ G.nodes ∧ p ∈ G.memberPreds a := by
  simp [inflow]

theorem mem_nodes_of_mem_memberPreds (h : p ∈ G.memberPreds a) : p ∈ G.nodes := by
  have hNode := (List.mem_filter.mp h).2
  rwa [decide_eq_true_eq] at hNode

/-- Bringing a node up to date gives it what passes there, or leaves all sets alone because the node
is the root or has no predecessor. -/
theorem refine_cases (G : FlowGraph ν) (sets : NodeSets ν) (a : ν) :
    (G.refine sets a = sets ∧ (a = G.root ∨ G.memberPreds a = [])) ∨
      (a ≠ G.root ∧ G.memberPreds a ≠ [] ∧ ∀ x d, d ∈ (G.refine sets a).of x ↔
        if x = a then G.Passes sets a d else d ∈ sets.of x) := by
  by_cases hRoot : a = G.root
  · exact .inl ⟨by rw [hRoot, refine_root], .inl hRoot⟩
  by_cases hPreds : G.memberPreds a = []
  · refine .inl ⟨?_, .inr hPreds⟩
    rw [refine, if_neg hRoot, hPreds]
  · exact .inr ⟨hRoot, hPreds, fun x d => mem_refine hRoot hPreds⟩

/-! ## Rounds -/

/-- After `k` rounds, and a part of the next one in which the given nodes are done: the sets hold
nodes, no node is missing that lies on every walk, and what is in the set of a node lies on every
walk to it that has at most `k` edges, or one edge more if the node is done. -/
structure Narrowed (G : FlowGraph ν) (k : Nat) (done : List ν) (sets : NodeSets ν) : Prop where
  contains_iff : ∀ a, sets.contains a = true ↔ a ∈ G.nodes
  mem_nodes : ∀ a d, d ∈ sets.of a → d ∈ G.nodes
  mem_root : ∀ d, d ∈ sets.of G.root → d = G.root
  upper : ∀ a d, a ∈ G.nodes → d ∈ G.nodes → G.inflow.Dominates G.root d a → d ∈ sets.of a
  lower : ∀ a d path, d ∈ sets.of a → G.inflow.Walk G.root path a →
    path.length ≤ k + 1 ∨ (a ∈ done ∧ path.length ≤ k + 2) → d ∈ path

theorem narrowed_fullSets (G : FlowGraph ν) : G.Narrowed 0 [] G.fullSets where
  contains_iff a := by
    rw [SortedMap.contains, fullSets, SortedMap.get?_tabulate]
    split <;> simp [*]
  mem_nodes a d hd := by
    obtain ⟨ha, hMem⟩ := mem_fullSets.mp hd
    split at hMem
    · exact hMem ▸ ha
    · exact hMem
  mem_root d hd := by
    have hMem := (mem_fullSets.mp hd).2
    rwa [if_pos rfl] at hMem
  upper a d ha hNode hd := by
    refine mem_fullSets.mpr ⟨ha, ?_⟩
    split
    · rename_i hRoot
      exact (hRoot ▸ hd : G.inflow.Dominates G.root d G.root).eq_root.trans hRoot.symm
    · exact hNode
  lower a d path hd w hLength := by
    -- only the root is reached without an edge
    rcases w.snoc_cases with ⟨rfl, rfl⟩ | ⟨front, p, w', -, rfl⟩
    · have hMem := (mem_fullSets.mp hd).2
      rw [if_pos rfl] at hMem
      exact List.mem_singleton.mpr hMem
    · have hFront := List.length_pos_of_mem w'.left_mem
      simp only [List.length_append, List.length_singleton, List.not_mem_nil, false_and,
        or_false] at hLength
      omega

theorem Narrowed.refine (h : G.Narrowed k done sets) (ha : a ∈ G.nodes) :
    G.Narrowed k (a :: done) (G.refine sets a) := by
  rcases G.refine_cases sets a with ⟨hSame, hWhy⟩ | ⟨hRoot, hPreds, hMem⟩
  · rw [hSame]
    refine ⟨h.contains_iff, h.mem_nodes, h.mem_root, h.upper, ?_⟩
    intro x d path hd w hLength
    by_cases hEq : x = a
    · subst hEq
      rcases hWhy with rfl | hNone
      · rw [h.mem_root d hd]
        exact w.left_mem
      · -- no edge leads to the node, so the walk has none
        rcases w.snoc_cases with ⟨hStay, hPath⟩ | ⟨front, p, w', edge, rfl⟩
        · exact h.lower x d path hd w (.inl (by simp [hPath]))
        · have hp := (mem_next_inflow.mp edge).2
          rw [hNone] at hp
          exact absurd hp List.not_mem_nil
    · refine h.lower x d path hd w (hLength.imp_right fun hDone => ?_)
      exact ⟨(List.mem_cons.mp hDone.1).resolve_left hEq, hDone.2⟩
  refine ⟨contains_refine ha h.contains_iff, ?_, ?_, ?_, ?_⟩
  · intro x d hd
    rw [hMem] at hd
    split at hd
    · rcases hd with rfl | hAll
      · exact ha
      · obtain ⟨p, hp⟩ := List.exists_mem_of_ne_nil _ hPreds
        exact h.mem_nodes p d (hAll p hp)
    · exact h.mem_nodes x d hd
  · intro d hd
    rw [hMem, if_neg (Ne.symm hRoot)] at hd
    exact h.mem_root d hd
  · intro x d hx hNode hd
    rw [hMem]
    split
    · rename_i hEq
      subst hEq
      by_cases hSelf : d = x
      · exact .inl hSelf
      · refine .inr fun p hp => ?_
        have edge : x ∈ G.inflow.next p := mem_next_inflow.mpr ⟨hx, hp⟩
        exact h.upper p d (mem_nodes_of_mem_memberPreds hp) hNode (hd.of_edge hSelf edge)
    · exact h.upper x d hx hNode hd
  · intro x d path hd w hLength
    rw [hMem] at hd
    split at hd
    · rename_i hEq
      subst hEq
      rcases hd with rfl | hAll
      · exact w.right_mem
      -- the walk without its last edge has one edge less
      rcases w.snoc_cases with ⟨hStay, -⟩ | ⟨front, p, w', edge, rfl⟩
      · exact absurd hStay.symm hRoot
      · have hFront : front.length ≤ k + 1 := by
          simp at hLength
          omega
        have hp := hAll p (mem_next_inflow.mp edge).2
        exact List.mem_append_left _ (h.lower p d front hp w' (.inl hFront))
    · rename_i hNe
      refine h.lower x d path hd w (hLength.imp_right fun hDone => ?_)
      exact ⟨(List.mem_cons.mp hDone.1).resolve_left hNe, hDone.2⟩

theorem Narrowed.foldl (h : G.Narrowed k done sets) (l : List ν) (hl : ∀ a ∈ l, a ∈ G.nodes) :
    G.Narrowed k (l.reverse ++ done) (l.foldl G.refine sets) := by
  induction l generalizing sets done with
  | nil => exact h
  | cons a l ih =>
    have hStep := h.refine (hl a List.mem_cons_self)
    simpa using ih hStep fun b hb => hl b (List.mem_cons_of_mem a hb)

/-- A round takes account of walks with one edge more. -/
theorem Narrowed.round (h : G.Narrowed k [] sets) : G.Narrowed (k + 1) [] (G.round sets) := by
  have hAll := h.foldl G.nodes fun a ha => ha
  refine ⟨hAll.contains_iff, hAll.mem_nodes, hAll.mem_root, hAll.upper, ?_⟩
  intro a d path hd w hLength
  have hLength' : path.length ≤ k + 2 := by
    rcases hLength with hLength | ⟨hNone, -⟩
    · omega
    · exact absurd hNone List.not_mem_nil
  refine hAll.lower a d path hd w ?_
  rcases w.snoc_cases with ⟨-, rfl⟩ | ⟨front, p, w', edge, -⟩
  · exact .inl (by simp)
  · refine .inr ⟨?_, hLength'⟩
    simpa using (mem_next_inflow.mp edge).1

/-! ## The last round -/

theorem contains_of_mem (hd : d ∈ sets.of a) : sets.contains a = true := by
  rw [NodeSets.of] at hd
  rw [SortedMap.contains]
  cases hGet : SortedMap.get? sets a with
  | none =>
    rw [hGet] at hd
    exact absurd hd (SortedSet.not_mem_empty d)
  | some s => rfl

/-- Tables with the same keys and the same sets are the same. -/
theorem nodeSets_ext (hKeys : ∀ a, sets.contains a = true ↔ sets'.contains a = true)
    (hMem : ∀ a d, d ∈ sets.of a ↔ d ∈ sets'.of a) : sets = sets' := by
  apply SortedMap.ext
  intro a
  have hKey := hKeys a
  have hOf : sets.of a = sets'.of a := SortedSet.ext (hMem a)
  simp only [SortedMap.contains, NodeSets.of] at hKey hOf
  generalize SortedMap.get? sets a = left at *
  generalize SortedMap.get? sets' a = right at *
  cases left <;> cases right <;> simp_all

/-- Walks that visit no node twice visit at most `n` nodes. -/
def Shallow (G : FlowGraph ν) (n : Nat) : Prop :=
  ∀ a path, G.inflow.Walk G.root path a → path.Nodup → path.length ≤ n

/-- Once all walks that visit no node twice have been taken account of, the sets are exact. -/
theorem Narrowed.mem_iff (h : G.Narrowed k [] sets) (hn : G.Shallow (k + 1)) :
    d ∈ sets.of a ↔ a ∈ G.nodes ∧ d ∈ G.nodes ∧ G.inflow.Dominates G.root d a := by
  constructor
  · intro hd
    refine ⟨(h.contains_iff a).mp (contains_of_mem hd), h.mem_nodes a d hd, ?_⟩
    exact .of_nodup fun path w hNodup => h.lower a d path hd w (.inl (hn a path w hNodup))
  · rintro ⟨ha, hNode, hd⟩
    exact h.upper a d ha hNode hd

theorem Narrowed.round_eq (h : G.Narrowed k [] sets) (hn : G.Shallow (k + 1)) :
    G.round sets = sets := by
  have hRound := h.round
  have hn' : G.Shallow (k + 1 + 1) := fun a path w hNodup => by
    have hLength := hn a path w hNodup
    omega
  apply nodeSets_ext
  · intro a
    rw [hRound.contains_iff, h.contains_iff]
  · intro a d
    rw [hRound.mem_iff hn', h.mem_iff hn]

/-- The limit is not reached: if no round before has, the last one changes nothing. -/
theorem solve_isConverged (hn : G.Shallow n) (limit done : Nat) (hPos : 0 < limit)
    (hLimit : n ≤ k + limit) (h : G.Narrowed k [] sets) :
    (G.solve limit done sets).isConverged = true := by
  induction limit generalizing k done sets with
  | zero => omega
  | succ limit ih =>
    rw [solve]
    split
    · rfl
    · rename_i hChanged
      refine ih (done + 1) ?_ (by omega) h.round
      by_contra hZero
      refine hChanged (h.round_eq fun a path w hNodup => ?_)
      have hLength := hn a path w hNodup
      omega

/-- A limit beyond the one that is needed makes no difference. -/
theorem solve_eq_of_le {limit limit' : Nat} (done : Nat) (hLe : limit ≤ limit')
    (hConv : (G.solve limit done sets).isConverged = true) :
    G.solve limit' done sets = G.solve limit done sets := by
  induction limit generalizing limit' done sets with
  | zero => exact absurd hConv Bool.false_ne_true
  | succ limit ih =>
    cases limit' with
    | zero => omega
    | succ limit' =>
      rw [solve] at hConv ⊢
      rw [solve]
      split
      · rfl
      · rename_i hChanged
        rw [if_neg hChanged] at hConv
        exact ih (done + 1) (by omega) hConv

/-- All limits from the number of nodes on give the same dominators, with nothing left to change. -/
theorem exists_dominators_eq (hn : G.Shallow n) :
    ∃ t, ∀ limit, n ≤ limit → G.dominators limit = .converged t := by
  have hPos : 0 < n := hn G.root [G.root] (.nil G.root) (List.nodup_singleton G.root)
  have hConv := solve_isConverged hn n 0 hPos (by omega) G.narrowed_fullSets
  obtain ⟨answer, hAnswer⟩ : ∃ answer, G.solve n 0 G.fullSets = .converged answer := by
    cases hSolve : G.solve n 0 G.fullSets with
    | converged answer => exact ⟨answer, rfl⟩
    | truncated answer =>
      rw [hSolve] at hConv
      cases hConv
  refine ⟨G.tree answer.1 answer.2, fun limit hLimit => ?_⟩
  rw [dominators, solve_eq_of_le 0 hLimit hConv, hAnswer]
  rfl

end FlowGraph

end Midend
