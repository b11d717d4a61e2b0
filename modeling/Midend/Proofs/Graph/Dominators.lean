import Midend.Graph.Dominators
import Midend.Proofs.Graph.Walk

/-!
# The computed dominators are the dominators

`FlowGraph.Views` says that a flow graph shows a directed graph from its root. The sets of
dominators start full and are brought up to date one node at a time, each from sets that may have
been changed in the same round already. `Descending` is what every such step keeps: no true
dominator is ever dropped, and bringing a node up to date can only shrink its set.

Because sets only shrink, a round that ends where it began has changed nothing on the way, so its
sets solve the equations of dominance (`Settled`). A solution is then no larger than dominance
itself, by induction along walks.

* `dominates_of_path`: a dominator is never lost, whatever the limit.
* `path_of_dominates`: when the rounds converge, nothing else is left.
* `dominates_iff_eq_of_not_reaches`: a node out of reach is dominated by itself alone.
-/

namespace Midend

namespace Fixpoint

variable {α β : Type}

@[simp] theorem value_map (f : α → β) (r : Fixpoint α) : (r.map f).value = f r.value := by
  cases r <;> rfl

@[simp] theorem isConverged_map (f : α → β) (r : Fixpoint α) :
    (r.map f).isConverged = r.isConverged := by
  cases r <;> rfl

end Fixpoint

namespace FlowGraph

variable {ν : Type} [Key ν] {G : FlowGraph ν} {g : Digraph ν} {sets sets' : NodeSets ν} {a d : ν}

/-- The nodes are those that the root reaches, and the predecessors of a node among them are those
from which an edge leads to it. -/
structure Views (G : FlowGraph ν) (g : Digraph ν) : Prop where
  mem_nodes : ∀ a, a ∈ G.nodes ↔ g.Reaches G.root a
  mem_preds : ∀ a p, p ∈ G.nodes → (p ∈ G.preds a ↔ a ∈ g.next p)

theorem Views.mem_memberPreds (h : G.Views g) {p : ν} :
    p ∈ G.memberPreds a ↔ g.Reaches G.root p ∧ a ∈ g.next p := by
  simp only [memberPreds, List.mem_filter, decide_eq_true_eq]
  constructor
  · rintro ⟨hp, hNode⟩
    exact ⟨(h.mem_nodes p).mp hNode, (h.mem_preds a p hNode).mp hp⟩
  · rintro ⟨hReach, hEdge⟩
    have hNode := (h.mem_nodes p).mpr hReach
    exact ⟨(h.mem_preds a p hNode).mpr hEdge, hNode⟩

/-- Every node but the root has a predecessor among the nodes. -/
theorem Views.memberPreds_ne_nil (h : G.Views g) (ha : a ∈ G.nodes) (hne : a ≠ G.root) :
    G.memberPreds a ≠ [] := by
  obtain ⟨path, w⟩ := (h.mem_nodes a).mp ha
  rcases w.snoc_cases with ⟨hEq, _⟩ | ⟨front, p, w', edge, _⟩
  · exact absurd hEq.symm hne
  · exact List.ne_nil_of_mem (h.mem_memberPreds.mpr ⟨⟨_, w'⟩, edge⟩)

/-! ## One node -/

/-- The sets of one table are contained in those of another. -/
def Below (sets sets' : NodeSets ν) : Prop := ∀ a d, d ∈ sets.of a → d ∈ sets'.of a

theorem Below.refl (sets : NodeSets ν) : Below sets sets := fun _ _ h => h

theorem Below.trans {sets'' : NodeSets ν} (h : Below sets sets') (h' : Below sets' sets'') :
    Below sets sets'' := fun a d hd => h' a d (h a d hd)

/-- A node passes the equation of dominance at another one. -/
def Passes (G : FlowGraph ν) (sets : NodeSets ν) (a d : ν) : Prop :=
  d = a ∨ ∀ p ∈ G.memberPreds a, d ∈ sets.of p

theorem Passes.mono (hBelow : Below sets sets') (h : G.Passes sets a d) : G.Passes sets' a d :=
  h.imp_right fun hAll p hp => hBelow p d (hAll p hp)

theorem mem_of_insert {s : SortedSet ν} {x : ν} :
    d ∈ NodeSets.of (sets.insert a s) x ↔ if x = a then d ∈ s else d ∈ sets.of x := by
  rw [NodeSets.of, SortedMap.get?_insert]
  split <;> rfl

theorem mem_meet {p : ν} {ps : List ν} :
    d ∈ meet sets a p ps ↔ d = a ∨ ∀ q ∈ p :: ps, d ∈ sets.of q := by
  simp [meet, List.all_eq_true]

/-- Bringing a node other than the root up to date gives it what passes there. -/
theorem mem_refine (hne : a ≠ G.root) (hPreds : G.memberPreds a ≠ []) {x : ν} :
    d ∈ (G.refine sets a).of x ↔ if x = a then G.Passes sets a d else d ∈ sets.of x := by
  rw [refine, if_neg hne, Passes]
  cases hMember : G.memberPreds a with
  | nil => exact absurd hMember hPreds
  | cons p ps => exact mem_of_insert.trans (by rw [mem_meet])

theorem refine_root : G.refine sets G.root = sets := if_pos rfl

theorem contains_refine (ha : a ∈ G.nodes)
    (hKeys : ∀ x, sets.contains x = true ↔ x ∈ G.nodes) (x : ν) :
    (G.refine sets a).contains x = true ↔ x ∈ G.nodes := by
  rw [← hKeys x]
  unfold refine
  split
  · rfl
  · split
    · rfl
    · rw [SortedMap.contains, SortedMap.get?_insert]
      split
      · rename_i hEq
        subst hEq
        simp [(hKeys x).mpr ha]
      · rfl

/-! ## What every step keeps -/

/-- No dominator is missing, and bringing a node up to date does not enlarge its set. -/
structure Descending (G : FlowGraph ν) (g : Digraph ν) (sets : NodeSets ν) : Prop where
  contains_iff : ∀ a, sets.contains a = true ↔ a ∈ G.nodes
  mem_root : ∀ d, d ∈ sets.of G.root ↔ d = G.root
  upper : ∀ a d, a ∈ G.nodes → g.Dominates G.root d a → d ∈ sets.of a
  shrinks : ∀ a d, a ∈ G.nodes → a ≠ G.root → G.Passes sets a d → d ∈ sets.of a

theorem mem_fullSets : d ∈ G.fullSets.of a ↔
    a ∈ G.nodes ∧ if a = G.root then d = a else d ∈ G.nodes := by
  rw [NodeSets.of, fullSets, SortedMap.get?_tabulate]
  by_cases ha : a ∈ G.nodes
  · rw [if_pos ha, Option.getD_some]
    split
    · exact (SortedSet.mem_singleton).trans (and_iff_right ha).symm
    · exact (SortedSet.mem_ofList).trans (and_iff_right ha).symm
  · simp [ha]

theorem descending_fullSets (h : G.Views g) : G.Descending g G.fullSets where
  contains_iff a := by
    rw [SortedMap.contains, fullSets, SortedMap.get?_tabulate]
    split <;> simp [*]
  mem_root d := by
    rw [mem_fullSets, if_pos rfl]
    exact and_iff_right ((h.mem_nodes _).mpr (.refl _))
  upper a d ha hd := by
    refine mem_fullSets.mpr ⟨ha, ?_⟩
    split
    · rename_i hEq
      exact (hEq ▸ hd : g.Dominates G.root d G.root).eq_root.trans hEq.symm
    · exact (h.mem_nodes d).mpr (hd.reaches ((h.mem_nodes a).mp ha))
  shrinks a d ha hne hPass := by
    refine mem_fullSets.mpr ⟨ha, ?_⟩
    rw [if_neg hne]
    rcases hPass with rfl | hAll
    · exact ha
    · obtain ⟨p, hp⟩ := List.exists_mem_of_ne_nil _ (h.memberPreds_ne_nil ha hne)
      obtain ⟨hNode, hMem⟩ := mem_fullSets.mp (hAll p hp)
      split at hMem
      · exact hMem ▸ hNode
      · exact hMem

/-- A dominator passes wherever it dominates. -/
theorem Descending.passes (h : G.Views g) (hs : G.Descending g sets)
    (hd : g.Dominates G.root d a) : G.Passes sets a d := by
  by_cases hEq : d = a
  · exact Or.inl hEq
  · refine Or.inr fun p hp => ?_
    obtain ⟨hReach, edge⟩ := h.mem_memberPreds.mp hp
    exact hs.upper p d ((h.mem_nodes p).mpr hReach) (hd.of_edge hEq edge)

theorem Descending.refine_below (h : G.Views g) (hs : G.Descending g sets) (ha : a ∈ G.nodes) :
    Below (G.refine sets a) sets := by
  by_cases hne : a = G.root
  · rw [hne, refine_root]
    exact .refl sets
  · intro x d hd
    rw [mem_refine hne (h.memberPreds_ne_nil ha hne)] at hd
    split at hd
    · rename_i hEq
      exact hEq ▸ hs.shrinks a d ha hne hd
    · exact hd

theorem Descending.refine (h : G.Views g) (hs : G.Descending g sets) (ha : a ∈ G.nodes) :
    G.Descending g (G.refine sets a) := by
  have hBelow := hs.refine_below h ha
  by_cases hne : a = G.root
  · rw [hne, refine_root]
    exact hs
  have hMem : ∀ {x d : ν}, d ∈ (G.refine sets a).of x ↔
      if x = a then G.Passes sets a d else d ∈ sets.of x :=
    mem_refine hne (h.memberPreds_ne_nil ha hne)
  constructor
  · exact contains_refine ha hs.contains_iff
  · intro d
    rw [hMem, if_neg (Ne.symm hne)]
    exact hs.mem_root d
  · intro x d hx hd
    rw [hMem]
    split
    · rename_i hEq
      exact hs.passes h (hEq ▸ hd)
    · exact hs.upper x d hx hd
  · intro x d hx hxne hPass
    rw [hMem]
    split
    · rename_i hEq
      exact hEq ▸ hPass.mono hBelow
    · exact hs.shrinks x d hx hxne (hPass.mono hBelow)

/-! ## Rounds -/

theorem Descending.foldl (h : G.Views g) (l : List ν) (hl : ∀ a ∈ l, a ∈ G.nodes)
    (hs : G.Descending g sets) :
    G.Descending g (l.foldl G.refine sets) ∧ Below (l.foldl G.refine sets) sets := by
  induction l generalizing sets with
  | nil => exact ⟨hs, .refl sets⟩
  | cons a l ih =>
    have ha := hl a (List.mem_cons_self ..)
    obtain ⟨hDesc, hBelow⟩ := ih (fun b hb => hl b (List.mem_cons_of_mem _ hb)) (hs.refine h ha)
    exact ⟨hDesc, hBelow.trans (hs.refine_below h ha)⟩

/-- Every member of a set passes the equation of dominance. -/
def Settled (G : FlowGraph ν) (sets : NodeSets ν) : Prop :=
  ∀ a ∈ G.nodes, a ≠ G.root → ∀ d ∈ sets.of a, G.Passes sets a d

/-- Steps that end no lower than they began changed nothing, so each node was up to date. -/
theorem Descending.passes_of_foldl (h : G.Views g) (l : List ν) (hl : ∀ a ∈ l, a ∈ G.nodes)
    (hs : G.Descending g sets) (hBack : Below sets (l.foldl G.refine sets)) :
    ∀ a ∈ l, a ≠ G.root → ∀ d ∈ sets.of a, G.Passes sets a d := by
  induction l generalizing sets with
  | nil => exact fun a ha => absurd ha List.not_mem_nil
  | cons b l ih =>
    have hb := hl b (List.mem_cons_self ..)
    have hl' : ∀ a ∈ l, a ∈ G.nodes := fun a ha => hl a (List.mem_cons_of_mem _ ha)
    have hDesc := hs.refine h hb
    have hBelow := hs.refine_below h hb
    -- The rest of the steps stays below this one, so this one has come back to the start as well.
    have hBack' : Below sets (G.refine sets b) := hBack.trans (hDesc.foldl h l hl').2
    intro a ha hne d hd
    rcases List.mem_cons.mp ha with rfl | ha
    · have hd' := hBack' a d hd
      rw [mem_refine hne (h.memberPreds_ne_nil hb hne), if_pos rfl] at hd'
      exact hd'
    · exact (ih hl' hDesc (hBelow.trans hBack) a ha hne d (hBack' a d hd)).mono hBelow

/-- The rounds keep what every step keeps, and if they converge the sets are settled. -/
theorem solve_spec (h : G.Views g) (limit done : Nat) (hs : G.Descending g sets) :
    G.Descending g (G.solve limit done sets).value.2 ∧
      ((G.solve limit done sets).isConverged = true →
        G.Settled (G.solve limit done sets).value.2) := by
  induction limit generalizing done sets with
  | zero => exact ⟨hs, fun hConv => absurd hConv Bool.false_ne_true⟩
  | succ limit ih =>
    have hDesc : G.Descending g (G.round sets) := (hs.foldl h G.nodes fun a ha => ha).1
    rw [solve]
    split
    · rename_i hSame
      refine ⟨hDesc, fun _ => ?_⟩
      show G.Settled (G.round sets)
      rw [hSame]
      exact hs.passes_of_foldl h G.nodes (fun a ha => ha) (fun a d hd => by
        rw [show G.nodes.foldl G.refine sets = sets from hSame]; exact hd)
    · exact ih (done + 1) hDesc

/-- A member of a settled set dominates: the walk is followed from its end to its beginning. -/
theorem Settled.dominates (h : G.Views g) (hs : G.Descending g sets) (hSettled : G.Settled sets)
    (hd : d ∈ sets.of a) : g.Dominates G.root d a := by
  intro path w
  induction hLength : path.length generalizing path a with
  | zero => rw [List.length_eq_zero_iff.mp hLength] at w; cases w
  | succ n ih =>
    by_cases hRoot : a = G.root
    · rw [hRoot, hs.mem_root] at hd
      exact hd ▸ w.left_mem
    · rcases hSettled a ((h.mem_nodes a).mpr ⟨path, w⟩) hRoot d hd with rfl | hAll
      · exact w.right_mem
      · rcases w.snoc_cases with ⟨hEq, _⟩ | ⟨front, p, w', edge, rfl⟩
        · exact absurd hEq.symm hRoot
        · have hp : d ∈ sets.of p := hAll p (h.mem_memberPreds.mpr ⟨⟨_, w'⟩, edge⟩)
          exact List.mem_append_left _ (ih hp front w' (by simpa using hLength))

/-! ## The computed tree -/

theorem doms_dominators (G : FlowGraph ν) (limit : Nat) :
    (G.dominators limit).value.doms = (G.solve limit 0 G.fullSets).value.2 := by
  rw [dominators, Fixpoint.value_map]
  rfl

@[simp] theorem nodes_dominators (G : FlowGraph ν) (limit : Nat) :
    (G.dominators limit).value.nodes = G.nodes := by
  rw [dominators, Fixpoint.value_map]
  rfl

theorem descending_doms (h : G.Views g) (limit : Nat) :
    G.Descending g (G.dominators limit).value.doms := by
  rw [doms_dominators]
  exact (solve_spec h limit 0 (descending_fullSets h)).1

theorem settled_doms (h : G.Views g) {limit : Nat}
    (hConv : (G.dominators limit).isConverged = true) :
    G.Settled (G.dominators limit).value.doms := by
  rw [doms_dominators]
  refine (solve_spec h limit 0 (descending_fullSets h)).2 ?_
  rwa [dominators, Fixpoint.isConverged_map] at hConv

theorem dominates_eq_true_iff {t : DomTree ν} :
    t.dominates d a = true ↔ d = a ∨ d ∈ t.doms.of a := by
  rw [DomTree.dominates, Bool.or_eq_true, decide_eq_true_iff, decide_eq_true_iff]
  rfl

/-- A dominator of a node in reach is found, whether or not the rounds converge. -/
theorem dominates_of_path (h : G.Views g) (limit : Nat) (ha : g.Reaches G.root a)
    (hd : g.Dominates G.root d a) : (G.dominators limit).value.dominates d a = true :=
  dominates_eq_true_iff.mpr
    (Or.inr ((descending_doms h limit).upper a d ((h.mem_nodes a).mpr ha) hd))

/-- If the rounds converge, what is found dominates. -/
theorem path_of_dominates (h : G.Views g) {limit : Nat}
    (hConv : (G.dominators limit).isConverged = true)
    (hd : (G.dominators limit).value.dominates d a = true) : g.Dominates G.root d a := by
  rcases dominates_eq_true_iff.mp hd with rfl | hMem
  · exact .refl _ _
  · exact (settled_doms h hConv).dominates h (descending_doms h limit) hMem

/-- A node out of reach is dominated by itself alone. -/
theorem dominates_iff_eq_of_not_reaches (h : G.Views g) (limit : Nat)
    (ha : ¬ g.Reaches G.root a) : (G.dominators limit).value.dominates d a = true ↔ d = a := by
  rw [dominates_eq_true_iff]
  refine or_iff_left fun hMem => ha ((h.mem_nodes a).mp ?_)
  refine ((descending_doms h limit).contains_iff a).mp ?_
  rw [SortedMap.contains]
  rw [NodeSets.of] at hMem
  cases hGet : SortedMap.get? (G.dominators limit).value.doms a with
  | none => rw [hGet] at hMem; exact absurd hMem (SortedSet.not_mem_empty d)
  | some s => rfl

end FlowGraph

end Midend
