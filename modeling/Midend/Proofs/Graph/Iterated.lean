import Mathlib.Order.Bounds.Defs
import Midend.Graph.Dominators

/-!
# The iterated frontier is the least closed set

The search for the iterated frontier keeps two sets beside its work list: the nodes that it has found
and the nodes that it has put on the list. A node that is given and lies in a frontier as well is
found, but it is not put on the list again.

Every node that was put on the list is still there, or its frontier has been found
(`Closing.covered`); every node that is found was put on the list (`Closing.tidy`). When the list is
empty, the frontiers of the given nodes and of the nodes found have been found. Whatever set contains
these frontiers contains all that is found, at any time (`Closing.least`).

Each step takes a node from the list. A node comes on the list at most once, and only if it is given
or lies in a frontier, so the list gets empty (`Closing.closeFrontier`). Nothing is asked of the
frontiers, which need not be those of any graph.

* `iteratedFrontier_isLeast`: the search ends, and gives the smallest set that contains the frontiers
  of the given nodes and of its own.
-/

namespace Midend

namespace FrontierSearch

variable {ν : Type} [Key ν] {s s' s'' : FrontierSearch ν} {l m : List ν} {c : ν}

/-- The second state comes from the first by noting some nodes. -/
structure Noted (s : FrontierSearch ν) (l : List ν) (s' : FrontierSearch ν) : Prop where
  mem_found : ∀ x, x ∈ s'.found ↔ x ∈ l ∨ x ∈ s.found
  mem_queued : ∀ x, x ∈ s'.queued ↔ x ∈ l ∨ x ∈ s.queued
  mem_work : ∀ x, x ∈ s'.work ↔ (x ∈ l ∧ ¬ x ∈ s.queued) ∨ x ∈ s.work

theorem Noted.nil (s : FrontierSearch ν) : Noted s [] s := by
  constructor <;> simp

theorem Noted.append (h : Noted s l s') (h' : Noted s' m s'') : Noted s (l ++ m) s'' where
  mem_found x := by
    rw [h'.mem_found, h.mem_found, List.mem_append]
    grind
  mem_queued x := by
    rw [h'.mem_queued, h.mem_queued, List.mem_append]
    grind
  mem_work x := by
    rw [h'.mem_work, h.mem_queued, h.mem_work, List.mem_append]
    grind

theorem note_noted (h : ∀ c ∈ s.found, c ∈ s.queued) (c : ν) : Noted s [c] (s.note c) := by
  unfold note
  split
  · rename_i hFound
    have hQueued := h c hFound
    constructor <;> intro x <;> grind
  split
  · constructor <;> intro x <;> grind [SortedSet.mem_insert]
  · constructor <;> intro x <;> grind [SortedSet.mem_insert]

theorem foldl_note_noted (h : ∀ c ∈ s.found, c ∈ s.queued) (l : List ν) :
    Noted s l (l.foldl note s) := by
  induction l generalizing s with
  | nil => exact .nil s
  | cons c l ih =>
    have hNote := note_noted h c
    refine hNote.append (ih fun x hx => ?_)
    rw [hNote.mem_queued]
    exact ((hNote.mem_found x).mp hx).imp_right (h x)

end FrontierSearch

namespace DomTree

variable {ν : Type} [Key ν] {t : DomTree ν} {s : FrontierSearch ν} {l work : List ν} {a c : ν}

/-! ## How much there is left to be put on the list -/

/-- The nodes that lie in some frontier, as often as they do. -/
def frontierNodes (t : DomTree ν) : List ν := t.frontiers.values.flatMap (·.toList)

theorem length_frontierNodes (t : DomTree ν) :
    t.frontierNodes.length = total (t.frontiers.values.map (·.size)) := by
  rw [frontierNodes]
  induction t.frontiers.values with
  | nil => rfl
  | cons s l ih =>
    rw [List.flatMap_cons, List.length_append, ih]
    rfl

theorem mem_frontierNodes (hc : c ∈ t.frontier a) : c ∈ t.frontierNodes := by
  rw [frontier, NodeSets.of] at hc
  cases hGet : t.frontiers.get? a with
  | none =>
    rw [hGet] at hc
    exact absurd hc (SortedSet.not_mem_empty c)
  | some s =>
    rw [hGet] at hc
    have hMem : (a, s) ∈ t.frontiers.toList := SortedMap.get?_eq_some_iff.mp hGet
    exact List.mem_flatMap.mpr ⟨s, List.mem_map.mpr ⟨(a, s), hMem, rfl⟩, hc⟩

/-- The steps that are left: the length of the work list, and the nodes of frontiers that have not
been on it. -/
def left (t : DomTree ν) (s : FrontierSearch ν) : Nat :=
  s.work.length + t.frontierNodes.countP (¬ · ∈ s.queued)

theorem countP_insert_lt {l : List ν} {q : SortedSet ν} (hc : c ∈ l) (hNot : ¬ c ∈ q) :
    l.countP (¬ · ∈ q.insert c) < l.countP (¬ · ∈ q) := by
  have hLess : ∀ l : List ν, l.countP (¬ · ∈ q.insert c) ≤ l.countP (¬ · ∈ q) := by
    intro l
    apply List.countP_mono_left
    intro x _ hx
    simp only [SortedSet.mem_insert, decide_eq_true_eq] at hx ⊢
    exact fun hq => hx (.inr hq)
  obtain ⟨front, back, rfl⟩ := List.append_of_mem hc
  have hFront := hLess front
  have hBack := hLess back
  simp only [List.countP_append, List.countP_cons, SortedSet.mem_insert, true_or, not_true_eq_false,
    decide_false, hNot, not_false_eq_true, decide_true, Bool.false_eq_true, if_false, if_true] at *
  omega

theorem left_note_le (hc : c ∈ t.frontierNodes) : t.left (s.note c) ≤ t.left s := by
  unfold FrontierSearch.note left
  split
  · exact Nat.le_refl _
  split
  · exact Nat.le_refl _
  · rename_i hNot
    have hLess := countP_insert_lt hc hNot
    change (c :: s.work).length + t.frontierNodes.countP (¬ · ∈ s.queued.insert c) ≤ _
    rw [List.length_cons]
    omega

theorem left_foldl_note_le (hl : ∀ c ∈ l, c ∈ t.frontierNodes) :
    t.left (l.foldl .note s) ≤ t.left s := by
  induction l generalizing s with
  | nil => exact Nat.le_refl _
  | cons c l ih =>
    calc t.left (l.foldl .note (s.note c))
        _ ≤ t.left (s.note c) := ih fun x hx => hl x (List.mem_cons_of_mem c hx)
        _ ≤ t.left s := left_note_le (hl c List.mem_cons_self)

/-! ## The search -/

/-- A search from given nodes: what is found belongs there, and what does and is not found yet is
still to come. -/
structure Closing (t : DomTree ν) (l : List ν) (s : FrontierSearch ν) : Prop where
  given : ∀ a ∈ l, a ∈ s.queued
  tidy : ∀ c ∈ s.found, c ∈ s.queued
  covered : ∀ a ∈ s.queued, a ∈ s.work ∨ ∀ c ∈ t.frontier a, c ∈ s.found
  origin : ∀ a ∈ s.work, a ∈ l ∨ a ∈ s.found
  least : ∀ R : Set ν, (∀ b, b ∈ l ∨ b ∈ R → ∀ c ∈ t.frontier b, c ∈ R) → ∀ c ∈ s.found, c ∈ R

theorem Closing.start (t : DomTree ν) (l : List ν) : t.Closing l (.start l) where
  given _ ha := SortedSet.mem_ofList.mpr ha
  tidy c hc := absurd hc (SortedSet.not_mem_empty c)
  covered _ ha := .inl (List.mem_reverse.mpr (SortedSet.mem_ofList.mp ha))
  origin _ ha := .inl (List.mem_reverse.mp ha)
  least _ _ c hc := absurd hc (SortedSet.not_mem_empty c)

/-- The frontier of one node is found, and what is new in it comes on the work list. -/
theorem Closing.step (h : t.Closing l s) (hWork : s.work = a :: work) :
    t.Closing l ((t.frontier a).toList.foldl .note { s with work }) := by
  have hNoted := FrontierSearch.foldl_note_noted (s := { s with work }) h.tidy (t.frontier a).toList
  generalize (t.frontier a).toList.foldl .note { s with work } = s' at *
  have hFound : ∀ x, x ∈ s'.found ↔ x ∈ t.frontier a ∨ x ∈ s.found := hNoted.mem_found
  have hQueued : ∀ x, x ∈ s'.queued ↔ x ∈ t.frontier a ∨ x ∈ s.queued := hNoted.mem_queued
  have hList : ∀ x, x ∈ s'.work ↔ (x ∈ t.frontier a ∧ ¬ x ∈ s.queued) ∨ x ∈ work := hNoted.mem_work
  have hMem : ∀ x, x ∈ s.work ↔ x = a ∨ x ∈ work := by
    intro x
    rw [hWork, List.mem_cons]
  constructor
  · exact fun x hx => (hQueued x).mpr (.inr (h.given x hx))
  · exact fun x hx => (hQueued x).mpr (((hFound x).mp hx).imp_right (h.tidy x))
  · intro x hx
    by_cases hOld : x ∈ s.queued
    · rcases h.covered x hOld with hx | hx
      · rcases (hMem x).mp hx with rfl | hx
        · exact .inr fun c hc => (hFound c).mpr (.inl hc)
        · exact .inl ((hList x).mpr (.inr hx))
      · exact .inr fun c hc => (hFound c).mpr (.inr (hx c hc))
    · have hNew := ((hQueued x).mp hx).resolve_right hOld
      exact .inl ((hList x).mpr (.inl ⟨hNew, hOld⟩))
  · intro x hx
    rcases (hList x).mp hx with ⟨hNew, -⟩ | hx
    · exact .inr ((hFound x).mpr (.inl hNew))
    · exact (h.origin x ((hMem x).mpr (.inr hx))).imp_right fun hOld => (hFound x).mpr (.inr hOld)
  · intro R hR c hc
    have hSub := h.least R hR
    rcases (hFound c).mp hc with hNew | hOld
    · exact hR a ((h.origin a ((hMem a).mpr (.inl rfl))).imp_right (hSub a)) c hNew
    · exact hSub c hOld

/-- The search goes on until the work list is empty. -/
theorem Closing.closeFrontier {limit : Nat} (h : t.Closing l s) (hLimit : t.left s ≤ limit) :
    t.Closing l (t.closeFrontier limit s) ∧ (t.closeFrontier limit s).work = [] := by
  induction limit generalizing s with
  | zero =>
    refine ⟨h, List.length_eq_zero_iff.mp ?_⟩
    change s.work.length = 0
    unfold left at hLimit
    omega
  | succ limit ih =>
    rw [DomTree.closeFrontier]
    cases hWork : s.work with
    | nil => exact ⟨h, hWork⟩
    | cons a work =>
      have hNotes : t.left ((t.frontier a).toList.foldl .note { s with work }) ≤
          t.left { s with work } := left_foldl_note_le fun c hc => mem_frontierNodes hc
      have hTaken : t.left s = t.left { s with work } + 1 := by
        rw [left, hWork, List.length_cons, Nat.add_right_comm]
        rfl
      exact ih (h.step hWork) (by omega)

theorem searchFrontier_closing (t : DomTree ν) (l : List ν) :
    t.Closing l (t.searchFrontier l) ∧ (t.searchFrontier l).work = [] := by
  refine (Closing.start t l).closeFrontier ?_
  have hAll : t.frontierNodes.countP (¬ · ∈ (FrontierSearch.start l).queued) ≤
      t.frontierNodes.length := List.countP_le_length
  rw [length_frontierNodes] at hAll
  change l.reverse.length + _ ≤ _
  rw [List.length_reverse]
  omega

/-- The iterated frontier contains the frontiers of the nodes it starts from and of its own. -/
theorem frontier_subset_iteratedFrontier (ha : a ∈ l ∨ a ∈ t.iteratedFrontier l)
    (hc : c ∈ t.frontier a) : c ∈ t.iteratedFrontier l := by
  obtain ⟨h, hDone⟩ := t.searchFrontier_closing l
  have hQueued : a ∈ (t.searchFrontier l).queued := ha.elim (h.given a) (h.tidy a)
  rcases h.covered a hQueued with hWork | hFound
  · rw [hDone] at hWork
    exact absurd hWork List.not_mem_nil
  · exact hFound c hc

/-- **The iterated frontier is the least closed set.** Whatever the frontiers are and whichever nodes
are given, the search comes to its end, and what it finds is the smallest set that contains the
frontiers of the given nodes and of its own. -/
theorem iteratedFrontier_isLeast (t : DomTree ν) (l : List ν) :
    (t.searchFrontier l).work = [] ∧
      IsLeast {R : Set ν | ∀ b, b ∈ l ∨ b ∈ R → ∀ c ∈ t.frontier b, c ∈ R}
        {c | c ∈ t.iteratedFrontier l} := by
  obtain ⟨h, hDone⟩ := t.searchFrontier_closing l
  refine ⟨hDone, fun b hb c hc => frontier_subset_iteratedFrontier hb hc, fun R hR => ?_⟩
  exact h.least R hR

end DomTree

end Midend
