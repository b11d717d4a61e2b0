import Mathlib.Tactic.ByContra
import Midend.Graph.Basic

/-!
# Walks and path dominance

Walks are taken apart where they visit a node: `Walk.split` cuts at any visit, `Walk.split_first` at
the first one, and `Walk.snoc_cases` takes the last edge away.

From these come the laws of dominance that need no computation. It is transitive, it is
antisymmetric on nodes that the root reaches, and a strict dominator of a node dominates every
predecessor of it (`Dominates.of_edge`). That last law is the equation which the sets of dominators
solve.
-/

namespace Midend

namespace Digraph

variable {ν : Type} {g : Digraph ν} {a b c d root : ν} {path : List ν}

/-! ## Taking walks apart -/

theorem Walk.snoc (w : g.Walk a path b) (edge : c ∈ g.next b) : g.Walk a (path ++ [c]) c :=
  w.trans (.cons edge (.nil c))

/-- A walk stays where it is, or its last edge extends a shorter walk. -/
theorem Walk.snoc_cases (w : g.Walk a path b) :
    (a = b ∧ path = [a]) ∨
      ∃ front p, g.Walk a front p ∧ b ∈ g.next p ∧ path = front ++ [b] := by
  induction w with
  | nil a => exact Or.inl ⟨rfl, rfl⟩
  | @cons a m b path edge rest ih =>
    right
    rcases ih with ⟨rfl, rfl⟩ | ⟨front, p, w, hEdge, rfl⟩
    · exact ⟨[a], a, .nil a, edge, rfl⟩
    · exact ⟨a :: front, p, .cons edge w, hEdge, rfl⟩

/-- A walk can be cut wherever it visits a node. -/
theorem Walk.split (w : g.Walk a path b) {front back : List ν} (h : path = front ++ d :: back) :
    g.Walk a (front ++ [d]) d ∧ g.Walk d (d :: back) b := by
  induction w generalizing front with
  | nil a =>
    obtain ⟨rfl, hEq⟩ | ⟨rest, rfl, hEq⟩ := List.append_eq_cons_iff.mp h.symm
    · obtain ⟨rfl, rfl⟩ := List.cons.inj hEq
      exact ⟨.nil _, .nil _⟩
    · simp at hEq
  | @cons a m b path edge rest ih =>
    cases front with
    | nil =>
      obtain ⟨rfl, rfl⟩ := List.cons.inj h
      exact ⟨.nil _, .cons edge rest⟩
    | cons x front =>
      obtain ⟨rfl, hEq⟩ := List.cons.inj h
      obtain ⟨hFront, hBack⟩ := ih hEq
      exact ⟨.cons edge hFront, hBack⟩

/-- A walk up to its first visit of a node, and from there on. -/
theorem Walk.split_first [DecidableEq ν] (w : g.Walk a path b) (h : d ∈ path) :
    ∃ front back, path = front ++ d :: back ∧ d ∉ front ∧
      g.Walk a (front ++ [d]) d ∧ g.Walk d (d :: back) b := by
  obtain ⟨front, back, rfl, hNot⟩ := List.eq_append_cons_of_mem h
  exact ⟨front, back, rfl, hNot, w.split rfl⟩

/-- What holds where walks begin and is carried along edges holds wherever walks lead. -/
theorem Reaches.induct {P : ν → Prop} (base : P a)
    (step : ∀ b c, g.Reaches a b → P b → c ∈ g.next b → P c) (h : g.Reaches a b) : P b := by
  obtain ⟨path, w⟩ := h
  have along : ∀ {x y : ν} {path : List ν}, g.Walk x path y → g.Reaches a x → P x → P y := by
    intro x y path w
    induction w with
    | nil x => exact fun _ hP => hP
    | cons edge rest ih => exact fun hReach hP => ih (hReach.step edge) (step _ _ hReach hP edge)
  exact along w (.refl a) base

/-- All nodes of a walk but the first are nodes of the bound. -/
theorem Walk.tail_subset_bound (hg : g.Bounded) (w : g.Walk a path b) : path.tail ⊆ g.bound := by
  induction w with
  | nil a => exact List.nil_subset _
  | @cons a m b path edge rest ih =>
    intro x hx
    cases rest with
    | nil => rw [List.mem_singleton.mp hx]; exact hg _ _ edge
    | cons edge' rest' =>
      rcases List.mem_cons.mp hx with rfl | hx
      · exact hg _ _ edge
      · exact ih hx

/-! ## Laws of dominance -/

theorem Dominates.trans (h : g.Dominates root d a) (h' : g.Dominates root a b) :
    g.Dominates root d b := by
  intro path w
  obtain ⟨front, back, rfl⟩ := List.append_of_mem (h' path w)
  have hMem := h _ (w.split rfl).1
  rcases List.mem_append.mp hMem with hMem | hMem
  · exact List.mem_append_left _ hMem
  · rw [List.mem_singleton.mp hMem]
    exact List.mem_append_right _ (List.mem_cons_self ..)

/-- A strict dominator of a node dominates every predecessor of it. -/
theorem Dominates.of_edge (h : g.Dominates root d b) (hne : d ≠ b) (edge : b ∈ g.next a) :
    g.Dominates root d a := by
  intro path w
  rcases List.mem_append.mp (h _ (w.snoc edge)) with hMem | hMem
  · exact hMem
  · exact absurd (List.mem_singleton.mp hMem) hne

theorem Dominates.reaches (h : g.Dominates root d b) (hReach : g.Reaches root b) :
    g.Reaches root d := by
  obtain ⟨path, w⟩ := hReach
  obtain ⟨front, back, rfl⟩ := List.append_of_mem (h path w)
  exact ⟨_, (w.split rfl).1⟩

/-- Only the root dominates the root. -/
theorem Dominates.eq_root (h : g.Dominates root d root) : d = root :=
  List.mem_singleton.mp (h _ (.nil root))

/-- Two different nodes that can be reached do not dominate each other. -/
theorem Dominates.antisymm [DecidableEq ν] (h : g.Dominates root d b)
    (h' : g.Dominates root b d) (hReach : g.Reaches root b) : d = b := by
  by_contra hne
  obtain ⟨path, w⟩ := hReach
  obtain ⟨front, back, rfl, hNot, w₁, _⟩ := w.split_first w.right_mem
  -- The other node is visited before the first visit of this one, which it dominates.
  have hFront : d ∈ front := by
    rcases List.mem_append.mp (h _ w₁) with hMem | hMem
    · exact hMem
    · exact absurd (List.mem_singleton.mp hMem) hne
  obtain ⟨pre, post, rfl⟩ := List.append_of_mem hFront
  have hCut : (pre ++ d :: post) ++ [b] = pre ++ d :: (post ++ [b]) := by simp
  have w₂ : g.Walk root (pre ++ [d]) d := (w₁.split hCut).1
  rcases List.mem_append.mp (h' _ w₂) with hMem | hMem
  · exact hNot (List.mem_append_left _ hMem)
  · exact hne (List.mem_singleton.mp hMem).symm

end Digraph

end Midend
