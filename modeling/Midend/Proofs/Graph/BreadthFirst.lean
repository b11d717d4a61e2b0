import Mathlib.Data.List.Nodup
import Midend.Graph.Breadth
import Midend.Proofs.Graph.Walk

/-!
# Breadth-first search finds what can be reached

The nodes found are those that have been taken from the queue, followed by those still in it. What
the former lead to has been found (`Spreading.closed`), and nothing is found twice, so the bound
leaves no node in the queue when the fuel is used up.

`mem_reachable`: the search finds exactly what the start reaches.
-/

namespace Midend

namespace Digraph

variable {ν : Type} {g : Digraph ν} {start a : ν} {taken queue : List ν}

/-- A search from `start` has found the nodes that it took from the queue and those still in it. -/
structure Spreading (g : Digraph ν) (start : ν) (taken queue : List ν) : Prop where
  nodup : (taken ++ queue).Nodup
  start_mem : start ∈ taken ++ queue
  bounded : ∀ x ∈ taken ++ queue, x = start ∨ x ∈ g.bound
  closed : ∀ x ∈ taken, ∀ y ∈ g.next x, y ∈ taken ++ queue
  reached : ∀ x ∈ taken ++ queue, g.Reaches start x

theorem Spreading.initial (start : ν) : g.Spreading start [] [start] where
  nodup := List.nodup_singleton start
  start_mem := List.mem_singleton_self start
  bounded _ hx := Or.inl (List.mem_singleton.mp hx)
  closed _ hx := absurd hx List.not_mem_nil
  reached x hx := by rw [List.mem_singleton.mp hx]; exact .refl start

/-- Nothing is found twice, so the bound limits how much is found. -/
theorem Spreading.length_le (h : g.Spreading start taken queue) :
    taken.length + queue.length ≤ g.bound.length + 1 := by
  have hSub : taken ++ queue ⊆ start :: g.bound := fun x hx =>
    List.mem_cons.mpr (h.bounded x hx)
  simpa using h.nodup.length_le_of_subset hSub

variable [DecidableEq ν]

private theorem nodup_eraseDups : (l : List ν) → l.eraseDups.Nodup
  | [] => by simp
  | a :: l => by
    rw [List.eraseDups_cons, List.nodup_cons]
    refine ⟨fun h => ?_, nodup_eraseDups _⟩
    simp at h
  termination_by l => l.length
  decreasing_by exact Nat.lt_succ_of_le (List.length_filter_le ..)

theorem nodup_fresh (found : List ν) (a : ν) : (g.fresh found a).Nodup := nodup_eraseDups _

theorem mem_fresh {found : List ν} {x : ν} : x ∈ g.fresh found a ↔ x ∈ g.next a ∧ x ∉ found := by
  simp [fresh]

/-- Taking a node from the queue and finding what it leads to keeps the search in order. -/
theorem Spreading.step (hg : g.Bounded) (h : g.Spreading start taken (a :: queue)) :
    g.Spreading start (taken ++ [a]) (queue ++ g.fresh (taken ++ a :: queue) a) := by
  have hEq : (taken ++ [a]) ++ (queue ++ g.fresh (taken ++ a :: queue) a)
      = (taken ++ a :: queue) ++ g.fresh (taken ++ a :: queue) a := by simp
  have hNew : ∀ {x}, x ∈ g.fresh (taken ++ a :: queue) a → x ∈ g.next a := fun hx =>
    (mem_fresh.mp hx).1
  constructor
  · rw [hEq]
    refine List.nodup_append.mpr ⟨h.nodup, nodup_fresh _ _, ?_⟩
    rintro x hx y hy rfl
    exact (mem_fresh.mp hy).2 hx
  · rw [hEq]
    exact List.mem_append_left _ h.start_mem
  · rw [hEq]
    intro x hx
    rcases List.mem_append.mp hx with hx | hx
    · exact h.bounded x hx
    · exact Or.inr (hg _ _ (hNew hx))
  · rw [hEq]
    intro x hx y hy
    rcases List.mem_append.mp hx with hx | hx
    · exact List.mem_append_left _ (h.closed x hx y hy)
    · rw [List.mem_singleton.mp hx] at hy
      by_cases hFound : y ∈ taken ++ a :: queue
      · exact List.mem_append_left _ hFound
      · exact List.mem_append_right _ (mem_fresh.mpr ⟨hy, hFound⟩)
  · rw [hEq]
    intro x hx
    rcases List.mem_append.mp hx with hx | hx
    · exact h.reached x hx
    · exact (h.reached a (by simp)).step (hNew hx)

/-- With enough fuel the search ends with an empty queue. -/
theorem spread_eq (hg : g.Bounded) (fuel : Nat) (taken queue : List ν)
    (h : g.Spreading start taken queue) (hFuel : fuel + taken.length = g.bound.length + 1) :
    ∃ found, g.spread fuel queue (taken ++ queue) = found ∧ g.Spreading start found [] := by
  induction fuel generalizing taken queue with
  | zero =>
    have hLength := h.length_le
    have hNil : queue = [] := List.length_eq_zero_iff.mp (by omega)
    subst hNil
    exact ⟨taken ++ [], rfl, by simpa using h⟩
  | succ fuel ih =>
    cases queue with
    | nil => exact ⟨taken ++ [], rfl, by simpa using h⟩
    | cons a queue =>
      have hFuel' : fuel + (taken ++ [a]).length = g.bound.length + 1 := by
        rw [List.length_append, List.length_singleton]
        omega
      obtain ⟨found, hEq, hFound⟩ := ih _ _ (h.step hg) hFuel'
      refine ⟨found, ?_, hFound⟩
      rw [← hEq, spread]
      simp

/-- The search finds the nodes that the start reaches. -/
theorem mem_reachable (hg : g.Bounded) {start x : ν} :
    x ∈ g.reachable start ↔ g.Reaches start x := by
  obtain ⟨found, hEq, h⟩ := spread_eq hg (g.bound.length + 1) [] [start] (.initial start) rfl
  have hEq' : g.reachable start = found := hEq
  have hMem : ∀ y, y ∈ found ++ [] ↔ y ∈ found := fun y => by simp
  rw [hEq']
  refine ⟨fun hx => h.reached x ((hMem x).mpr hx), fun hReach => ?_⟩
  exact Reaches.induct (P := (· ∈ found)) ((hMem start).mp h.start_mem)
    (fun b c _ hb edge => (hMem c).mp (h.closed b hb c edge)) hReach

end Digraph

end Midend
