import Midend.Proofs.Graph.Rounds
import Midend.Proofs.Shape.Thread

/-!
# Trampolines that lead in a circle

Following trampolines is a walk in a graph where at most one edge leaves each node (`hops`). The
search for a circle gives up after one step for each block of the layout, and nothing is missed by
that: a walk that comes back goes on from every block that it visits, so each of them holds a jump
and is in the layout (`Circles.subset_layout`), and without the detours it visits none twice.

Nothing is asked of the code. The jump of a trampoline may be missing from the recorded edges, and
may be to a block that the function does not have; the walk ends there.

* `Func.Bounces`: so many trampolines, one after the other, lead from a block to another.
* `Func.inTrampolineCycle_exact`: the search finds a circle exactly if following trampolines comes
  back, after however many steps.
-/

namespace Midend

namespace Func

variable {f : Func} {a b c p t : BlockId} {n : Nat}

/-- Following the given number of trampolines leads from the first block to the second. -/
inductive Bounces (f : Func) : Nat → BlockId → BlockId → Prop where
  /-- No trampoline is followed. -/
  | nil (b : BlockId) : Bounces f 0 b b
  /-- The block holds nothing but a jump, and the others are followed from where it leads. -/
  | cons {n : Nat} {b t c : BlockId} {i : Inst} (only : f.code b = [i]) (jump : i.op = .jump t)
      (rest : Bounces f n t c) : Bounces f (n + 1) b c

/-- The graph whose edges lead from each trampoline to its target. -/
def hops (f : Func) : Digraph BlockId where
  next b := (f.trampolineTarget? b).toList
  bound := f.layout

/-- Trampolines lead from the block back to it. -/
def Circles (f : Func) (b : BlockId) : Prop :=
  ∃ t, f.trampolineTarget? b = some t ∧ f.hops.Reaches t b

theorem mem_next_hops : c ∈ f.hops.next b ↔ f.trampolineTarget? b = some c := by
  rw [hops, Option.mem_toList]

/-! ## Counting the steps -/

theorem bounces_zero_iff : f.Bounces 0 b c ↔ b = c := by
  constructor
  · intro h
    cases h
    rfl
  · rintro rfl
    exact .nil b

theorem bounces_succ_iff :
    f.Bounces (n + 1) b c ↔ ∃ t, f.trampolineTarget? b = some t ∧ f.Bounces n t c := by
  constructor
  · intro h
    cases h with
    | cons only jump rest => exact ⟨_, trampolineTarget?_eq_some_iff.mpr ⟨_, only, jump⟩, rest⟩
  · rintro ⟨t, hTarget, rest⟩
    obtain ⟨i, only, jump⟩ := trampolineTarget?_eq_some_iff.mp hTarget
    exact .cons only jump rest

/-- The steps are the edges of a walk. -/
theorem bounces_iff_walk :
    f.Bounces n b c ↔ ∃ path, f.hops.Walk b path c ∧ path.length = n + 1 := by
  induction n generalizing b with
  | zero =>
    rw [bounces_zero_iff]
    constructor
    · rintro rfl
      exact ⟨[b], .nil b, rfl⟩
    · rintro ⟨path, w, hLength⟩
      obtain ⟨x, rfl⟩ := List.length_eq_one_iff.mp hLength
      cases w with
      | nil => rfl
      | cons edge rest => cases rest
  | succ n ih =>
    rw [bounces_succ_iff]
    constructor
    · rintro ⟨t, hTarget, rest⟩
      obtain ⟨path, w, hLength⟩ := ih.mp rest
      exact ⟨b :: path, .cons (mem_next_hops.mpr hTarget) w, by rw [List.length_cons, hLength]⟩
    · rintro ⟨path, w, hLength⟩
      cases w with
      | nil => cases hLength
      | cons edge rest =>
        exact ⟨_, mem_next_hops.mp edge, ih.mpr ⟨_, rest, Nat.succ.inj hLength⟩⟩

/-- The trampoline at the start takes one step more than the walk from its target. -/
theorem bounces_of_walk {path : List BlockId} (hTarget : f.trampolineTarget? b = some t)
    (w : f.hops.Walk t path c) : f.Bounces path.length b c :=
  bounces_iff_walk.mpr ⟨b :: path, .cons (mem_next_hops.mpr hTarget) w, List.length_cons⟩

theorem circles_iff : f.Circles b ↔ ∃ k, 1 ≤ k ∧ f.Bounces k b b := by
  constructor
  · rintro ⟨t, hTarget, path, w⟩
    exact ⟨path.length, List.length_pos_of_mem w.left_mem, bounces_of_walk hTarget w⟩
  · rintro ⟨k, hk, hBounces⟩
    obtain ⟨n, rfl⟩ := Nat.exists_eq_add_of_le' hk
    obtain ⟨t, hTarget, rest⟩ := bounces_succ_iff.mp hBounces
    obtain ⟨path, w, -⟩ := bounces_iff_walk.mp rest
    exact ⟨t, hTarget, path, w⟩

/-- The search takes at least one step, and at most as many as it is allowed. -/
theorem trampolinesLead_iff {goal : BlockId} :
    f.trampolinesLead goal n b = true ↔ ∃ k < n, f.Bounces (k + 1) b goal := by
  induction n generalizing b with
  | zero => simp [trampolinesLead]
  | succ n ih =>
    rw [trampolinesLead]
    split
    · rename_i hNone
      simp [bounces_succ_iff, hNone]
    rename_i t hTarget
    rw [Bool.or_eq_true, decide_eq_true_iff, ih]
    constructor
    · rintro (rfl | ⟨k, hk, hBounces⟩)
      · exact ⟨0, Nat.succ_pos n, bounces_succ_iff.mpr ⟨t, hTarget, .nil t⟩⟩
      · exact ⟨k + 1, Nat.succ_lt_succ hk, bounces_succ_iff.mpr ⟨t, hTarget, hBounces⟩⟩
    · rintro ⟨k, hk, hBounces⟩
      obtain ⟨u, hu, rest⟩ := bounces_succ_iff.mp hBounces
      obtain rfl : t = u := Option.some.inj (hTarget.symm.trans hu)
      cases k with
      | zero => exact .inl (bounces_zero_iff.mp rest)
      | succ k => exact .inr ⟨k, Nat.lt_of_succ_lt_succ hk, rest⟩

/-! ## Circles -/

/-- A circle goes on where it leads. -/
theorem Circles.next (h : f.Circles p) (hTarget : f.trampolineTarget? p = some t) :
    f.Circles t := by
  obtain ⟨u, hu, path, w⟩ := h
  obtain rfl : u = t := Option.some.inj (hu.symm.trans hTarget)
  cases w with
  | nil => exact ⟨_, hTarget, .refl _⟩
  | cons edge rest =>
    exact ⟨_, mem_next_hops.mp edge, Digraph.Reaches.step ⟨_, rest⟩ (mem_next_hops.mpr hTarget)⟩

theorem Consistent.mem_layout_of_trampoline (hc : f.Consistent)
    (h : f.trampolineTarget? b = some t) : b ∈ f.layout := by
  obtain ⟨i, hCode, -⟩ := trampolineTarget?_eq_some_iff.mp h
  exact (hc.mem_layout b).mpr (hasBlock_of_mem_code (hCode ▸ List.mem_singleton.mpr rfl))

/-- A walk to a block of a circle stays in the layout, since it goes on from wherever it is. -/
theorem Circles.subset_layout {path : List BlockId} (h : f.Circles b) (hc : f.Consistent)
    (w : f.hops.Walk a path b) : path ⊆ f.layout := by
  intro x hx
  obtain ⟨front, back, rfl⟩ := List.append_of_mem hx
  cases (w.split rfl).2 with
  | nil =>
    obtain ⟨t, hTarget, -⟩ := h
    exact hc.mem_layout_of_trampoline hTarget
  | cons edge rest => exact hc.mem_layout_of_trampoline (mem_next_hops.mp edge)

/-- The search for a circle goes far enough. -/
theorem inTrampolineCycle_iff (hc : f.Consistent) :
    f.inTrampolineCycle b = true ↔ f.Circles b := by
  rw [inTrampolineCycle, trampolinesLead_iff]
  constructor
  · rintro ⟨k, -, hBounces⟩
    exact circles_iff.mpr ⟨k + 1, Nat.succ_pos k, hBounces⟩
  · intro h
    obtain ⟨t, hTarget, path, w⟩ := id h
    -- the way around without detours visits different blocks, all of the layout
    obtain ⟨short, w', hNodup, -⟩ := w.exists_nodup
    have hLength : short.length ≤ f.layout.length :=
      hNodup.length_le_of_subset (h.subset_layout hc w')
    obtain ⟨k, hk⟩ := Nat.exists_eq_add_of_le' (List.length_pos_of_mem w'.left_mem)
    have hBounces : f.Bounces (k + 1) b b := hk ▸ bounces_of_walk hTarget w'
    exact ⟨k, by omega, hBounces⟩

/-- **The search for a circle of trampolines is exact.** In a consistent function it says that a
block is on a circle exactly if following trampolines from the block comes back to it after one step
or more. There is no bound on the number of steps. -/
theorem inTrampolineCycle_exact (f : Func) (hConsistent : f.Consistent) (b : BlockId) :
    f.inTrampolineCycle b = true ↔ ∃ k, 1 ≤ k ∧ f.Bounces k b b :=
  (inTrampolineCycle_iff hConsistent).trans circles_iff

/-- All blocks are trampolines, in one circle. -/
def wheel : Func :=
  [.createBlock "entry", .createBlock "second", .createBlock "third", .append ⟨0⟩ .void (.jump ⟨1⟩),
    .append ⟨1⟩ .void (.jump ⟨2⟩), .append ⟨2⟩ .void (.jump ⟨0⟩)].foldl build (.empty "wheel" .void)

/-- All blocks are trampolines; the entry leads to a circle that it is not on. -/
def lasso : Func :=
  [.createBlock "entry", .createBlock "ping", .createBlock "pong", .append ⟨0⟩ .void (.jump ⟨1⟩),
    .append ⟨1⟩ .void (.jump ⟨2⟩), .append ⟨2⟩ .void (.jump ⟨1⟩)].foldl build (.empty "lasso" .void)

/-- The last step that is allowed can be needed, and a circle is not enough if the block is not on
it. -/
theorem wheel_lasso_exact :
    wheel.Consistent ∧ wheel.layout.length = 3 ∧ wheel.trampolinesLead ⟨0⟩ 2 ⟨0⟩ = false ∧
      (∃ k, 1 ≤ k ∧ wheel.Bounces k ⟨0⟩ ⟨0⟩) ∧ lasso.Consistent ∧
      ¬ (∃ k, 1 ≤ k ∧ lasso.Bounces k ⟨0⟩ ⟨0⟩) ∧ ∃ k, 1 ≤ k ∧ lasso.Bounces k ⟨1⟩ ⟨1⟩ := by
  have hWheel : wheel.Consistent := by decide +kernel
  have hLasso : lasso.Consistent := by decide +kernel
  refine ⟨hWheel, by decide +kernel, by decide +kernel, ?_, hLasso, ?_, ?_⟩
  · exact (inTrampolineCycle_exact wheel hWheel ⟨0⟩).mp (by decide +kernel)
  · exact fun h => absurd ((inTrampolineCycle_exact lasso hLasso ⟨0⟩).mpr h) (by decide +kernel)
  · exact (inTrampolineCycle_exact lasso hLasso ⟨1⟩).mp (by decide +kernel)

end Func

end Midend
