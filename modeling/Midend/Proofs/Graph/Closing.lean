import Mathlib.Data.List.Pairwise
import Midend.Proofs.Graph.DepthFirst

/-!
# The edges that close a cycle are those that do not lead forward

While a search is under way, the nodes on the way are left after all others, the one entered first
last of all. So the order in which the nodes entered so far are left in the end is known at any
time (`standing`). Entering a node puts it between the nodes on the way and those left, leaving it
changes nothing, and so what comes before what never changes.

An edge is looked at while its source is the last node on the way. If its target is on the way it
comes no later, and the edge is noted. If not, the target has been left, at the latest when the
search comes back from it, and comes later (`Follows.following`).

* `Ranked.mem_closing_iff`: when a search is over, the edges noted are those out of the nodes left
  that do not lead forward.
* `Ranked.onCycle_of_mem_closing`, `Ranked.not_onCycle`: there is such an edge just if there is a
  cycle among the nodes left, wherever the searches began.
-/

namespace Midend

namespace Digraph

variable {ν : Type} {g : Digraph ν} {a b x y : ν} {path done l starts : List ν} {s t : Sweep ν}

/-- A walk along at least one edge leads from the node back to it. -/
def OnCycle (g : Digraph ν) (a : ν) : Prop := ∃ b ∈ g.next a, g.Reaches b a

/-- The nodes entered in the order in which they are left in the end, the last one first. -/
def standing (path : List ν) (s : Sweep ν) : List ν := path.reverse ++ s.left

theorem standing_cons (path : List ν) (a : ν) (s : Sweep ν) :
    standing (a :: path) s = path.reverse ++ a :: s.left := by
  rw [standing, List.reverse_cons, List.append_assoc]
  rfl

/-- Leaving a node keeps it where it stands. -/
theorem standing_leave (path : List ν) (a : ν) (s : Sweep ν) :
    standing path { s with left := a :: s.left } = standing (a :: path) s :=
  (standing_cons path a s).symm

theorem standing_sublist (path : List ν) (a : ν) (s : Sweep ν) :
    (standing path s).Sublist (standing (a :: path) s) := by
  rw [standing_cons]
  exact (List.sublist_cons_self a s.left).append_left path.reverse

/-- In a search with the nodes of the path on the way, every edge out of a node left is noted if its
target comes no later than its source, and leads forward if not; and a noted edge closes a cycle. -/
structure Ranked (g : Digraph ν) (path : List ν) (s : Sweep ν) : Prop where
  nodup : (standing path s).Nodup
  mem_entered : ∀ x, x ∈ s.entered ↔ x ∈ standing path s
  closing_nodup : s.closing.Nodup
  source_mem : ∀ x y, (x, y) ∈ s.closing → x ∈ standing path s
  closing_edge : ∀ x y, (x, y) ∈ s.closing → y ∈ g.next x
  closing_reaches : ∀ x y, (x, y) ∈ s.closing → g.Reaches y x
  backward : ∀ x y, (x, y) ∈ s.closing → y = x ∨ [y, x].Sublist (standing path s)
  forward : ∀ x ∈ s.left, ∀ y ∈ g.next x,
    (x, y) ∈ s.closing ∨ [x, y].Sublist (standing path s)

/-- The search that entered the node in state `s` and has followed the edges to `done` is in order:
the edges noted since are edges to `done` or edges out of nodes entered since. -/
structure Following (g : Digraph ν) (path : List ν) (a : ν) (done : List ν) (s t : Sweep ν) :
    Prop where
  ranked : g.Ranked (a :: path) t
  standing_sublist : (standing path s).Sublist (standing (a :: path) t)
  closing_subset : s.closing ⊆ t.closing
  closing_old : ∀ x y, x ∈ standing path s → (x, y) ∈ t.closing → (x, y) ∈ s.closing
  closing_done : ∀ y, (a, y) ∈ t.closing → y ∈ done
  forward : ∀ y ∈ done, (a, y) ∈ t.closing ∨ [a, y].Sublist (standing (a :: path) t)

theorem Ranked.initial : g.Ranked [] {} where
  nodup := List.nodup_nil
  mem_entered _ := Iff.rfl
  closing_nodup := List.nodup_nil
  source_mem _ _ h := absurd h List.not_mem_nil
  closing_edge _ _ h := absurd h List.not_mem_nil
  closing_reaches _ _ h := absurd h List.not_mem_nil
  backward _ _ h := absurd h List.not_mem_nil
  forward _ h := absurd h List.not_mem_nil

theorem Ranked.onCycle_of_mem_closing (hs : g.Ranked path s) (hxy : (x, y) ∈ s.closing) :
    g.OnCycle x :=
  ⟨y, hs.closing_edge x y hxy, hs.closing_reaches x y hxy⟩

theorem Ranked.enter (hs : g.Ranked path s) (hFresh : a ∉ s.entered) :
    g.Following path a [] s { s with entered := a :: s.entered } := by
  have hStanding := standing_sublist path a s
  have hNew : a ∉ standing path s := fun ha => hFresh ((hs.mem_entered a).mpr ha)
  have hMem : ∀ x, x ∈ standing (a :: path) s ↔ x = a ∨ x ∈ standing path s := by
    intro x
    rw [standing_cons, standing, List.mem_append, List.mem_append, List.mem_cons]
    exact or_left_comm
  refine ⟨⟨?_, ?_, hs.closing_nodup, ?_, hs.closing_edge, hs.closing_reaches, ?_, ?_⟩, hStanding,
    List.Subset.refl _, fun _ _ _ h => h, ?_, fun _ h => absurd h List.not_mem_nil⟩
  · change (standing (a :: path) s).Nodup
    rw [standing_cons, List.nodup_middle, List.nodup_cons]
    exact ⟨hNew, hs.nodup⟩
  · intro x
    exact List.mem_cons.trans ((or_congr_right (hs.mem_entered x)).trans (hMem x).symm)
  · exact fun x y h => hStanding.subset (hs.source_mem x y h)
  · exact fun x y h => (hs.backward x y h).imp_right fun hSub => hSub.trans hStanding
  · exact fun x hx y hy => (hs.forward x hx y hy).imp_right fun hSub => hSub.trans hStanding
  · exact fun y h => absurd (hs.source_mem a y h) hNew

namespace Following

/-- An edge back to the way is noted. -/
theorem close (h : g.Following path a done s t) (hNew : b ∉ done) (edge : b ∈ g.next a)
    (back : b ∈ a :: path) (hUp : ∀ p ∈ path, g.Reaches p a) (hFresh : a ∉ standing path s) :
    g.Following path a (done ++ [b]) s { t with closing := t.closing ++ [(a, b)] } := by
  have hr := h.ranked
  have hMem : ∀ x y, (x, y) ∈ t.closing ++ [(a, b)] ↔ (x, y) ∈ t.closing ∨ (x = a ∧ y = b) := by
    intro x y
    rw [List.mem_append, List.mem_singleton, Prod.mk.injEq]
  have ha : a ∈ standing (a :: path) t := by simp [standing_cons]
  refine ⟨⟨hr.nodup, hr.mem_entered, ?_, ?_, ?_, ?_, ?_, ?_⟩, h.standing_sublist, ?_, ?_, ?_, ?_⟩
  · refine List.nodup_append.mpr ⟨hr.closing_nodup, List.nodup_singleton _, ?_⟩
    rintro e he e' he' rfl
    obtain rfl := List.mem_singleton.mp he'
    exact hNew (h.closing_done b he)
  · rintro x y hxy
    rcases (hMem x y).mp hxy with hxy | ⟨rfl, -⟩
    · exact hr.source_mem x y hxy
    · exact ha
  · rintro x y hxy
    rcases (hMem x y).mp hxy with hxy | ⟨rfl, rfl⟩
    · exact hr.closing_edge x y hxy
    · exact edge
  · rintro x y hxy
    rcases (hMem x y).mp hxy with hxy | ⟨rfl, rfl⟩
    · exact hr.closing_reaches x y hxy
    · rcases List.mem_cons.mp back with rfl | hy
      · exact .refl y
      · exact hUp y hy
  · rintro x y hxy
    rcases (hMem x y).mp hxy with hxy | ⟨rfl, rfl⟩
    · exact hr.backward x y hxy
    · refine (List.mem_cons.mp back).imp_right fun hy => ?_
      have hPath : [y].Sublist path.reverse :=
        List.singleton_sublist.mpr (List.mem_reverse.mpr hy)
      have hLeft : [x].Sublist (x :: t.left) := List.singleton_sublist.mpr List.mem_cons_self
      change [y, x].Sublist (standing (x :: path) t)
      rw [standing_cons]
      exact hPath.append hLeft
  · exact fun x hx y hy => (hr.forward x hx y hy).imp_left (List.mem_append_left _)
  · exact fun e he => List.mem_append_left _ (h.closing_subset he)
  · intro x y hx hxy
    rcases (hMem x y).mp hxy with hxy | ⟨rfl, -⟩
    · exact h.closing_old x y hx hxy
    · exact absurd hx hFresh
  · intro y hxy
    rcases (hMem a y).mp hxy with hxy | ⟨-, rfl⟩
    · exact List.mem_append_left _ (h.closing_done y hxy)
    · simp
  · intro y hy
    rcases List.mem_append.mp hy with hy | hy
    · exact (h.forward y hy).imp_left (List.mem_append_left _)
    · rw [List.mem_singleton.mp hy]
      exact .inl (by simp)

/-- One more edge has been dealt with, and nothing noted for it. -/
theorem snoc (h : g.Following path a done s t)
    (hForward : [a, b].Sublist (standing (a :: path) t)) :
    g.Following path a (done ++ [b]) s t where
  ranked := h.ranked
  standing_sublist := h.standing_sublist
  closing_subset := h.closing_subset
  closing_old := h.closing_old
  closing_done y hy := List.mem_append_left _ (h.closing_done y hy)
  forward y hy := by
    rcases List.mem_append.mp hy with hy | hy
    · exact h.forward y hy
    · rw [List.mem_singleton.mp hy]
      exact .inr hForward

/-- What is not on the way comes later than the last node on it. -/
theorem pair_sublist (hb : b ∈ standing (a :: path) t) (off : b ∉ a :: path) :
    [a, b].Sublist (standing (a :: path) t) := by
  have hLeft : b ∈ t.left :=
    (List.mem_append.mp hb).resolve_left fun h => off (List.mem_reverse.mp h)
  have ha : [a].Sublist (a :: path).reverse := List.singleton_sublist.mpr (by simp)
  exact ha.append (List.singleton_sublist.mpr hLeft)

/-- When all edges out of a node have been followed it can be left. -/
theorem leave (h : g.Following path a (g.next a) s t) :
    g.Ranked path { t with left := a :: t.left } := by
  have hr := h.ranked
  have hEq := standing_leave path a t
  refine ⟨hEq ▸ hr.nodup, hEq ▸ hr.mem_entered, hr.closing_nodup, hEq ▸ hr.source_mem,
    hr.closing_edge, hr.closing_reaches, hEq ▸ hr.backward, ?_⟩
  intro x hx
  rw [hEq]
  rcases List.mem_cons.mp hx with rfl | hx
  · exact h.forward
  · exact hr.forward x hx

/-- The search has come back from a node. -/
theorem trans {u : Sweep ν} (h : g.Following path a done s t)
    (h' : g.Following (a :: path) b (g.next b) t u) :
    g.Following path a done s { u with left := b :: u.left } := by
  have ha : a ∈ standing (a :: path) t := by simp [standing_cons]
  refine ⟨h'.leave, ?_, ?_, ?_, ?_, ?_⟩
  · rw [standing_leave]
    exact h.standing_sublist.trans h'.standing_sublist
  · exact fun e he => h'.closing_subset (h.closing_subset he)
  · intro x y hx hxy
    exact h.closing_old x y hx (h'.closing_old x y (h.standing_sublist.subset hx) hxy)
  · exact fun y hy => h.closing_done y (h'.closing_old a y ha hy)
  · rw [standing_leave]
    intro y hy
    exact (h.forward y hy).imp (fun hNoted => h'.closing_subset hNoted) fun hSub =>
      hSub.trans h'.standing_sublist

end Following

/-- A search is in order at every edge that it follows. -/
theorem Follows.following (hNext : ∀ a, (g.next a).Nodup) (h : g.Follows path a done s t)
    (hs : g.Ranked path s) (hUp : ∀ p ∈ path, g.Reaches p a) (hDone : done.Nodup) :
    g.Following path a done s t := by
  induction h with
  | enter fresh => exact hs.enter fresh
  | @close path done a b s t before edge back ih =>
    obtain ⟨hDone, -, hNew⟩ := List.nodup_append.mp hDone
    have hFresh : a ∉ standing path s := fun ha => before.fresh ((hs.mem_entered a).mpr ha)
    exact (ih hs hUp hDone).close (fun hb => hNew b hb b (by simp) rfl) edge back hUp hFresh
  | @pass path done a b s t before edge off entered ih =>
    have hBefore := ih hs hUp (List.nodup_append.mp hDone).1
    exact hBefore.snoc (Following.pair_sublist ((hBefore.ranked.mem_entered b).mp entered) off)
  | @descend path done a b s t u before edge off within ih ih' =>
    have hBefore := ih hs hUp (List.nodup_append.mp hDone).1
    have hUp' : ∀ p ∈ a :: path, g.Reaches p b := by
      intro p hp
      rcases List.mem_cons.mp hp with rfl | hp
      · exact (Reaches.refl p).step edge
      · exact (hUp p hp).step edge
    have hAfter := hBefore.trans (ih' hBefore.ranked hUp' (hNext b))
    refine hAfter.snoc (Following.pair_sublist ?_ off)
    rw [standing_leave, standing_cons]
    simp

variable [DecidableEq ν]

/-- A search from one more node keeps what has been found in order, and leaves the node. -/
theorem Ranked.sweepFrom (hg : g.Bounded) (hNext : ∀ a, (g.next a).Nodup) (hs : g.Ranked [] s)
    (start : ν) :
    g.Ranked [] (g.sweepFrom s start) ∧ s.left ⊆ (g.sweepFrom s start).left ∧
      start ∈ (g.sweepFrom s start).left := by
  rw [Digraph.sweepFrom]
  split
  · exact ⟨hs, List.Subset.refl _, (hs.mem_entered start).mp ‹_›⟩
  · rename_i hFresh
    obtain ⟨t, hFollows, hEq⟩ := visit_follows hg (g.bound.length + 1) [] start s (.nil start)
      (List.nodup_singleton start) rfl hFresh
    have hUp : ∀ p ∈ [], g.Reaches p start := fun p hp => absurd hp List.not_mem_nil
    have h := hFollows.following hNext hs hUp (hNext start)
    have hSub := h.standing_sublist
    rw [standing_cons] at hSub
    rw [hEq]
    exact ⟨h.leave, hSub.subset, List.mem_cons_self⟩

theorem sweep_ranked (hg : g.Bounded) (hNext : ∀ a, (g.next a).Nodup) (starts : List ν) :
    g.Ranked [] (g.sweep starts) ∧ starts ⊆ (g.sweep starts).left := by
  have hRun : ∀ (starts : List ν) (s : Sweep ν), g.Ranked [] s →
      g.Ranked [] (starts.foldl g.sweepFrom s) ∧ s.left ⊆ (starts.foldl g.sweepFrom s).left ∧
        starts ⊆ (starts.foldl g.sweepFrom s).left := by
    intro starts
    induction starts with
    | nil => exact fun s hs => ⟨hs, List.Subset.refl _, List.nil_subset _⟩
    | cons start starts ih =>
      intro s hs
      obtain ⟨hStep, hLeft, hStart⟩ := hs.sweepFrom hg hNext start
      obtain ⟨hRest, hLeft', hStarts⟩ := ih _ hStep
      exact ⟨hRest, fun x hx => hLeft' (hLeft hx), List.cons_subset.mpr ⟨hLeft' hStart, hStarts⟩⟩
  obtain ⟨hRanked, -, hStarts⟩ := hRun starts {} .initial
  exact ⟨hRanked, hStarts⟩

/-! ## Places in the order -/

/-- In a list without repetition, places tell what comes before what. -/
theorem idxOf_lt_idxOf (hl : l.Nodup) (h : [x, y].Sublist l) : l.idxOf x < l.idxOf y := by
  have hPlaces : l.Pairwise fun x y => l.idxOf x < l.idxOf y := by
    refine List.pairwise_iff_getElem.mpr fun i j hi hj hij => ?_
    rwa [hl.idxOf_getElem i hi, hl.idxOf_getElem j hj]
  exact hPlaces.forall_sublist h

namespace Ranked

/-- When the search is over, the edges noted are those that do not lead forward. -/
theorem mem_closing_iff (hs : g.Ranked [] s) :
    (x, y) ∈ s.closing ↔ x ∈ s.left ∧ y ∈ g.next x ∧ s.left.idxOf y ≤ s.left.idxOf x := by
  constructor
  · intro hxy
    refine ⟨hs.source_mem x y hxy, hs.closing_edge x y hxy, ?_⟩
    rcases hs.backward x y hxy with rfl | hSub
    · exact Nat.le_refl _
    · exact Nat.le_of_lt (idxOf_lt_idxOf hs.nodup hSub)
  · rintro ⟨hx, hy, hLe⟩
    refine (hs.forward x hx y hy).resolve_right fun hSub => ?_
    exact Nat.not_lt_of_le hLe (idxOf_lt_idxOf hs.nodup hSub)

/-- Where nothing is noted every walk leads forward, so none leads back. -/
theorem not_onCycle (hs : g.Ranked [] s) (hNone : s.closing = []) (hx : x ∈ s.left) :
    ¬ g.OnCycle x := by
  have hEdge : ∀ u ∈ s.left, ∀ v ∈ g.next u, [u, v].Sublist s.left := fun u hu v hv =>
    (hs.forward u hu v hv).resolve_left fun h => List.not_mem_nil (hNone ▸ h)
  rintro ⟨y, edge, hReach⟩
  have hForward : x ∈ s.left ∧ s.left.idxOf x < s.left.idxOf x := by
    refine Reaches.induct (P := fun v => v ∈ s.left ∧ s.left.idxOf x < s.left.idxOf v) ?_ ?_ hReach
    · have hSub := hEdge x hx y edge
      exact ⟨hSub.subset (by simp), idxOf_lt_idxOf hs.nodup hSub⟩
    · rintro u v - ⟨hu, hLt⟩ edge
      have hSub := hEdge u hu v edge
      exact ⟨hSub.subset (by simp), Nat.lt_trans hLt (idxOf_lt_idxOf hs.nodup hSub)⟩
  exact Nat.lt_irrefl _ hForward.2

end Ranked

end Digraph

end Midend
