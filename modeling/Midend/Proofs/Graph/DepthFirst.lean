import Mathlib.Data.List.Nodup
import Midend.Graph.Depth
import Midend.Proofs.Graph.Walk

/-!
# Depth-first search finds what can be reached

A search that enters a node leaves it again before it goes on, and by then it has entered every node
that an edge leads to from there. `Explored` says what lies between two states of a search; it is
kept by doing nothing, by doing one thing after another and by entering and leaving a node, which is
all that `Digraph.visit` does. `Follows` says how a visit goes on, one edge after the other, without
the fuel (`visit_follows`); what is said about searches is proved by induction on it.

* `mem_left_sweep`: the nodes left by a search from a root are those that the root reaches.
* `nodup_left_sweep`: each is left once.
* `dominator_before`: a strict dominator stands before a node in reverse postorder. When the search
  enters a node, the way it has taken is a walk from the root, so every dominator is on it and is
  left later.
-/

namespace Midend

namespace Digraph

variable {ν : Type} {g : Digraph ν} {root a : ν} {path done new new' : List ν} {s t u : Sweep ν}

/-! ## What lies between two states -/

/-- The nodes of `new` have been entered and left, the last one left first, and nothing else has,
while the nodes of the path were on the way. -/
structure Explored (g : Digraph ν) (root : ν) (path : List ν) (s t : Sweep ν) (new : List ν) :
    Prop where
  left_eq : t.left = new ++ s.left
  mem_entered : ∀ x, x ∈ t.entered ↔ x ∈ new ∨ x ∈ s.entered
  fresh : ∀ x ∈ new, x ∉ s.entered
  nodup : new.Nodup
  closed : ∀ x ∈ new, ∀ y ∈ g.next x, y ∈ t.entered
  reached : ∀ x ∈ new, g.Reaches root x
  preceded : ∀ front x back, new = front ++ x :: back →
    ∀ d, d ≠ x → g.Dominates root d x → d ∈ front ∨ d ∈ path

namespace Explored

/-- Noting an edge that closes a cycle enters and leaves nothing. -/
theorem note (s : Sweep ν) (closing : List (ν × ν)) :
    g.Explored root path s { s with closing } [] where
  left_eq := rfl
  mem_entered _ := by simp
  fresh _ h := absurd h List.not_mem_nil
  nodup := List.nodup_nil
  closed _ h := absurd h List.not_mem_nil
  reached _ h := absurd h List.not_mem_nil
  preceded _ _ _ h := by simp at h

theorem refl (s : Sweep ν) : g.Explored root path s s [] := note s s.closing

theorem entered_subset (h : g.Explored root path s t new) : s.entered ⊆ t.entered :=
  fun x hx => (h.mem_entered x).mpr (Or.inr hx)

theorem trans (h : g.Explored root path s t new) (h' : g.Explored root path t u new') :
    g.Explored root path s u (new' ++ new) where
  left_eq := by rw [h'.left_eq, h.left_eq, List.append_assoc]
  mem_entered x := by rw [h'.mem_entered, h.mem_entered, List.mem_append, or_assoc]
  fresh x hx := by
    rcases List.mem_append.mp hx with hx | hx
    · exact fun hs => h'.fresh x hx (h.entered_subset hs)
    · exact h.fresh x hx
  nodup := by
    refine List.nodup_append.mpr ⟨h'.nodup, h.nodup, ?_⟩
    rintro x hx y hy rfl
    exact h'.fresh x hx ((h.mem_entered x).mpr (Or.inl hy))
  closed x hx y hy := by
    rcases List.mem_append.mp hx with hx | hx
    · exact h'.closed x hx y hy
    · exact h'.entered_subset (h.closed x hx y hy)
  reached x hx := (List.mem_append.mp hx).elim (h'.reached x) (h.reached x)
  preceded front x back hEq d hne hd := by
    rcases List.append_eq_append_iff.mp hEq with ⟨mid, rfl, hNew⟩ | ⟨mid, rfl, hBack⟩
    · exact (h.preceded mid x back hNew d hne hd).imp_left (List.mem_append_right _)
    · cases mid with
      | nil =>
        rw [List.nil_append] at hBack
        exact (h.preceded [] x back hBack.symm d hne hd).imp_left fun hNil =>
          absurd hNil List.not_mem_nil
      | cons y mid =>
        obtain ⟨rfl, rfl⟩ := List.cons.inj hBack
        exact h'.preceded front x mid rfl d hne hd

/-- A node is entered, what it leads to is explored, and it is left. -/
theorem enclose (h : g.Explored root (a :: path) { s with entered := a :: s.entered } t new)
    (hFresh : a ∉ s.entered) (hWay : g.Walk root (a :: path).reverse a)
    (hNext : ∀ y ∈ g.next a, y ∈ t.entered) :
    g.Explored root path s { t with left := a :: t.left } (a :: new) where
  left_eq := congrArg (a :: ·) h.left_eq
  mem_entered x := by
    rw [h.mem_entered, List.mem_cons, List.mem_cons]
    exact or_left_comm.trans or_assoc.symm
  fresh x hx := by
    rcases List.mem_cons.mp hx with rfl | hx
    · exact hFresh
    · exact fun hs => h.fresh x hx (List.mem_cons_of_mem _ hs)
  nodup := List.nodup_cons.mpr ⟨fun ha => h.fresh a ha (List.mem_cons_self ..), h.nodup⟩
  closed x hx := by
    rcases List.mem_cons.mp hx with rfl | hx
    · exact hNext
    · exact h.closed x hx
  reached x hx := by
    rcases List.mem_cons.mp hx with rfl | hx
    · exact ⟨_, hWay⟩
    · exact h.reached x hx
  preceded front x back hEq d hne hd := by
    cases front with
    | nil =>
      obtain ⟨rfl, -⟩ := List.cons.inj hEq
      rcases List.mem_cons.mp (List.mem_reverse.mp (hd _ hWay)) with hEq | hMem
      · exact absurd hEq hne
      · exact Or.inr hMem
    | cons y front =>
      obtain ⟨rfl, hNew⟩ := List.cons.inj hEq
      rcases h.preceded front x back hNew d hne hd with hMem | hMem
      · exact Or.inl (List.mem_cons_of_mem _ hMem)
      · rcases List.mem_cons.mp hMem with rfl | hMem
        · exact Or.inl (List.mem_cons_self ..)
        · exact Or.inr hMem

end Explored

/-! ## One visit -/

/-- A way without repetition is no longer than the bound. -/
theorem Walk.length_le_bound (hg : g.Bounded) (w : g.Walk root (a :: path).reverse a)
    (hNodup : (a :: path).Nodup) : path.length ≤ g.bound.length := by
  have hTail : (a :: path).reverse.tail.Nodup := (List.nodup_reverse.mpr hNodup).tail
  have hLength := hTail.length_le_of_subset (w.tail_subset_bound hg)
  simpa using hLength

/-- A search that enters the node in state `s`, with the nodes of the path on the way, is in state
`t` when it has followed the edges to the nodes of `done`. -/
inductive Follows (g : Digraph ν) : List ν → ν → List ν → Sweep ν → Sweep ν → Prop where
  /-- The node is entered. -/
  | enter {path : List ν} {a : ν} {s : Sweep ν} (fresh : a ∉ s.entered) :
      Follows g path a [] s { s with entered := a :: s.entered }
  /-- An edge back to the way closes a cycle. -/
  | close {path done : List ν} {a b : ν} {s t : Sweep ν} (before : Follows g path a done s t)
      (edge : b ∈ g.next a) (back : b ∈ a :: path) :
      Follows g path a (done ++ [b]) s { t with closing := t.closing ++ [(a, b)] }
  /-- An edge leads to a node that has been left. -/
  | pass {path done : List ν} {a b : ν} {s t : Sweep ν} (before : Follows g path a done s t)
      (edge : b ∈ g.next a) (off : b ∉ a :: path) (entered : b ∈ t.entered) :
      Follows g path a (done ++ [b]) s t
  /-- An edge leads to a new node; all that leads on from there is followed before it is left. -/
  | descend {path done : List ν} {a b : ν} {s t u : Sweep ν} (before : Follows g path a done s t)
      (edge : b ∈ g.next a) (off : b ∉ a :: path)
      (within : Follows g (a :: path) b (g.next b) t u) :
      Follows g path a (done ++ [b]) s { u with left := b :: u.left }

theorem Follows.fresh (h : g.Follows path a done s t) : a ∉ s.entered := by
  induction h with
  | enter fresh => exact fresh
  | close _ _ _ ih => exact ih
  | pass _ _ _ _ ih => exact ih
  | descend _ _ _ _ ih _ => exact ih

/-- What is explored between entering a node and leaving it. -/
theorem Follows.explored (h : g.Follows path a done s t) (hWay : g.Walk root (a :: path).reverse a)
    (hPath : path ⊆ s.entered) :
    ∃ new, g.Explored root (a :: path) { s with entered := a :: s.entered } t new ∧
      done ⊆ t.entered := by
  induction h with
  | enter _ => exact ⟨[], .refl _, List.nil_subset _⟩
  | @close path done a b s t _ _ back ih =>
    obtain ⟨new, hExp, hDone⟩ := ih hWay hPath
    refine ⟨new, hExp.trans (.note t _), List.append_subset.mpr ⟨hDone, ?_⟩⟩
    exact List.cons_subset.mpr
      ⟨hExp.entered_subset (List.cons_subset_cons a hPath back), List.nil_subset _⟩
  | pass _ _ _ entered ih =>
    obtain ⟨new, hExp, hDone⟩ := ih hWay hPath
    exact ⟨new, hExp, List.append_subset.mpr
      ⟨hDone, List.cons_subset.mpr ⟨entered, List.nil_subset _⟩⟩⟩
  | @descend path done a b s t u _ edge _ within ih ih' =>
    obtain ⟨new, hExp, hDone⟩ := ih hWay hPath
    have hWay' : g.Walk root (b :: a :: path).reverse b := by
      rw [List.reverse_cons]
      exact hWay.snoc edge
    obtain ⟨new', hExp', hNext⟩ := ih' hWay' fun y hy =>
      hExp.entered_subset (List.cons_subset_cons a hPath hy)
    have hBoth := hExp.trans (hExp'.enclose within.fresh hWay' hNext)
    refine ⟨_, hBoth, List.append_subset.mpr ⟨fun y hy => ?_, List.cons_subset.mpr
      ⟨hExp'.entered_subset List.mem_cons_self, List.nil_subset _⟩⟩⟩
    exact hExp'.entered_subset (List.mem_cons_of_mem b (hDone hy))

variable [DecidableEq ν]

/-- With enough fuel a visit enters its node, follows every edge out of it and leaves it. The
induction is on the fuel, which together with the length of the way makes up the bound. -/
theorem visit_follows (hg : g.Bounded) (fuel : Nat) (path : List ν) (a : ν) (s : Sweep ν)
    (hWay : g.Walk root (a :: path).reverse a) (hNodup : (a :: path).Nodup)
    (hFuel : fuel + path.length = g.bound.length + 1) (hFresh : a ∉ s.entered) :
    ∃ t, g.Follows path a (g.next a) s t ∧
      g.visit fuel path a s = { t with left := a :: t.left } := by
  induction fuel generalizing path a s with
  | zero =>
    have := hWay.length_le_bound hg hNodup
    omega
  | succ fuel ih =>
    have follow : ∀ (rest done : List ν) (t : Sweep ν), g.next a = done ++ rest →
        g.Follows path a done s t →
        g.Follows path a (g.next a) s (rest.foldl (fun s b =>
          if b ∈ a :: path then { s with closing := s.closing ++ [(a, b)] }
          else if b ∈ s.entered then s
          else g.visit fuel (a :: path) b s) t) := by
      intro rest
      induction rest with
      | nil =>
        intro done t hEq h
        rw [List.append_nil] at hEq
        exact hEq ▸ h
      | cons b rest ihr =>
        intro done t hEq h
        have edge : b ∈ g.next a := by simp [hEq]
        refine ihr (done ++ [b]) _ (by simp [hEq]) ?_
        beta_reduce
        split
        · exact h.close edge ‹_›
        · rename_i hOff
          split
          · exact h.pass edge hOff ‹_›
          · have hWay' : g.Walk root (b :: a :: path).reverse b := by
              rw [List.reverse_cons]
              exact hWay.snoc edge
            obtain ⟨u, hWithin, hVisit⟩ := ih (a :: path) b t hWay'
              (List.nodup_cons.mpr ⟨hOff, hNodup⟩) (by simp only [List.length_cons]; omega) ‹_›
            rw [hVisit]
            exact h.descend edge hOff hWithin
    exact ⟨_, follow (g.next a) [] _ rfl (.enter hFresh), rfl⟩

/-- A visit enters and leaves its node, and explores what the node leads to. -/
theorem visit_explored (hg : g.Bounded) (fuel : Nat) (path : List ν) (a : ν) (s : Sweep ν)
    (hWay : g.Walk root (a :: path).reverse a) (hNodup : (a :: path).Nodup)
    (hFuel : fuel + path.length = g.bound.length + 1)
    (hFresh : a ∉ s.entered) (hPath : path ⊆ s.entered) :
    ∃ new, g.Explored root path s (g.visit fuel path a s) (a :: new) := by
  obtain ⟨t, hFollows, hVisit⟩ := visit_follows hg fuel path a s hWay hNodup hFuel hFresh
  obtain ⟨new, hExp, hNext⟩ := hFollows.explored hWay hPath
  rw [hVisit]
  exact ⟨new, hExp.enclose hFresh hWay hNext⟩

/-! ## A search from a root -/

/-- A search from a root leaves the root last and explores everything from there. -/
theorem sweep_explored (hg : g.Bounded) (root : ν) :
    ∃ new, g.Explored root [] {} (g.sweep [root]) (root :: new) :=
  visit_explored hg (g.bound.length + 1) [] root {} (.nil root) (List.nodup_singleton root) rfl
    List.not_mem_nil (List.nil_subset _)

theorem nodup_left_sweep (hg : g.Bounded) (root : ν) : (g.sweep [root]).left.Nodup := by
  obtain ⟨new, h⟩ := sweep_explored hg root
  rw [h.left_eq]
  exact (List.append_nil _).symm ▸ h.nodup

/-- The nodes that a search from a root leaves are those that the root reaches. -/
theorem mem_left_sweep (hg : g.Bounded) {root x : ν} :
    x ∈ (g.sweep [root]).left ↔ g.Reaches root x := by
  obtain ⟨new, h⟩ := sweep_explored hg root
  have hLeft : (g.sweep [root]).left = root :: new := h.left_eq.trans (List.append_nil _)
  have hEntered : ∀ y, y ∈ (g.sweep [root]).entered ↔ y ∈ root :: new := fun y =>
    (h.mem_entered y).trans (or_iff_left List.not_mem_nil)
  rw [hLeft]
  refine ⟨h.reached x, fun hReach => ?_⟩
  exact Reaches.induct (P := (· ∈ root :: new)) (List.mem_cons_self ..)
    (fun b c _ hb edge => (hEntered c).mp (h.closed b hb c edge)) hReach

/-- In reverse postorder a strict dominator of a node stands before it. -/
theorem dominator_before (hg : g.Bounded) {root d x : ν} {front back : List ν}
    (hEq : (g.sweep [root]).left = front ++ x :: back) (hne : d ≠ x)
    (hd : g.Dominates root d x) : d ∈ front := by
  obtain ⟨new, h⟩ := sweep_explored hg root
  have hLeft : (g.sweep [root]).left = root :: new := h.left_eq.trans (List.append_nil _)
  exact (h.preceded front x back (hLeft.symm.trans hEq) d hne hd).resolve_right List.not_mem_nil

end Digraph

end Midend
