import Mathlib.Logic.Relation
import Midend.Proofs.Graph.DepthFirst

/-!
# Depth-first search as a loop

A depth-first search can be run as a loop that keeps the nodes entered and not left on a stack, each
with the nodes next to it that are still to be looked at (`DepthSearch`). A turn of the loop looks
at one such node, or leaves the node on top of the stack when there is none.

Two such loops are told apart. One notes the edges that close a cycle, and for that keeps the nodes
on the stack as a set as well (`Digraph.turn`); it notes the nodes left too, but no turn reads them.
The other is after the order in which nodes are left, and asks of a node only whether it has been
entered (`Digraph.orderTurn`). A node on the stack has been entered, so what the second does is what
is left of the first when the set and the edges are forgotten (`orderTurn_forget`).

* `sweepFrom_runs`, `sweepFrom_orderRuns`: both loops come to an empty stack, where they end, with
  what `Digraph.sweepFrom` finds.
-/

namespace Midend

/-- The state of a depth-first search that is run as a loop. -/
structure DepthSearch (ν : Type) where
  /-- The nodes entered and not left, the last one first, each with those next to it that are still
  to be looked at. -/
  stack : List (ν × List ν)
  /-- The nodes on the stack. -/
  onWay : List ν
  /-- What has been found. -/
  found : Sweep ν

namespace Digraph

variable {ν : Type} [DecidableEq ν]

/-- One turn of the loop that looks for edges that close a cycle. -/
def turn (g : Digraph ν) (l : DepthSearch ν) : Option (DepthSearch ν) :=
  match l.stack with
  | [] => none
  | (a, []) :: stack =>
    some ⟨stack, l.onWay.erase a, { l.found with left := a :: l.found.left }⟩
  | (a, b :: rest) :: stack =>
    if b ∈ l.onWay then
      some ⟨(a, rest) :: stack, l.onWay, { l.found with closing := l.found.closing ++ [(a, b)] }⟩
    else if b ∈ l.found.entered then some ⟨(a, rest) :: stack, l.onWay, l.found⟩
    else
      some ⟨(b, g.next b) :: (a, rest) :: stack, b :: l.onWay,
        { l.found with entered := b :: l.found.entered }⟩

/-- One turn of the loop that orders the nodes. -/
def orderTurn (g : Digraph ν) (l : DepthSearch ν) : Option (DepthSearch ν) :=
  match l.stack with
  | [] => none
  | (a, []) :: stack => some { l with stack, found := { l.found with left := a :: l.found.left } }
  | (a, b :: rest) :: stack =>
    if b ∈ l.found.entered then some { l with stack := (a, rest) :: stack }
    else
      some { l with
        stack := (b, g.next b) :: (a, rest) :: stack
        found := { l.found with entered := b :: l.found.entered } }

/-- A loop comes from one state to another by its turns. -/
abbrev RunsTo (turn : DepthSearch ν → Option (DepthSearch ν)) (l m : DepthSearch ν) : Prop :=
  Relation.ReflTransGen (fun l m => turn l = some m) l m

/-- The search has entered a node and looked at nothing yet. -/
def entering (g : Digraph ν) (s : Sweep ν) (start : ν) : DepthSearch ν :=
  ⟨[(start, g.next start)], [start], { s with entered := start :: s.entered }⟩

/-- What the loop that orders the nodes does not keep is forgotten. -/
def forget (l : DepthSearch ν) : DepthSearch ν :=
  { l with onWay := [], found := { l.found with closing := [] } }

variable {g : Digraph ν} {a start : ν} {path done rest : List ν} {s t : Sweep ν}
  {stack : List (ν × List ν)} {l m : DepthSearch ν}

/-- The node on top of the stack is left when there is nothing more to look at. -/
theorem turn_leave : g.turn ⟨(a, []) :: stack, a :: path, t⟩ =
    some ⟨stack, path, { t with left := a :: t.left }⟩ := by
  simp only [turn, List.erase_cons_head]

/-- While a visit goes on, the loop comes from where the node was entered to where the edges to
`done` have been followed. The induction is on the visit; a visit within it is a run of the loop on
a higher stack. -/
theorem Follows.runs (h : g.Follows path a done s t) (hNext : g.next a = done ++ rest) :
    RunsTo g.turn
      ⟨(a, g.next a) :: stack, a :: path, { s with entered := a :: s.entered }⟩
      ⟨(a, rest) :: stack, a :: path, t⟩ := by
  induction h generalizing rest stack with
  | enter _ =>
    rw [hNext]
    exact .refl
  | close _ _ back ih =>
    rw [List.append_assoc] at hNext
    exact (ih hNext).tail (if_pos back)
  | pass _ _ off entered ih =>
    rw [List.append_assoc] at hNext
    exact (ih hNext).tail ((if_neg off).trans (if_pos entered))
  | @descend path done a b s t u _ _ off within ih ih' =>
    rw [List.append_assoc] at hNext
    have hDown : g.turn ⟨(a, b :: rest) :: stack, a :: path, t⟩ =
        some ⟨(b, g.next b) :: (a, rest) :: stack, b :: a :: path,
          { t with entered := b :: t.entered }⟩ :=
      (if_neg off).trans (if_neg within.fresh)
    exact (((ih hNext).tail hDown).trans (ih' (List.append_nil _).symm)).tail turn_leave

/-- The loop that looks for edges that close a cycle ends with what the search finds. -/
theorem sweepFrom_runs (hg : g.Bounded) (hFresh : start ∉ s.entered) :
    RunsTo g.turn (g.entering s start) ⟨[], [], g.sweepFrom s start⟩ := by
  obtain ⟨t, hFollows, hVisit⟩ := visit_follows hg (g.bound.length + 1) [] start s (.nil start)
    (List.nodup_singleton start) rfl hFresh
  rw [sweepFrom, if_neg hFresh, hVisit]
  exact (hFollows.runs (List.append_nil _).symm).tail turn_leave

/-- As long as the nodes on the way have been entered, a turn of the one loop is a turn of the
other, and they have been entered after it. -/
theorem orderTurn_forget (h : g.turn l = some m) (hWay : l.onWay ⊆ l.found.entered) :
    g.orderTurn (forget l) = some (forget m) ∧ m.onWay ⊆ m.found.entered := by
  obtain ⟨stack, onWay, found⟩ := l
  cases stack with
  | nil => exact absurd h (Option.some_ne_none m).symm
  | cons top stack =>
    obtain ⟨a, next⟩ := top
    cases next with
    | nil =>
      obtain rfl := Option.some.inj h
      exact ⟨rfl, fun x hx => hWay (List.mem_of_mem_erase hx)⟩
    | cons b rest =>
      by_cases hOn : b ∈ onWay
      · obtain rfl := Option.some.inj ((if_pos hOn).symm.trans h)
        exact ⟨if_pos (hWay hOn), hWay⟩
      · by_cases hIn : b ∈ found.entered
        · obtain rfl := Option.some.inj (((if_neg hOn).trans (if_pos hIn)).symm.trans h)
          exact ⟨if_pos hIn, hWay⟩
        · obtain rfl := Option.some.inj (((if_neg hOn).trans (if_neg hIn)).symm.trans h)
          exact ⟨if_neg hIn, List.cons_subset_cons b hWay⟩

/-- A run of the one loop is a run of the other. -/
theorem orderRuns_forget (h : RunsTo g.turn l m)
    (hWay : l.onWay ⊆ l.found.entered) :
    RunsTo g.orderTurn (forget l) (forget m) ∧
      m.onWay ⊆ m.found.entered := by
  induction h with
  | refl => exact ⟨.refl, hWay⟩
  | tail _ hTurn ih =>
    obtain ⟨hRuns, hWay'⟩ := ih
    obtain ⟨hOrder, hWay''⟩ := orderTurn_forget hTurn hWay'
    exact ⟨hRuns.tail hOrder, hWay''⟩

/-- The loop that orders the nodes ends with them left in the same order. -/
theorem sweepFrom_orderRuns (hg : g.Bounded) (hFresh : start ∉ s.entered) :
    RunsTo g.orderTurn (forget (g.entering s start))
      (forget ⟨[], [], g.sweepFrom s start⟩) :=
  (orderRuns_forget (sweepFrom_runs hg hFresh)
    (List.cons_subset_cons start (List.nil_subset s.entered))).1

end Digraph

end Midend
