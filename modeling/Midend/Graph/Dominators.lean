import Midend.Sorted.Map
import Midend.Total

/-!
# Dominators

A node dominates another if every path from the root to the other goes through it. The sets of
dominators are the greatest solution of

* the root is dominated by itself alone;
* any other node is dominated by itself and by what dominates all its predecessors,

and they are found by starting from the full sets and shrinking them round by round. The number of
rounds is limited; `Fixpoint` tells a solution from a set of sets that may still shrink.

`DomTree` holds the sets of dominators, the immediate dominators and the dominance frontiers.
-/

namespace Midend

/-- The result of a computation in rounds. -/
inductive Fixpoint (α : Type) where
  /-- The last round changed nothing. -/
  | converged (value : α)
  /-- The limit was reached while rounds still changed something. -/
  | truncated (value : α)
deriving Repr

namespace Fixpoint

variable {α β : Type}

/-- Whether the last round changed nothing. -/
def isConverged : Fixpoint α → Bool
  | .converged _ => true
  | .truncated _ => false

/-- The value reached. -/
def value : Fixpoint α → α
  | .converged a | .truncated a => a

/-- The value reached, if the last round changed nothing. -/
def converged? : Fixpoint α → Option α
  | .converged a => some a
  | .truncated _ => none

/-- Changes the value. -/
def map (g : α → β) : Fixpoint α → Fixpoint β
  | .converged a => .converged (g a)
  | .truncated a => .truncated (g a)

end Fixpoint

/-- A graph as seen from a root: the nodes that can be reached from it, in the order in which they
are to be visited, and the edges. Edges to and from other nodes are ignored. -/
structure FlowGraph (ν : Type) where
  /-- The root. -/
  root : ν
  /-- The nodes that can be reached from the root. -/
  nodes : List ν
  /-- The nodes from which an edge leads to a node. -/
  preds : ν → List ν
  /-- The nodes to which an edge leads from a node. -/
  succs : ν → List ν

/-- A set of nodes for each node. -/
abbrev NodeSets (ν : Type) [Key ν] := SortedMap ν (SortedSet ν)

/-- The set of a node, empty if it has none. -/
def NodeSets.of {ν : Type} [Key ν] (sets : NodeSets ν) (a : ν) : SortedSet ν :=
  (sets.get? a).getD ∅

/-- Dominators, immediate dominators and dominance frontiers of the nodes of a graph. -/
structure DomTree (ν : Type) [Key ν] where
  /-- The root. -/
  root : ν
  /-- The nodes in visiting order. -/
  nodes : List ν
  /-- The dominators of each node. -/
  doms : NodeSets ν
  /-- The immediate dominator of each node that has one. -/
  idoms : SortedMap ν ν
  /-- The dominance frontier of each node where it is not empty. -/
  frontiers : NodeSets ν
  /-- The number of rounds that the computation took. -/
  rounds : Nat

namespace FlowGraph

variable {ν : Type} [Key ν]

/-- The predecessors of a node among the nodes. -/
def memberPreds (g : FlowGraph ν) (a : ν) : List ν := (g.preds a).filter (· ∈ g.nodes)

/-! ## Dominators -/

/-- The full sets, except for the root. -/
def fullSets (g : FlowGraph ν) : NodeSets ν :=
  .tabulate g.nodes fun a =>
    some (if a = g.root then .singleton a else .ofList g.nodes)

/-- What dominates all predecessors of a node, and the node. -/
def meet (sets : NodeSets ν) (a p : ν) (ps : List ν) : SortedSet ν :=
  let others := ps.map sets.of
  ((sets.of p).filter fun d => others.all (d ∈ ·)).insert a

/-- Brings the set of one node up to date. -/
def refine (g : FlowGraph ν) (sets : NodeSets ν) (a : ν) : NodeSets ν :=
  if a = g.root then sets
  else
    match g.memberPreds a with
    | [] => sets
    | p :: ps => sets.insert a (meet sets a p ps)

/-- Brings the set of every node up to date, one after the other. -/
def round (g : FlowGraph ν) (sets : NodeSets ν) : NodeSets ν := g.nodes.foldl g.refine sets

/-- Runs rounds until one changes nothing, at most as many as the limit says. Gives the number of
rounds run beside the sets. -/
def solve (g : FlowGraph ν) : (limit : Nat) → (done : Nat) → NodeSets ν →
    Fixpoint (Nat × NodeSets ν)
  | 0, done, sets => .truncated (done, sets)
  | limit + 1, done, sets =>
    let sets' := g.round sets
    if sets' = sets then .converged (done + 1, sets') else g.solve limit (done + 1) sets'

/-! ## Immediate dominators -/

/-- The first of the strict dominators of a node that every other one dominates. -/
def closest? (g : FlowGraph ν) (sets : NodeSets ν) (a : ν) : Option ν :=
  if a = g.root then none
  else
    let ds := (sets.of a).toList
    ds.find? fun d => d ≠ a ∧ ds.all fun other => other = a ∨ other ∈ sets.of d

/-! ## Dominance frontiers -/

/-- The nodes met on the way up the tree of immediate dominators, from a node to below the place
to stop at. -/
def climb (idoms : SortedMap ν ν) (stop : Option ν) : Nat → ν → List ν
  | 0, _ => []
  | fuel + 1, a =>
    if some a = stop then []
    else
      a :: match idoms.get? a with
        | none => []
        | some d => climb idoms stop fuel d

/-- A node and a successor that it does not strictly dominate. -/
def localPairs (g : FlowGraph ν) (sets : NodeSets ν) : List (ν × ν) :=
  g.nodes.flatMap fun a =>
    ((g.succs a).filter fun s => s ∈ g.nodes ∧ ¬ (a ≠ s ∧ a ∈ sets.of s)).map fun s => (a, s)

/-- For a node with several predecessors: the nodes between a predecessor and its immediate
dominator, with the node. The tree has at most as many levels as there are nodes. -/
def joinPairs (g : FlowGraph ν) (idoms : SortedMap ν ν) : List (ν × ν) :=
  g.nodes.flatMap fun join =>
    let preds := g.memberPreds join
    if preds.length < 2 then []
    else preds.flatMap fun p =>
      (climb idoms (idoms.get? join) (g.nodes.length + 1) p).map fun a => (a, join)

/-! ## The whole -/

/-- The immediate dominators and frontiers that go with given sets of dominators. -/
def tree (g : FlowGraph ν) (rounds : Nat) (doms : NodeSets ν) : DomTree ν :=
  let idoms := SortedMap.tabulate g.nodes (g.closest? doms)
  { root := g.root
    nodes := g.nodes
    doms
    idoms
    frontiers := SortedMap.gather (g.localPairs doms ++ g.joinPairs idoms)
    rounds }

/-- Computes dominators within a limit of rounds. -/
def dominators (g : FlowGraph ν) (limit : Nat) : Fixpoint (DomTree ν) :=
  (g.solve limit 0 g.fullSets).map fun (rounds, doms) => g.tree rounds doms

end FlowGraph

namespace DomTree

variable {ν : Type} [Key ν]

/-- Whether the node can be reached from the root. -/
def isNode (t : DomTree ν) (a : ν) : Bool := t.doms.contains a

/-- The dominators of a node; none if it cannot be reached. -/
def dominators (t : DomTree ν) (a : ν) : SortedSet ν := t.doms.of a

/-- Whether the first node dominates the second. Every node dominates itself. -/
def dominates (t : DomTree ν) (d a : ν) : Bool := d = a || d ∈ t.dominators a

/-- Whether the first node dominates the second and is not the same. -/
def strictlyDominates (t : DomTree ν) (d a : ν) : Bool := d ≠ a && t.dominates d a

/-- The strict dominator of a node that every other one dominates. -/
def idom? (t : DomTree ν) (a : ν) : Option ν := t.idoms.get? a

/-- The dominance frontier of a node. -/
def frontier (t : DomTree ν) (a : ν) : SortedSet ν := t.frontiers.of a

/-- The nodes whose immediate dominator is the given one, in visiting order. -/
def children (t : DomTree ν) (a : ν) : List ν := t.nodes.filter fun b => t.idom? b = some a

end DomTree

/-! ## Iterated frontiers -/

/-- The state of the search for what lies in the frontiers of given nodes, in the frontiers of what
is found, and so on. -/
structure FrontierSearch (ν : Type) [Key ν] where
  /-- The nodes whose frontiers are still to be looked at, the next one first. -/
  work : List ν
  /-- The nodes that are on the work list or were there before. -/
  queued : SortedSet ν
  /-- The nodes found in a frontier. -/
  found : SortedSet ν

namespace FrontierSearch

variable {ν : Type} [Key ν]

/-- The search as it starts. The node that was given last comes first. -/
def start (l : List ν) : FrontierSearch ν := ⟨l.reverse, .ofList l, ∅⟩

/-- Notes a node of a frontier. It is put on the work list when it is found for the first time,
unless it was there before. -/
def note (s : FrontierSearch ν) (c : ν) : FrontierSearch ν :=
  if c ∈ s.found then s
  else if c ∈ s.queued then { s with found := s.found.insert c }
  else ⟨c :: s.work, s.queued.insert c, s.found.insert c⟩

end FrontierSearch

namespace DomTree

variable {ν : Type} [Key ν]

/-- Takes nodes from the work list, at most as many as the limit says, and notes their
frontiers. -/
def closeFrontier (t : DomTree ν) : Nat → FrontierSearch ν → FrontierSearch ν
  | 0, s => s
  | limit + 1, s =>
    match s.work with
    | [] => s
    | a :: work => t.closeFrontier limit ((t.frontier a).toList.foldl .note { s with work })

/-- The search from a list of nodes when it has come to its end. Besides the nodes of the list only
nodes that lie in some frontier are put on the work list, each once. -/
def searchFrontier (t : DomTree ν) (l : List ν) : FrontierSearch ν :=
  t.closeFrontier (l.length + total (t.frontiers.values.map (·.size))) (.start l)

/-- The iterated dominance frontier of a list of nodes: what the frontiers of the nodes and of the
result contain. -/
def iteratedFrontier (t : DomTree ν) (l : List ν) : SortedSet ν := (t.searchFrontier l).found

end DomTree

end Midend
