import Midend.Graph.Basic

/-!
# Depth-first search

A depth-first search follows every edge out of a node before it leaves the node. `Sweep` records
what it found: the nodes entered, the nodes left, and the edges that close a cycle, which are those
that lead to a node that the search has entered and not left.

The nodes left, the last one first, are in reverse postorder.

One recursion, `Digraph.visit`, stands for two loops that each keep a stack of their own: one orders
the nodes and notes no edge, the other notes the edges that close a cycle and keeps no order. That
both come to what `Digraph.sweepFrom` finds is shown in `Midend.Proofs.Graph.Stack`.
-/

namespace Midend

/-- What a depth-first search has found. -/
structure Sweep (ν : Type) where
  /-- The nodes entered. -/
  entered : List ν := []
  /-- The nodes left, the last one first. -/
  left : List ν := []
  /-- The edges that close a cycle, in the order in which they were found. -/
  closing : List (ν × ν) := []

namespace Digraph

variable {ν : Type} [DecidableEq ν]

/-- Enters a node, follows its edges and leaves it. The path lists the nodes entered and not left,
the last one first; no node is on it twice, so the bound limits its length. -/
def visit (g : Digraph ν) : Nat → List ν → ν → Sweep ν → Sweep ν
  | 0, _, _, s => s
  | fuel + 1, path, a, s =>
    let s := (g.next a).foldl
      (fun s b =>
        if b ∈ a :: path then { s with closing := s.closing ++ [(a, b)] }
        else if b ∈ s.entered then s
        else g.visit fuel (a :: path) b s)
      { s with entered := a :: s.entered }
    { s with left := a :: s.left }

/-- Searches from a node, unless it has been entered before. -/
def sweepFrom (g : Digraph ν) (s : Sweep ν) (start : ν) : Sweep ν :=
  if start ∈ s.entered then s else g.visit (g.bound.length + 1) [] start s

/-- Searches from each of a list of nodes in turn. -/
def sweep (g : Digraph ν) (starts : List ν) : Sweep ν := starts.foldl g.sweepFrom {}

end Digraph

end Midend
