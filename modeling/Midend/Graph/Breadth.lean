import Midend.Graph.Basic

/-!
# Breadth-first search

`Digraph.reachable` lists the nodes that can be reached from a node, each once, the nearest first.
-/

namespace Midend

namespace Digraph

variable {ν : Type} [DecidableEq ν]

/-- The nodes next to a node that have not been found yet, each once. -/
def fresh (g : Digraph ν) (found : List ν) (a : ν) : List ν :=
  ((g.next a).filter (· ∉ found)).eraseDups

/-- Goes on with the nodes of a queue, all of them found already. Every step takes one node from
the queue. -/
def spread (g : Digraph ν) : Nat → List ν → List ν → List ν
  | 0, _, found => found
  | _ + 1, [], found => found
  | fuel + 1, a :: queue, found =>
    let new := g.fresh found a
    g.spread fuel (queue ++ new) (found ++ new)

/-- The nodes that can be reached from a node, itself first. Each enters the queue once, and all
but the first are nodes of the bound. -/
def reachable (g : Digraph ν) (start : ν) : List ν :=
  g.spread (g.bound.length + 1) [start] [start]

end Digraph

end Midend
