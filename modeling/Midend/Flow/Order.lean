import Midend.Func.Basic
import Midend.Graph.Breadth
import Midend.Graph.Depth

/-!
# The flow graph of a function

The edges are those recorded where they leave. `Func.reversePostorder` orders the blocks that
control can reach so that every edge that closes no cycle leads forward; `Func.backEdges` lists
the others.
-/

namespace Midend

namespace Func

/-- The blocks with the edges recorded where they leave. -/
def flow (f : Func) : Digraph BlockId where
  next b := (f.succs b).toList
  bound := f.arena.values.flatMap (·.succs.toList)

/-- The blocks that can be reached from the entry, in reverse postorder. -/
def reversePostorder (f : Func) : List BlockId := (f.flow.sweep f.entry.toList).left

/-- The edges that close a cycle in a depth-first search from the entry. -/
def backEdges (f : Func) : List (BlockId × BlockId) := (f.flow.sweep f.entry.toList).closing

/-- Whether some edges form a cycle, reachable from the entry or not. -/
def hasCycle (f : Func) : Bool := !(f.flow.sweep f.layout).closing.isEmpty

/-- The blocks that can be reached from a block of the function, itself included. -/
def reachable (f : Func) (start : BlockId) : BlockSet :=
  if f.hasBlock start then .ofList (f.flow.reachable start) else ∅

/-- Whether the second block can be reached from the first. -/
def canReach (f : Func) (a b : BlockId) : Bool := b ∈ f.reachable a

/-- The blocks that cannot be reached from the entry, in the order of the layout. -/
def unreachable (f : Func) : List BlockId :=
  match f.entry with
  | none => []
  | some e =>
    let reached := f.reachable e
    f.layout.filter (· ∉ reached)

end Func

end Midend
