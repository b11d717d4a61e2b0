/-!
# Passes

The transformations that the pipeline can run, in the order in which it runs them.
-/

namespace Midend

/-- A transformation of the pipeline. -/
inductive Pass where
  | removeUnreachable
  | threadJumps
  | mergeBlocks
  | splitCriticalEdges
  | eliminateRedundancies
deriving DecidableEq, Repr, Inhabited

namespace Pass

/-- Whether the pass may add, remove or rewire blocks. -/
def changesShape : Pass → Bool
  | .eliminateRedundancies => false
  | _ => true

/-- The name of the pass. -/
def text : Pass → String
  | .removeUnreachable => "remove-unreachable"
  | .threadJumps => "thread-jumps"
  | .mergeBlocks => "merge-blocks"
  | .splitCriticalEdges => "split-critical-edges"
  | .eliminateRedundancies => "eliminate-redundancies"

end Pass

end Midend
