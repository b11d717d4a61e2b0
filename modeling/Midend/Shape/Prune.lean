import Midend.Flow.Order
import Midend.Func.Revision

/-!
# Removing unreachable blocks

Blocks that control cannot reach from the entry are removed, and the pairs that phis have for them.
-/

namespace Midend

namespace Func

/-- Drops the pairs that the phis of the successors of a block have for it. -/
def forsake (f : Func) (b : BlockId) : Func :=
  (f.succs b).toList.foldl (fun g s => (g.removeIncoming s b).2) f

/-- Removes the blocks that cannot be reached from the entry. Gives their number. -/
def removeUnreachable (f : Func) : Nat × Func :=
  let dead := f.unreachable
  (dead.length, dead.foldl (fun g b => (g.removeBlock b).2) (dead.foldl forsake f))

end Func

end Midend
