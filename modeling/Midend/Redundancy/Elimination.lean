import Midend.Func.Revision
import Midend.Redundancy.Numbering

/-!
# Eliminating redundant values

A redundant value is removed after everything that read it has been made to read the earlier value
in its place.
-/

namespace Midend

namespace Func

/-- Puts the earlier value in the place of each redundant one. -/
def eliminate (f : Func) (l : List Redundancy) : Func :=
  l.foldl (fun g r => ((g.replaceUses r.value r.earlier).2.removeValue r.value).2) f

/-- Eliminates the values that are redundant within their block. Gives their number. -/
def eliminateLocal (f : Func) : Nat × Func :=
  let l := f.blocks.flatMap Block.redundancies
  (l.length, f.eliminate l)

/-- Eliminates the values for which a dominating block has an earlier one. Gives their number. -/
def eliminateDominated (f : Func) (dom : Dominance) : Nat × Func :=
  let l := f.dominatedRedundancies dom
  (l.length, f.eliminate l)

end Func

end Midend
