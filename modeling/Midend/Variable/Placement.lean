import Midend.Flow.Dominance

/-!
# Where phis are needed

A variable that is stored in several blocks needs a phi in the iterated dominance frontier of those
blocks, where different definitions can meet.
-/

namespace Midend

/-- The blocks that hold a store to each variable. -/
def Func.storesByVariable (f : Func) : SortedMap String BlockSet :=
  .gather (f.blocks.flatMap fun b => b.insts.filterMap fun i =>
    match i.op with
    | .store ptr _ => (f.variableOf? ptr).map fun name => (name, b.id)
    | _ => none)

/-- The blocks where each variable needs a phi; a variable that needs none is not mentioned. -/
structure PhiPlacement where
  /-- The blocks for each variable. -/
  sites : SortedMap String BlockSet
deriving DecidableEq

namespace PhiPlacement

/-- The iterated dominance frontiers of given blocks. -/
def compute (dom : Dominance) (defs : SortedMap String BlockSet) : PhiPlacement :=
  let closed := defs.mapValues fun blocks => dom.iteratedFrontier blocks.toList
  ⟨.tabulate closed.keys fun name => (closed.get? name).filter fun s => !s.isEmpty⟩

/-- The blocks where a variable needs a phi. -/
def blocksFor? (p : PhiPlacement) (name : String) : Option BlockSet := p.sites.get? name

/-- Whether a variable needs a phi in a block. -/
def needsPhi (p : PhiPlacement) (name : String) (b : BlockId) : Bool :=
  (p.blocksFor? name).any (b ∈ ·)

/-- The variables that need a phi in a block. -/
def variablesAt (p : PhiPlacement) (b : BlockId) : List String :=
  p.sites.keys.filter (p.needsPhi · b)

/-- Whether no variable needs a phi. -/
def isEmpty (p : PhiPlacement) : Bool := p.sites.toList.isEmpty

end PhiPlacement

end Midend
