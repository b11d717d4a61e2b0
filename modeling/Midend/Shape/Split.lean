import Midend.Func.Revision

/-!
# Splitting critical edges

An edge is critical if it is neither the only one that leaves its source nor the only one that
arrives at its target. Splitting leads it through a new block that holds nothing but a jump, so
that there is a place for code that belongs to the edge alone.
-/

namespace Midend

namespace Func

/-- Whether there is an edge from the first block to the second, others leave the first, and others
arrive at the second. -/
def isCritical (f : Func) (a b : BlockId) : Bool :=
  match f.block? a, f.block? b with
  | some blkA, some blkB => b ∈ blkA.succs ∧ 1 < blkA.succs.size ∧ 1 < blkB.preds.size
  | _, _ => false

/-- The targets of the critical edges that leave a block. -/
def criticalTargets (f : Func) (a : BlockId) : List BlockId :=
  (f.succs a).toList.filter (f.isCritical a)

/-- The label that the block on an edge gets if the given number of labels before it are taken. -/
def splitLabelAt (f : Func) (a b : BlockId) (n : Nat) : String :=
  let base := (f.label? a).getD "" ++ "." ++ (f.label? b).getD "" ++ ".split"
  if n = 0 then base else base ++ "." ++ toString n

/-- The first label for the block on an edge that no block has. One more label than there are
blocks is always enough. -/
def splitLabel (f : Func) (a b : BlockId) : String :=
  (((List.range (f.arena.size + 1)).map (f.splitLabelAt a b)).find? fun label =>
    (f.blockByLabel? label).isNone).getD ""

/-- Puts a jump into the new block on an edge and leads the edge through it. -/
def rewire (f : Func) (a b split : BlockId) (old : Inst) : Outcome Func ValueId :=
  (f.append split .void (.jump b)).andThen fun _ g =>
    g.replaceTerminator a old.ty (old.op.mapBlocks fun t => if t = b then split else t)

/-- Leads a critical edge through a new block; phis that expected control from the first block
expect it from the new one. Gives the new block. -/
def splitEdge (f : Func) (a b : BlockId) : Option BlockId × Func :=
  match (f.block? a).bind (·.terminator?), f.isCritical a b with
  | some old, true =>
    match f.createBlock (f.splitLabel a b) with
    | ⟨.error _, g⟩ => (none, g)
    | ⟨.ok split, g⟩ =>
      match g.rewire a b split old with
      | ⟨.error _, h⟩ => (none, (h.removeBlock split).2)
      | ⟨.ok _, h⟩ => (some split, (h.retargetIncoming b a split).2)
  | _, _ => (none, f)

/-- Splits the critical edges that leave a block. Gives their number. -/
def splitFrom (f : Func) (a : BlockId) : Nat × Func :=
  (f.criticalTargets a).foldl
    (fun (n, g) b =>
      match g.splitEdge a b with
      | (some _, h) => (n + 1, h)
      | (none, h) => (n, h))
    (0, f)

/-- Splits all critical edges. Gives their number. -/
def splitAll (f : Func) : Nat × Func :=
  f.layout.foldl
    (fun (n, g) a =>
      let (m, h) := g.splitFrom a
      (n + m, h))
    (0, f)

end Func

end Midend
