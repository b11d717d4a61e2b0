import Midend.Func.Construction

/-!
# Revision

Requests that change a function that is already built: the terminator of a block, single values,
whole blocks, and the names that instructions mention.

`Func.replaceTerminator` and `Func.replaceBlocks` check their arguments and can be refused; the
others do what they can and say how much that was.
-/

namespace Midend

namespace Func

/-! ## Terminators -/

/-- Takes the last instruction of a block away and strikes the edges to its targets. -/
def dropTerminator (f : Func) (b : BlockId) (old : Inst) : Func :=
  (f.modifyBlock b fun blk => { blk with insts := blk.insts.dropLast }).removeEdges b
    old.op.targets

/-- Puts a terminator at the end of a block and records the edges to its targets. -/
def restoreTerminator (f : Func) (b : BlockId) (old : Inst) : Func :=
  (f.modifyBlock b fun blk => { blk with insts := blk.insts ++ [old] }).addEdges b old.op.targets

/-- Exchanges the terminator of a block for a new one with a new name, moving the edges from the
old targets to the new ones. If the new one is refused the old one is put back. -/
def replaceTerminator (f : Func) (b : BlockId) (ty : Ty) (op : Op) : Outcome Func ValueId :=
  if !op.isTerminator then .fail (.notATerminator op.opcode) f
  else
    match f.block? b with
    | none => .fail (.unknownBlock b) f
    | some blk =>
      match blk.terminator? with
      | none => .fail (.missingTerminator b) f
      | some old =>
        match (f.dropTerminator b old).append b ty op with
        | ⟨.ok v, g⟩ => .ok v g
        | ⟨.error e, g⟩ => .fail e (g.restoreTerminator b old)

/-! ## Values -/

/-- Removes a value and, if it is a terminator, the edges to its targets. Gives the value that
was removed. -/
def removeValue (f : Func) (v : ValueId) : Option Inst × Func :=
  match f.home? v with
  | none => (none, f)
  | some b =>
    match (f.block? b).bind (·.value? v) with
    | none => (none, f)
    | some i => (some i, (f.modifyBlock b (·.erase v)).removeEdges b i.op.targets)

/-- Makes those of the listed instructions that read the first value read the second one. Gives the
number of instructions changed. -/
def replaceUsesIn (old new : ValueId) : List Inst → Nat × List Inst
  | [] => (0, [])
  | i :: rest =>
    let (count, changed) := replaceUsesIn old new rest
    if old ∈ i.op.operands then
      (count + 1, i.mapOperands (fun v => if v = old then new else v) :: changed)
    else (count, i :: changed)

/-- Makes every instruction that reads the first value read the second one. Gives the number of
instructions changed. -/
def replaceUses (f : Func) (old new : ValueId) : Nat × Func :=
  let blocks := f.arena.mapValues fun blk =>
    let (count, insts) := replaceUsesIn old new blk.insts
    (count, { blk with insts })
  (total (blocks.values.map (·.1)), { f with arena := blocks.mapValues (·.2) })

/-! ## Phis -/

/-- Makes the phis of a block expect control from the second block where they expected it from
the first. Gives the number of phis changed. -/
def retargetIncoming (f : Func) (b old new : BlockId) : Nat × Func :=
  let rename (a : BlockId) : BlockId := if a = old then new else a
  match f.block? b with
  | none => (0, f)
  | some blk =>
    (blk.phis.countP (old ∈ ·.op.blockRefs),
      f.modifyBlock b (·.mapInsts fun i => if i.isPhi then i.mapBlocks rename else i))

/-- Drops the pairs that belong to one block from the phis of another. Gives the number of pairs
dropped. -/
def removeIncoming (f : Func) (b pred : BlockId) : Nat × Func :=
  match f.block? b with
  | none => (0, f)
  | some blk =>
    (total (blk.insts.map (·.countIncoming pred)), f.modifyBlock b (·.mapInsts (·.dropIncoming pred)))

/-! ## Blocks -/

/-- Takes a block out of the arena, with the edges at it. -/
def detach (f : Func) (b : BlockId) : Func :=
  let g := f.disconnect b
  { g with arena := g.arena.erase b }

/-- Removes a block. If it was the entry, the first block of the layout that is left becomes the
entry. Gives the block without its edges. -/
def removeBlock (f : Func) (b : BlockId) : Option Block × Func :=
  if f.hasBlock b then
    let layout := f.layout.filter (· ≠ b)
    let entry := if f.entry = some b then layout.head? else f.entry
    ((f.disconnect b).block? b, { f.detach b with layout, entry })
  else (none, f)

/-- Why a detached block cannot be put in place of others: one of them is not there, the new
block has the name or the label of one that stays. -/
def refuseReplacement? (f : Func) (removed : List BlockId) (blk : Block) : Option Error :=
  match removed.find? fun b => !f.hasBlock b with
  | some b => some (.unknownBlock b)
  | none =>
    if f.hasBlock blk.id && !(blk.id ∈ removed) then some (.blockExists blk.id)
    else if f.arena.values.any fun b => b.label = blk.label && !(b.id ∈ removed) then
      some (.duplicateLabel blk.label)
    else none

/-- Puts a detached block into the arena and turns the edges it records into edges of the
function. -/
def install (f : Func) (blk : Block) : Func :=
  let bare := { f with arena := f.arena.insert blk.id { blk with preds := ∅, succs := ∅ } }
  (blk.preds.toList.foldl (fun g a => g.addEdge a blk.id) bare).addEdges blk.id blk.succs.toList

/-- Puts a detached block in place of others. It takes the place of the first of them in the
layout, and becomes the entry if one of them was or there was none. -/
def substitute (f : Func) (removed : List BlockId) (blk : Block) : Func :=
  let kept := removed.foldl detach f
  let stays (b : BlockId) : Bool := b ∉ removed
  let layout :=
    f.layout.takeWhile stays ++ blk.id :: (f.layout.dropWhile stays).filter stays
  let entry := match f.entry with
    | some e => if e ∈ removed then some blk.id else some e
    | none => some blk.id
  { kept.install blk with layout, entry }

/-- Replaces blocks by a detached block. -/
def replaceBlocks (f : Func) (removed : List BlockId) (blk : Block) : Outcome Func Unit :=
  match f.refuseReplacement? removed blk with
  | some e => .fail e f
  | none => .ok () (f.substitute removed blk)

end Func

end Midend
