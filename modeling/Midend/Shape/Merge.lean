import Midend.Func.Revision

/-!
# Merging blocks

A block merges with its only successor if it is the only predecessor there. The merged block keeps
the name and label of the first, and holds the instructions of the first without its terminator
and then those of the second.
-/

namespace Midend

/-- Whether no instruction of a list reads a value that is defined at its own place or later in
the list, given the values defined before. -/
def usesFollow (defined : List ValueId) : List Inst → Bool
  | [] => true
  | i :: rest =>
    i.op.operands.all (fun v => v ∈ defined ∨ v ∉ (i :: rest).map (·.id))
      && usesFollow (i.id :: defined) rest

namespace Func

/-- Whether the only edge from the first block leads to the second and is the only edge there. -/
def isMergeable (f : Func) (a b : BlockId) : Bool :=
  match f.block? a, f.block? b with
  | some blkA, some blkB =>
    a ≠ b ∧ f.entry ≠ some b ∧ blkA.succs = .singleton b ∧ blkB.preds = .singleton a
  | _, _ => false

/-- The variables that a list of instructions stores to. -/
def storedVariables (f : Func) (l : List Inst) : List String :=
  l.filterMap fun i =>
    match i.op with
    | .store ptr _ => f.variableOf? ptr
    | _ => none

/-- Whether the instructions of two blocks can stand in one: the second has no phi, neither
mentions the other, they store to different variables, and every value is defined before it is
read. -/
def isSafeToMerge (f : Func) (a b : BlockId) : Bool :=
  match f.block? a, f.block? b with
  | some blkA, some blkB =>
    let storedInB := f.storedVariables blkB.insts
    !blkB.hasPhi
      && !blkA.body.any (·.isTerminator)
      && !blkA.body.any (b ∈ ·.op.blockRefs)
      && !blkB.mentions a
      && !(f.storedVariables blkA.body).any (· ∈ storedInB)
      && usesFollow [] (blkA.body ++ blkB.insts)
  | _, _ => false

/-- The block that two blocks merge to, if they do. -/
def merged? (f : Func) (a b : BlockId) : Option Block :=
  if f.isMergeable a b && f.isSafeToMerge a b then
    match f.block? a, f.block? b with
    | some blkA, some blkB =>
      some ⟨a, blkA.label, blkA.body ++ blkB.insts, blkA.preds, blkB.succs⟩
    | _, _ => none
  else none

/-- Puts a merged block in place of two blocks; phis that expected control from the second expect
it from the merged block. Gives whether the block could be put there. -/
def applyMerge (f : Func) (a b : BlockId) (blk : Block) : Bool × Func :=
  match f.replaceBlocks [a, b] blk with
  | ⟨.error _, g⟩ => (false, g)
  | ⟨.ok (), g⟩ =>
    (true, (f.succs b).toList.foldl (fun g s => (g.retargetIncoming s b blk.id).2) g)

/-- Merges two blocks if they can be. Gives whether they were. -/
def mergeBlocks (f : Func) (a b : BlockId) : Bool × Func :=
  match f.merged? a b with
  | none => (false, f)
  | some blk => f.applyMerge a b blk

/-- The first block of the layout that merges with its successor, and the successor. -/
def mergeCandidate? (f : Func) : Option (BlockId × BlockId) :=
  f.layout.findSome? fun a =>
    match (f.succs a).toList with
    | [b] => if (f.merged? a b).isSome then some (a, b) else none
    | _ => none

/-- Merges blocks until none can be or the given number is reached. Gives the number of merges. -/
def mergeUpTo : Nat → Func → Nat × Func
  | 0, f => (0, f)
  | fuel + 1, f =>
    match f.mergeCandidate? with
    | none => (0, f)
    | some (a, b) =>
      match f.mergeBlocks a b with
      | (false, g) => (0, g)
      | (true, g) =>
        let (n, h) := mergeUpTo fuel g
        (n + 1, h)

/-- Merges blocks until none can be. Each merge leaves one block less. -/
def mergeAll (f : Func) : Nat × Func := mergeUpTo f.arena.size f

end Func

end Midend
