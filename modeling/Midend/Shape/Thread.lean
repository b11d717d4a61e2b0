import Midend.Flow.Order
import Midend.Func.Revision

/-!
# Threading jumps

A block that holds nothing but a jump is a trampoline. A block that jumps to a trampoline can jump
to where the trampoline leads, and a trampoline that nothing leads to any more is removed.
-/

namespace Midend

namespace Func

/-- Where a trampoline leads. -/
def trampolineTarget? (f : Func) (b : BlockId) : Option BlockId :=
  (f.block? b).bind fun blk =>
    match blk.insts with
    | [i] =>
      match i.op with
      | .jump t => some t
      | _ => none
    | _ => none

/-- Whether the block holds nothing but a jump. -/
def isTrampoline (f : Func) (b : BlockId) : Bool := (f.trampolineTarget? b).isSome

/-- Whether following trampolines from a block leads to another within a number of steps. -/
def trampolinesLead (f : Func) (goal : BlockId) : Nat → BlockId → Bool
  | 0, _ => false
  | fuel + 1, b =>
    match f.trampolineTarget? b with
    | none => false
    | some t => t = goal || f.trampolinesLead goal fuel t

/-- Whether following trampolines from a block leads back to it. -/
def inTrampolineCycle (f : Func) (b : BlockId) : Bool := f.trampolinesLead b f.layout.length b

/-- Whether the block ends with a jump. -/
def endsWithJump (f : Func) (b : BlockId) : Bool :=
  ((f.block? b).bind (·.terminator?)).any fun i => i.op matches .jump _

/-- Whether the first block may jump to the third in place of the trampoline between them. The
third must have no phi, since it would see control come from another block. -/
def isThreadSafe (f : Func) (p t d : BlockId) : Bool :=
  if p = t ∨ t = d ∨ ¬ f.hasSucc p t then false
  else
    match f.trampolineTarget? t with
    | none => false
    | some target =>
      f.endsWithJump p && (f.block? d).any (!·.hasPhi) && !f.inTrampolineCycle t
        && (target = d || f.canReach target d)

/-- Makes a block jump to where a trampoline leads, and removes the trampoline if nothing leads to
it any more. Gives whether that was done. -/
def threadJump (f : Func) (p t : BlockId) : Bool × Func :=
  match f.trampolineTarget? t with
  | none => (false, f)
  | some d =>
    if !f.isThreadSafe p t d then (false, f)
    else
      match f.replaceTerminator p .void (.jump d) with
      | ⟨.error _, g⟩ => (false, g)
      | ⟨.ok _, g⟩ =>
        (true, if (g.preds t).isEmpty && g.entry ≠ some t then (g.removeBlock t).2 else g)

/-- Threads the jumps to a trampoline. Gives their number. -/
def threadAt (f : Func) (t : BlockId) : Nat × Func :=
  if f.isTrampoline t then
    (f.preds t).toList.foldl
      (fun (n, g) p =>
        match g.threadJump p t with
        | (true, h) => (n + 1, h)
        | (false, h) => (n, h))
      (0, f)
  else (0, f)

/-- Goes through the blocks of the layout once. Gives the number of jumps threaded. -/
def threadRound (f : Func) : Nat × Func :=
  f.layout.foldl
    (fun (n, g) t =>
      let (m, h) := g.threadAt t
      (n + m, h))
    (0, f)

/-- Runs rounds until one changes nothing, at most as many as the limit says. Gives the number of
jumps threaded. -/
def threadJumps : (limit : Nat) → Func → Nat × Func
  | 0, f => (0, f)
  | limit + 1, f =>
    match f.threadRound with
    | (0, g) => (0, g)
    | (n, g) =>
      let (m, h) := threadJumps limit g
      (n + m, h)

end Func

end Midend
