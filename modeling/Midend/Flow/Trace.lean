import Midend.Flow.Order

/-!
# Traces

What can be seen of an execution that takes a given way through a function: the instructions as
they come, the value that each phi takes, and the side that each branch takes. Jumps and branches
with one target cannot be seen, so moving code between blocks or leading an edge through a block
that only jumps changes no trace.

`Func.Observable` says that an execution can begin with given observations. Two functions with the
same observable beginnings cannot be told apart by running them.
-/

namespace Midend

/-- Something seen of an execution. -/
inductive Observation where
  /-- An instruction that is neither a phi nor leads to another block. -/
  | done (i : Inst)
  /-- A phi and the value that it takes. -/
  | took (phi : ValueId) (value : Option ValueId)
  /-- The condition of a branch between two blocks, and whether the first was taken. -/
  | chose (condition : ValueId) (first : Bool)
deriving DecidableEq

/-- What is seen of an instruction when control came from one block and goes to another. -/
def Inst.observed (i : Inst) (came next : Option BlockId) : List Observation :=
  match i.op with
  | .phi incoming =>
    [.took i.id (came.bind fun b => (incoming.find? (·.block = b)).map (·.value))]
  | .branch c t e =>
    match next with
    | some b => if t = e then [] else [.chose c (b = t)]
    | none => []
  | .jump _ => []
  | _ => [.done i]

namespace Func

/-- What is seen of a block when control came from one block and goes to another. -/
def observedAt (f : Func) (b : BlockId) (came next : Option BlockId) : List Observation :=
  (f.block? b).toList.flatMap fun blk => blk.insts.flatMap (·.observed came next)

/-- What is seen along a path when control came from the given block. -/
def trace (f : Func) (came : Option BlockId) : List BlockId → List Observation
  | [] => []
  | b :: path => f.observedAt b came path.head? ++ f.trace (some b) path

/-- Some execution begins with the given observations. -/
def Observable (f : Func) (seen : List Observation) : Prop :=
  ∃ e path b, f.entry = some e ∧ f.flow.Walk e path b ∧ seen <+: f.trace none path

end Func

end Midend
