import Midend.Program
import Midend.Validity.Fault

/-!
# Examination

`Func.examine` reports everything that is wrong with the structure of a function, and
`Program.examine` goes through the functions of a program. Blocks are examined in the order of the
layout: labels and names, the order of instructions, edges, and then every instruction.
-/

namespace Midend

/-- The faults in the order of instructions: a terminator before the end, a phi after an
instruction that is none. -/
def orderFaults (afterOther : Bool) : List Inst → List (ValueId × Fault)
  | [] => []
  | i :: rest =>
    (if i.isTerminator && !rest.isEmpty then [(i.id, .terminatorNotLast)] else [])
      ++ (if i.isPhi && afterOther then [(i.id, .phiNotAtHead)] else [])
      ++ orderFaults (afterOther || !i.isPhi) rest

/-- The instructions whose name has been seen before. -/
def nameFaults (seen : List ValueId) : List Inst → List (ValueId × Fault)
  | [] => []
  | i :: rest =>
    (if i.id ∈ seen then [(i.id, .duplicateValueId)] else []) ++ nameFaults (i.id :: seen) rest

/-- A label that is empty or has been seen before. -/
def labelFaults (seen : List String) (b : Block) : List Fault :=
  if b.label = "" then [.emptyLabel]
  else if b.label ∈ seen then [.duplicateLabel b.label]
  else []

namespace Func

/-- The entry is missing or has edges to it. -/
def entryFaults (f : Func) : List Violation :=
  match f.entryBlock? with
  | none => [⟨f.name, none, none, .missingEntry⟩]
  | some e => if e.preds.isEmpty then [] else [⟨f.name, some e.id, none, .entryHasPredecessors⟩]

/-- Recorded edges that do not come from the terminator or are not recorded on the other side. -/
def edgeFaults (f : Func) (b : Block) : List Fault :=
  let expected := SortedSet.ofList b.targets
  (if expected = b.succs then [] else [.successorMismatch expected.toList b.succs.toList])
    ++ (b.succs.toList.filter fun s => !f.hasPred s b.id).map (.asymmetricEdge b.id ·)
    ++ (b.preds.toList.filter fun p => !f.hasSucc p b.id).map (.asymmetricEdge · b.id)

/-- The faults of the pairs of a phi, one pair after the other. -/
def pairFaults (f : Func) (b : Block) (ty : Ty) (covered : List BlockId) :
    List Incoming → List Fault
  | [] => []
  | p :: rest =>
    (if p.block ∈ b.preds then [] else [.incomingNotPredecessor p.block])
      ++ (if p.block ∈ covered then [.duplicateIncoming p.block] else [])
      ++ (match f.tyOf? p.value with
        | some found => if found = ty then [] else [.incomingTypeMismatch p.value ty found]
        | none => [])
      ++ pairFaults f b ty (p.block :: covered) rest

/-- The faults of a phi. -/
def phiFaults (f : Func) (b : Block) (ty : Ty) (incoming : List Incoming) : List Fault :=
  (if incoming.isEmpty then [.emptyPhi] else [])
    ++ (if incoming.length = b.preds.size then []
      else [.phiArity incoming.length b.preds.size])
    ++ pairFaults f b ty [] incoming
    ++ (b.preds.toList.filter (· ∉ incoming.map (·.block))).map .missingIncoming

/-- Whether the compile-time flag of an instruction agrees with its operands. A phi may be known
less than its operands are, since dropping a pair does not raise its flag. -/
def comptimeAgrees (f : Func) (i : Inst) : Bool :=
  let operandsKnown := i.op.operands.all f.isComptime
  match i.op with
  | .const _ => i.comptime
  | .binary .. | .unary .. | .call .. | .convert _ => i.comptime == operandsKnown
  | .phi _ => !i.comptime || operandsKnown
  | _ => !i.comptime

/-- The faults of an instruction of a block. -/
def instFaults (f : Func) (b : Block) (i : Inst) : List Fault :=
  (i.op.operands.filter fun v => !f.hasValue v).map .unknownOperand
    ++ (i.op.blockRefs.filter fun a => !f.hasBlock a).map .unknownBlockRef
    ++ (match i.op with
      | .call callee _ => if callee = "" then [.emptyCallee] else []
      | .slot name => if name = "" then [.emptySlotName] else []
      | .phi incoming => f.phiFaults b i.ty incoming
      | _ => [])
    ++ (if f.comptimeAgrees i then [] else [.comptimeMismatch])

/-- The violations of a block, given the labels and value names of the blocks before it. -/
def blockViolations (f : Func) (labels : List String) (names : List ValueId) (b : Block) :
    List Violation :=
  let atBlock (e : Fault) : Violation := ⟨f.name, some b.id, none, e⟩
  let atValue (e : ValueId × Fault) : Violation := ⟨f.name, some b.id, some e.1, e.2⟩
  (labelFaults labels b).map atBlock
    ++ (nameFaults names b.insts).map atValue
    ++ (orderFaults false b.insts).map atValue
    ++ (f.edgeFaults b).map atBlock
    ++ b.insts.flatMap fun i => (f.instFaults b i).map fun e => atValue (i.id, e)

/-- The violations of a list of blocks, given the labels and value names of the blocks before
them. -/
def blocksViolations (f : Func) (labels : List String) (names : List ValueId) :
    List Block → List Violation
  | [] => []
  | b :: rest =>
    f.blockViolations labels names b
      ++ blocksViolations f (b.label :: labels) (b.insts.map (·.id) ++ names) rest

/-- Reports everything that is wrong with a function. -/
def examine (f : Func) : Report :=
  ⟨(if f.name = "" then [⟨f.name, none, none, .emptyFunctionName⟩] else [])
    ++ if f.layout.isEmpty then [] else f.entryFaults ++ f.blocksViolations [] [] f.blocks⟩

/-- Whether nothing is wrong with a function. -/
def isValid (f : Func) : Bool := f.examine.isValid

end Func

/-- The violations of a list of functions, given the names of the functions before them. -/
def funcsViolations (names : List String) : List Func → List Violation
  | [] => []
  | f :: rest =>
    (if f.name ∈ names then [⟨f.name, none, none, .duplicateFunction f.name⟩] else [])
      ++ f.examine.violations ++ funcsViolations (f.name :: names) rest

/-- Reports everything that is wrong with the functions of a program and their names. -/
def Program.examine (p : Program) : Report := ⟨funcsViolations [] p.funcs⟩

end Midend
