import Midend.Error
import Midend.Func.Edges

/-!
# Construction

Requests that build a function: parameters, blocks, instructions and the pairs of a phi. Each
checks its arguments first and leaves the function as it was if they are refused.

A value is known at compile time if it is a constant, or if it is computed from operands that all
are (`Func.comptimeOf`).
-/

namespace Midend

/-- The name that an operation needs and that is empty. -/
def Op.missingName? : Op → Option NameRole
  | .call callee _ => if callee = "" then some .callee else none
  | .slot name => if name = "" then some .slot else none
  | _ => none

namespace Func

/-- Adds a parameter. -/
def addParam (f : Func) (name : String) (ty : Ty) : Outcome Func Unit :=
  if name = "" then .fail (.emptyName .parameter) f
  else .ok () { f with params := f.params ++ [⟨name, ty⟩] }

/-! ## Blocks -/

/-- Why a label cannot be given to a new block. -/
def refuseLabel? (f : Func) (label : String) : Option Error :=
  if label = "" then some (.emptyName .label)
  else if (f.blockByLabel? label).isSome then some (.duplicateLabel label)
  else none

/-- Adds an empty block at the end of the layout. The first block becomes the entry. -/
def addBlock (f : Func) (label : String) : Func :=
  let id := f.ids.takeBlock.1
  { f with
    arena := f.arena.insert id { id, label }
    layout := f.layout ++ [id]
    entry := f.entry.or (some id)
    ids := f.ids.takeBlock.2 }

/-- Creates an empty block with a new label. -/
def createBlock (f : Func) (label : String) : Outcome Func BlockId :=
  match f.refuseLabel? label with
  | some e => .fail e f
  | none => .ok f.ids.takeBlock.1 (f.addBlock label)

/-! ## Instructions -/

/-- Why an operation cannot stand in the function: the first operand that is no value of it, else
the first block mentioned that is no block of it, else an empty name. -/
def refuseOp? (f : Func) (op : Op) : Option Error :=
  match op.operands.find? fun v => !f.hasValue v with
  | some v => some (.unknownValue v)
  | none =>
    match op.blockRefs.find? fun b => !f.hasBlock b with
    | some b => some (.unknownBlock b)
    | none =>
      op.missingName?.map .emptyName

/-- Whether a new value with the given operation is known at compile time. -/
def comptimeOf (f : Func) : Op → Bool
  | .const _ => true
  | op@(.binary ..) | op@(.unary ..) | op@(.call ..) | op@(.convert _) | op@(.phi _) =>
    op.operands.all f.isComptime
  | _ => false

/-- Why an operation cannot be appended to a block. Only a phi can be added to a finished
block. -/
def refuseAppend? (f : Func) (b : BlockId) (op : Op) : Option Error :=
  match f.block? b with
  | none => some (.unknownBlock b)
  | some blk =>
    if blk.hasTerminator && !op.isPhi then some (.terminatorPresent b) else f.refuseOp? op

/-- Puts a new instruction into a block and records the edges to its targets. -/
def addInst (f : Func) (b : BlockId) (ty : Ty) (op : Op) : Func :=
  let inst : Inst := ⟨f.ids.takeValue.1, ty, f.comptimeOf op, op⟩
  { f.modifyBlock b (·.place inst) with ids := f.ids.takeValue.2 }.addEdges b op.targets

/-- Appends an instruction to a block: a phi after the phis at its head, any other at its end. -/
def append (f : Func) (b : BlockId) (ty : Ty) (op : Op) : Outcome Func ValueId :=
  match f.refuseAppend? b op with
  | some e => .fail e f
  | none => .ok f.ids.takeValue.1 (f.addInst b ty op)

/-! ## Pairs of a phi -/

/-- The block and the phi that a pair is to be added to, or why it cannot be. -/
def phiAt (f : Func) (phi : ValueId) : Except Error BlockId :=
  match f.home? phi with
  | none => .error (.unknownValue phi)
  | some b =>
    match f.block? b with
    | none => .error (.unknownBlock b)
    | some blk =>
      match blk.value? phi with
      | none => .error (.unknownValue phi)
      | some i => if i.isPhi then .ok b else .error (.notAPhi phi)

/-- Completes a phi with one more pair. -/
def addIncoming (f : Func) (phi : ValueId) (pred : BlockId) (value : ValueId) :
    Outcome Func Unit :=
  if !f.hasBlock pred then .fail (.unknownBlock pred) f
  else if !f.hasValue value then .fail (.unknownValue value) f
  else
    match f.phiAt phi with
    | .error e => .fail e f
    | .ok b =>
      .ok () (f.modifyBlock b (·.update phi (·.addIncoming ⟨pred, value⟩ (f.isComptime value))))

end Func

end Midend
