import Midend.Func.Construction

/-!
# Builders

A builder constructs one function at a time by appending to a current block. The type of a new
value follows from its operands where the operation fixes it and is given otherwise.
-/

namespace Midend

/-- The function under construction and the block that instructions are appended to. -/
structure Builder where
  /-- The function under construction. -/
  func : Option Func := none
  /-- The block that instructions are appended to. -/
  block : Option BlockId := none
deriving Inhabited

namespace Builder

variable {α : Type}

/-- Starts on a function; no block is current. -/
def start (f : Func) : Builder := { func := some f }

/-- Makes a request to the function under construction. -/
def request (bld : Builder) (r : Func → Outcome Func α) : Outcome Builder α :=
  match bld.func with
  | none => .fail .noCurrentFunction bld
  | some f => (r f).mapState fun g => { bld with func := some g }

/-- Adds a parameter. -/
def addParam (bld : Builder) (name : String) (ty : Ty) : Outcome Builder Unit :=
  bld.request (·.addParam name ty)

/-- Creates a block; the current block stays. -/
def createBlock (bld : Builder) (label : String) : Outcome Builder BlockId :=
  bld.request (·.createBlock label)

/-- Makes a block current. -/
def position (bld : Builder) (b : BlockId) : Outcome Builder Unit :=
  match bld.func with
  | none => .fail .noCurrentFunction bld
  | some f =>
    if f.hasBlock b then .ok () { bld with block := some b } else .fail (.unknownBlock b) bld

/-- Whether the current block is finished. -/
def blockFinished (bld : Builder) : Bool :=
  (bld.func.bind fun f => bld.block.bind f.block?).any (·.hasTerminator)

/-- The type of a value of the function under construction. -/
def tyOf (bld : Builder) (v : ValueId) : Except Error Ty :=
  match bld.func with
  | none => .error .noCurrentFunction
  | some f =>
    match f.tyOf? v with
    | none => .error (.unknownValue v)
    | some ty => .ok ty

/-- Appends an instruction to the current block. -/
def emit (bld : Builder) (ty : Ty) (op : Op) : Outcome Builder ValueId :=
  match bld.block with
  | none => .fail .noCurrentBlock bld
  | some b => bld.request (·.append b ty op)

/-- Appends an instruction whose type depends on the types of other values. -/
def emitTyped (bld : Builder) (ty : Except Error Ty) (op : Op) : Outcome Builder ValueId :=
  match ty with
  | .error e => .fail e bld
  | .ok ty => bld.emit ty op

/-- Appends a constant. -/
def const (bld : Builder) (c : Literal) (ty : Ty) : Outcome Builder ValueId :=
  bld.emit ty (.const c)

/-- Appends an integer. -/
def int (bld : Builder) (n : Int64) (ty : Ty) : Outcome Builder ValueId := bld.const (.int n) ty

/-- Appends a truth value. -/
def bool (bld : Builder) (b : Bool) : Outcome Builder ValueId := bld.const (.bool b) .bool

/-- Appends the storage of a variable of the given type. -/
def slot (bld : Builder) (name : String) (ty : Ty) : Outcome Builder ValueId :=
  bld.emit (.ptr ty) (.slot name)

/-- Appends a read through a pointer. -/
def load (bld : Builder) (ptr : ValueId) : Outcome Builder ValueId :=
  let ty := do
    match (← bld.tyOf ptr).pointee with
    | some ty => pure ty
    | none => throw (.notAPointer ptr)
  bld.emitTyped ty (.load ptr)

/-- Appends a write through a pointer. -/
def store (bld : Builder) (ptr value : ValueId) : Outcome Builder ValueId :=
  let ty := do if (← bld.tyOf ptr).isPointer then pure .void else throw (.notAPointer ptr)
  bld.emitTyped ty (.store ptr value)

/-- Appends storage on the stack. -/
def alloca (bld : Builder) (ty : Ty) : Outcome Builder ValueId := bld.emit (.ptr ty) (.alloca ty)

/-- Appends an operation on two values: of the type of the first one, or a truth value. -/
def binary (bld : Builder) (op : BinaryOp) (lhs rhs : ValueId) : Outcome Builder ValueId :=
  let ty := do
    let ty ← bld.tyOf lhs
    discard (bld.tyOf rhs)
    pure (if op.isComparison then .bool else ty)
  bld.emitTyped ty (.binary op lhs rhs)

/-- Appends an operation on one value: of its type, or a truth value. -/
def unary (bld : Builder) (op : UnaryOp) (operand : ValueId) : Outcome Builder ValueId :=
  let ty := match op with
    | .not => .ok .bool
    | .neg | .bitNot => bld.tyOf operand
  bld.emitTyped ty (.unary op operand)

/-- Appends a call. -/
def call (bld : Builder) (callee : String) (args : List ValueId) (ty : Ty) :
    Outcome Builder ValueId :=
  bld.emit ty (.call callee args)

/-- Appends a conversion. -/
def convert (bld : Builder) (operand : ValueId) (ty : Ty) : Outcome Builder ValueId :=
  bld.emit ty (.convert operand)

/-- Ends the current block with a choice of two blocks. -/
def branch (bld : Builder) (condition : ValueId) (onTrue onFalse : BlockId) :
    Outcome Builder ValueId :=
  bld.emit .void (.branch condition onTrue onFalse)

/-- Ends the current block with a jump. -/
def jump (bld : Builder) (target : BlockId) : Outcome Builder ValueId :=
  bld.emit .void (.jump target)

/-- Ends the current block by leaving the function. -/
def ret (bld : Builder) (value : Option ValueId) : Outcome Builder ValueId :=
  bld.emit .void (.ret value)

/-- Puts a phi at the head of a block. The lists pair up in order. -/
def phi (bld : Builder) (b : BlockId) (ty : Ty) (blocks : List BlockId) (values : List ValueId) :
    Outcome Builder ValueId :=
  if blocks.length ≠ values.length then .fail (.phiArity blocks.length values.length) bld
  else bld.request (·.append b ty (.phi (blocks.zipWith Incoming.mk values)))

/-- Completes a phi with one more pair. -/
def addIncoming (bld : Builder) (phi : ValueId) (b : BlockId) (value : ValueId) :
    Outcome Builder Unit :=
  bld.request (·.addIncoming phi b value)

/-- Gives the function under construction away. -/
def finish (bld : Builder) : Option Func × Builder := (bld.func, {})

end Builder

end Midend
