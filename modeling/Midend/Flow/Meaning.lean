import Midend.Flow.Order

/-!
# Values along a path

The values that instructions read and yield when control takes a given way through a function.
Constants, operators and conversions are functions of their operands; what any other instruction
yields depends on the world, and may differ at each place of the path. The phis of a block all take
their values when control enters it, before any of them has its new value.

`Func.readings` lists what every instruction along a path reads and yields. It is stated for every
reading of the operators and every behaviour of the world.
-/

namespace Midend

/-- What constants, operators and conversions compute. -/
structure Interpretation (α : Type) where
  const : Ty → Literal → α
  binary : Ty → BinaryOp → α → α → α
  unary : Ty → UnaryOp → α → α
  convert : Ty → α → α

/-- What an instruction reads and yields at one place of a path. -/
structure Reading (α : Type) where
  /-- The instruction. -/
  value : ValueId
  /-- What it reads. -/
  reads : List α
  /-- What it yields. -/
  yields : α

/-- What each value was when it was last computed. -/
abbrev Valuation (α : Type) := ValueId → α

/-- A valuation with one value changed. -/
def Valuation.set {α : Type} (s : Valuation α) (v : ValueId) (a : α) : Valuation α :=
  fun x => if x = v then a else s x

namespace Inst

variable {α : Type}

/-- What an instruction yields. The world decides where the operation does not. -/
def yields (m : Interpretation α) (world : α) (s : Valuation α) (i : Inst) : α :=
  match i.op with
  | .const c => m.const i.ty c
  | .binary op a b => m.binary i.ty op (s a) (s b)
  | .unary op a => m.unary i.ty op (s a)
  | .convert a => m.convert i.ty (s a)
  | _ => world

/-- The value that a phi takes when control comes from a block. -/
def taken? (i : Inst) (came : Option BlockId) : Option ValueId :=
  match i.op with
  | .phi incoming => came.bind fun b => (incoming.find? (·.block = b)).map (·.value)
  | _ => none

end Inst

section Readings

variable {α : Type} (m : Interpretation α) (world : ValueId → α)

/-- The readings of instructions that are no phis, one after the other. -/
def bodyReadings : List Inst → Valuation α → List (Reading α) × Valuation α
  | [], s => ([], s)
  | i :: rest, s =>
    let a := i.yields m (world i.id) s
    let (l, s') := bodyReadings rest (s.set i.id a)
    (⟨i.id, i.op.operands.map s, a⟩ :: l, s')

/-- The readings of phis, all from the valuation with which control enters. -/
def phiReadings (came : Option BlockId) (entered : Valuation α) :
    List Inst → Valuation α → List (Reading α) × Valuation α
  | [], s => ([], s)
  | i :: rest, s =>
    let read := (i.taken? came).map entered
    let a := read.getD (world i.id)
    let (l, s') := phiReadings came entered rest (s.set i.id a)
    (⟨i.id, read.toList, a⟩ :: l, s')

/-- The readings of a block. -/
def Block.readings (b : Block) (came : Option BlockId) (s : Valuation α) :
    List (Reading α) × Valuation α :=
  let (l, s') := phiReadings world came s b.phis s
  let (l', s'') := bodyReadings m world (b.insts.filter (!·.isPhi)) s'
  (l ++ l', s'')

end Readings

/-- The readings along a path, with the world as it is at each place of the path. -/
def Func.readings {α : Type} (f : Func) (m : Interpretation α) :
    List BlockId → (Nat → ValueId → α) → Option BlockId → Valuation α → List (Reading α)
  | [], _, _, _ => []
  | b :: path, world, came, s =>
    match f.block? b with
    | none => f.readings m path (fun n => world (n + 1)) (some b) s
    | some blk =>
      let (l, s') := blk.readings m (world 0) came s
      l ++ f.readings m path (fun n => world (n + 1)) (some b) s'

end Midend
