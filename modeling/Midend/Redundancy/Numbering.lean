import Midend.Flow.Dominance

/-!
# Value numbering

A scan gives every value a number, and equal numbers to values that compute the same thing:
constants, operators and conversions with the same type, the same literal or operator and operands
of the same numbers. Every other value has a number of its own.

The scan reports a value as redundant if an earlier one computes the same thing and is available
where the value is.
-/

namespace Midend

/-- What a value computes, with numbers for its operands. -/
inductive Expr where
  | const (ty : Ty) (c : Literal)
  | binary (ty : Ty) (op : BinaryOp) (lhs rhs : Nat)
  | unary (ty : Ty) (op : UnaryOp) (operand : Nat)
  | convert (ty : Ty) (operand : Nat)
deriving DecidableEq, Repr

/-- A value that computes the same thing as an earlier one. -/
structure Redundancy where
  /-- The value that can be spared. -/
  value : ValueId
  /-- The value that can stand in its place. -/
  earlier : ValueId
deriving DecidableEq, Repr

/-- An expression that a value was found to compute. -/
structure Sighting where
  /-- What is computed. -/
  expr : Expr
  /-- Where. -/
  block : BlockId
  /-- By which value. -/
  value : ValueId
deriving DecidableEq, Repr

/-- The state of a scan. -/
structure Numbering where
  /-- The numbers given so far. -/
  numbers : SortedMap ValueId Nat := ∅
  /-- The expressions found so far, the first one first. -/
  sightings : List Sighting := []
  /-- The next free number. -/
  next : Nat := 0

namespace Numbering

/-- The number of a value; a new one if it has none yet. -/
def number (s : Numbering) (v : ValueId) : Nat × Numbering :=
  match s.numbers.get? v with
  | some n => (n, s)
  | none => (s.next, { s with numbers := s.numbers.insert v s.next, next := s.next + 1 })

/-- What an instruction computes, if it is of a kind that can be redundant. -/
def expr? (s : Numbering) (i : Inst) : Option Expr × Numbering :=
  match i.op with
  | .const c => (some (.const i.ty c), s)
  | .binary op a b =>
    let (m, s) := s.number a
    let (n, s) := s.number b
    (some (.binary i.ty op m n), s)
  | .unary op a =>
    let (n, s) := s.number a
    (some (.unary i.ty op n), s)
  | .convert a =>
    let (n, s) := s.number a
    (some (.convert i.ty n), s)
  | _ => (none, s)

/-- Numbers an instruction of a block. Gives an earlier value that computes the same thing in
a block from which it is available. -/
def visit (s : Numbering) (available : BlockId → Bool) (b : BlockId) (i : Inst) :
    Option ValueId × Numbering :=
  match s.expr? i with
  | (none, s) => (none, (s.number i.id).2)
  | (some e, s) =>
    match s.sightings.find? fun w => w.expr = e ∧ available w.block with
    | some w =>
      let (n, s) := s.number w.value
      (some w.value, { s with numbers := s.numbers.insert i.id n })
    | none =>
      let s := (s.number i.id).2
      (none, { s with sightings := s.sightings ++ [⟨e, b, i.id⟩] })

/-- Numbers the instructions of a list, each with its block, and reports the redundant ones. -/
def scan (available : BlockId → BlockId → Bool) :
    List (BlockId × Inst) → Numbering → List Redundancy
  | [], _ => []
  | (b, i) :: rest, s =>
    match s.visit (available · b) b i with
    | (none, s) => scan available rest s
    | (some v, s) => ⟨i.id, v⟩ :: scan available rest s

end Numbering

/-- The instructions of a block, each with the block. -/
def Block.located (b : Block) : List (BlockId × Inst) := b.insts.map (b.id, ·)

/-- The redundant values within a block. -/
def Block.redundancies (b : Block) : List Redundancy :=
  Numbering.scan (fun _ _ => true) b.located {}

namespace Func

/-- The instructions of the listed blocks, each with its block. -/
def located (f : Func) (order : List BlockId) : List (BlockId × Inst) :=
  (order.filterMap f.block?).flatMap Block.located

/-- The blocks in the order in which the whole function is scanned: those that can be reached in
reverse postorder, then the others in the order of the layout. -/
def scanOrder (f : Func) : List BlockId :=
  let reached := f.reversePostorder
  reached ++ f.layout.filter (· ∉ reached)

/-- The redundant values of a function, wherever the earlier value is. -/
def redundancies (f : Func) : List Redundancy :=
  Numbering.scan (fun _ _ => true) (f.located f.scanOrder) {}

/-- The redundant values of a function where the block of the earlier value dominates that of the
later one. -/
def dominatedRedundancies (f : Func) (dom : Dominance) : List Redundancy :=
  Numbering.scan dom.dominates (f.located dom.nodes) {}

end Func

end Midend
