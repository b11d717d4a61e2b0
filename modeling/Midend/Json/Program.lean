import Midend.Json.Inst
import Midend.Program

/-!
# Functions and programs as data

A set is a list; reading one puts the elements in order and drops repetitions. The arena is a
record whose fields are the decimal names of the blocks. Nothing is cross-checked: a block may be
kept under another name than its own, the layout may mention blocks that are not there, and an
edge may be recorded on one side only.
-/

namespace Midend

open Json

/-- A set of blocks as data. -/
def BlockSet.toJson (s : BlockSet) : Json := list BlockId.toJson s.toList

/-- Reads a set of blocks. -/
def BlockSet.ofJson? (j : Json) : Option BlockSet :=
  (list? BlockId.ofJson? j).map SortedSet.ofList

/-- A block as data. -/
def Block.toJson (form : FloatForm) (b : Block) : Json :=
  .obj [("id", b.id.toJson), ("label", .str b.label),
    ("instructions", list (Inst.toJson form) b.insts), ("predecessors", BlockSet.toJson b.preds),
    ("successors", BlockSet.toJson b.succs)]

/-- Reads a block. -/
def Block.ofJson? (form : FloatForm) (j : Json) : Option Block := do
  return {
    id := ← j.get? "id" BlockId.ofJson?
    label := ← j.get? "label" str?
    insts := ← j.get? "instructions" (list? (Inst.ofJson? form))
    preds := ← j.get? "predecessors" BlockSet.ofJson?
    succs := ← j.get? "successors" BlockSet.ofJson? }

/-- A parameter as data. -/
def Param.toJson (p : Param) : Json := .obj [("name", .str p.name), ("ty", p.ty.toJson)]

/-- Reads a parameter. -/
def Param.ofJson? (j : Json) : Option Param := do
  return ⟨← j.get? "name" str?, ← j.get? "ty" Ty.ofJson?⟩

/-- The next free names as data. -/
def IdSupply.toJson (s : IdSupply) : Json :=
  .obj [("next_block", .nat s.nextBlock), ("next_value", .nat s.nextValue)]

/-- Reads the next free names. -/
def IdSupply.ofJson? (j : Json) : Option IdSupply := do
  return ⟨← j.get? "next_block" word32?, ← j.get? "next_value" word32?⟩

namespace Func

/-- The value of a decimal digit. -/
def digit? (c : Char) : Option Nat :=
  if '0' ≤ c ∧ c ≤ '9' then some (c.toNat - '0'.toNat) else none

/-- Reads decimal digits after those already read. -/
def readDecimal : Nat → List Char → Option Nat
  | n, [] => some n
  | n, c :: cs => (digit? c).bind fun d => readDecimal (10 * n + d) cs

/-- Reads the name of an arena field: decimal digits without a sign or a leading zero. -/
def arenaKey? (s : String) : Option BlockId :=
  match s.toList with
  | [] => none
  | ['0'] => some ⟨0⟩
  | '0' :: _ => none
  | cs => (readDecimal 0 cs).bind fun n => if n < 0x100000000 then some ⟨n⟩ else none

/-- The arena as data. -/
def arenaToJson (form : FloatForm) (arena : SortedMap BlockId Block) : Json :=
  .obj (arena.toList.map fun (b, blk) => (toString b.index, blk.toJson form))

/-- Reads the arena. -/
def arenaOfJson? (form : FloatForm) : Json → Option (SortedMap BlockId Block)
  | .obj fields =>
    (fields.mapM fun (k, j) => do return (← arenaKey? k, ← Block.ofJson? form j)).map
      SortedMap.ofList
  | _ => none

/-- A function as data. -/
def toJson (form : FloatForm) (f : Func) : Json :=
  .obj [("name", .str f.name), ("return_type", f.returnTy.toJson),
    ("parameters", list Param.toJson f.params), ("blocks", arenaToJson form f.arena),
    ("layout", list BlockId.toJson f.layout), ("entry", option BlockId.toJson f.entry),
    ("ids", f.ids.toJson)]

/-- Reads a function. -/
def ofJson? (form : FloatForm) (j : Json) : Option Func := do
  return {
    name := ← j.get? "name" str?
    returnTy := ← j.get? "return_type" Ty.ofJson?
    params := ← j.get? "parameters" (list? Param.ofJson?)
    arena := ← j.get? "blocks" (arenaOfJson? form)
    layout := ← j.get? "layout" (list? BlockId.ofJson?)
    entry := ← j.getOption? "entry" BlockId.ofJson?
    ids := ← j.get? "ids" IdSupply.ofJson? }

end Func

/-- A program as data. -/
def Program.toJson (form : FloatForm) (p : Program) : Json :=
  .obj [("name", .str p.name), ("functions", list (Func.toJson form) p.funcs)]

/-- Reads a program. -/
def Program.ofJson? (form : FloatForm) (j : Json) : Option Program := do
  return ⟨← j.get? "name" str?, ← j.get? "functions" (list? (Func.ofJson? form))⟩

end Midend
