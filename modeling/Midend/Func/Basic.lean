import Midend.Block
import Midend.Sorted.Map
import Midend.Total

/-!
# Functions

A function owns its blocks, and through them its values. Blocks are kept under their names in an
arena; the layout lists the names in the order in which the blocks are listed and visited.

The type holds any arena, layout and entry, consistent or not: data read from outside is not
checked. What the operations of the library keep true is a matter of theorems.

Look-ups: `Func.block?`, `Func.blocks`, `Func.preds`, `Func.succs`, `Func.value?`, `Func.home?`.
-/

namespace Midend

/-- A parameter of a function. -/
structure Param where
  /-- The name of the parameter. -/
  name : String
  /-- The type of the parameter. -/
  ty : Ty
deriving DecidableEq, Repr, Inhabited

/-- A function as a control-flow graph of blocks. -/
structure Func where
  /-- The name of the function. -/
  name : String
  /-- The type of what the function returns. -/
  returnTy : Ty
  /-- The parameters in order. -/
  params : List Param := []
  /-- The blocks under their names. -/
  arena : SortedMap BlockId Block := ∅
  /-- The names of the blocks in the order of the listing. -/
  layout : List BlockId := []
  /-- The block where control enters. -/
  entry : Option BlockId := none
  /-- The next free names. -/
  ids : IdSupply := {}
deriving DecidableEq, Inhabited

namespace Func

/-- A function without blocks. -/
def empty (name : String) (returnTy : Ty) : Func := { name, returnTy }

/-! ## Blocks -/

/-- The block of the given name. -/
def block? (f : Func) (b : BlockId) : Option Block := f.arena.get? b

/-- Whether the function has a block of the given name. -/
def hasBlock (f : Func) (b : BlockId) : Bool := f.arena.contains b

/-- The blocks in the order of the layout. -/
def blocks (f : Func) : List Block := f.layout.filterMap f.block?

/-- The first block, by name, that has the given label. -/
def blockByLabel? (f : Func) (label : String) : Option Block :=
  f.arena.values.find? (·.label = label)

/-- The block where control enters. -/
def entryBlock? (f : Func) : Option Block := f.entry.bind f.block?

/-- The label of a block. -/
def label? (f : Func) (b : BlockId) : Option String := (f.block? b).map (·.label)

/-- The blocks recorded as those that control can come from. -/
def preds (f : Func) (b : BlockId) : BlockSet := ((f.block? b).map (·.preds)).getD ∅

/-- The blocks recorded as those that control can go to. -/
def succs (f : Func) (b : BlockId) : BlockSet := ((f.block? b).map (·.succs)).getD ∅

/-- Whether the second block is recorded as one that control can go to from the first. -/
def hasSucc (f : Func) (a b : BlockId) : Bool := b ∈ f.succs a

/-- Whether the second block is recorded as one that control can come from to the first. -/
def hasPred (f : Func) (b a : BlockId) : Bool := a ∈ f.preds b

/-- The number of recorded edges, counted where they leave. -/
def edgeCount (f : Func) : Nat := total (f.arena.values.map (·.succs.size))

/-- The labels of the blocks of a set, in the order of the blocks. -/
def labels (f : Func) (s : BlockSet) : List String := s.toList.filterMap f.label?

/-! ## Values -/

/-- The instructions in the order of the layout. -/
def insts (f : Func) : List Inst := f.blocks.flatMap (·.insts)

/-- The value of the given name. -/
def value? (f : Func) (v : ValueId) : Option Inst := f.blocks.findSome? (·.value? v)

/-- Whether the function has a value of the given name. -/
def hasValue (f : Func) (v : ValueId) : Bool := (f.value? v).isSome

/-- The name of the block that holds the value of the given name. -/
def home? (f : Func) (v : ValueId) : Option BlockId :=
  (f.blocks.find? fun b => (b.value? v).isSome).map (·.id)

/-- The type of the value of the given name. -/
def tyOf? (f : Func) (v : ValueId) : Option Ty := (f.value? v).map (·.ty)

/-- Whether the function has a value of the given name that is known at compile time. -/
def isComptime (f : Func) (v : ValueId) : Bool := (f.value? v).any (·.comptime)

/-- The variable whose storage a value is. -/
def variableOf? (f : Func) (ptr : ValueId) : Option String :=
  (f.value? ptr).bind fun i =>
    match i.op with
    | .slot name => some name
    | _ => none

end Func

end Midend
