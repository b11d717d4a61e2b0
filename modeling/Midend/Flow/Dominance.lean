import Midend.Error
import Midend.Flow.Order
import Midend.Graph.Dominators

/-!
# Dominance and post-dominance of blocks

A block dominates another if control cannot reach the other from the entry without going through
it. A block post-dominates another if control cannot get from the other to an exit, a block that
nothing follows, without going through it: that is dominance in the reversed graph, with one more
node from which every exit is reached.
-/

namespace Midend

/-- The limit of rounds where none is given. -/
def defaultRoundCap : Nat := 1000

/-- Dominance between the blocks that can be reached from the entry. -/
abbrev Dominance := DomTree BlockId

namespace Func

/-- The flow graph as seen from a block. -/
def flowFrom (f : Func) (entry : BlockId) : FlowGraph BlockId where
  root := entry
  nodes := f.reversePostorder
  preds b := (f.preds b).toList
  succs b := (f.succs b).toList

/-- Dominance between the blocks of a function, within a limit of rounds. -/
def dominance (f : Func) (cap : Nat) : Except Error (Fixpoint Dominance) :=
  match f.entry with
  | none => .error (.emptyFunction f.name)
  | some e => .ok ((f.flowFrom e).dominators cap)

end Func

/-! ## Post-dominance -/

/-- A block, or the common end of all ways out of the function. -/
inductive Terminus where
  | block (b : BlockId)
  | exit
deriving DecidableEq, Repr

/-- Blocks in their order, and the exit after all of them. -/
def Terminus.Before : Terminus → Terminus → Prop
  | .block a, .block b => a < b
  | .block _, .exit => True
  | .exit, _ => False

instance : ∀ a b : Terminus, Decidable (a.Before b)
  | .block a, .block b => inferInstanceAs (Decidable (a < b))
  | .block _, .exit => .isTrue trivial
  | .exit, _ => .isFalse id

instance : Key Terminus where
  lt := Terminus.Before
  decEq := inferInstance
  decLt a b := inferInstanceAs (Decidable (a.Before b))
  irrefl
    | .block a => Key.irrefl a
    | .exit => id
  trans {a b c} h h' :=
    match a, b, c, h, h' with
    | .block _, .block _, .block _, h, h' => Key.trans (show _ < _ from h) h'
    | .block _, .block _, .exit, _, _ => trivial
  connected {a b} h hne :=
    match a, b, h, hne with
    | .block _, .block _, h, hne => Key.connected (show ¬ _ < _ from h) fun hEq => hne (hEq ▸ rfl)
    | .block _, .exit, h, _ => absurd trivial h
    | .exit, .block _, _, _ => trivial
    | .exit, .exit, _, hne => absurd rfl hne

namespace Func

/-- The blocks of the layout that have the given name. -/
def named (f : Func) (b : BlockId) : List Block := f.blocks.filter (·.id = b)

/-- Where control can go to from a block: its successors, or the exit if it has none. -/
def onward (f : Func) : Terminus → List Terminus
  | .exit => []
  | .block b =>
    match (f.named b).getLast? with
    | none => []
    | some blk =>
      if blk.succs.isEmpty then [.exit] else blk.succs.toList.map .block

/-- Where control can come from to a block or to the exit. -/
def backward (f : Func) : Terminus → List Terminus
  | .exit => (f.blocks.filter (·.succs.isEmpty)).map fun blk => .block blk.id
  | .block b => (f.named b).flatMap fun blk => blk.preds.toList.map .block

/-- The reversed flow graph. -/
def reverseFlow (f : Func) : Digraph Terminus where
  next := f.backward
  bound := f.blocks.flatMap fun blk => .block blk.id :: blk.preds.toList.map .block

/-- The reversed flow graph as seen from the exit. -/
def flowFromExit (f : Func) : FlowGraph Terminus where
  root := .exit
  nodes := f.reverseFlow.reachable .exit
  preds := f.onward
  succs := f.backward

end Func

/-- Post-dominance between the blocks from which an exit can be reached. -/
structure PostDominance where
  /-- Dominance in the reversed graph. -/
  tree : DomTree Terminus

namespace PostDominance

/-- Whether the first block post-dominates the second. Every block post-dominates itself. -/
def postDominates (p : PostDominance) (d b : BlockId) : Bool :=
  p.tree.dominates (.block d) (.block b)

/-- The strict post-dominator of a block that every other one post-dominates. -/
def ipdom? (p : PostDominance) (b : BlockId) : Option BlockId :=
  match p.tree.idom? (.block b) with
  | some (.block d) => some d
  | _ => none

/-- Whether an exit can be reached from a block. -/
def reachesExit (p : PostDominance) (b : BlockId) : Bool := p.tree.isNode (.block b)

end PostDominance

/-- Post-dominance between the blocks of a function, within a limit of rounds. -/
def Func.postDominance (f : Func) (cap : Nat) : Except Error (Fixpoint PostDominance) :=
  if f.layout.isEmpty then .error (.emptyFunction f.name)
  else .ok ((f.flowFromExit.dominators cap).map .mk)

end Midend
