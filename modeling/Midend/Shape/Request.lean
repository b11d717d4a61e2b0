import Midend.Shape.Merge
import Midend.Shape.Split
import Midend.Shape.Thread

/-!
# Histories of a function

Everything that can be asked of a function one step at a time, with any arguments. A request that
is refused is a step too.
-/

namespace Midend

/-- A request to build a function. -/
inductive BuildRequest where
  | addParam (name : String) (ty : Ty)
  | createBlock (label : String)
  | append (block : BlockId) (ty : Ty) (op : Op)
  | addIncoming (phi : ValueId) (pred : BlockId) (value : ValueId)

/-- A request to build or to change a function. -/
inductive Request where
  | build (r : BuildRequest)
  | replaceTerminator (block : BlockId) (ty : Ty) (op : Op)
  | removeValue (value : ValueId)
  | removeBlock (block : BlockId)
  | replaceUses (old new : ValueId)
  | retargetIncoming (block old new : BlockId)
  | removeIncoming (block pred : BlockId)
  | addEdge (src dst : BlockId)
  | removeEdge (src dst : BlockId)
  | mergeBlocks (first second : BlockId)
  | threadJump (pred trampoline : BlockId)
  | splitEdge (src dst : BlockId)

namespace Func

/-- The function after a request to build it. -/
def build (f : Func) : BuildRequest → Func
  | .addParam name ty => (f.addParam name ty).state
  | .createBlock label => (f.createBlock label).state
  | .append b ty op => (f.append b ty op).state
  | .addIncoming phi pred v => (f.addIncoming phi pred v).state

/-- The function after a request. -/
def perform (f : Func) : Request → Func
  | .build r => f.build r
  | .replaceTerminator b ty op => (f.replaceTerminator b ty op).state
  | .removeValue v => (f.removeValue v).2
  | .removeBlock b => (f.removeBlock b).2
  | .replaceUses old new => (f.replaceUses old new).2
  | .retargetIncoming b old new => (f.retargetIncoming b old new).2
  | .removeIncoming b pred => (f.removeIncoming b pred).2
  | .addEdge a b => f.addEdge a b
  | .removeEdge a b => f.removeEdge a b
  | .mergeBlocks a b => (f.mergeBlocks a b).2
  | .threadJump p t => (f.threadJump p t).2
  | .splitEdge a b => (f.splitEdge a b).2

end Func

end Midend
