import Midend.Binary64

/-!
# Literals

The payload of a constant.
-/

namespace Midend

/-- A value known when the program is written down. -/
inductive Literal where
  | int (value : Int64)
  | float (value : Binary64)
  | bool (value : Bool)
deriving DecidableEq, Repr, Inhabited

/-- The written form of a literal. -/
def Literal.text : Literal → String
  | .int n => toString n.toInt
  | .float x => x.text
  | .bool true => "true"
  | .bool false => "false"

end Midend
