import Midend.Inst

/-!
# Expansions

The expansion of a value is what it computes, written out in full: constants, operators and
conversions are unfolded through their operands, down to values of other kinds or from elsewhere.
Two values compute the same thing if they have the same expansion.
-/

namespace Midend

/-- What a value computes, written out in full. -/
inductive Expansion where
  /-- A value that is not unfolded. -/
  | leaf (v : ValueId)
  | const (ty : Ty) (c : Literal)
  | binary (ty : Ty) (op : BinaryOp) (lhs rhs : Expansion)
  | unary (ty : Ty) (op : UnaryOp) (operand : Expansion)
  | convert (ty : Ty) (operand : Expansion)
deriving DecidableEq

/-- Whether the operation is unfolded: a constant, an operator or a conversion. -/
def Op.isFormula : Op → Bool
  | .const _ | .binary .. | .unary .. | .convert _ => true
  | _ => false

/-- A value has an expansion through the instructions of a list. -/
inductive Expands (l : List Inst) : ValueId → Expansion → Prop where
  | leaf {v : ValueId} (h : ∀ i ∈ l, i.id = v → i.op.isFormula = false) : Expands l v (.leaf v)
  | const {i : Inst} {c : Literal} (mem : i ∈ l) (op : i.op = .const c) :
      Expands l i.id (.const i.ty c)
  | binary {i : Inst} {o : BinaryOp} {a b : ValueId} {s t : Expansion} (mem : i ∈ l)
      (op : i.op = .binary o a b) (lhs : Expands l a s) (rhs : Expands l b t) :
      Expands l i.id (.binary i.ty o s t)
  | unary {i : Inst} {o : UnaryOp} {a : ValueId} {t : Expansion} (mem : i ∈ l)
      (op : i.op = .unary o a) (operand : Expands l a t) : Expands l i.id (.unary i.ty o t)
  | convert {i : Inst} {a : ValueId} {t : Expansion} (mem : i ∈ l)
      (op : i.op = .convert a) (operand : Expands l a t) : Expands l i.id (.convert i.ty t)

end Midend
