/-!
# Keys

A key type carries a decidable strict order in which two different keys are always comparable.
Finite sets and maps over keys are kept in ascending order, so that a collection has one
representation and equality of collections is equality of their contents.
-/

namespace Midend

/-- A type whose elements can be compared and told apart. -/
class Key (κ : Type) extends LT κ where
  /-- Equality of keys is decidable. -/
  decEq : DecidableEq κ
  /-- The order of keys is decidable. -/
  decLt : ∀ a b : κ, Decidable (a < b)
  /-- No key is below itself. -/
  irrefl : ∀ a : κ, ¬ a < a
  /-- The order is transitive. -/
  trans : ∀ {a b c : κ}, a < b → b < c → a < c
  /-- Different keys are comparable. -/
  connected : ∀ {a b : κ}, ¬ a < b → a ≠ b → b < a

namespace Key

variable {κ : Type} [Key κ]

instance (priority := low) instDecidableEq : DecidableEq κ := Key.decEq

instance (priority := low) instDecidableLT (a b : κ) : Decidable (a < b) := Key.decLt a b

/-- The Boolean test for equality of keys is equality. -/
instance lawfulBEq : @LawfulBEq κ (@instBEqOfDecidableEq κ fun a b => instDecidableEq a b) :=
  inferInstance

theorem ne_of_lt {a b : κ} (h : a < b) : a ≠ b := by
  rintro rfl
  exact irrefl a h

theorem asymm {a b : κ} (h : a < b) : ¬ b < a := fun h' => irrefl a (trans h h')

end Key

instance : Key Nat where
  decEq := inferInstance
  decLt := inferInstance
  irrefl := Nat.lt_irrefl
  trans := Nat.lt_trans
  connected h hne := by omega

/-- Text is ordered by the code points of its characters. -/
instance : Key String where
  decEq := inferInstance
  decLt := inferInstance
  irrefl := String.lt_irrefl
  trans := String.lt_trans
  connected h hne := Std.lt_of_le_of_ne (Std.not_lt.mp h) (Ne.symm hne)

end Midend
