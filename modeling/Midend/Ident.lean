import Midend.Sorted.Key

/-!
# Identifiers

Blocks and values of a function are named by numbers. A function hands out its own numbers from
an `IdSupply`, so the names in one function depend only on what was done to that function.

The numbers have no bound. Where names are stored they have to fit in thirty-two bits, and a supply
that has handed out all that do is set aside: in what is said about building and revising a
function, there is always a next name.
-/

namespace Midend

/-- The name of a block within its function. -/
structure BlockId where
  /-- The number that the name consists of. -/
  index : Nat
deriving DecidableEq, Repr, Inhabited

/-- The name of a value within its function. -/
structure ValueId where
  /-- The number that the name consists of. -/
  index : Nat
deriving DecidableEq, Repr, Inhabited

/-- Blocks are ordered by number. -/
instance : Key BlockId where
  lt a b := a.index < b.index
  decEq := inferInstance
  decLt a b := inferInstanceAs (Decidable (a.index < b.index))
  irrefl a := Nat.lt_irrefl a.index
  trans := Nat.lt_trans
  connected {a b} h hne := by
    cases a
    cases b
    simp_all only [ne_eq, BlockId.mk.injEq]
    omega

/-- Values are ordered by number. -/
instance : Key ValueId where
  lt a b := a.index < b.index
  decEq := inferInstance
  decLt a b := inferInstanceAs (Decidable (a.index < b.index))
  irrefl a := Nat.lt_irrefl a.index
  trans := Nat.lt_trans
  connected {a b} h hne := by
    cases a
    cases b
    simp_all only [ne_eq, ValueId.mk.injEq]
    omega

theorem BlockId.lt_def {a b : BlockId} : a < b ↔ a.index < b.index := Iff.rfl

theorem ValueId.lt_def {a b : ValueId} : a < b ↔ a.index < b.index := Iff.rfl

/-- A block is written `bb` and its number. -/
def BlockId.text (b : BlockId) : String := "bb" ++ toString b.index

/-- A value is written `%` and its number. -/
def ValueId.text (v : ValueId) : String := "%" ++ toString v.index

/-- The next free number for blocks and for values. -/
structure IdSupply where
  /-- The number of the next block. -/
  nextBlock : Nat := 0
  /-- The number of the next value. -/
  nextValue : Nat := 0
deriving DecidableEq, Repr, Inhabited

namespace IdSupply

/-- Hands out a block name. -/
def takeBlock (s : IdSupply) : BlockId × IdSupply :=
  (⟨s.nextBlock⟩, { s with nextBlock := s.nextBlock + 1 })

/-- Hands out a value name. -/
def takeValue (s : IdSupply) : ValueId × IdSupply :=
  (⟨s.nextValue⟩, { s with nextValue := s.nextValue + 1 })

end IdSupply

end Midend
