/-!
# Totals

The total of a list of counts.
-/

namespace Midend

/-- The sum of a list of counts. -/
def total : List Nat → Nat
  | [] => 0
  | n :: l => n + total l

@[simp] theorem total_nil : total [] = 0 := rfl

@[simp] theorem total_cons (n : Nat) (l : List Nat) : total (n :: l) = n + total l := rfl

@[simp] theorem total_append (l m : List Nat) : total (l ++ m) = total l + total m := by
  induction l with
  | nil => simp
  | cons n l ih => simp [ih, Nat.add_assoc]

end Midend
