import Midend.Json.Program

/-!
# Digits read back

The names of blocks that an arena is keyed by are text: decimal digits without a leading zero.
Reading goes on from what has been read (`readDecimal_append`), so the last digit can be split off.
-/

namespace Midend

namespace Func

theorem readDecimal_append (n : Nat) (l m : List Char) :
    readDecimal n (l ++ m) = (readDecimal n l).bind fun k => readDecimal k m := by
  induction l generalizing n with
  | nil => rfl
  | cons c l ih =>
    rw [List.cons_append, readDecimal, readDecimal]
    cases digit? c with
    | none => rfl
    | some d => exact ih (10 * n + d)

theorem digit?_digitChar {d : Nat} (h : d < 10) : digit? (Nat.digitChar d) = some d := by
  revert d
  decide

theorem digitChar_ne_zero {d : Nat} (h : d < 10) (hPos : 0 < d) : Nat.digitChar d ≠ '0' := by
  revert d
  decide

/-- A number is its last decimal digit behind those of the number without it. -/
theorem toDigits_of_ten_le {n : Nat} (h : 10 ≤ n) :
    Nat.toDigits 10 n = Nat.toDigits 10 (n / 10) ++ [Nat.digitChar (n % 10)] := by
  have hDigit : n % 10 < 10 := Nat.mod_lt n (by decide)
  rw [← Nat.toDigits_of_lt_base hDigit,
    Nat.toDigits_append_toDigits (by decide) (by omega) hDigit, Nat.div_add_mod]

theorem readDecimal_toDigits (n : Nat) : readDecimal 0 (Nat.toDigits 10 n) = some n := by
  induction n using Nat.strongRecOn with
  | ind n ih =>
    by_cases h : n < 10
    · rw [Nat.toDigits_of_lt_base h, readDecimal, digit?_digitChar h]
      simp [readDecimal]
    · have hDigit := digit?_digitChar (Nat.mod_lt n (by decide : 0 < 10))
      rw [toDigits_of_ten_le (by omega), readDecimal_append, ih (n / 10) (by omega),
        Option.bind_some, readDecimal, hDigit, Option.bind_some, readDecimal]
      congr 1
      omega

/-- Only the number zero begins with a zero. -/
theorem exists_toDigits_eq_cons {n : Nat} (h : 0 < n) :
    ∃ c cs, Nat.toDigits 10 n = c :: cs ∧ c ≠ '0' := by
  induction n using Nat.strongRecOn with
  | ind n ih =>
    by_cases hn : n < 10
    · exact ⟨_, [], Nat.toDigits_of_lt_base hn, digitChar_ne_zero hn h⟩
    · obtain ⟨c, cs, hEq, hne⟩ := ih (n / 10) (by omega) (by omega)
      exact ⟨c, cs ++ [Nat.digitChar (n % 10)], by rw [toDigits_of_ten_le (by omega), hEq]; rfl, hne⟩

theorem arenaKey?_toString {b : BlockId} (h : b.index < 0x100000000) :
    arenaKey? (toString b.index) = some b := by
  rcases b with ⟨n⟩
  rw [arenaKey?, Nat.toString_eq_ofList_toDigits, String.toList_ofList]
  rcases Nat.eq_zero_or_pos n with rfl | hPos
  · rfl
  · have hRead := readDecimal_toDigits n
    obtain ⟨c, cs, hEq, hne⟩ := exists_toDigits_eq_cons hPos
    rw [hEq] at hRead ⊢
    split
    · rename_i hNil
      cases hNil
    · rename_i hZero
      exact absurd (List.cons.inj hZero).1 hne
    · rename_i hZero
      exact absurd (List.cons.inj hZero).1 hne
    · rw [hRead, Option.bind_some, if_pos h]

end Func

end Midend
