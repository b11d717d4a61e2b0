import Mathlib.Data.List.Nodup
import Mathlib.Data.Nat.Init
import Midend.Proofs.Func.Construction
import Midend.Shape.Split

/-!
# Labels for the blocks on split edges

The block on an edge gets a label made of the labels at its ends, with a number if that is taken.
The search for the number needs no bound (`Seeks`): labels with different numbers are different
(`splitLabelAt_inj`), so among one more than there are blocks one is free
(`exists_splitLabelAt_free`). That is how far `splitLabel` looks, and what it gives is what the
search without a bound ends with.

Nothing is asked of the function. Labels may be empty, shared, or made by splitting before, and the
edge need not be there, nor the blocks at its ends; a block that is not there counts as one with the
empty label.

* `Func.refuseLabel?_splitLabel`: the label is never refused.
* `Func.splitLabel_least_free`: the search ends, with the first label that no block has.
-/

namespace Midend

namespace Func

variable {f : Func} {a b : BlockId} {label base result : String} {k m n : Nat}

/-- The search for a label, with no bound on it: from the number and the label that it has come to,
it ends with the last label given. -/
inductive Seeks (f : Func) (base : String) : Nat → String → String → Prop where
  /-- No block has the label. -/
  | found {n : Nat} {label : String} (free : f.blockByLabel? label = none) :
      Seeks f base n label label
  /-- Some block has the label, and the search goes on with the next number. -/
  | next {n : Nat} {label result : String} (taken : (f.blockByLabel? label).isSome)
      (rest : Seeks f base (n + 1) (base ++ "." ++ toString (n + 1)) result) :
      Seeks f base n label result

/-! ## Labels that blocks have -/

theorem blockByLabel?_eq_none_iff : f.blockByLabel? label = none ↔ ∀ x, f.label? x ≠ some label := by
  rw [blockByLabel?, List.find?_eq_none]
  constructor
  · intro h x hx
    obtain ⟨blk, hBlk, hLabel⟩ := Option.map_eq_some_iff.mp hx
    have hMem : blk ∈ f.arena.values :=
      List.mem_map.mpr ⟨(x, blk), SortedMap.get?_eq_some_iff.mp hBlk, rfl⟩
    exact h blk hMem (by simpa using hLabel)
  · intro h blk hMem hLabel
    obtain ⟨⟨x, blk'⟩, hEntry, rfl⟩ := List.mem_map.mp hMem
    refine h x (Option.map_eq_some_iff.mpr ⟨blk', SortedMap.get?_eq_some_iff.mpr hEntry, ?_⟩)
    simpa using hLabel

theorem blockByLabel?_ne_none_iff : f.blockByLabel? label ≠ none ↔ ∃ x, f.label? x = some label := by
  rw [ne_eq, blockByLabel?_eq_none_iff, not_forall]
  simp only [not_not]

/-! ## Labels to choose from -/

theorem splitLabelAt_ne (f : Func) (a b : BlockId) (n : Nat) : f.splitLabelAt a b n ≠ "" := by
  intro h
  have hDot : ("." : String).length = 1 := rfl
  have hLength := congrArg String.length h
  rw [splitLabelAt] at hLength
  split at hLength <;> simp only [String.length_append, String.length_empty, hDot] at hLength <;> omega

/-- Labels with different numbers are different. -/
theorem splitLabelAt_inj (h : f.splitLabelAt a b m = f.splitLabelAt a b n) : m = n := by
  have hDot : ("." : String).length = 1 := rfl
  simp only [splitLabelAt] at h
  split at h <;> split at h
  · omega
  · have hLength := congrArg String.length h
    simp only [String.length_append] at hLength
    omega
  · have hLength := congrArg String.length h
    simp only [String.length_append] at hLength
    omega
  · rw [String.append_right_inj, Nat.toString_eq_ofList_toDigits,
      Nat.toString_eq_ofList_toDigits] at h
    rw [← Nat.ofDigitChars_ten_toDigits (n := m), String.ofList_injective h,
      Nat.ofDigitChars_ten_toDigits]

/-- There are more labels to choose from than blocks that could have them. -/
theorem exists_splitLabelAt_free (f : Func) (a b : BlockId) :
    ∃ n < f.arena.size + 1, f.blockByLabel? (f.splitLabelAt a b n) = none := by
  by_contra hNone
  have hTaken : (List.range (f.arena.size + 1)).map (f.splitLabelAt a b) ⊆
      f.arena.values.map (·.label) := by
    intro label hLabel
    obtain ⟨n, hn, rfl⟩ := List.mem_map.mp hLabel
    obtain ⟨blk, hBlk⟩ := Option.ne_none_iff_exists'.mp
      fun hFree => hNone ⟨n, List.mem_range.mp hn, hFree⟩
    exact List.mem_map.mpr ⟨blk, List.mem_of_find?_eq_some hBlk, by simpa using List.find?_some hBlk⟩
  have hNodup : ((List.range (f.arena.size + 1)).map (f.splitLabelAt a b)).Nodup :=
    List.nodup_range.map fun _ _ => splitLabelAt_inj
  have hLength := hNodup.length_le_of_subset hTaken
  rw [List.length_map, List.length_range, List.length_map, SortedMap.values, List.length_map] at hLength
  exact absurd hLength (Nat.not_succ_le_self _)

/-- The label that is chosen is the first free one, and its number is at most that of the blocks. -/
theorem exists_splitLabel_eq (f : Func) (a b : BlockId) :
    ∃ n ≤ f.arena.size, f.splitLabel a b = f.splitLabelAt a b n ∧
      f.blockByLabel? (f.splitLabelAt a b n) = none ∧
      ∀ m < n, f.blockByLabel? (f.splitLabelAt a b m) ≠ none := by
  rw [splitLabel, List.find?_map]
  cases hFound : (List.range (f.arena.size + 1)).find?
      ((fun label => (f.blockByLabel? label).isNone) ∘ f.splitLabelAt a b) with
  | none =>
    obtain ⟨n, hn, hFree⟩ := f.exists_splitLabelAt_free a b
    have hTaken := List.find?_eq_none.mp hFound n (List.mem_range.mpr hn)
    exact absurd (Option.isNone_iff_eq_none.mpr hFree) hTaken
  | some n =>
    obtain ⟨hFree, hn, hTaken⟩ := List.find?_range_eq_some.mp hFound
    refine ⟨n, Nat.le_of_lt_succ (List.mem_range.mp hn), rfl, Option.isNone_iff_eq_none.mp hFree, ?_⟩
    intro m hm hNone
    have hSome := hTaken m hm
    simp [hNone] at hSome

/-- The label that is chosen for a new block is never refused. -/
theorem refuseLabel?_splitLabel (f : Func) (a b : BlockId) :
    f.refuseLabel? (f.splitLabel a b) = none := by
  obtain ⟨n, -, hEq, hFree, -⟩ := f.exists_splitLabel_eq a b
  rw [hEq]
  exact refuseLabel?_eq_none.mpr ⟨f.splitLabelAt_ne a b n, hFree⟩

/-! ## The search without a bound -/

/-- The search ends with one label only. -/
theorem Seeks.unique (h : f.Seeks base n label result) {other : String}
    (h' : f.Seeks base n label other) : result = other := by
  induction h with
  | found free =>
    cases h' with
    | found => rfl
    | next taken => simp [free] at taken
  | next taken rest ih =>
    cases h' with
    | found free => simp [free] at taken
    | next _ rest' => exact ih rest'

/-- From any number up to the first that is free, the search gets there. -/
theorem seeks_splitLabelAt (hk : k ≤ n) (hFree : f.blockByLabel? (f.splitLabelAt a b n) = none)
    (hTaken : ∀ m < n, f.blockByLabel? (f.splitLabelAt a b m) ≠ none) :
    f.Seeks (f.splitLabelAt a b 0) k (f.splitLabelAt a b k) (f.splitLabelAt a b n) := by
  -- downwards, from where the search ends
  induction hk using Nat.decreasingInduction with
  | self => exact .found hFree
  | of_succ k hk ih => exact .next (Option.isSome_iff_ne_none.mpr (hTaken k hk)) ih

/-- **The label for the block on an edge is always found, and it is new.** In any function, for any
two names of blocks, the search ends, with a label that is not empty and that no block has. It is
the label made of those at the ends of the edge, or, if that is taken, that label with the least
number that makes it free. The number is at most that of the blocks. -/
theorem splitLabel_least_free (f : Func) (a b : BlockId) :
    let base := (f.label? a).getD "" ++ "." ++ (f.label? b).getD "" ++ ".split"
    (∀ result, f.Seeks base 0 base result ↔ result = f.splitLabel a b) ∧
      f.splitLabel a b ≠ "" ∧ (∀ x, f.label? x ≠ some (f.splitLabel a b)) ∧
      (f.splitLabel a b = base ∨ (∃ x, f.label? x = some base) ∧
        ∃ n, 1 ≤ n ∧ n ≤ f.arena.size ∧ f.splitLabel a b = base ++ "." ++ toString n ∧
          ∀ m, 1 ≤ m → m < n → ∃ x, f.label? x = some (base ++ "." ++ toString m)) := by
  intro base
  obtain ⟨n, hn, hEq, hFree, hTaken⟩ := f.exists_splitLabel_eq a b
  have hSeeks : f.Seeks base 0 base (f.splitLabelAt a b n) :=
    seeks_splitLabelAt (Nat.zero_le n) hFree hTaken
  have hNumbered : ∀ m, 1 ≤ m → f.splitLabelAt a b m = base ++ "." ++ toString m := fun m hm =>
    if_neg (Nat.ne_of_gt hm)
  rw [hEq]
  refine ⟨fun result => ⟨fun h => h.unique hSeeks, fun h => h ▸ hSeeks⟩, f.splitLabelAt_ne a b n,
    blockByLabel?_eq_none_iff.mp hFree, ?_⟩
  rcases Nat.eq_zero_or_pos n with rfl | hPos
  · exact .inl rfl
  · refine .inr ⟨blockByLabel?_ne_none_iff.mp (hTaken 0 hPos), n, hPos, hn, hNumbered n hPos, ?_⟩
    intro m hm hlt
    rw [← hNumbered m hm]
    exact blockByLabel?_ne_none_iff.mp (hTaken m hlt)

example :
    (["a", "b", "a.b.split", "a.b.split.1", "a.b.split.3"].foldl addBlock
      (empty "f" .void)).splitLabel ⟨0⟩ ⟨1⟩ = "a.b.split.2" := by
  decide +kernel

end Func

end Midend
