import Midend.Sorted.Key

/-!
# Sorted sets

A finite set of keys is the strictly ascending list of its elements. The order is part of the
type, so two sets with the same elements are equal (`SortedSet.ext`) and listing a set always
gives its elements in ascending order, each once.

Each operation comes with its membership rule: `mem_insert`, `mem_erase`, `mem_filter`,
`mem_ofList`.
-/

namespace Midend

/-- A finite set of keys, held as the ascending list of its elements. -/
structure SortedSet (κ : Type) [Key κ] where
  /-- The elements in ascending order. -/
  toList : List κ
  /-- Every element is below the ones after it. -/
  ascending : toList.Pairwise (· < ·)
deriving DecidableEq

namespace SortedSet

variable {κ : Type} [Key κ]

instance : Membership κ (SortedSet κ) where
  mem s a := a ∈ s.toList

instance : EmptyCollection (SortedSet κ) where
  emptyCollection := ⟨[], .nil⟩

instance : Inhabited (SortedSet κ) := ⟨∅⟩

instance (a : κ) (s : SortedSet κ) : Decidable (a ∈ s) :=
  inferInstanceAs (Decidable (a ∈ s.toList))

theorem mem_def {a : κ} {s : SortedSet κ} : a ∈ s ↔ a ∈ s.toList := Iff.rfl

@[simp] theorem mem_toList {a : κ} {s : SortedSet κ} : a ∈ s.toList ↔ a ∈ s := Iff.rfl

@[simp] theorem not_mem_empty (a : κ) : ¬ a ∈ (∅ : SortedSet κ) := List.not_mem_nil

@[simp] theorem toList_empty : (∅ : SortedSet κ).toList = [] := rfl

theorem nodup_toList (s : SortedSet κ) : s.toList.Nodup :=
  s.ascending.imp Key.ne_of_lt

/-- Two ascending lists with the same elements are the same list. -/
private theorem eq_of_ascending : ∀ {l₁ l₂ : List κ}, l₁.Pairwise (· < ·) → l₂.Pairwise (· < ·) →
    (∀ a, a ∈ l₁ ↔ a ∈ l₂) → l₁ = l₂
  | [], [], _, _, _ => rfl
  | [], b :: _, _, _, h => absurd ((h b).2 (List.mem_cons_self ..)) List.not_mem_nil
  | a :: _, [], _, _, h => absurd ((h a).1 (List.mem_cons_self ..)) List.not_mem_nil
  | a :: l₁, b :: l₂, h₁, h₂, h => by
    have ha := List.pairwise_cons.1 h₁
    have hb := List.pairwise_cons.1 h₂
    have hab : a = b := by
      rcases List.mem_cons.1 ((h a).1 (List.mem_cons_self ..)) with hEq | hMem
      · exact hEq
      · rcases List.mem_cons.1 ((h b).2 (List.mem_cons_self ..)) with hEq' | hMem'
        · exact hEq'.symm
        · exact absurd (hb.1 a hMem) (Key.asymm (ha.1 b hMem'))
    subst hab
    refine congrArg (a :: ·) (eq_of_ascending ha.2 hb.2 fun c => ?_)
    constructor
    · intro hc
      rcases List.mem_cons.1 ((h c).1 (List.mem_cons_of_mem _ hc)) with rfl | hc'
      · exact absurd (ha.1 c hc) (Key.irrefl c)
      · exact hc'
    · intro hc
      rcases List.mem_cons.1 ((h c).2 (List.mem_cons_of_mem _ hc)) with rfl | hc'
      · exact absurd (hb.1 c hc) (Key.irrefl c)
      · exact hc'

/-- A set is determined by its elements. -/
@[ext] theorem ext {s t : SortedSet κ} (h : ∀ a, a ∈ s ↔ a ∈ t) : s = t := by
  cases s
  cases t
  congr
  exact eq_of_ascending ‹_› ‹_› h

/-! ## Insertion -/

/-- Puts a key into its place in an ascending list. -/
def insertList (a : κ) : List κ → List κ
  | [] => [a]
  | b :: l => if a < b then a :: b :: l else if a = b then b :: l else b :: insertList a l

theorem mem_insertList {a b : κ} {l : List κ} : b ∈ insertList a l ↔ b = a ∨ b ∈ l := by
  induction l with
  | nil => simp [insertList]
  | cons c l ih =>
    unfold insertList
    split
    · simp
    · split
      · rename_i h
        simp [h]
      · simp [ih, or_left_comm]

theorem ascending_insertList {a : κ} {l : List κ} (h : l.Pairwise (· < ·)) :
    (insertList a l).Pairwise (· < ·) := by
  induction l with
  | nil => simp [insertList]
  | cons b l ih =>
    have hb := List.pairwise_cons.1 h
    unfold insertList
    split
    · rename_i hab
      refine List.pairwise_cons.2 ⟨fun c hc => ?_, h⟩
      rcases List.mem_cons.1 hc with rfl | hc
      · exact hab
      · exact Key.trans hab (hb.1 c hc)
    · split
      · exact h
      · rename_i hab hne
        refine List.pairwise_cons.2 ⟨fun c hc => ?_, ih hb.2⟩
        rcases mem_insertList.1 hc with rfl | hc
        · exact Key.connected hab hne
        · exact hb.1 c hc

/-- Adds a key. -/
def insert (a : κ) (s : SortedSet κ) : SortedSet κ :=
  ⟨insertList a s.toList, ascending_insertList s.ascending⟩

@[simp] theorem mem_insert {a b : κ} {s : SortedSet κ} : b ∈ s.insert a ↔ b = a ∨ b ∈ s :=
  mem_insertList

/-- The set with one element. -/
def singleton (a : κ) : SortedSet κ := ⟨[a], List.pairwise_singleton _ _⟩

@[simp] theorem mem_singleton {a b : κ} : b ∈ singleton a ↔ b = a := List.mem_singleton

/-- The elements of a list. -/
def ofList (l : List κ) : SortedSet κ := l.foldr insert ∅

@[simp] theorem mem_ofList {a : κ} {l : List κ} : a ∈ ofList l ↔ a ∈ l := by
  induction l with
  | nil => simp [ofList]
  | cons b l ih =>
    rw [ofList, List.foldr_cons, mem_insert, List.mem_cons]
    exact or_congr_right ih

@[simp] theorem ofList_toList (s : SortedSet κ) : ofList s.toList = s :=
  ext fun _ => mem_ofList

/-! ## Restriction -/

/-- Keeps the elements that satisfy a test. -/
def filter (p : κ → Bool) (s : SortedSet κ) : SortedSet κ :=
  ⟨s.toList.filter p, s.ascending.filter p⟩

@[simp] theorem mem_filter {p : κ → Bool} {a : κ} {s : SortedSet κ} :
    a ∈ s.filter p ↔ a ∈ s ∧ p a = true :=
  List.mem_filter

/-- Removes a key. -/
def erase (a : κ) (s : SortedSet κ) : SortedSet κ := s.filter (· ≠ a)

@[simp] theorem mem_erase {a b : κ} {s : SortedSet κ} : b ∈ s.erase a ↔ b ∈ s ∧ b ≠ a := by
  simp [erase]

/-! ## Size -/

/-- The number of elements. -/
def size (s : SortedSet κ) : Nat := s.toList.length

/-- Whether the set has no element. -/
def isEmpty (s : SortedSet κ) : Bool := s.toList.isEmpty

theorem isEmpty_iff {s : SortedSet κ} : s.isEmpty = true ↔ ∀ a, ¬ a ∈ s := by
  simp [isEmpty, List.eq_nil_iff_forall_not_mem]

end SortedSet

end Midend
