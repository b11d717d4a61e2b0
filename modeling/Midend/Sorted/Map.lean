import Midend.Sorted.Set

/-!
# Sorted maps

A finite map is the list of its entries in strictly ascending order of keys. As with sorted sets
the order is part of the type: a map is determined by its look-ups (`SortedMap.ext`), and listing
it always goes through the keys in ascending order.

Each operation comes with its look-up rule: `get?_insert`, `get?_erase`, `get?_modify`,
`get?_mapValues`, `get?_tabulate`. `SortedMap.gather` collects pairs into a map of sets, and
`mem_gather` says which.
-/

namespace Midend

/-- A finite map, held as the list of its entries in ascending order of keys. -/
structure SortedMap (κ : Type) [Key κ] (ν : Type) where
  /-- The entries in ascending order of keys. -/
  toList : List (κ × ν)
  /-- Every key is below the ones after it. -/
  ascending : toList.Pairwise (·.1 < ·.1)
deriving DecidableEq

namespace SortedMap

variable {κ : Type} [Key κ] {ν μ : Type}

instance : EmptyCollection (SortedMap κ ν) where
  emptyCollection := ⟨[], .nil⟩

instance : Inhabited (SortedMap κ ν) := ⟨∅⟩

/-- The first value that an entry list holds for a key. -/
def lookup (k : κ) : List (κ × ν) → Option ν
  | [] => none
  | (k', v) :: l => if k = k' then some v else lookup k l

/-- The value of a key. -/
def get? (m : SortedMap κ ν) (k : κ) : Option ν := lookup k m.toList

/-- Whether a key has a value. -/
def contains (m : SortedMap κ ν) (k : κ) : Bool := (m.get? k).isSome

/-- The keys in ascending order. -/
def keys (m : SortedMap κ ν) : List κ := m.toList.map (·.1)

/-- The values in ascending order of their keys. -/
def values (m : SortedMap κ ν) : List ν := m.toList.map (·.2)

/-- The number of entries. -/
def size (m : SortedMap κ ν) : Nat := m.toList.length

@[simp] theorem get?_empty (k : κ) : (∅ : SortedMap κ ν).get? k = none := rfl

theorem lookup_eq_none_of_lt {k : κ} {l : List (κ × ν)} (h : ∀ e ∈ l, k < e.1) :
    lookup k l = none := by
  induction l with
  | nil => rfl
  | cons e l ih =>
    have hne : k ≠ e.1 := Key.ne_of_lt (h e (List.mem_cons_self ..))
    simp only [lookup, hne, if_false]
    exact ih fun e' he' => h e' (List.mem_cons_of_mem _ he')

/-- Look-up finds exactly the entries of the list. -/
theorem get?_eq_some_iff {m : SortedMap κ ν} {k : κ} {v : ν} :
    m.get? k = some v ↔ (k, v) ∈ m.toList := by
  obtain ⟨l, hl⟩ := m
  simp only [get?]
  induction l with
  | nil => simp [lookup]
  | cons e l ih =>
    have he := List.pairwise_cons.1 hl
    rw [lookup]
    split
    · rename_i hk
      subst hk
      constructor
      · intro h
        cases h
        exact List.mem_cons_self ..
      · intro h
        rcases List.mem_cons.1 h with h | h
        · rw [← h]
        · exact absurd (he.1 _ h) (Key.irrefl _)
    · rename_i hk
      rw [ih he.2, List.mem_cons]
      refine ⟨Or.inr, ?_⟩
      rintro (h | h)
      · rw [← h] at hk
        exact absurd rfl hk
      · exact h

theorem mem_keys_iff {m : SortedMap κ ν} {k : κ} : k ∈ m.keys ↔ ∃ v, m.get? k = some v := by
  simp [keys, get?_eq_some_iff]

theorem contains_iff {m : SortedMap κ ν} {k : κ} :
    m.contains k = true ↔ ∃ v, m.get? k = some v := by
  simp [contains, Option.isSome_iff_exists]

@[simp] theorem length_keys (m : SortedMap κ ν) : m.keys.length = m.size := List.length_map _

theorem nodup_keys (m : SortedMap κ ν) : m.keys.Nodup :=
  List.pairwise_map.2 (m.ascending.imp Key.ne_of_lt)

/-- Two ascending entry lists with the same look-ups are the same list. -/
private theorem eq_of_lookup_eq : ∀ {l₁ l₂ : List (κ × ν)}, l₁.Pairwise (·.1 < ·.1) →
    l₂.Pairwise (·.1 < ·.1) → (∀ k, lookup k l₁ = lookup k l₂) → l₁ = l₂
  | [], [], _, _, _ => rfl
  | [], (b, _) :: _, _, _, h => by simpa [lookup] using h b
  | (a, _) :: _, [], _, _, h => by simpa [lookup] using h a
  | (a, v) :: l₁, (b, w) :: l₂, h₁, h₂, h => by
    have ha := List.pairwise_cons.1 h₁
    have hb := List.pairwise_cons.1 h₂
    have hab : a = b := by
      rcases Decidable.em (a < b) with hlt | hge
      · have hNone : lookup a ((b, w) :: l₂) = none := by
          refine lookup_eq_none_of_lt fun e he => ?_
          rcases List.mem_cons.1 he with rfl | he
          · exact hlt
          · exact Key.trans hlt (hb.1 e he)
        have := h a
        rw [hNone] at this
        simp [lookup] at this
      · rcases Decidable.em (a = b) with hEq | hne
        · exact hEq
        · have hlt : b < a := Key.connected hge hne
          have hNone : lookup b ((a, v) :: l₁) = none := by
            refine lookup_eq_none_of_lt fun e he => ?_
            rcases List.mem_cons.1 he with rfl | he
            · exact hlt
            · exact Key.trans hlt (ha.1 e he)
          have := h b
          rw [hNone] at this
          simp [lookup] at this
    subst hab
    have hvw : v = w := by simpa [lookup] using h a
    subst hvw
    refine congrArg ((a, v) :: ·) (eq_of_lookup_eq ha.2 hb.2 fun k => ?_)
    rcases Decidable.em (k = a) with rfl | hne
    · rw [lookup_eq_none_of_lt ha.1, lookup_eq_none_of_lt hb.1]
    · simpa [lookup, hne] using h k

/-- A map is determined by its look-ups. -/
@[ext] theorem ext {m n : SortedMap κ ν} (h : ∀ k, m.get? k = n.get? k) : m = n := by
  cases m
  cases n
  congr
  exact eq_of_lookup_eq ‹_› ‹_› h

/-! ## Insertion -/

/-- Puts an entry into its place, over any entry of the same key. -/
def insertList (k : κ) (v : ν) : List (κ × ν) → List (κ × ν)
  | [] => [(k, v)]
  | (k', v') :: l =>
    if k < k' then (k, v) :: (k', v') :: l
    else if k = k' then (k, v) :: l
    else (k', v') :: insertList k v l

theorem fst_mem_insertList {k : κ} {v : ν} {l : List (κ × ν)} {e : κ × ν}
    (h : e ∈ insertList k v l) : e.1 = k ∨ e ∈ l := by
  induction l with
  | nil => simp_all [insertList]
  | cons e' l ih =>
    rw [insertList] at h
    split at h
    · rcases List.mem_cons.1 h with rfl | h
      · exact Or.inl rfl
      · exact Or.inr h
    · split at h
      · rcases List.mem_cons.1 h with rfl | h
        · exact Or.inl rfl
        · exact Or.inr (List.mem_cons_of_mem _ h)
      · rcases List.mem_cons.1 h with rfl | h
        · exact Or.inr (List.mem_cons_self ..)
        · exact (ih h).imp_right (List.mem_cons_of_mem _)

theorem ascending_insertList {k : κ} {v : ν} {l : List (κ × ν)}
    (h : l.Pairwise (·.1 < ·.1)) : (insertList k v l).Pairwise (·.1 < ·.1) := by
  induction l with
  | nil => simp [insertList]
  | cons e l ih =>
    have he := List.pairwise_cons.1 h
    rw [insertList]
    split
    · rename_i hlt
      refine List.pairwise_cons.2 ⟨fun e' he' => ?_, h⟩
      rcases List.mem_cons.1 he' with rfl | he'
      · exact hlt
      · exact Key.trans hlt (he.1 e' he')
    · split
      · rename_i hEq
        subst hEq
        exact List.pairwise_cons.2 ⟨he.1, he.2⟩
      · rename_i hge hne
        refine List.pairwise_cons.2 ⟨fun e' he' => ?_, ih he.2⟩
        rcases fst_mem_insertList he' with hEq | he'
        · rw [hEq]
          exact Key.connected hge hne
        · exact he.1 e' he'

/-- Gives a key a value, over any value it had. -/
def insert (m : SortedMap κ ν) (k : κ) (v : ν) : SortedMap κ ν :=
  ⟨insertList k v m.toList, ascending_insertList m.ascending⟩

private theorem lookup_insertList {k : κ} {v : ν} {l : List (κ × ν)} (a : κ) :
    lookup a (insertList k v l) = if a = k then some v else lookup a l := by
  induction l with
  | nil => simp [insertList, lookup]
  | cons e l ih =>
    rw [insertList]
    split
    · simp [lookup]
    · split
      · rename_i hEq
        subst hEq
        rcases Decidable.em (a = e.1) with h | h <;> simp [lookup, h]
      · rename_i hne
        rcases Decidable.em (a = e.1) with h | h
        · subst h
          simp [lookup, Ne.symm hne]
        · simp [lookup, h, ih]

theorem get?_insert (m : SortedMap κ ν) (k : κ) (v : ν) (a : κ) :
    (m.insert k v).get? a = if a = k then some v else m.get? a :=
  lookup_insertList a

@[simp] theorem get?_insert_self (m : SortedMap κ ν) (k : κ) (v : ν) :
    (m.insert k v).get? k = some v := by
  simp [get?_insert]

theorem get?_insert_of_ne (m : SortedMap κ ν) {k a : κ} (v : ν) (h : a ≠ k) :
    (m.insert k v).get? a = m.get? a := by
  simp [get?_insert, h]

/-- The map with the given entries; a later entry wins over an earlier one of its key. -/
def ofList (l : List (κ × ν)) : SortedMap κ ν := l.foldl (fun m e => m.insert e.1 e.2) ∅

private theorem get?_foldl_insert {l : List (κ × ν)} (hl : l.Pairwise (·.1 < ·.1))
    (m : SortedMap κ ν) (k : κ) :
    (l.foldl (fun m e => m.insert e.1 e.2) m).get? k = (lookup k l).or (m.get? k) := by
  induction l generalizing m with
  | nil => rfl
  | cons e l ih =>
    obtain ⟨hLess, hl⟩ := List.pairwise_cons.1 hl
    rw [List.foldl_cons, ih hl, get?_insert, lookup]
    rcases Decidable.em (k = e.1) with rfl | hne
    · simp [lookup_eq_none_of_lt hLess]
    · simp [hne]

@[simp] theorem ofList_toList (m : SortedMap κ ν) : ofList m.toList = m := by
  ext1 k
  rw [ofList, get?_foldl_insert m.ascending, get?_empty, Option.or_none]
  rfl

/-! ## Removal and change -/

private theorem lookup_filter {p : κ → Bool} {l : List (κ × ν)} (a : κ) :
    lookup a (l.filter fun e => p e.1) = if p a then lookup a l else none := by
  induction l with
  | nil => simp [lookup]
  | cons e l ih =>
    rw [List.filter_cons]
    rcases Decidable.em (a = e.1) with h | h
    · subst h
      cases hp : p e.1 <;> simp [lookup, hp, ih]
    · split <;> simp [lookup, h, ih]

/-- Keeps the entries whose key satisfies a test. -/
def filterKeys (p : κ → Bool) (m : SortedMap κ ν) : SortedMap κ ν :=
  ⟨m.toList.filter fun e => p e.1, m.ascending.filter _⟩

theorem get?_filterKeys (p : κ → Bool) (m : SortedMap κ ν) (a : κ) :
    (m.filterKeys p).get? a = if p a then m.get? a else none :=
  lookup_filter a

/-- Takes a key out. -/
def erase (m : SortedMap κ ν) (k : κ) : SortedMap κ ν := m.filterKeys (· ≠ k)

theorem get?_erase (m : SortedMap κ ν) (k a : κ) :
    (m.erase k).get? a = if a = k then none else m.get? a := by
  rw [erase, get?_filterKeys]
  rcases Decidable.em (a = k) with h | h <;> simp [h]

@[simp] theorem get?_erase_self (m : SortedMap κ ν) (k : κ) : (m.erase k).get? k = none := by
  simp [get?_erase]

private theorem lookup_mapEntries {f : κ → ν → μ} {l : List (κ × ν)} (a : κ) :
    lookup a (l.map fun e => (e.1, f e.1 e.2)) = (lookup a l).map (f a) := by
  induction l with
  | nil => rfl
  | cons e l ih =>
    rcases Decidable.em (a = e.1) with h | h
    · subst h
      simp [lookup]
    · simp [lookup, h, ih]

/-- Changes every value, with its key at hand. -/
def mapEntries (f : κ → ν → μ) (m : SortedMap κ ν) : SortedMap κ μ :=
  ⟨m.toList.map fun e => (e.1, f e.1 e.2), List.pairwise_map.2 (m.ascending.imp id)⟩

theorem get?_mapEntries (f : κ → ν → μ) (m : SortedMap κ ν) (a : κ) :
    (m.mapEntries f).get? a = (m.get? a).map (f a) :=
  lookup_mapEntries a

/-- Changes every value. -/
def mapValues (f : ν → μ) (m : SortedMap κ ν) : SortedMap κ μ := m.mapEntries fun _ => f

@[simp] theorem get?_mapValues (f : ν → μ) (m : SortedMap κ ν) (a : κ) :
    (m.mapValues f).get? a = (m.get? a).map f :=
  get?_mapEntries ..

/-- Changes the value of one key, if it has one. -/
def modify (m : SortedMap κ ν) (k : κ) (f : ν → ν) : SortedMap κ ν :=
  m.mapEntries fun a v => if a = k then f v else v

theorem get?_modify (m : SortedMap κ ν) (k : κ) (f : ν → ν) (a : κ) :
    (m.modify k f).get? a = if a = k then (m.get? a).map f else m.get? a := by
  rw [modify, get?_mapEntries]
  rcases Decidable.em (a = k) with h | h <;> cases m.get? a <;> simp [h]

@[simp] theorem get?_modify_self (m : SortedMap κ ν) (k : κ) (f : ν → ν) :
    (m.modify k f).get? k = (m.get? k).map f := by
  simp [get?_modify]

theorem get?_modify_of_ne (m : SortedMap κ ν) {k a : κ} (f : ν → ν) (h : a ≠ k) :
    (m.modify k f).get? a = m.get? a := by
  simp [get?_modify, h]

@[simp] theorem keys_mapEntries (f : κ → ν → μ) (m : SortedMap κ ν) :
    (m.mapEntries f).keys = m.keys := by
  simp [keys, mapEntries]

@[simp] theorem keys_modify (m : SortedMap κ ν) (k : κ) (f : ν → ν) :
    (m.modify k f).keys = m.keys :=
  keys_mapEntries ..

/-! ## Building maps -/

/-- The map that gives each of the listed keys its value under a partial function. -/
def tabulate (l : List κ) (f : κ → Option ν) : SortedMap κ ν :=
  l.foldl (fun m k => match f k with
    | some v => m.insert k v
    | none => m) ∅

theorem get?_tabulate (l : List κ) (f : κ → Option ν) (k : κ) :
    (tabulate l f).get? k = if k ∈ l then f k else none := by
  have h : ∀ (l : List κ) (m : SortedMap κ ν),
      (l.foldl (fun m k => match f k with
        | some v => m.insert k v
        | none => m) m).get? k =
      if k ∈ l then (f k).or (m.get? k) else m.get? k := by
    intro l
    induction l with
    | nil => simp
    | cons a l ih =>
      intro m
      rw [List.foldl_cons, ih]
      rcases Decidable.em (k = a) with rfl | hne
      · cases hf : f k <;> simp
      · have hget : (match f a with
            | some v => m.insert a v
            | none => m).get? k = m.get? k := by
          cases f a
          · rfl
          · exact get?_insert_of_ne m _ hne
        simp [hne, hget]
  rw [tabulate, h l ∅]
  simp

/-- The set of values that a list of pairs gives to each key. -/
def gather {β : Type} [Key β] (l : List (κ × β)) : SortedMap κ (SortedSet β) :=
  l.foldl (fun m e => m.insert e.1 (((m.get? e.1).getD ∅).insert e.2)) ∅

theorem mem_gather {β : Type} [Key β] {l : List (κ × β)} {k : κ} {b : β} :
    b ∈ ((gather l).get? k).getD ∅ ↔ (k, b) ∈ l := by
  have h : ∀ (l : List (κ × β)) (m : SortedMap κ (SortedSet β)),
      b ∈ ((l.foldl (fun m e => m.insert e.1 (((m.get? e.1).getD ∅).insert e.2)) m).get? k).getD ∅ ↔
        (k, b) ∈ l ∨ b ∈ (m.get? k).getD ∅ := by
    intro l
    induction l with
    | nil => simp
    | cons e l ih =>
      intro m
      rw [List.foldl_cons, ih, get?_insert]
      rcases Decidable.em (k = e.1) with h | h
      · subst h
        rw [if_pos rfl]
        simp only [Option.getD_some, SortedSet.mem_insert, List.mem_cons, Prod.ext_iff, true_and]
        exact or_left_comm.trans or_assoc.symm
      · rw [if_neg h]
        simp [Prod.ext_iff, h]
  rw [gather, h l ∅]
  simp

end SortedMap

end Midend
