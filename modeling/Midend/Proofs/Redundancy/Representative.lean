import Mathlib.Data.List.Induction
import Midend.Proofs.Redundancy.Dominated

/-!
# Numbers and representatives

The reports of a scan give every value a representative: the earlier value to one that is reported,
and itself to any other (`Redundancy.rename`). Where the scan comes by every value before it comes
by what reads it, two values have one number exactly if they have one representative
(`Numbering.Tells`). This holds at every point of the scan (`Numbering.exists_reached`), and what is
reported can then be said without numbers:

* `Numbering.reported_of_matches`: an instruction is reported if an available one before it, which
  is not reported, is the same up to the representatives of what they read.
* `Numbering.reported_matches`: only then, and that instruction is the representative.
* `Numbering.scan_eq_nil`: a scan in which no instruction is the same as an available one before it
  reports nothing. Here the order does not matter.
-/

namespace Midend

/-- Whatever of the list a constant, operator or conversion reads comes before it. -/
def ReadsBack (l : List Inst) : Prop :=
  ∀ front i back, l = front ++ i :: back → i.op.isFormula = true →
    ∀ v ∈ i.op.operands, v ∈ l.map (·.id) → v ∈ front.map (·.id)

/-- Instructions that match have one expression if their operands have one number. -/
theorem Expr.Describes.eq_of_matches {R : Nat → ValueId → Prop} {E : ValueId → ValueId → Prop}
    {e e' : Expr} {i j : Inst} (hi : e.Describes R i) (hj : e'.Describes R j)
    (hR : ∀ m n a b, R m a → R n b → E a b → m = n) (hTy : i.ty = j.ty)
    (h : i.op.Matches E j.op) : e = e' := by
  cases hi with
  | const hTy' op =>
    rw [op] at h
    cases hj with
    | const hTy'' op' =>
      rw [op'] at h
      cases h
      rw [← hTy', ← hTy'', hTy]
    | binary _ op' | unary _ op' | convert _ op' => rw [op'] at h; cases h
  | binary hTy' op lhs rhs =>
    rw [op] at h
    cases hj with
    | binary hTy'' op' lhs' rhs' =>
      rw [op'] at h
      cases h with
      | binary _ hl hr =>
        rw [← hTy', ← hTy'', hTy, hR _ _ _ _ lhs lhs' hl, hR _ _ _ _ rhs rhs' hr]
    | const _ op' | unary _ op' | convert _ op' => rw [op'] at h; cases h
  | unary hTy' op operand =>
    rw [op] at h
    cases hj with
    | unary hTy'' op' operand' =>
      rw [op'] at h
      cases h with
      | unary _ ha => rw [← hTy', ← hTy'', hTy, hR _ _ _ _ operand operand' ha]
    | const _ op' | binary _ op' | convert _ op' => rw [op'] at h; cases h
  | convert hTy' op operand =>
    rw [op] at h
    cases hj with
    | convert hTy'' op' operand' =>
      rw [op'] at h
      cases h with
      | convert ha => rw [← hTy', ← hTy'', hTy, hR _ _ _ _ operand operand' ha]
    | const _ op' | binary _ op' | unary _ op' => rw [op'] at h; cases h

/-- Operations that match in equal operands are equal. -/
theorem Op.Matches.eq {p q : Op} (h : p.Matches (· = ·) q) : p = q := by
  cases h <;> subst_vars <;> rfl

namespace Numbering

open Redundancy

variable {s : Numbering} {rep : ValueId → ValueId} {known : ValueId → Prop} {u v w : ValueId}
  {n : Nat} {i : Inst} {b : BlockId} {e : Expr}

/-! ## What numbers tell apart -/

/-- The values that have a number are known, and those with one number have one representative and
the other way round. A known value without a number shares its representative with no other. -/
structure Tells (rep : ValueId → ValueId) (known : ValueId → Prop) (s : Numbering) : Prop where
  lt : ∀ v n, s.numbers.get? v = some n → n < s.next
  is_known : ∀ v n, s.numbers.get? v = some n → known v
  iff : ∀ v w m n, s.numbers.get? v = some m → s.numbers.get? w = some n →
    (m = n ↔ rep v = rep w)
  total : ∀ v w, known v → known w → rep v = rep w → v ≠ w → ∃ n, s.numbers.get? v = some n

/-- At first no value has a number. -/
theorem tells_empty (h : ∀ v w, known v → known w → rep v = rep w → v = w) :
    Tells rep known {} := by
  have hNone : ∀ v n, ({} : Numbering).numbers.get? v ≠ some n := by
    intro v n hv
    simp at hv
  refine ⟨?_, ?_, ?_, ?_⟩
  · exact fun v n hv => absurd hv (hNone v n)
  · exact fun v n hv => absurd hv (hNone v n)
  · exact fun v w m n hv => absurd hv (hNone v m)
  · exact fun v w hv hw hRep hne => absurd (h v w hv hw hRep) hne

theorem Tells.number (h : Tells rep known s) (hv : known v) : Tells rep known (s.number v).2 := by
  cases hGet : s.numbers.get? v with
  | some k =>
    rw [number_of_some hGet]
    exact h
  | none =>
    -- nothing that has a number shares its representative with the value
    have hApart : ∀ w n, s.numbers.get? w = some n → rep v ≠ rep w := by
      intro w n hw hRep
      have hne : v ≠ w := by
        rintro rfl
        rw [hGet] at hw
        cases hw
      obtain ⟨k, hk⟩ := h.total v w hv (h.is_known w n hw) hRep hne
      rw [hGet] at hk
      cases hk
    have hEq := number_of_none hGet
    refine ⟨?_, ?_, ?_, ?_⟩
    · intro x m hx
      rw [hEq] at hx ⊢
      simp only [SortedMap.get?_insert] at hx
      split at hx
      · cases hx
        exact Nat.lt_succ_self _
      · exact Nat.lt_succ_of_lt (h.lt x m hx)
    · intro x m hx
      rw [hEq] at hx
      simp only [SortedMap.get?_insert] at hx
      split at hx
      · rename_i hxv
        rwa [hxv]
      · exact h.is_known x m hx
    · intro x y m k hx hy
      simp only [hEq, SortedMap.get?_insert] at hx hy
      split at hx <;> split at hy
      · cases hx
        cases hy
        subst_vars
        simp
      · rename_i hxv _
        cases hx
        have hLt := h.lt y k hy
        rw [hxv]
        exact iff_of_false (by omega) (hApart y k hy)
      · rename_i _ hyv
        cases hy
        have hLt := h.lt x m hx
        rw [hyv]
        exact iff_of_false (by omega) (hApart x m hx).symm
      · exact h.iff x y m k hx hy
    · intro x y hx hy hRep hne
      obtain ⟨k, hk⟩ := h.total x y hx hy hRep hne
      exact ⟨k, get?_number hk⟩

theorem Tells.sight (h : Tells rep known s) (l : List Sighting) :
    Tells rep known { s with sightings := l } := ⟨h.lt, h.is_known, h.iff, h.total⟩

theorem get?_expr? (h : s.numbers.get? u = some n) : (s.expr? i).2.numbers.get? u = some n := by
  unfold expr?
  split
  · exact h
  · exact get?_number (get?_number h)
  · exact get?_number h
  · exact get?_number h
  · exact h

theorem expr?_eq_none (h : (s.expr? i).1 = none) : i.op.isFormula = false := by
  cases hOp : i.op <;> simp [expr?, hOp] at h <;> rfl

theorem Tells.expr? (h : Tells rep known s)
    (hi : i.op.isFormula = true → ∀ v ∈ i.op.operands, known v) :
    Tells rep known (s.expr? i).2 := by
  unfold Numbering.expr?
  split
  · exact h
  · rename_i o x y hOp
    rw [hOp] at hi
    exact (h.number (hi rfl x (by simp [Op.operands]))).number (hi rfl y (by simp [Op.operands]))
  · rename_i o x hOp
    rw [hOp] at hi
    exact h.number (hi rfl x (by simp [Op.operands]))
  · rename_i x hOp
    rw [hOp] at hi
    exact h.number (hi rfl x (by simp [Op.operands]))
  · exact h

/-- One more value is known. -/
theorem Tells.extend (h : Tells rep known s) (hv : ∀ w, known w → rep w ≠ rep v) :
    Tells rep (fun u => known u ∨ u = v) s where
  lt := h.lt
  is_known u n hu := .inl (h.is_known u n hu)
  iff := h.iff
  total x y hx hy hRep hne := by
    rcases hx with hx | rfl
    · rcases hy with hy | rfl
      · exact h.total x y hx hy hRep hne
      · exact absurd hRep (hv x hx)
    · rcases hy with hy | rfl
      · exact absurd hRep.symm (hv y hy)
      · exact absurd rfl hne

/-- One more value is known, and it takes the number of its representative. -/
theorem Tells.assign (h : Tells rep known s) (hw : s.numbers.get? w = some n) (hv : rep v = rep w) :
    Tells rep (fun u => known u ∨ u = v) { s with numbers := s.numbers.insert v n } := by
  refine ⟨?_, ?_, ?_, ?_⟩
  · intro x m hx
    simp only [SortedMap.get?_insert] at hx
    split at hx
    · cases hx
      exact h.lt w n hw
    · exact h.lt x m hx
  · intro x m hx
    simp only [SortedMap.get?_insert] at hx
    split at hx
    · rename_i hxv
      exact .inr hxv
    · exact .inl (h.is_known x m hx)
  · intro x y m k hx hy
    simp only [SortedMap.get?_insert] at hx hy
    split at hx <;> split at hy
    · cases hx
      cases hy
      subst_vars
      simp
    · rename_i hxv _
      cases hx
      rw [hxv, hv]
      exact h.iff w y n k hw hy
    · rename_i _ hyv
      cases hy
      rw [hyv, hv]
      exact h.iff x w m n hx hw
    · exact h.iff x y m k hx hy
  · intro x y hx hy hRep hne
    simp only [SortedMap.get?_insert]
    split
    · exact ⟨n, rfl⟩
    rename_i hxv
    replace hx := hx.resolve_right hxv
    by_cases hxw : x = w
    · exact ⟨n, hxw ▸ hw⟩
    rcases hy with hy | rfl
    · exact h.total x y hx hy hRep hne
    · exact h.total x w hx (h.is_known w n hw) (hRep.trans hv) hxw

/-! ## Reports and places -/

section Places

variable {available : BlockId → BlockId → Bool} {l front back : List (BlockId × Inst)}
  {r : Redundancy}

/-- An instruction before another is in every first part that the other is in. -/
theorem mem_front_of_before {x y : BlockId × Inst} {before after : List (BlockId × Inst)}
    (hNodup : (l.map (·.2.id)).Nodup) (h : l = front ++ back) (h' : l = before ++ y :: after)
    (hy : y.2.id ∈ front.map (·.2.id)) (hx : x ∈ before) : x ∈ front := by
  rw [h] at h'
  rcases append_eq_append_cons h' with ⟨rest, rfl, -⟩ | ⟨rest, -, rfl⟩
  · exact List.mem_append_left _ hx
  · rw [h, List.map_append, List.nodup_append] at hNodup
    exact absurd rfl (hNodup.2.2 _ hy _ (List.mem_map_of_mem (by simp)))

variable (hNodup : (l.map (·.2.id)).Nodup)
include hNodup

theorem nodup_reports : ((scan available l {}).map (·.value)).Nodup :=
  (values_sublist l {}).nodup hNodup

/-- A representative comes before what it stands for. -/
theorem rename_mem_front (h : l = front ++ back) (hv : v ∈ front.map (·.2.id)) :
    rename (scan available l {}) v ∈ front.map (·.2.id) := by
  cases hGone : isGone (scan available l {}) v with
  | false => rwa [rename_of_not_isGone hGone]
  | true =>
    obtain ⟨r, hr, rfl, hEq⟩ := exists_rename_eq hGone
    obtain ⟨before, c, i, after, d, j, hSplit, hj, hId, hEarlier, -⟩ :=
      scan_justified (Func.congruence_true fun _ => True) (fun _ _ => trivial) hr
    rw [hEq, ← hEarlier]
    rw [← hId] at hv
    exact List.mem_map_of_mem (mem_front_of_before hNodup h hSplit hv hj)

omit hNodup in
theorem rename_of_not_mem (hv : v ∉ l.map (·.2.id)) : rename (scan available l {}) v = v := by
  apply rename_of_not_isGone
  rw [isGone_eq_false_iff]
  intro r hr hEq
  exact hv (hEq ▸ value_mem hr)

theorem rename_mem (hv : v ∈ l.map (·.2.id)) : rename (scan available l {}) v ∈ l.map (·.2.id) :=
  rename_mem_front hNodup (List.append_nil l).symm hv

end Places

/-! ## The state of a scan -/

variable {available : BlockId → BlockId → Bool} {l front back : List (BlockId × Inst)}
  {r : Redundancy}

/-- The state of a scan that has come through the first part of a list. Known are the values of that
part and those from elsewhere. -/
structure Reached (available : BlockId → BlockId → Bool) (l front back : List (BlockId × Inst))
    (s : Numbering) : Prop where
  split : l = front ++ back
  tells : Tells (rename (scan available l {}))
    (fun v => v ∈ l.map (·.2.id) → v ∈ front.map (·.2.id)) s
  numbered : ∀ x ∈ front, ∃ n, s.numbers.get? x.2.id = some n
  reports : ∃ done, scan available l {} = done ++ scan available back s ∧
    ∀ r ∈ done, r.value ∈ front.map (·.2.id)
  sighted : ∀ t ∈ s.sightings, ∃ j, (t.block, j) ∈ front ∧ j.id = t.value ∧
    t.expr.Describes (fun n a => s.numbers.get? a = some n) j
  found : ∀ x ∈ front, x.2.op.isFormula = true → isGone (scan available l {}) x.2.id = false →
    ∃ t ∈ s.sightings, t.block = x.1 ∧ t.expr.Describes (fun n a => s.numbers.get? a = some n) x.2

theorem reached_start : Reached available l [] l {} where
  split := rfl
  tells := by
    refine tells_empty fun v w hv hw hRep => ?_
    rwa [rename_of_not_mem fun hMem => List.not_mem_nil (hv hMem),
      rename_of_not_mem fun hMem => List.not_mem_nil (hw hMem)] at hRep
  numbered x hx := absurd hx List.not_mem_nil
  reports := ⟨[], rfl, fun r hr => absurd hr List.not_mem_nil⟩
  sighted t ht := absurd ht List.not_mem_nil
  found x hx := absurd hx List.not_mem_nil

/-- One more instruction is one more known value. -/
theorem known_step (h : l = front ++ (b, i) :: back) :
    (fun v => (v ∈ l.map (·.2.id) → v ∈ front.map (·.2.id)) ∨ v = i.id) =
      fun v => v ∈ l.map (·.2.id) → v ∈ (front ++ [(b, i)]).map (·.2.id) := by
  funext v
  have hMem : i.id ∈ l.map (·.2.id) := by
    rw [h]
    simp
  rw [List.map_append, List.mem_append, eq_iff_iff]
  constructor
  · rintro (hv | rfl) hvl
    · exact .inl (hv hvl)
    · exact .inr (by simp)
  · intro hv
    by_cases hEq : v = i.id
    · exact .inr hEq
    · exact .inl fun hvl => (hv hvl).resolve_right fun hNew => hEq (by simpa using hNew)

section Step

variable (h : Reached available l front ((b, i) :: back) s) (hNodup : (l.map (·.2.id)).Nodup)
include h hNodup

theorem Reached.unknown : ¬ (i.id ∈ l.map (·.2.id) → i.id ∈ front.map (·.2.id)) := by
  intro hKnown
  have hMem : i.id ∈ l.map (·.2.id) := by
    rw [h.split]
    simp
  rw [h.split, List.map_append, List.nodup_append] at hNodup
  exact hNodup.2.2 _ (hKnown hMem) _ (by simp) rfl

theorem Reached.not_mem_back : i.id ∉ back.map (·.2.id) := by
  rw [h.split, List.map_append, List.nodup_append] at hNodup
  exact (List.nodup_cons.mp hNodup.2.1).1

/-- What is reported of an instruction is what its visit says. -/
theorem Reached.mem_reports (hr : r ∈ scan available l {}) (hId : r.value = i.id) :
    (s.visit (available · b) b i).1 = some r.earlier := by
  obtain ⟨done, hReports, hDone⟩ := h.reports
  have hNotDone : r ∉ done := fun hMem =>
    h.unknown hNodup fun _ => hId ▸ hDone r hMem
  have hNotLater : ∀ s, r ∉ scan available back s := fun s hMem =>
    h.not_mem_back hNodup (hId ▸ value_mem hMem)
  rw [hReports, List.mem_append] at hr
  replace hr := hr.resolve_left hNotDone
  cases hVisit : (s.visit (available · b) b i).1 with
  | none =>
    rw [scan_of_none hVisit] at hr
    exact absurd hr (hNotLater _)
  | some o =>
    rw [scan_of_some hVisit] at hr
    rcases List.mem_cons.mp hr with rfl | hr
    · rfl
    · exact absurd hr (hNotLater _)

omit hNodup in
theorem Reached.reported {o : ValueId} (hVisit : (s.visit (available · b) b i).1 = some o) :
    ⟨i.id, o⟩ ∈ scan available l {} := by
  obtain ⟨done, hReports, -⟩ := h.reports
  rw [hReports, scan_of_some hVisit]
  exact List.mem_append_right _ List.mem_cons_self

theorem Reached.not_isGone (hVisit : (s.visit (available · b) b i).1 = none) :
    isGone (scan available l {}) i.id = false := by
  rw [isGone_eq_false_iff]
  intro r hr hId
  rw [h.mem_reports hNodup hr hId] at hVisit
  cases hVisit

omit hNodup in
theorem Reached.reports_step : ∃ done,
    scan available l {} = done ++ scan available back (s.visit (available · b) b i).2 ∧
      ∀ r ∈ done, r.value ∈ (front ++ [(b, i)]).map (·.2.id) := by
  obtain ⟨done, hReports, hDone⟩ := h.reports
  have hOld : ∀ r ∈ done, r.value ∈ (front ++ [(b, i)]).map (·.2.id) := by
    intro r hr
    rw [List.map_append]
    exact List.mem_append_left _ (hDone r hr)
  cases hVisit : (s.visit (available · b) b i).1 with
  | none => exact ⟨done, by rw [hReports, scan_of_none hVisit], hOld⟩
  | some o =>
    refine ⟨done ++ [⟨i.id, o⟩], by rw [hReports, scan_of_some hVisit]; simp, ?_⟩
    intro r hr
    rcases List.mem_append.mp hr with hr | hr
    · exact hOld r hr
    · rw [List.mem_singleton.mp hr]
      simp

omit hNodup in
/-- What an instruction reads is known. -/
theorem Reached.tells_expr? (hOrder : ReadsBack (l.map (·.2))) :
    Tells (rename (scan available l {})) (fun v => v ∈ l.map (·.2.id) → v ∈ front.map (·.2.id))
      (s.expr? i).2 := by
  apply h.tells.expr?
  intro hForm v hv hMem
  have hSplit : l.map (·.2) = front.map (·.2) ++ i :: back.map (·.2) := by
    rw [h.split, List.map_append, List.map_cons]
  have hFront := hOrder _ i _ hSplit hForm v hv (by rwa [List.map_map])
  rwa [List.map_map] at hFront

/-- An instruction that is not reported gets a number of its own. -/
theorem Reached.tells_new (hOrder : ReadsBack (l.map (·.2)))
    (hStays : isGone (scan available l {}) i.id = false) :
    Tells (rename (scan available l {}))
      (fun v => v ∈ l.map (·.2.id) → v ∈ (front ++ [(b, i)]).map (·.2.id))
      ((s.expr? i).2.number i.id).2 := by
  have hUnknown := h.unknown hNodup
  have hWide := (h.tells_expr? hOrder).extend (v := i.id) (by
    intro w hw hRep
    -- the representative of a known value is known
    rw [rename_of_not_isGone hStays] at hRep
    refine hUnknown fun hMem => ?_
    have hwl : w ∈ l.map (·.2.id) := by
      by_contra hNot
      rw [rename_of_not_mem hNot] at hRep
      exact hNot (hRep ▸ hMem)
    exact hRep ▸ rename_mem_front hNodup h.split (hw hwl))
  exact (known_step h.split ▸ hWide).number fun _ => by simp

/-- An instruction that is reported gets the number of the earlier one. -/
theorem Reached.tells_reported (hOrder : ReadsBack (l.map (·.2))) {o : ValueId} {n : Nat}
    (hVisit : (s.visit (available · b) b i).1 = some o)
    (ho : (s.expr? i).2.numbers.get? o = some n) :
    Tells (rename (scan available l {}))
      (fun v => v ∈ l.map (·.2.id) → v ∈ (front ++ [(b, i)]).map (·.2.id))
      { (s.expr? i).2 with numbers := (s.expr? i).2.numbers.insert i.id n } := by
  have hr := h.reported hVisit
  have hRep : rename (scan available l {}) i.id = o := rename_of_mem (nodup_reports hNodup) hr
  have hSelf : rename (scan available l {}) o = o :=
    rename_of_not_isGone (isGone_eq_false_iff.mpr (earlier_not_reported hNodup hr))
  exact known_step h.split ▸ (h.tells_expr? hOrder).assign ho (hRep.trans hSelf.symm)

omit hNodup in
/-- What has been seen stays as it is while numbers and sightings are added. -/
theorem Reached.advance {s' : Numbering}
    (hMore : ∀ v n, s.numbers.get? v = some n → s'.numbers.get? v = some n)
    (hTells : Tells (rename (scan available l {}))
      (fun v => v ∈ l.map (·.2.id) → v ∈ (front ++ [(b, i)]).map (·.2.id)) s')
    (hSelf : ∃ n, s'.numbers.get? i.id = some n)
    (hReports : ∃ done, scan available l {} = done ++ scan available back s' ∧
      ∀ r ∈ done, r.value ∈ (front ++ [(b, i)]).map (·.2.id))
    (hNew : ∀ t ∈ s'.sightings, t ∈ s.sightings ∨ t.block = b ∧ i.id = t.value ∧
      t.expr.Describes (fun n a => s'.numbers.get? a = some n) i)
    (hKeep : s.sightings ⊆ s'.sightings)
    (hFound : i.op.isFormula = true → isGone (scan available l {}) i.id = false →
      ∃ t ∈ s'.sightings, t.block = b ∧ t.expr.Describes (fun n a => s'.numbers.get? a = some n) i) :
    Reached available l (front ++ [(b, i)]) back s' where
  split := by
    rw [h.split]
    simp
  tells := hTells
  numbered := by
    refine List.forall_mem_append.mpr ⟨fun x hx => ?_, List.forall_mem_singleton.mpr hSelf⟩
    obtain ⟨n, hn⟩ := h.numbered x hx
    exact ⟨n, hMore _ n hn⟩
  reports := hReports
  sighted t ht := by
    rcases hNew t ht with ht | ⟨rfl, hId, hDesc⟩
    · obtain ⟨j, hj, hId, hDesc⟩ := h.sighted t ht
      exact ⟨j, List.mem_append_left _ hj, hId, hDesc.mono fun n a => hMore a n⟩
    · exact ⟨i, by simp, hId, hDesc⟩
  found := by
    refine List.forall_mem_append.mpr ⟨fun x hx hForm hStays => ?_,
      List.forall_mem_singleton.mpr hFound⟩
    obtain ⟨t, ht, hBlock, hDesc⟩ := h.found x hx hForm hStays
    exact ⟨t, hKeep ht, hBlock, hDesc.mono fun n a => hMore a n⟩

theorem Reached.step (hOrder : ReadsBack (l.map (·.2))) :
    Reached available l (front ++ [(b, i)]) back (s.visit (available · b) b i).2 := by
  have hReports := h.reports_step
  rcases visit_cases s (available · b) b i with
    ⟨hNone, hEq⟩ | ⟨e, he, ⟨t, ht, rfl, -, hEq⟩ | ⟨-, hEq⟩⟩
  · -- a value of another kind
    have hStays := h.not_isGone hNodup (by rw [hEq])
    rw [hEq] at hReports ⊢
    refine h.advance (fun v n hv => get?_number (get?_expr? hv)) (h.tells_new hNodup hOrder hStays)
      ⟨_, get?_number_self⟩ hReports (fun t ht => .inl ?_) ?_ fun hForm => ?_
    · rwa [sightings_number, sightings_expr?] at ht
    · rw [sightings_number, sightings_expr?]
      exact List.Subset.refl _
    · rw [expr?_eq_none hNone] at hForm
      cases hForm
  · -- a redundant value: the earlier one has its number already
    obtain ⟨j, hj, hId, -⟩ := h.sighted t ht
    obtain ⟨n, hn⟩ := h.numbered (t.block, j) hj
    have ho : (s.expr? i).2.numbers.get? t.value = some n := by
      rw [← hId]
      exact get?_expr? hn
    have hVisit : (s.visit (available · b) b i).1 = some t.value := by rw [hEq]
    have hTells := h.tells_reported hNodup hOrder hVisit ho
    have hGone := isGone_iff.mpr ⟨_, h.reported hVisit, rfl⟩
    rw [hEq, number_of_some ho] at hReports ⊢
    refine h.advance (fun v m hv => ?_) hTells ⟨n, SortedMap.get?_insert_self _ _ _⟩ hReports
      (fun t' ht' => .inl ?_) ?_ fun _ hStays => ?_
    · have hne : v ≠ i.id := by
        rintro rfl
        exact h.unknown hNodup (h.tells.is_known _ m hv)
      exact (SortedMap.get?_insert_of_ne _ _ hne).trans (get?_expr? hv)
    · rwa [sightings_expr?] at ht'
    · rw [sightings_expr?]
      exact List.Subset.refl _
    · rw [hGone] at hStays
      cases hStays
  · -- a new value
    have hStays := h.not_isGone hNodup (by rw [hEq])
    have hTells := h.tells_new hNodup hOrder hStays
    have hDesc : e.Describes (fun n a => ((s.expr? i).2.number i.id).2.numbers.get? a = some n) i :=
      (describes_expr? he).mono fun n a ha => get?_number ha
    rw [hEq] at hReports ⊢
    refine h.advance (fun v n hv => get?_number (get?_expr? hv)) (hTells.sight _)
      ⟨_, get?_number_self⟩ hReports (fun t ht => ?_) (List.subset_append_left _ _) fun _ _ =>
        ⟨⟨e, b, i.id⟩, List.mem_append_right _ List.mem_cons_self, rfl, hDesc⟩
    rcases List.mem_append.mp ht with ht | ht
    · exact .inl ht
    · rw [List.mem_singleton.mp ht]
      exact .inr ⟨rfl, rfl, hDesc⟩

end Step

/-- Wherever a list is cut, there is a state in which the scan has come through the first part. -/
theorem exists_reached (available : BlockId → BlockId → Bool) (hNodup : (l.map (·.2.id)).Nodup)
    (hOrder : ReadsBack (l.map (·.2))) :
    ∀ front back, l = front ++ back → ∃ s, Reached available l front back s := by
  intro front
  induction front using List.reverseRecOn with
  | nil =>
    rintro back rfl
    exact ⟨{}, reached_start⟩
  | append_singleton front x ih =>
    intro back hSplit
    rw [List.append_assoc, List.singleton_append] at hSplit
    obtain ⟨s, hs⟩ := ih _ hSplit
    exact ⟨_, hs.step hNodup hOrder⟩

/-! ## What is reported -/

/-- The values have one representative. -/
def Alike (available : BlockId → BlockId → Bool) (l : List (BlockId × Inst)) (v w : ValueId) : Prop :=
  rename (scan available l {}) v = rename (scan available l {}) w

theorem Alike.symm (h : Alike available l v w) : Alike available l w v := Eq.symm h

theorem Alike.trans (h : Alike available l u v) (h' : Alike available l v w) : Alike available l u w :=
  Eq.trans h h'

/-- An instruction is reported if it is, up to the representatives of what is read, the same as an
available one before it that is not reported. -/
theorem reported_of_matches (hNodup : (l.map (·.2.id)).Nodup) (hOrder : ReadsBack (l.map (·.2)))
    (hSplit : l = front ++ (b, i) :: back) {x : BlockId × Inst} (hx : x ∈ front)
    (hAvailable : available x.1 b = true) (hStays : isGone (scan available l {}) x.2.id = false)
    (hTy : i.ty = x.2.ty) (hMatch : i.op.Matches (Alike available l) x.2.op) :
    isGone (scan available l {}) i.id = true := by
  obtain ⟨s, hs⟩ := exists_reached available hNodup hOrder _ _ hSplit
  obtain ⟨hForm, hForm'⟩ := hMatch.isFormula
  rcases visit_cases s (available · b) b i with
    ⟨hNone, -⟩ | ⟨e, he, ⟨t, -, -, -, hEq⟩ | ⟨hFree, -⟩⟩
  · rw [expr?_eq_none hNone] at hForm
    cases hForm
  · exact isGone_iff.mpr ⟨_, hs.reported (by rw [hEq]), rfl⟩
  · -- the earlier instruction was sighted, and its expression is the same
    obtain ⟨t, ht, hBlock, hDesc⟩ := hs.found x hx hForm' hStays
    have hSame : e = t.expr :=
      (describes_expr? he).eq_of_matches (hDesc.mono fun n a ha => get?_expr? ha)
        (fun m n v w hv hw hRep => ((hs.tells_expr? hOrder).iff v w m n hv hw).mpr hRep) hTy hMatch
    have hNot := hFree t ht hSame.symm
    rw [hBlock, hAvailable] at hNot
    cases hNot

/-- What is reported is the same as the earlier value, up to the representatives of what is read. -/
theorem reported_matches (hNodup : (l.map (·.2.id)).Nodup) (hOrder : ReadsBack (l.map (·.2)))
    (hr : r ∈ scan available l {}) : r.Justified available (Alike available l) l := by
  obtain ⟨⟨b, i⟩, hx, hId⟩ := List.mem_map.mp (value_mem hr)
  obtain ⟨front, back, hSplit⟩ := List.append_of_mem hx
  obtain ⟨s, hs⟩ := exists_reached available hNodup hOrder _ _ hSplit
  have hVisit := hs.mem_reports hNodup hr hId.symm
  rcases visit_cases s (available · b) b i with
    ⟨-, hEq⟩ | ⟨e, he, ⟨t, ht, rfl, hAvailable, hEq⟩ | ⟨-, hEq⟩⟩
  · rw [hEq] at hVisit
    cases hVisit
  · rw [hEq] at hVisit
    obtain ⟨j, hj, hValue, hDesc⟩ := hs.sighted t ht
    have hAgree := (describes_expr? he).agree (hDesc.mono fun n a ha => get?_expr? ha)
      fun n v w hv hw => ((hs.tells_expr? hOrder).iff v w n n hv hw).mp rfl
    exact ⟨front, b, i, back, t.block, j, hSplit, hj, hId, hValue.trans (Option.some.inj hVisit),
      hAvailable, hAgree⟩
  · rw [hEq] at hVisit
    cases hVisit

/-! ## A scan without reports -/

/-- As long as nothing is reported, every value is its own representative and has its own number. -/
theorem scan_eq_nil_of_tells (front : List (BlockId × Inst)) (hs : Tells (fun v => v) (fun _ => True) s)
    (hSighted : ∀ t ∈ s.sightings, ∃ x ∈ front, x.1 = t.block ∧
      t.expr.Describes (fun n a => s.numbers.get? a = some n) x.2)
    (h : (front ++ l).Pairwise fun x y => available x.1 y.1 = true → y.2.op.isFormula = true →
      y.2.ty = x.2.ty → y.2.op ≠ x.2.op) : scan available l s = [] := by
  induction l generalizing front s with
  | nil => rfl
  | cons y l ih =>
    obtain ⟨b, i⟩ := y
    have hExpr : Tells (fun v => v) (fun _ => True) (s.expr? i).2 := hs.expr? fun _ _ _ => trivial
    have hs' := hExpr.number (v := i.id) trivial
    have hMore : ∀ (x : Inst) (e : Expr), e.Describes (fun n a => s.numbers.get? a = some n) x →
        e.Describes (fun n a => ((s.expr? i).2.number i.id).2.numbers.get? a = some n) x :=
      fun x e hDesc => hDesc.mono fun n a ha => get?_number (get?_expr? ha)
    have hNext : (front ++ [(b, i)] ++ l).Pairwise fun x y => available x.1 y.1 = true →
        y.2.op.isFormula = true → y.2.ty = x.2.ty → y.2.op ≠ x.2.op := by
      rwa [List.append_assoc, List.singleton_append]
    rcases visit_cases s (available · b) b i with
      ⟨-, hEq⟩ | ⟨e, he, ⟨t, ht, rfl, hAvailable, hEq⟩ | ⟨-, hEq⟩⟩
    · rw [scan_of_none (by rw [hEq]), hEq]
      refine ih _ hs' (fun t ht => ?_) hNext
      rw [sightings_number, sightings_expr?] at ht
      obtain ⟨x, hx, hBlock, hDesc⟩ := hSighted t ht
      exact ⟨x, List.mem_append_left _ hx, hBlock, hMore x.2 _ hDesc⟩
    · -- an expression that has been sighted is that of the same instruction
      obtain ⟨x, hx, hBlock, hDesc⟩ := hSighted t ht
      obtain ⟨hTy, hMatch⟩ := (describes_expr? he).agree (hDesc.mono fun n a ha => get?_expr? ha)
        fun n v w hv hw => (hExpr.iff v w n n hv hw).mp rfl
      have hSame : i.op = x.2.op := hMatch.eq
      rw [List.pairwise_append] at h
      exact absurd hSame
        (h.2.2 x hx (b, i) List.mem_cons_self (hBlock ▸ hAvailable) hMatch.isFormula.1 hTy)
    · rw [scan_of_none (by rw [hEq]), hEq]
      refine ih _ (hs'.sight _) (fun t ht => ?_) hNext
      rcases List.mem_append.mp ht with ht | ht
      · obtain ⟨x, hx, hBlock, hDesc⟩ := hSighted t ht
        exact ⟨x, List.mem_append_left _ hx, hBlock, hMore x.2 _ hDesc⟩
      · rw [List.mem_singleton.mp ht]
        exact ⟨(b, i), by simp, rfl, (describes_expr? he).mono fun n a ha => get?_number ha⟩

/-- A scan in which no instruction is the same as an available one before it reports nothing. -/
theorem scan_eq_nil (h : l.Pairwise fun x y => available x.1 y.1 = true → y.2.op.isFormula = true →
    y.2.ty = x.2.ty → y.2.op ≠ x.2.op) : scan available l {} = [] := by
  refine scan_eq_nil_of_tells [] (tells_empty fun v w _ _ hEq => hEq) ?_ h
  exact fun t ht => absurd ht List.not_mem_nil

end Numbering

end Midend
