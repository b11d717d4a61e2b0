import Mathlib.Data.List.Nodup
import Midend.Redundancy.Expansion
import Midend.Redundancy.Numbering

/-!
# What a scan reports

A scan never says of two values that they compute the same thing without a reason: values with the
same number are related by every congruence of the scanned instructions, whatever order these come
in. What is to be shown of a redundant value and the earlier one is therefore shown to be a
congruence.

* `Numbering.scan_justified`: a reported value has an earlier one from an available block, which is
  the same constant, operator or conversion of related operands.
* `Numbering.earlier_not_reported`: the earlier value is itself never reported.
* `Numbering.values_sublist`: values are reported in the order of the scan, each once.
-/

namespace Midend

/-- The same constant, operator or conversion, of related operands. -/
inductive Op.Matches (E : ValueId → ValueId → Prop) : Op → Op → Prop where
  | const (c : Literal) : Matches E (.const c) (.const c)
  | binary (o : BinaryOp) {a b c d : ValueId} (lhs : E a c) (rhs : E b d) :
      Matches E (.binary o a b) (.binary o c d)
  | unary (o : UnaryOp) {a b : ValueId} (operand : E a b) : Matches E (.unary o a) (.unary o b)
  | convert {a b : ValueId} (operand : E a b) : Matches E (.convert a) (.convert b)

theorem Op.Matches.isFormula {E : ValueId → ValueId → Prop} {p q : Op} (h : p.Matches E q) :
    p.isFormula = true ∧ q.isFormula = true := by
  cases h <;> exact ⟨rfl, rfl⟩

/-- An equivalence of values that the instructions of a kind respect. -/
structure Congruence (P : Inst → Prop) (E : ValueId → ValueId → Prop) : Prop where
  refl : ∀ v, E v v
  symm : ∀ v w, E v w → E w v
  trans : ∀ u v w, E u v → E v w → E u w
  congr : ∀ i j, P i → P j → i.ty = j.ty → i.op.Matches E j.op → E i.id j.id

theorem Congruence.mono {P Q : Inst → Prop} {E : ValueId → ValueId → Prop} (h : Congruence P E)
    (hQ : ∀ i, Q i → P i) : Congruence Q E :=
  ⟨h.refl, h.symm, h.trans, fun i j hi hj => h.congr i j (hQ i hi) (hQ j hj)⟩

/-- The expression is what an instruction computes, with operands found through their numbers. -/
inductive Expr.Describes (R : Nat → ValueId → Prop) : Expr → Inst → Prop where
  | const {i : Inst} {ty : Ty} {c : Literal} (ty_eq : i.ty = ty) (op : i.op = .const c) :
      Describes R (.const ty c) i
  | binary {i : Inst} {ty : Ty} {o : BinaryOp} {a b : ValueId} {m n : Nat} (ty_eq : i.ty = ty)
      (op : i.op = .binary o a b) (lhs : R m a) (rhs : R n b) : Describes R (.binary ty o m n) i
  | unary {i : Inst} {ty : Ty} {o : UnaryOp} {a : ValueId} {n : Nat} (ty_eq : i.ty = ty)
      (op : i.op = .unary o a) (operand : R n a) : Describes R (.unary ty o n) i
  | convert {i : Inst} {ty : Ty} {a : ValueId} {n : Nat} (ty_eq : i.ty = ty)
      (op : i.op = .convert a) (operand : R n a) : Describes R (.convert ty n) i

namespace Expr.Describes

variable {R R' : Nat → ValueId → Prop} {e : Expr} {i j : Inst}

theorem mono (h : e.Describes R i) (hR : ∀ n a, R n a → R' n a) : e.Describes R' i := by
  cases h with
  | const hTy op => exact .const hTy op
  | binary hTy op lhs rhs => exact .binary hTy op (hR _ _ lhs) (hR _ _ rhs)
  | unary hTy op operand => exact .unary hTy op (hR _ _ operand)
  | convert hTy op operand => exact .convert hTy op (hR _ _ operand)

/-- Instructions that one expression describes match. -/
theorem agree {E : ValueId → ValueId → Prop} (hi : e.Describes R i) (hj : e.Describes R' j)
    (hE : ∀ n a b, R n a → R' n b → E a b) : i.ty = j.ty ∧ i.op.Matches E j.op := by
  cases hi with
  | const hTy op =>
    cases hj with
    | const hTy' op' => exact ⟨hTy.trans hTy'.symm, by rw [op, op']; exact .const _⟩
  | binary hTy op lhs rhs =>
    cases hj with
    | binary hTy' op' lhs' rhs' =>
      refine ⟨hTy.trans hTy'.symm, ?_⟩
      rw [op, op']
      exact .binary _ (hE _ _ _ lhs lhs') (hE _ _ _ rhs rhs')
  | unary hTy op operand =>
    cases hj with
    | unary hTy' op' operand' =>
      refine ⟨hTy.trans hTy'.symm, ?_⟩
      rw [op, op']
      exact .unary _ (hE _ _ _ operand operand')
  | convert hTy op operand =>
    cases hj with
    | convert hTy' op' operand' =>
      refine ⟨hTy.trans hTy'.symm, ?_⟩
      rw [op, op']
      exact .convert (hE _ _ _ operand operand')

end Expr.Describes

namespace Numbering

variable {s : Numbering} {u v w : ValueId} {n : Nat} {i : Inst} {b : BlockId} {e : Expr}

/-! ## Giving a number -/

theorem get?_number_self : (s.number v).2.numbers.get? v = some (s.number v).1 := by
  unfold number
  split
  · assumption
  · simp

theorem number_of_none (h : s.numbers.get? v = none) :
    s.number v = (s.next, { s with numbers := s.numbers.insert v s.next, next := s.next + 1 }) := by
  simp only [number, h]

theorem number_of_some (h : s.numbers.get? v = some n) : s.number v = (n, s) := by
  simp only [number, h]

theorem get?_number (h : s.numbers.get? u = some n) :
    (s.number v).2.numbers.get? u = some n := by
  cases hv : s.numbers.get? v with
  | some k =>
    rw [number_of_some hv]
    exact h
  | none =>
    have hne : u ≠ v := fun hEq => by rw [hEq, hv] at h; cases h
    rw [number_of_none hv]
    simpa [SortedMap.get?_insert, hne] using h

@[simp] theorem sightings_number : (s.number v).2.sightings = s.sightings := by
  unfold number
  split <;> rfl

/-! ## What the numbers say -/

variable {E : ValueId → ValueId → Prop} {P : Inst → Prop} {seen : List (BlockId × Inst)}

/-- The number stands for what is related to the value. -/
def Means (s : Numbering) (E : ValueId → ValueId → Prop) (n : Nat) (a : ValueId) : Prop :=
  n < s.next ∧ ∀ u, s.numbers.get? u = some n → E u a

/-- Values of one number are related, and a sighting describes an instruction that was seen. -/
structure Sound (E : ValueId → ValueId → Prop) (seen : List (BlockId × Inst)) (s : Numbering) :
    Prop where
  lt : ∀ v n, s.numbers.get? v = some n → n < s.next
  same : ∀ v w n, s.numbers.get? v = some n → s.numbers.get? w = some n → E v w
  sighted : ∀ t ∈ s.sightings, ∃ j, (t.block, j) ∈ seen ∧ j.id = t.value ∧
    t.expr.Describes (s.Means E) j

theorem Sound.empty : Sound E [] {} := by
  refine ⟨fun v n h => ?_, fun v w n h => ?_, fun t ht => absurd ht List.not_mem_nil⟩ <;>
    simp at h

theorem Sound.means (hs : Sound E seen s) (h : s.numbers.get? v = some n) : s.Means E n v :=
  ⟨hs.lt v n h, fun u hu => hs.same u v n hu h⟩

/-- A new number is none that anything has. -/
theorem Means.number (h : s.Means E n u) : (s.number v).2.Means E n u := by
  cases hv : s.numbers.get? v with
  | some k =>
    rw [number_of_some hv]
    exact h
  | none =>
    rw [number_of_none hv]
    refine ⟨Nat.lt_succ_of_lt h.1, fun x hx => ?_⟩
    by_cases hEq : x = v
    · subst hEq
      simp only [SortedMap.get?_insert, if_true, Option.some.injEq] at hx
      exact absurd hx (Nat.ne_of_gt h.1)
    · simp only [SortedMap.get?_insert, if_neg hEq] at hx
      exact h.2 x hx

theorem Sound.number (hE : Congruence P E) (hs : Sound E seen s) (v : ValueId) :
    Sound E seen (s.number v).2 := by
  cases hv : s.numbers.get? v with
  | some k =>
    rw [number_of_some hv]
    exact hs
  | none =>
    have hEq := number_of_none hv
    refine ⟨fun x n hx => ?_, fun x y n hx hy => ?_, fun t ht => ?_⟩
    · rw [hEq] at hx ⊢
      simp only [SortedMap.get?_insert] at hx
      split at hx
      · cases hx
        exact Nat.lt_succ_self _
      · exact Nat.lt_succ_of_lt (hs.lt x n hx)
    · simp only [hEq, SortedMap.get?_insert] at hx hy
      split at hx <;> split at hy
      · subst_vars
        exact hE.refl _
      · cases hx
        exact absurd (hs.lt y _ hy) (Nat.lt_irrefl _)
      · cases hy
        exact absurd (hs.lt x _ hx) (Nat.lt_irrefl _)
      · exact hs.same x y n hx hy
    · rw [sightings_number] at ht
      obtain ⟨j, hj, hId, hDesc⟩ := hs.sighted t ht
      exact ⟨j, hj, hId, hDesc.mono fun n a hn => hn.number⟩

/-! ## Visiting an instruction -/

@[simp] theorem sightings_expr? : (s.expr? i).2.sightings = s.sightings := by
  unfold expr?
  split <;> simp

theorem Sound.expr? (hE : Congruence P E) (hs : Sound E seen s) (i : Inst) :
    Sound E seen (s.expr? i).2 := by
  unfold Numbering.expr?
  split
  · exact hs
  · exact (hs.number hE _).number hE _
  · exact hs.number hE _
  · exact hs.number hE _
  · exact hs

/-- The expression of an instruction has the numbers that its operands then have. -/
theorem describes_expr? (h : (s.expr? i).1 = some e) :
    e.Describes (fun n a => (s.expr? i).2.numbers.get? a = some n) i := by
  generalize hEq : s.expr? i = r at h ⊢
  unfold expr? at hEq
  split at hEq <;> subst hEq <;> cases h <;> rename_i hOp
  · exact .const rfl hOp
  · exact .binary rfl hOp (get?_number get?_number_self) get?_number_self
  · exact .unary rfl hOp get?_number_self
  · exact .convert rfl hOp get?_number_self

/-- What a visit does: a value may be of another kind, may be redundant, or may be new. -/
theorem visit_cases (s : Numbering) (available : BlockId → Bool) (b : BlockId) (i : Inst) :
    ((s.expr? i).1 = none ∧ s.visit available b i = (none, ((s.expr? i).2.number i.id).2)) ∨
    (∃ e, (s.expr? i).1 = some e ∧
      ((∃ t ∈ s.sightings, t.expr = e ∧ available t.block = true ∧
        s.visit available b i = (some t.value,
          { ((s.expr? i).2.number t.value).2 with
            numbers := ((s.expr? i).2.number t.value).2.numbers.insert i.id
              ((s.expr? i).2.number t.value).1 })) ∨
      (∀ t ∈ s.sightings, t.expr = e → available t.block = false) ∧
      s.visit available b i = (none,
        { ((s.expr? i).2.number i.id).2 with
          sightings := s.sightings ++ [⟨e, b, i.id⟩] }))) := by
  have hSight := sightings_expr? (s := s) (i := i)
  unfold visit
  generalize s.expr? i = r at hSight ⊢
  obtain ⟨_ | e, s'⟩ := r
  · exact .inl ⟨rfl, rfl⟩
  · refine .inr ⟨e, rfl, ?_⟩
    simp only at hSight ⊢
    cases hFind : s'.sightings.find? fun t => t.expr = e ∧ available t.block with
    | none =>
      refine .inr ⟨fun t ht hExpr => ?_, by simp [hSight]⟩
      have hNot := List.find?_eq_none.mp hFind t (hSight ▸ ht)
      simpa [hExpr] using hNot
    | some t =>
      have hMem := List.mem_of_find?_eq_some hFind
      have hTest := List.find?_some hFind
      simp only [decide_eq_true_eq] at hTest
      exact .inl ⟨t, hSight ▸ hMem, hTest.1, hTest.2, rfl⟩

/-- A sighting of the expression of an instruction is of an instruction that matches it. -/
theorem Sound.sighted_matches (hE : Congruence P E) (hs : Sound E seen s) {t : Sighting}
    (ht : t ∈ s.sightings) (he : (s.expr? i).1 = some t.expr) :
    ∃ j, (t.block, j) ∈ seen ∧ j.id = t.value ∧ i.ty = j.ty ∧ i.op.Matches E j.op := by
  obtain ⟨j, hj, hId, hDesc⟩ := (hs.expr? hE i).sighted t (by rwa [sightings_expr?])
  exact ⟨j, hj, hId, (describes_expr? he).agree hDesc fun n a c ha hc => hc.2 a ha⟩

theorem Sound.mono (hs : Sound E seen s) (x : BlockId × Inst) : Sound E (seen ++ [x]) s where
  lt := hs.lt
  same := hs.same
  sighted t ht := by
    obtain ⟨j, hj, hId, hDesc⟩ := hs.sighted t ht
    exact ⟨j, List.mem_append_left _ hj, hId, hDesc⟩

/-- A value may take the number of one that it is related to, whatever number it had. -/
theorem Sound.renumber (hE : Congruence P E) (hs : Sound E seen s) (hv : s.numbers.get? v = some n)
    (huv : E u v) : Sound E seen { s with numbers := s.numbers.insert u n } := by
  have toOld : ∀ x m, (s.numbers.insert u n).get? x = some m →
      ∃ y, s.numbers.get? y = some m ∧ E x y := by
    intro x m hx
    rw [SortedMap.get?_insert] at hx
    split at hx
    · cases hx
      subst_vars
      exact ⟨v, hv, huv⟩
    · exact ⟨x, hx, hE.refl x⟩
  refine ⟨fun x m hx => ?_, fun x y m hx hy => ?_, fun t ht => ?_⟩
  · obtain ⟨x', hx', -⟩ := toOld x m hx
    exact hs.lt x' m hx'
  · obtain ⟨x', hx', hxx⟩ := toOld x m hx
    obtain ⟨y', hy', hyy⟩ := toOld y m hy
    exact hE.trans _ _ _ hxx (hE.trans _ _ _ (hs.same x' y' m hx' hy') (hE.symm _ _ hyy))
  · obtain ⟨j, hj, hId, hDesc⟩ := hs.sighted t ht
    refine ⟨j, hj, hId, hDesc.mono fun m a hm => ⟨hm.1, fun x hx => ?_⟩⟩
    obtain ⟨x', hx', hxx⟩ := toOld x m hx
    exact hE.trans _ _ _ hxx (hm.2 x' hx')

theorem Sound.visit (hE : Congruence P E) (hs : Sound E seen s) (hSeen : ∀ x ∈ seen, P x.2)
    (hi : P i) (available : BlockId → Bool) :
    Sound E (seen ++ [(b, i)]) (s.visit available b i).2 := by
  rcases visit_cases s available b i with ⟨-, hEq⟩ | ⟨e, he, ⟨t, ht, rfl, -, hEq⟩ | ⟨-, hEq⟩⟩
  · rw [hEq]
    exact ((hs.expr? hE i).number hE _).mono _
  · obtain ⟨j, hj, hId, hTy, hMatch⟩ := hs.sighted_matches hE ht he
    rw [hEq]
    refine (((hs.expr? hE i).number hE _).renumber hE get?_number_self ?_).mono _
    exact hId ▸ hE.congr i j hi (hSeen _ hj) hTy hMatch
  · have hs' := (hs.expr? hE i).number hE i.id
    rw [hEq]
    refine ⟨hs'.lt, hs'.same, fun t ht => ?_⟩
    rcases List.mem_append.mp ht with ht | ht
    · exact (hs'.mono _).sighted t (by rwa [sightings_number, sightings_expr?])
    · rw [List.mem_singleton.mp ht]
      refine ⟨i, by simp, rfl, (describes_expr? he).mono fun n a ha => hs'.means (get?_number ha)⟩

/-! ## The scan -/

variable {available : BlockId → BlockId → Bool} {l : List (BlockId × Inst)} {r : Redundancy}

theorem scan_of_none (h : (s.visit (available · b) b i).1 = none) :
    scan available ((b, i) :: l) s = scan available l (s.visit (available · b) b i).2 := by
  rw [scan]
  generalize s.visit (available · b) b i = out at h ⊢
  obtain ⟨_ | o, s'⟩ := out
  · rfl
  · cases h

theorem scan_of_some {o : ValueId} (h : (s.visit (available · b) b i).1 = some o) :
    scan available ((b, i) :: l) s =
      ⟨i.id, o⟩ :: scan available l (s.visit (available · b) b i).2 := by
  rw [scan]
  generalize s.visit (available · b) b i = out at h ⊢
  obtain ⟨_ | o', s'⟩ := out
  · cases h
  · cases h
    rfl

/-- Values are reported in the order of the scan, each once. -/
theorem values_sublist : ∀ (l : List (BlockId × Inst)) (s : Numbering),
    ((scan available l s).map (·.value)).Sublist (l.map (·.2.id))
  | [], _ => .slnil
  | (b, i) :: l, s => by
    cases h : (s.visit (available · b) b i).1 with
    | none =>
      rw [scan_of_none h]
      exact (values_sublist l _).cons _
    | some o =>
      rw [scan_of_some h]
      exact (values_sublist l _).cons_cons _

end Numbering

/-- A reported value comes after the earlier one, which an available block holds, and both are the
same constant, operator or conversion of related operands. -/
def Redundancy.Justified (available : BlockId → BlockId → Bool) (E : ValueId → ValueId → Prop)
    (l : List (BlockId × Inst)) (r : Redundancy) : Prop :=
  ∃ front b i back c j, l = front ++ (b, i) :: back ∧ (c, j) ∈ front ∧ i.id = r.value ∧
    j.id = r.earlier ∧ available c b = true ∧ i.ty = j.ty ∧ i.op.Matches E j.op

namespace Numbering

variable {s : Numbering} {E : ValueId → ValueId → Prop} {P : Inst → Prop}
  {seen l : List (BlockId × Inst)} {available : BlockId → BlockId → Bool} {r : Redundancy}

theorem Sound.scan (hE : Congruence P E) (hs : Sound E seen s) (hP : ∀ x ∈ seen ++ l, P x.2)
    (hr : r ∈ scan available l s) : r.Justified available E (seen ++ l) := by
  induction l generalizing seen s with
  | nil => exact absurd hr List.not_mem_nil
  | cons x l ih =>
    obtain ⟨b, i⟩ := x
    have hSeen : ∀ x ∈ seen, P x.2 := fun x hx => hP x (List.mem_append_left _ hx)
    have hi : P i := hP (b, i) (by simp)
    have hApp : seen ++ (b, i) :: l = (seen ++ [(b, i)]) ++ l := by simp
    have hRest : r ∈ Numbering.scan available l (s.visit (available · b) b i).2 →
        r.Justified available E (seen ++ (b, i) :: l) := by
      intro hr
      rw [hApp] at hP ⊢
      exact ih (hs.visit hE hSeen hi _) hP hr
    rcases visit_cases s (available · b) b i with ⟨-, hEq⟩ | ⟨e, he, ⟨t, ht, rfl, hAv, hEq⟩ | ⟨-, hEq⟩⟩
    · rw [scan_of_none (by rw [hEq])] at hr
      exact hRest hr
    · rw [scan_of_some (by rw [hEq])] at hr
      rcases List.mem_cons.mp hr with rfl | hr
      · obtain ⟨j, hj, hId, hMatch⟩ := hs.sighted_matches hE ht he
        exact ⟨seen, b, i, l, t.block, j, rfl, hj, rfl, hId, hAv, hMatch⟩
      · exact hRest hr
    · rw [scan_of_none (by rw [hEq])] at hr
      exact hRest hr

theorem scan_justified (hE : Congruence P E) (hP : ∀ x ∈ l, P x.2)
    (hr : r ∈ scan available l {}) : r.Justified available E l := by
  have hs : Sound E [] {} := .empty
  exact hs.scan hE hP hr

theorem value_mem (hr : r ∈ scan available l s) : r.value ∈ l.map (·.2.id) :=
  (values_sublist l s).subset (List.mem_map_of_mem hr)

/-- The earlier value of a report was sighted before, or comes in the list and is not reported. -/
theorem earlier_cases (hNodup : (s.sightings.map (·.value) ++ l.map (·.2.id)).Nodup)
    (hr : r ∈ scan available l s) : r.earlier ∈ s.sightings.map (·.value) ∨
      r.earlier ∈ l.map (·.2.id) ∧ ∀ r' ∈ scan available l s, r'.value ≠ r.earlier := by
  induction l generalizing s with
  | nil => exact absurd hr List.not_mem_nil
  | cons x l ih =>
    obtain ⟨b, i⟩ := x
    have hParts := hNodup
    rw [List.map_cons, List.nodup_append, List.nodup_cons] at hParts
    obtain ⟨hSeen, ⟨hi, hRest⟩, hApart⟩ := hParts
    have hOld : (s.sightings.map (·.value) ++ l.map (·.2.id)).Nodup :=
      List.nodup_append.mpr ⟨hSeen, hRest, fun v hv w hw => hApart v hv w (List.mem_cons_of_mem _ hw)⟩
    rcases visit_cases s (available · b) b i with ⟨-, hEq⟩ | ⟨e, -, ⟨t, ht, -, -, hEq⟩ | ⟨-, hEq⟩⟩
    · have hSight : (s.visit (available · b) b i).2.sightings = s.sightings := by
        rw [hEq, sightings_number, sightings_expr?]
      rw [scan_of_none (by rw [hEq])] at hr ⊢
      have hCases := ih (hSight ▸ hOld) hr
      rw [hSight] at hCases
      exact hCases.imp_right fun h => ⟨List.mem_cons_of_mem _ h.1, h.2⟩
    · have hSight : (s.visit (available · b) b i).2.sightings = s.sightings := by
        rw [hEq]
        simp only [sightings_number, sightings_expr?]
      rw [scan_of_some (by rw [hEq])] at hr ⊢
      rcases List.mem_cons.mp hr with rfl | hr
      · exact .inl (List.mem_map_of_mem ht)
      · have hCases := ih (hSight ▸ hOld) hr
        rw [hSight] at hCases
        refine hCases.imp_right fun h => ⟨List.mem_cons_of_mem _ h.1, ?_⟩
        refine List.forall_mem_cons.mpr ⟨fun hId => hi ?_, h.2⟩
        rw [show i.id = r.earlier from hId]
        exact h.1
    · have hSight : (s.visit (available · b) b i).2.sightings = s.sightings ++ [⟨e, b, i.id⟩] := by
        rw [hEq]
      rw [scan_of_none (by rw [hEq])] at hr ⊢
      have hCases := ih (by rw [hSight]; simpa using hNodup) hr
      rw [hSight, List.map_append, List.mem_append, or_assoc] at hCases
      refine hCases.imp_right ?_
      rintro (hNew | ⟨hMem, hNot⟩)
      · have hId : r.earlier = i.id := List.mem_singleton.mp hNew
        refine ⟨hId ▸ List.mem_cons_self, fun r' hr' hEq' => hi ?_⟩
        exact hId ▸ hEq' ▸ value_mem hr'
      · exact ⟨List.mem_cons_of_mem _ hMem, hNot⟩

/-- What stands in the place of a redundant value is not itself redundant. -/
theorem earlier_not_reported (hNodup : (l.map (·.2.id)).Nodup) (hr : r ∈ scan available l {}) :
    ∀ r' ∈ scan available l {}, r'.value ≠ r.earlier := by
  have hCases := earlier_cases (by simpa using hNodup) hr
  exact (hCases.resolve_left List.not_mem_nil).2

end Numbering

end Midend
