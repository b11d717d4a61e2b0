import Mathlib.Data.List.Induction
import Midend.Flow.Meaning
import Midend.Proofs.Redundancy.Dominated

/-!
# Expansions of a function's values

* `Expands.unique`: a value has one expansion at most.
* `congruence_expands`: having the same expansions is a congruence, so a redundant value and the
  earlier one have the same.
* `Func.Regular.exists_expands`: where control can be, every value has an expansion.
* `Func.Solved.eq_eval`: where constants, operators and conversions have the values that their
  operands give them, every value is what its expansion comes to.
-/

namespace Midend

/-! ## Expansions of an instruction -/

section Expands

variable {l : List Inst} (hl : (l.map (·.id)).Nodup) {i : Inst} (hi : i ∈ l) {e : Expansion}

theorem expands_leaf_iff {v : ValueId} (h : ∀ i ∈ l, i.id = v → i.op.isFormula = false) :
    Expands l v e ↔ e = .leaf v := by
  refine ⟨fun hv => ?_, fun hEq => hEq ▸ .leaf h⟩
  cases hv with
  | leaf => rfl
  | const mem op | binary mem op | unary mem op | convert mem op =>
    have hNot := h _ mem rfl
    rw [op] at hNot
    cases hNot

include hl hi

/-- An instruction that is unfolded is unfolded as what it is. -/
theorem Expands.inst_cases (hForm : i.op.isFormula = true) (h : Expands l i.id e) :
    (∃ c, i.op = .const c ∧ e = .const i.ty c) ∨
    (∃ o a b s t, i.op = .binary o a b ∧ Expands l a s ∧ Expands l b t ∧ e = .binary i.ty o s t) ∨
    (∃ o a t, i.op = .unary o a ∧ Expands l a t ∧ e = .unary i.ty o t) ∨
    ∃ a t, i.op = .convert a ∧ Expands l a t ∧ e = .convert i.ty t := by
  have hInj : ∀ j ∈ l, i.id = j.id → j = i := fun j hj hId =>
    List.inj_on_of_nodup_map hl hj hi hId.symm
  generalize hv : i.id = v at h
  cases h with
  | leaf hLeaf =>
    rw [hLeaf i hi hv] at hForm
    cases hForm
  | const mem op =>
    obtain rfl := hInj _ mem hv
    exact .inl ⟨_, op, rfl⟩
  | binary mem op lhs rhs =>
    obtain rfl := hInj _ mem hv
    exact .inr (.inl ⟨_, _, _, _, _, op, lhs, rhs, rfl⟩)
  | unary mem op operand =>
    obtain rfl := hInj _ mem hv
    exact .inr (.inr (.inl ⟨_, _, _, op, operand, rfl⟩))
  | convert mem op operand =>
    obtain rfl := hInj _ mem hv
    exact .inr (.inr (.inr ⟨_, _, op, operand, rfl⟩))

theorem expands_const_iff {c : Literal} (hOp : i.op = .const c) :
    Expands l i.id e ↔ e = .const i.ty c := by
  refine ⟨fun h => ?_, fun hEq => hEq ▸ .const hi hOp⟩
  rcases h.inst_cases hl hi (by rw [hOp]; rfl) with
    ⟨_, hOp', rfl⟩ | ⟨_, _, _, _, _, hOp', -⟩ | ⟨_, _, _, hOp', -⟩ | ⟨_, _, hOp', -⟩
  all_goals
    rw [hOp] at hOp'
    cases hOp'
  rfl

theorem expands_binary_iff {o : BinaryOp} {a b : ValueId} (hOp : i.op = .binary o a b) :
    Expands l i.id e ↔ ∃ s t, Expands l a s ∧ Expands l b t ∧ e = .binary i.ty o s t := by
  constructor
  · intro h
    rcases h.inst_cases hl hi (by rw [hOp]; rfl) with
      ⟨_, hOp', -⟩ | ⟨_, _, _, s, t, hOp', hs, ht, rfl⟩ | ⟨_, _, _, hOp', -⟩ | ⟨_, _, hOp', -⟩
    all_goals
      rw [hOp] at hOp'
      cases hOp'
    exact ⟨s, t, hs, ht, rfl⟩
  · rintro ⟨s, t, hs, ht, rfl⟩
    exact .binary hi hOp hs ht

theorem expands_unary_iff {o : UnaryOp} {a : ValueId} (hOp : i.op = .unary o a) :
    Expands l i.id e ↔ ∃ t, Expands l a t ∧ e = .unary i.ty o t := by
  constructor
  · intro h
    rcases h.inst_cases hl hi (by rw [hOp]; rfl) with
      ⟨_, hOp', -⟩ | ⟨_, _, _, _, _, hOp', -⟩ | ⟨_, _, t, hOp', ht, rfl⟩ | ⟨_, _, hOp', -⟩
    all_goals
      rw [hOp] at hOp'
      cases hOp'
    exact ⟨t, ht, rfl⟩
  · rintro ⟨t, ht, rfl⟩
    exact .unary hi hOp ht

theorem expands_convert_iff {a : ValueId} (hOp : i.op = .convert a) :
    Expands l i.id e ↔ ∃ t, Expands l a t ∧ e = .convert i.ty t := by
  constructor
  · intro h
    rcases h.inst_cases hl hi (by rw [hOp]; rfl) with
      ⟨_, hOp', -⟩ | ⟨_, _, _, _, _, hOp', -⟩ | ⟨_, _, _, hOp', -⟩ | ⟨_, t, hOp', ht, rfl⟩
    all_goals
      rw [hOp] at hOp'
      cases hOp'
    exact ⟨t, ht, rfl⟩
  · rintro ⟨t, ht, rfl⟩
    exact .convert hi hOp ht

theorem Expands.of_matches {j : Inst} (hj : j ∈ l) {E : ValueId → ValueId → Prop}
    (hE : ∀ v w, E v w → ∀ e, Expands l v e → Expands l w e) (hTy : i.ty = j.ty)
    (hMatch : i.op.Matches E j.op) {e : Expansion} (h : Expands l i.id e) : Expands l j.id e := by
  generalize hp : i.op = p at hMatch
  generalize hq : j.op = q at hMatch
  cases hMatch with
  | const c =>
    rw [expands_const_iff hl hi hp] at h
    rw [expands_const_iff hl hj hq, h, hTy]
  | binary o lhs rhs =>
    obtain ⟨s, t, hs, ht, rfl⟩ := (expands_binary_iff hl hi hp).mp h
    exact hTy ▸ .binary hj hq (hE _ _ lhs _ hs) (hE _ _ rhs _ ht)
  | unary o operand =>
    obtain ⟨t, ht, rfl⟩ := (expands_unary_iff hl hi hp).mp h
    exact hTy ▸ .unary hj hq (hE _ _ operand _ ht)
  | convert operand =>
    obtain ⟨t, ht, rfl⟩ := (expands_convert_iff hl hi hp).mp h
    exact hTy ▸ .convert hj hq (hE _ _ operand _ ht)

omit hi in
theorem Expands.unique {v : ValueId} {e e' : Expansion} (h : Expands l v e) (h' : Expands l v e') :
    e = e' := by
  induction h generalizing e' with
  | leaf hLeaf => exact ((expands_leaf_iff hLeaf).mp h').symm
  | const mem op => exact ((expands_const_iff hl mem op).mp h').symm
  | binary mem op _ _ ihl ihr =>
    obtain ⟨s, t, hs, ht, rfl⟩ := (expands_binary_iff hl mem op).mp h'
    rw [ihl hs, ihr ht]
  | unary mem op _ ih =>
    obtain ⟨t, ht, rfl⟩ := (expands_unary_iff hl mem op).mp h'
    rw [ih ht]
  | convert mem op _ ih =>
    obtain ⟨t, ht, rfl⟩ := (expands_convert_iff hl mem op).mp h'
    rw [ih ht]

end Expands

theorem Op.Matches.symm {E E' : ValueId → ValueId → Prop} (hE : ∀ v w, E v w → E' w v) {p q : Op}
    (h : p.Matches E q) : q.Matches E' p := by
  cases h with
  | const c => exact .const c
  | binary o lhs rhs => exact .binary o (hE _ _ lhs) (hE _ _ rhs)
  | unary o operand => exact .unary o (hE _ _ operand)
  | convert operand => exact .convert (hE _ _ operand)

/-- Having the same expansions is a congruence. -/
theorem congruence_expands {l : List Inst} (hl : (l.map (·.id)).Nodup) : Congruence (· ∈ l)
    fun v w => ∀ e, Expands l v e ↔ Expands l w e where
  refl _ _ := Iff.rfl
  symm _ _ h e := (h e).symm
  trans _ _ _ h h' e := (h e).trans (h' e)
  congr i j hi hj hTy hMatch e := by
    constructor
    · exact Expands.of_matches hl hi hj (fun v w h e => (h e).mp) hTy hMatch
    · exact Expands.of_matches hl hj hi (fun v w h e => (h e).mp) hTy.symm
        (hMatch.symm fun v w h e => (h e).symm)

/-- An instruction has an expansion if its operands have one. -/
theorem exists_expands_of_operands {l : List Inst} (hl : (l.map (·.id)).Nodup) {i : Inst} (hi : i ∈ l)
    (h : i.op.isFormula = true → ∀ v ∈ i.op.operands, ∃ e, Expands l v e) :
    ∃ e, Expands l i.id e := by
  cases hForm : i.op.isFormula with
  | false =>
    refine ⟨.leaf i.id, .leaf fun j hj hId => ?_⟩
    rw [List.inj_on_of_nodup_map hl hj hi hId, hForm]
  | true =>
    replace h := h hForm
    cases hOp : i.op with
    | const c => exact ⟨_, .const hi hOp⟩
    | binary o a b =>
      obtain ⟨e, he⟩ := h a (by simp [hOp, Op.operands])
      obtain ⟨e', he'⟩ := h b (by simp [hOp, Op.operands])
      exact ⟨_, .binary hi hOp he he'⟩
    | unary o a =>
      obtain ⟨e, he⟩ := h a (by simp [hOp, Op.operands])
      exact ⟨_, .unary hi hOp he⟩
    | convert a =>
      obtain ⟨e, he⟩ := h a (by simp [hOp, Op.operands])
      exact ⟨_, .convert hi hOp he⟩
    | _ =>
      rw [hOp] at hForm
      cases hForm

/-- Instructions have expansions if each has what it reads before it, as far as that has none of its
own. -/
theorem exists_expands_along {l m : List Inst} (hl : (l.map (·.id)).Nodup) (hm : m ⊆ l)
    (h : ∀ front i back, m = front ++ i :: back → i.op.isFormula = true →
      ∀ v ∈ i.op.operands, (∃ j ∈ front, j.id = v) ∨ ∃ e, Expands l v e) :
    ∀ i ∈ m, ∃ e, Expands l i.id e := by
  -- along the list, operands first
  have along : ∀ front back, m = front ++ back → ∀ i ∈ front, ∃ e, Expands l i.id e := by
    intro front
    induction front using List.reverseRecOn with
    | nil => exact fun _ _ i hi => absurd hi List.not_mem_nil
    | append_singleton front i ih =>
      intro back hSplit
      rw [List.append_assoc, List.singleton_append] at hSplit
      have hFront := ih _ hSplit
      refine List.forall_mem_append.mpr ⟨hFront, List.forall_mem_singleton.mpr ?_⟩
      refine exists_expands_of_operands hl (hm (by simp [hSplit])) fun hForm v hv => ?_
      rcases h front i back hSplit hForm v hv with ⟨j, hj, rfl⟩ | hOwn
      · exact hFront j hj
      · exact hOwn
  exact along m [] (List.append_nil m).symm

namespace Func

variable {f : Func} {b d : BlockId} {i : Inst} {v w : ValueId}

theorem Lawful.congruence_expands (hf : f.Lawful) : Congruence (fun i => ∃ b, i ∈ f.code b)
    fun v w => ∀ e, Expands f.insts v e ↔ Expands f.insts w e :=
  (Midend.congruence_expands hf.consistent.values_nodup).mono fun _ hi =>
    (mem_insts hf.mem_layout).mpr hi

/-- What an instruction reads comes before it in the scan. -/
theorem Regular.operand_before (hf : f.Regular) {front back : List Inst}
    (hSplit : (f.located f.reversePostorder).map (·.2) = front ++ i :: back)
    (hPhi : i.isPhi = false) (hv : v ∈ i.op.operands) : v ∈ front.map (·.id) := by
  obtain ⟨_, rest, hScan, rfl, hRest⟩ := List.map_eq_append_iff.mp hSplit
  obtain ⟨⟨b, i⟩, back, rfl, rfl, -⟩ := List.map_eq_cons_iff.mp hRest
  obtain ⟨before, after, earlier, later, hOrder, hCode, rfl⟩ := located_eq_append hf.named hScan
  have hLive : f.Live b := mem_reversePostorder.mp (by simp [hOrder])
  rw [List.map_map]
  rcases hf.operand b hLive earlier i later hCode hPhi v hv with
    ⟨j, hj, rfl⟩ | ⟨d, hne, hd, j, hj, -, rfl⟩
  · exact List.mem_map.mpr ⟨(b, j), List.mem_append_right _ (List.mem_map_of_mem hj), rfl⟩
  · have hMem := (mem_located hf.named).mpr ⟨guard_before hOrder hne hd, hj⟩
    exact List.mem_map.mpr ⟨(d, j), List.mem_append_left _ hMem, rfl⟩

/-- Where control can be, every value has an expansion. -/
theorem Regular.exists_expands (hf : f.Regular) (hb : f.Live b) (hi : i ∈ f.code b) :
    ∃ e, Expands f.insts i.id e := by
  refine exists_expands_along (m := (f.located f.reversePostorder).map (·.2))
    hf.consistent.values_nodup ?_ ?_ i ?_
  · intro j hj
    obtain ⟨x, hx, rfl⟩ := List.mem_map.mp hj
    exact (mem_insts hf.mem_layout).mpr ⟨x.1, ((mem_located hf.named).mp hx).2⟩
  · intro front j back hSplit hForm v hv
    exact .inl (List.mem_map.mp (hf.operand_before hSplit (Inst.not_isPhi_of_isFormula hForm) hv))
  · exact List.mem_map_of_mem (f := (·.2)) (a := (b, i))
      ((mem_located hf.named).mpr ⟨mem_reversePostorder.mpr hb, hi⟩)

end Func

/-! ## What expansions come to -/

/-- What an expansion comes to. -/
def Expansion.eval {α : Type} (m : Interpretation α) (s : Valuation α) : Expansion → α
  | .leaf v => s v
  | .const ty c => m.const ty c
  | .binary ty op a b => m.binary ty op (a.eval m s) (b.eval m s)
  | .unary ty op a => m.unary ty op (a.eval m s)
  | .convert ty a => m.convert ty (a.eval m s)

namespace Func

variable {α : Type} {f : Func} {m : Interpretation α} {scope : ValueId → Prop} {s : Valuation α}
  {b : BlockId} {i : Inst} {v : ValueId} {e : Expansion}

/-- Within a scope, constants, operators and conversions have the values that their operands give
them. -/
def Solved (f : Func) (m : Interpretation α) (scope : ValueId → Prop) (s : Valuation α) : Prop :=
  ∀ b, ∀ i ∈ f.code b, i.op.isFormula = true → scope i.id → ∀ world, s i.id = i.yields m world s

/-- Whatever is read in a scope is in the scope. -/
def Closed (f : Func) (scope : ValueId → Prop) : Prop :=
  ∀ b, ∀ i ∈ f.code b, i.op.isFormula = true → scope i.id → ∀ v ∈ i.op.operands, scope v

theorem Solved.eq_eval (hs : f.Solved m scope s) (hClosed : f.Closed scope)
    (h : Expands f.insts v e) (hv : scope v) : s v = e.eval m s := by
  induction h with
  | leaf => rfl
  | @const i c mem op =>
    obtain ⟨b, -, hi⟩ := mem_insts_iff.mp mem
    rw [hs b i hi (by rw [op]; rfl) hv (s i.id)]
    simp only [Inst.yields, op, Expansion.eval]
  | @binary i o x y e e' mem op lhs rhs ihl ihr =>
    obtain ⟨b, -, hi⟩ := mem_insts_iff.mp mem
    have hForm : i.op.isFormula = true := by rw [op]; rfl
    have hRead := hClosed b i hi hForm hv
    rw [hs b i hi hForm hv (s i.id)]
    simp only [Inst.yields, op, Expansion.eval]
    rw [ihl (hRead x (by simp [op, Op.operands])), ihr (hRead y (by simp [op, Op.operands]))]
  | @unary i o x e mem op operand ih =>
    obtain ⟨b, -, hi⟩ := mem_insts_iff.mp mem
    have hForm : i.op.isFormula = true := by rw [op]; rfl
    rw [hs b i hi hForm hv (s i.id)]
    simp only [Inst.yields, op, Expansion.eval]
    rw [ih (hClosed b i hi hForm hv x (by simp [op, Op.operands]))]
  | @convert i x e mem op operand ih =>
    obtain ⟨b, -, hi⟩ := mem_insts_iff.mp mem
    have hForm : i.op.isFormula = true := by rw [op]; rfl
    rw [hs b i hi hForm hv (s i.id)]
    simp only [Inst.yields, op, Expansion.eval]
    rw [ih (hClosed b i hi hForm hv x (by simp [op, Op.operands]))]

end Func

end Midend
