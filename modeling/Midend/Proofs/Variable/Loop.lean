import Midend.Proofs.Validity.Flags
import Midend.Variable.Loop

/-!
# Flags of a loop

While the body of a loop is built, a phi of its header is taken to be known if the definition from
before the loop is. The body is built from that. When the loop is sealed the phi may turn out to be
unknown, and what the body made of it keeps its flag.

`Opened` says what the phis are like until then. Sealing completes them and drops those that have
one value only; `Sealing` is what each of these steps keeps. Dropping a phi puts its value in its
place, so the two have to be known alike. They need not be equal: a phi can be unknown because of
pairs that lead back to it. But an unknown phi leads to an unknown value that is no phi of the loop
(`Grounded`), and for one that is dropped the way there goes through its value.
-/

namespace Midend

namespace Func

variable {f g base : Func} {b x : BlockId} {i : Inst} {v u phi value : ValueId} {op : Op} {ty : Ty}
  {phis live : List ValueId}

/-! ## Building on -/

/-- The second function comes from the first by requests that complete no phi. -/
def Extends (f g : Func) : Prop :=
  ∃ rs : List BuildRequest, (∀ r ∈ rs, r.isAddIncoming = false) ∧ rs.foldl build f = g

theorem Extends.refl (f : Func) : Extends f f := ⟨[], fun _ h => absurd h List.not_mem_nil, rfl⟩

theorem Extends.append_then (h : Extends (f.append b ty op).state g) : Extends f g := by
  obtain ⟨rs, hrs, rfl⟩ := h
  refine ⟨.append b ty op :: rs, ?_, rfl⟩
  intro r hr
  rcases List.mem_cons.mp hr with rfl | hr
  · rfl
  · exact hrs r hr

theorem Extends.trans {h : Func} (hfg : Extends f g) (hgh : Extends g h) : Extends f h := by
  obtain ⟨rs, hrs, rfl⟩ := hfg
  obtain ⟨ts, hts, rfl⟩ := hgh
  refine ⟨rs ++ ts, ?_, List.foldl_append⟩
  intro r hr
  exact (List.mem_append.mp hr).elim (hrs r) (hts r)

theorem Extends.induct {P : Func → Prop} (h : Extends f g) (hf : P f)
    (hStep : ∀ f r, P f → r.isAddIncoming = false → P (f.build r)) : P g := by
  obtain ⟨rs, hrs, rfl⟩ := h
  exact List.foldlRecOn rs build hf fun f hf r hr => hStep f r hf (hrs r hr)

theorem Extends.consistent (h : Extends f g) (hf : f.Consistent) : g.Consistent :=
  h.induct hf fun _ r hf _ => hf.build r

theorem Extends.flagged (h : Extends f g) (hf : f.Consistent) (ha : f.Allotted)
    (hFlagged : f.Flagged) : g.Flagged := by
  have hAll := h.induct (P := fun f => f.Consistent ∧ f.Allotted ∧ f.Flagged) ⟨hf, ha, hFlagged⟩
    fun f r hf hr => ⟨hf.1.build r, hf.2.1.build hf.1 hr, hf.2.2.build hf.1 hf.2.1 hr⟩
  exact hAll.2.2

/-- Each of the phis reads a value that was there before it, and is known if that value is. -/
def Opened (f : Func) (phis : List ValueId) : Prop :=
  ∀ phi ∈ phis, ∃ b, ∃ i ∈ f.code b, i.id = phi ∧ ∃ d ∈ i.op.operands,
    f.hasValue d = true ∧ d.index < phi.index ∧ i.comptime = f.isComptime d

/-- What is there stays, with its flag. -/
theorem Opened.mono (h : Opened f phis) (hCode : ∀ x, ∀ i ∈ f.code x, i ∈ g.code x)
    (hHas : ∀ v, f.hasValue v = true → g.hasValue v = true)
    (hKnown : ∀ v, f.hasValue v = true → (g.isComptime v = true ↔ f.isComptime v = true)) :
    Opened g phis := by
  intro phi hPhi
  obtain ⟨x, i, hi, hId, d, hd, hThere, hLt, hFlag⟩ := h phi hPhi
  refine ⟨x, i, hCode x i hi, hId, d, hd, hHas d hThere, hLt, ?_⟩
  rw [hFlag, Bool.eq_iff_iff]
  exact (hKnown d hThere).symm

theorem Consistent.isComptime_appended (hf : f.Consistent) (hg : g.Consistent)
    (h : Appended f b (f.newInst ty op) g) (hv : f.hasValue v = true) :
    g.isComptime v = true ↔ f.isComptime v = true := by
  apply Func.isComptime_appended h hf hg
  rintro rfl
  exact Nat.lt_irrefl _ (hf.index_lt hv)

theorem Opened.append (h : Opened f phis) (hf : f.Consistent) (b : BlockId) (ty : Ty) (op : Op) :
    Opened (f.append b ty op).state phis := by
  have hg := hf.append b ty op
  rcases append_cases f b ty op with hEq | ⟨-, hApp⟩
  · rwa [hEq]
  · exact h.mono (fun x i hi => hApp.mem_code.mpr (.inr hi))
      (fun v hv => hasValue_appended hApp hf hg hv) fun v hv => hf.isComptime_appended hg hApp hv

theorem Opened.createBlock (h : Opened f phis) (hf : f.Consistent) (label : String) :
    Opened (f.createBlock label).state phis := by
  have hg := hf.createBlock label
  rcases createBlock_grown hf label with hEq | hGrown
  · rwa [hEq]
  · apply h.mono
    · intro x i hi
      rwa [hGrown.code_eq hf.arranged]
    · exact fun v => (hasValue_grown hGrown hf hg).mpr
    · exact fun v _ => isComptime_grown hGrown hf hg v

theorem Opened.addParam (h : Opened f phis) (name : String) (ty : Ty) :
    Opened (f.addParam name ty).state phis := by
  unfold Func.addParam
  split
  · exact h
  · exact h

theorem Extends.opened (h : Extends f g) (hf : f.Consistent) (hPhis : Opened f phis) :
    Opened g phis := by
  have hBoth := h.induct (P := fun f => f.Consistent ∧ Opened f phis) ⟨hf, hPhis⟩ ?_
  · exact hBoth.2
  · intro f r hf hr
    refine ⟨hf.1.build r, ?_⟩
    cases r with
    | addParam name ty => exact hf.2.addParam name ty
    | createBlock label => exact hf.2.createBlock hf.1 label
    | append b ty op => exact hf.2.append hf.1 b ty op
    | addIncoming => cases hr

theorem append_of_answer (h : (f.append b ty op).answer = .ok v) :
    v = ⟨f.ids.nextValue⟩ ∧ f.Accepts b op ∧
      Appended f b (f.newInst ty op) (f.append b ty op).state := by
  unfold append at h ⊢
  cases hRefuse : f.refuseAppend? b op with
  | some e =>
    rw [hRefuse] at h
    cases h
  | none =>
    rw [hRefuse] at h
    have hAccepts := accepts_of_refuseAppend? hRefuse
    exact ⟨(Except.ok.inj h).symm, hAccepts, addInst_appended hAccepts.hasBlock ty op⟩

theorem Consistent.opened_append (hf : f.Consistent) {pre : BlockId} {d : ValueId}
    (h : (f.append b ty (.phi [⟨pre, d⟩])).answer = .ok phi) :
    Opened (f.append b ty (.phi [⟨pre, d⟩])).state [phi] := by
  have hg := hf.append b ty (.phi [⟨pre, d⟩])
  obtain ⟨rfl, hAccepts, hApp⟩ := append_of_answer h
  generalize (f.append b ty (.phi [⟨pre, d⟩])).state = g at *
  have hd : f.hasValue d = true := hAccepts.operands d (List.mem_singleton.mpr rfl)
  intro phi hPhi
  rw [List.mem_singleton.mp hPhi]
  refine ⟨b, _, hApp.mem_code.mpr (.inl ⟨rfl, rfl⟩), rfl, d, List.mem_singleton.mpr rfl,
    hasValue_appended hApp hf hg hd, hf.index_lt hd, ?_⟩
  have hFlag : (f.newInst ty (.phi [⟨pre, d⟩])).comptime = f.isComptime d := Bool.and_true _
  rw [hFlag, Bool.eq_iff_iff]
  exact (hf.isComptime_appended hg hApp hd).symm

/-! ## Sealing -/

/-- A value that is not known and is no live phi, or a live phi that is not known and reads, through
other such phis perhaps, a value of that kind. -/
inductive Grounded (f : Func) (live : List ValueId) : ValueId → Prop
  | outside {v : ValueId} (hv : v ∉ live) (hKnown : f.isComptime v = false) : Grounded f live v
  | reads {b : BlockId} {i : Inst} {v phi : ValueId} (hi : i ∈ f.code b) (hId : i.id = phi)
      (hLive : phi ∈ live) (hKnown : i.comptime = false) (hv : v ∈ i.op.operands)
      (hGround : Grounded f live v) : Grounded f live phi

theorem Grounded.isComptime_eq (h : Grounded f live v) (hf : f.Consistent) :
    f.isComptime v = false := by
  cases h with
  | outside hv hKnown => exact hKnown
  | reads hi hId hLive hKnown hv hGround => rw [← hId, hf.isComptime_eq hi, hKnown]

/-- What holds while a loop is sealed, as compared to the function before that: flags only fall, and
only those of the phis. Every phi that is still there has an operand that is older than it and was
known if the phi was, what is unknown is grounded, and flags agree but for those that lag behind. -/
structure Sealing (base : Func) (phis live : List ValueId) (f : Func) : Prop where
  consistent : f.Consistent
  live_subset : live ⊆ phis
  falls : ∀ v, f.isComptime v = true → base.isComptime v = true
  stays : ∀ v, v ∉ phis → f.isComptime v = base.isComptime v
  older : ∀ b, ∀ i ∈ f.code b, i.id ∈ live → ∃ d ∈ i.op.operands, d.index < i.id.index ∧
    (base.isComptime i.id = true → base.isComptime d = true)
  grounded : ∀ v, f.hasValue v = true → f.isComptime v = false → Grounded f live v
  but : FlaggedBut base phis f

theorem Opened.grounded (h : Opened f phis) (hf : f.Consistent) (hv : f.hasValue v = true)
    (hKnown : f.isComptime v = false) : Grounded f phis v := by
  -- the operand of a phi is older than the phi, so the way ends
  generalize hIndex : v.index = n
  induction n using Nat.strongRecOn generalizing v with
  | ind n ih =>
    by_cases hMem : v ∈ phis
    · obtain ⟨b, i, hi, hId, d, hd, hThere, hLt, hFlag⟩ := h v hMem
      have hUnknown : i.comptime = false := by rw [← hf.isComptime_eq hi, hId, hKnown]
      rw [hUnknown] at hFlag
      exact .reads hi hId hMem hUnknown hd (ih d.index (by omega) hThere hFlag.symm rfl)
    · exact .outside hMem hKnown

theorem Opened.sealing (h : Opened f phis) (hf : f.Consistent) (hFlagged : f.Flagged) :
    Sealing f phis phis f where
  consistent := hf
  live_subset := fun _ => id
  falls := fun _ => id
  stays _ _ := rfl
  older b i hi hMem := by
    obtain ⟨c, j, hj, hId, d, hd, -, hLt, hFlag⟩ := h i.id hMem
    obtain rfl := (hf.numbered.eq_of_id_eq hj hi hId).2
    refine ⟨d, hd, hLt, fun hKnown => ?_⟩
    rw [← hFlag, ← hf.isComptime_eq hj, hKnown]
  grounded _ hv hKnown := h.grounded hf hv hKnown
  but b i hi := .inl (hFlagged b i hi)

/-! ### Completing a phi -/

section Completing

variable {p : Incoming} (hc : Completed f phi p g) (h : Sealing base phis phis f)
  (hg : g.Consistent) (hMem : phi ∈ phis)
include hc h hg hMem

theorem Grounded.complete (hv : Grounded f phis v) : Grounded g phis v := by
  induction hv with
  | @outside v hv hKnown =>
    refine .outside hv ?_
    rw [hc.isComptime_of_ne h.consistent hg, hKnown]
    rintro rfl
    exact hv hMem
  | @reads b i v psi hi hId hLive hKnown hv _ ih =>
    by_cases hPhi : i.id = phi
    · have hIsPhi := hc.isPhi b i hi hPhi
      refine .reads (hc.mem_code_phi hi hPhi) (Inst.id_addIncoming.trans hId) hLive ?_ ?_ ih
      · rw [Inst.comptime_addIncoming hIsPhi, hKnown]
        rfl
      · rw [Inst.operands_addIncoming hIsPhi]
        exact List.mem_append_left _ hv
    · exact .reads (hc.mem_code_of_ne hi hPhi) hId hLive hKnown hv ih

theorem Sealing.complete : Sealing base phis phis g where
  consistent := hg
  live_subset := h.live_subset
  falls v hv := h.falls v ((hc.isComptime_iff h.consistent hg).mp hv).1
  stays v hv := by
    rw [hc.isComptime_of_ne h.consistent hg, h.stays v hv]
    rintro rfl
    exact hv hMem
  older b i hi hLive := by
    rcases hc.mem_code_cases hi with ⟨hi, -⟩ | ⟨j, hj, hId, hPhi, rfl⟩
    · exact h.older b i hi hLive
    · rw [Inst.id_addIncoming] at hLive ⊢
      rw [Inst.operands_addIncoming hPhi]
      obtain ⟨d, hd, hRest⟩ := h.older b j hj hLive
      exact ⟨d, List.mem_append_left _ hd, hRest⟩
  grounded v hv hKnown := by
    rw [hc.hasValue_iff h.consistent hg] at hv
    cases hWas : f.isComptime v with
    | false => exact (h.grounded v hv hWas).complete hc h hg hMem
    | true =>
      -- the phi has just become unknown, and its new value is why
      have hFell : v = phi ∧ f.isComptime p.value = false := by
        rw [Bool.eq_false_iff, Ne, hc.isComptime_iff h.consistent hg, hWas] at hKnown
        grind
      obtain ⟨rfl, hValue⟩ := hFell
      obtain ⟨b, i, hi, hId⟩ := h.consistent.hasValue_iff_code.mp hv
      have hIsPhi := hc.isPhi b i hi hId
      refine .reads (hc.mem_code_phi hi hId) (Inst.id_addIncoming.trans hId) hMem ?_ ?_
        ((h.grounded p.value hc.hasValue hValue).complete hc h hg hMem)
      · rw [Inst.comptime_addIncoming hIsPhi, hValue, Bool.and_false]
      · rw [Inst.operands_addIncoming hIsPhi]
        exact List.mem_append_right _ (List.mem_singleton.mpr rfl)
  but := hc.flaggedBut h.consistent hg h.but hMem (h.falls phi)

end Completing

/-! ### Dropping a phi -/

/-- The phi reads nothing but itself and one other value. -/
structure OneValued (f : Func) (phi value : ValueId) (b : BlockId) (i : Inst) : Prop where
  mem_code : i ∈ f.code b
  id_eq : i.id = phi
  isPhi : i.isPhi = true
  value_ne : value ≠ phi
  operand : ∀ v ∈ i.op.operands, v = phi ∨ v = value

theorem Consistent.oneValued (hf : f.Consistent) (h : f.trivialValue? phi = some value) :
    ∃ b i, OneValued f phi value b i := by
  rw [trivialValue?, Option.bind_eq_some_iff] at h
  obtain ⟨i, hi, h⟩ := h
  obtain ⟨hMem, hId⟩ := (value?_eq_some_iff hf.values_nodup).mp hi
  obtain ⟨b, hCode⟩ := (mem_insts hf.mem_layout).mp hMem
  split at h
  swap
  · cases h
  rename_i incoming hOp
  have hOperands : i.op.operands = incoming.map (·.value) := by rw [hOp]; rfl
  split at h
  · cases h
  rename_i v vs hFilter
  split at h
  swap
  · cases h
  rename_i hAll
  obtain rfl := Option.some.inj h
  rw [← hOperands] at hFilter
  have hOther : ∀ u, u ∈ i.op.operands ∧ u ≠ phi ↔ u ∈ v :: vs := by
    intro u
    rw [← hFilter, List.mem_filter, decide_eq_true_eq]
  refine ⟨b, i, hCode, hId, ?_, ((hOther v).mpr List.mem_cons_self).2, ?_⟩
  · rw [Inst.isPhi, hOp]
    rfl
  · intro u hu
    by_cases hEq : u = phi
    · exact .inl hEq
    · rcases List.mem_cons.mp ((hOther u).mp ⟨hu, hEq⟩) with rfl | hRest
      · exact .inr rfl
      · exact .inr (of_decide_eq_true (List.all_eq_true.mp hAll u hRest))

/-- The value in the place of the phi. -/
def standIn (phi value v : ValueId) : ValueId := if v = phi then value else v

theorem standIn_self : standIn phi value phi = value := if_pos rfl

theorem standIn_of_ne (h : v ≠ phi) : standIn phi value v = v := if_neg h

theorem OneValued.spared (h : OneValued f phi value b i) (hf : f.Consistent) :
    Spared f (fun v => v = phi) (standIn phi value)
      ((f.removeValue phi).2.replaceUses phi value).2 := by
  have hTerm := isTerminator_eq_false_of_isPhi h.isPhi
  have hRemove := removeValue_spared hf.distinct h.mem_code hTerm
  rw [h.id_eq] at hRemove
  apply (hRemove.trans (replaceUses_spared _ phi value)).congr
  · intro v
    exact Bool.or_false _
  · intro v
    rfl

section Dropping

variable (ho : OneValued f phi value b i) (hs : Spared f (fun v => v = phi) (standIn phi value) g)
  (h : Sealing base phis live f) (hg : g.Consistent) (hLive : phi ∈ live)

section Code

include hs

theorem mem_code_dropped {j : Inst} :
    j ∈ g.code x ↔ ∃ k ∈ f.code x, k.id ≠ phi ∧ k.mapOperands (standIn phi value) = j := by
  rw [hs.mem_code]
  simp only [decide_eq_false_iff_not]

theorem hasValue_dropped (hf : f.Consistent) (hg : g.Consistent) (hv : g.hasValue v = true) :
    v ≠ phi ∧ f.hasValue v = true := by
  obtain ⟨x, j, hj, rfl⟩ := hg.hasValue_iff_code.mp hv
  obtain ⟨k, hk, hNe, rfl⟩ := (mem_code_dropped hs).mp hj
  exact ⟨hNe, hf.hasValue_iff_code.mpr ⟨x, k, hk, rfl⟩⟩

include h hg

theorem isComptime_dropped (hv : v ≠ phi) : g.isComptime v = f.isComptime v := by
  rw [Bool.eq_iff_iff, h.consistent.isComptime_iff_code, hg.isComptime_iff_code]
  constructor
  · rintro ⟨x, j, hj, hId, hKnown⟩
    obtain ⟨k, hk, -, rfl⟩ := (mem_code_dropped hs).mp hj
    exact ⟨x, k, hk, hId, hKnown⟩
  · rintro ⟨x, j, hj, hId, hKnown⟩
    refine ⟨x, _, (mem_code_dropped hs).mpr ⟨j, hj, ?_, rfl⟩, hId, hKnown⟩
    rwa [hId]

end Code

section Value

include ho h hLive

theorem OneValued.older : value.index < phi.index ∧
    (base.isComptime phi = true → base.isComptime value = true) := by
  have hLive' : i.id ∈ live := by rwa [ho.id_eq]
  obtain ⟨d, hd, hLt, hKnown⟩ := h.older b i ho.mem_code hLive'
  rw [ho.id_eq] at hLt hKnown
  rcases ho.operand d hd with rfl | rfl
  · exact absurd hLt (Nat.lt_irrefl _)
  · exact ⟨hLt, hKnown⟩

/-- The way from the phi to what makes it unknown leaves it through its value. -/
theorem OneValued.grounded (hv : Grounded f live v) : v = phi → Grounded f live value := by
  induction hv with
  | @outside v hv hKnown =>
    rintro rfl
    exact absurd hLive hv
  | @reads c j v psi hj hId hLive' hKnown hv hGround ih =>
    rintro rfl
    obtain rfl := (h.consistent.numbered.eq_of_id_eq hj ho.mem_code (hId.trans ho.id_eq.symm)).2
    rcases ho.operand v hv with hEq | hEq
    · exact ih hEq
    · rwa [← hEq]

theorem OneValued.isComptime_value (hKnown : f.isComptime phi = false) :
    f.isComptime value = false := by
  have hThere : f.hasValue phi = true :=
    h.consistent.hasValue_iff_code.mpr ⟨b, i, ho.mem_code, ho.id_eq⟩
  exact (ho.grounded h hLive (h.grounded phi hThere hKnown) rfl).isComptime_eq h.consistent

/-- Where the phi was known and its value is not, the value is a phi of the loop that has become
unknown. -/
theorem OneValued.value_fell (hWas : base.isComptime phi = true)
    (hValue : f.isComptime value = false) : value ∈ phis ∧ base.isComptime value = true := by
  have hBase := (ho.older h hLive).2 hWas
  refine ⟨?_, hBase⟩
  by_contra hNot
  rw [h.stays value hNot, hBase] at hValue
  cases hValue

end Value

include ho hs h hg hLive

theorem Grounded.drop (hv : Grounded f live v) :
    Grounded g (live.erase phi) (standIn phi value v) := by
  induction hv with
  | @outside v hv hKnown =>
    have hNe : v ≠ phi := by
      rintro rfl
      exact hv hLive
    rw [standIn_of_ne hNe]
    refine .outside (fun hMem => hv (List.mem_of_mem_erase hMem)) ?_
    rw [isComptime_dropped hs h hg hNe, hKnown]
  | @reads c j v psi hj hId hMem hKnown hv _ ih =>
    by_cases hEq : psi = phi
    · subst hEq
      obtain rfl := (h.consistent.numbered.eq_of_id_eq hj ho.mem_code (hId.trans ho.id_eq.symm)).2
      rw [standIn_self]
      rcases ho.operand v hv with rfl | rfl
      · rwa [standIn_self] at ih
      · rwa [standIn_of_ne ho.value_ne] at ih
    · rw [standIn_of_ne hEq]
      have hj' := (mem_code_dropped hs).mpr ⟨j, hj, by rwa [hId], rfl⟩
      exact .reads hj' hId ((List.mem_erase_of_ne hEq).mpr hMem) hKnown
        (Inst.mem_operands_mapOperands hv) ih

theorem Lags.drop {j : Inst} (hj : Lags base phis f j) :
    Lags base phis g (j.mapOperands (standIn phi value)) := by
  obtain ⟨hKnown, psi, hPsi, hWas, hIs, hReads⟩ := hj
  have hReads' : standIn phi value psi ∈ (j.mapOperands (standIn phi value)).op.operands :=
    Inst.mem_operands_mapOperands hReads
  by_cases hEq : psi = phi
  · subst hEq
    rw [standIn_self] at hReads'
    have hValue := ho.isComptime_value h hLive hIs
    obtain ⟨hMem, hBase⟩ := ho.value_fell h hLive hWas hValue
    refine ⟨hKnown, value, hMem, hBase, ?_, hReads'⟩
    rw [isComptime_dropped hs h hg ho.value_ne, hValue]
  · rw [standIn_of_ne hEq] at hReads'
    refine ⟨hKnown, psi, hPsi, hWas, ?_, hReads'⟩
    rw [isComptime_dropped hs h hg hEq, hIs]

theorem flaggedBut_drop : FlaggedBut base phis g := by
  intro x j' hj'
  obtain ⟨j, hj, -, rfl⟩ := (mem_code_dropped hs).mp hj'
  rcases h.but x j hj with hRight | hLags
  swap
  · exact .inr (hLags.drop ho hs h hg hLive)
  have hValue : g.isComptime value = f.isComptime value := isComptime_dropped hs h hg ho.value_ne
  by_cases hFell : phi ∈ j.op.operands ∧ f.isComptime phi = true ∧ f.isComptime value = false
  · -- the value is a phi that the dropped one lagged behind
    obtain ⟨hReads, hPhi, hUnknown⟩ := hFell
    have hReads' : value ∈ (j.mapOperands (standIn phi value)).op.operands := by
      have hMapped := Inst.mem_operands_mapOperands (r := standIn phi value) hReads
      rwa [standIn_self] at hMapped
    cases hKnown : j.comptime with
    | true =>
      obtain ⟨hMem, hBase⟩ := ho.value_fell h hLive (h.falls phi hPhi) hUnknown
      exact .inr ⟨hKnown, value, hMem, hBase, hValue.trans hUnknown, hReads'⟩
    | false => exact .inl ((flagRight_iff_of_unknown hReads' (hValue.trans hUnknown)).mpr hKnown)
  · left
    refine Inst.FlagAgrees.mapOperands hRight fun v hv => ?_
    by_cases hEq : v = phi
    · subst hEq
      rw [standIn_self, hValue, ← Bool.eq_iff_iff]
      cases hPhi : f.isComptime v with
      | false => rw [ho.isComptime_value h hLive hPhi]
      | true =>
        cases hUnknown : f.isComptime value with
        | false => exact absurd ⟨hv, hPhi, hUnknown⟩ hFell
        | true => rfl
    · rw [standIn_of_ne hEq, isComptime_dropped hs h hg hEq]

theorem Sealing.drop : Sealing base phis (live.erase phi) g where
  consistent := hg
  live_subset := fun v hv => h.live_subset (List.mem_of_mem_erase hv)
  falls v hv := by
    have hThere : g.hasValue v = true := by
      obtain ⟨x, j, hj, hId, -⟩ := hg.isComptime_iff_code.mp hv
      exact hg.hasValue_iff_code.mpr ⟨x, j, hj, hId⟩
    rw [isComptime_dropped hs h hg (hasValue_dropped hs h.consistent hg hThere).1] at hv
    exact h.falls v hv
  stays v hv := by
    rw [isComptime_dropped hs h hg, h.stays v hv]
    rintro rfl
    exact hv (h.live_subset hLive)
  older x j' hj' hMem := by
    obtain ⟨j, hj, -, rfl⟩ := (mem_code_dropped hs).mp hj'
    obtain ⟨d, hd, hLt, hKnown⟩ := h.older x j hj (List.mem_of_mem_erase hMem)
    refine ⟨standIn phi value d, Inst.mem_operands_mapOperands hd, ?_⟩
    by_cases hEq : d = phi
    · -- the value of the phi is older still
      subst hEq
      obtain ⟨hLt', hKnown'⟩ := ho.older h hLive
      rw [standIn_self]
      exact ⟨Nat.lt_trans hLt' hLt, fun hj => hKnown' (hKnown hj)⟩
    · rw [standIn_of_ne hEq]
      exact ⟨hLt, hKnown⟩
  grounded v hv hKnown := by
    obtain ⟨hNe, hThere⟩ := hasValue_dropped hs h.consistent hg hv
    rw [isComptime_dropped hs h hg hNe] at hKnown
    have hDrop := (h.grounded v hThere hKnown).drop ho hs h hg hLive
    rwa [standIn_of_ne hNe] at hDrop
  but := flaggedBut_drop ho hs h hg hLive

end Dropping

end Func

namespace Scope

open Func

variable {s t : Scope} {base : Func} {phis live : List ValueId} {header preheader latch : BlockId}

/-! ## Loops -/

theorem definePhi_eq_ok {name : String} {d phi : ValueId} {incoming : List Incoming}
    (h : s.definePhi header name d incoming = .ok phi t) :
    ∃ ty, s.func.tyOf? d = some ty ∧ (s.func.append header ty (.phi incoming)).answer = .ok phi ∧
      t = ⟨(s.func.append header ty (.phi incoming)).state, s.vars.define name phi⟩ := by
  unfold definePhi at h
  split at h
  · cases h
  rename_i ty hTy
  split at h
  · cases h
  rename_i v g hEq
  cases h
  refine ⟨ty, hTy, congrArg Outcome.answer hEq, ?_⟩
  rw [hEq]

theorem openPhis_cons_eq_ok {d : String × ValueId} {rest made : List (String × ValueId)}
    (h : openPhis header preheader (d :: rest) s = .ok made t) :
    ∃ phi mid others, s.definePhi header d.1 d.2 [⟨preheader, d.2⟩] = .ok phi mid ∧
      openPhis header preheader rest mid = .ok others t ∧ made = (d.1, phi) :: others := by
  rw [openPhis] at h
  split at h
  · cases h
  rename_i phi mid hDefine
  split at h
  · cases h
  rename_i others last hRest
  cases h
  exact ⟨phi, mid, others, hDefine, hRest, rfl⟩

theorem names_openPhis {defined made : List (String × ValueId)}
    (h : openPhis header preheader defined s = .ok made t) : made.map (·.1) = defined.map (·.1) := by
  induction defined generalizing s made with
  | nil =>
    cases h
    rfl
  | cons d rest ih =>
    obtain ⟨phi, mid, others, -, hRest, rfl⟩ := openPhis_cons_eq_ok h
    rw [List.map_cons, List.map_cons, ih hRest]

/-- Every phi is appended to what the ones before it have left, and what comes after it leaves it
as it is. -/
theorem openPhis_eq_ok {defined made : List (String × ValueId)} (hs : s.func.Consistent)
    (h : openPhis header preheader defined s = .ok made t) :
    Extends s.func t.func ∧ Opened t.func (made.map (·.2)) := by
  induction defined generalizing s made with
  | nil =>
    cases h
    exact ⟨.refl _, fun _ hMem => absurd hMem List.not_mem_nil⟩
  | cons d rest ih =>
    obtain ⟨phi, mid, others, hDefine, hRest, rfl⟩ := openPhis_cons_eq_ok h
    obtain ⟨ty, -, hAnswer, hEq⟩ := definePhi_eq_ok hDefine
    have hFunc := congrArg Scope.func hEq
    have hMid : mid.func.Consistent := by
      rw [hFunc]
      exact hs.append _ _ _
    obtain ⟨hExtends, hOthers⟩ := ih hMid hRest
    have hPhi : Opened t.func [phi] := by
      apply hExtends.opened hMid
      rw [hFunc]
      exact hs.opened_append hAnswer
    refine ⟨Extends.append_then (hFunc ▸ hExtends), ?_⟩
    intro psi hPsi
    rcases List.mem_cons.mp hPsi with rfl | hPsi
    · exact hPhi _ (List.mem_singleton.mpr rfl)
    · exact hOthers psi hPsi

/-- The variables that are defined, with their definitions. -/
def defined (s : Scope) : List (String × ValueId) :=
  s.vars.current.keys.filterMap fun name => (s.vars.currentDefinition? name).map (name, ·)

theorem openLoop_eq_ok {l : LoopPhis} (h : (s.openLoop header preheader).answer? = some l) :
    openPhis header preheader s.defined s = .ok l.phis (s.openLoop header preheader).state := by
  unfold openLoop at h ⊢
  dsimp only at h ⊢
  split at h
  · cases h
  rename_i made t hPhis
  cases h
  exact hPhis

theorem openLoop_spec {l : LoopPhis} (hs : s.func.Consistent)
    (h : (s.openLoop header preheader).answer? = some l) :
    Extends s.func (s.openLoop header preheader).state.func ∧
      Opened (s.openLoop header preheader).state.func (l.phis.map (·.2)) :=
  openPhis_eq_ok hs (openLoop_eq_ok h)

theorem completePhis_sealing {rest : List (String × ValueId)} (hs : Sealing base phis phis s.func)
    (hRest : ∀ p ∈ rest, p.2 ∈ phis) (h : completePhis latch rest s = .ok () t) :
    Sealing base phis phis t.func := by
  induction rest generalizing s with
  | nil =>
    cases h
    exact hs
  | cons p rest ih =>
    rw [completePhis] at h
    split at h
    · cases h
    rename_i g hAdd
    refine ih ?_ (fun q hq => hRest q (List.mem_cons_of_mem p hq)) h
    have hc := hs.consistent.completed (congrArg Outcome.isOk hAdd)
    have hg := hs.consistent.addIncoming p.2 latch ((s.vars.currentDefinition? p.1).getD p.2)
    rw [hAdd] at hc hg
    exact hs.complete hc hg (hRest p List.mem_cons_self)

theorem forward_sealing {phi value : ValueId} (hs : Sealing base phis live s.func)
    (hLive : phi ∈ live) (h : s.func.trivialValue? phi = some value) :
    Sealing base phis (live.erase phi) (s.forward phi value).func := by
  obtain ⟨b, i, ho⟩ := hs.consistent.oneValued h
  exact hs.drop ho (ho.spared hs.consistent)
    ((hs.consistent.removeValue phi).replaceUses phi value) hLive

theorem dropTrivial_sealing (fuel : Nat) (forwarded : SortedMap ValueId ValueId)
    (hs : Sealing base phis live s.func) :
    ∃ live', Sealing base phis live' (dropTrivial fuel live forwarded s).2.func := by
  induction fuel generalizing live forwarded s with
  | zero => exact ⟨live, hs⟩
  | succ fuel ih =>
    rw [dropTrivial]
    split
    · exact ⟨live, hs⟩
    · rename_i phi value hFound
      obtain ⟨psi, hPsi, hEq⟩ := List.exists_of_findSome?_eq_some hFound
      obtain ⟨w, hTrivial, hPair⟩ := Option.map_eq_some_iff.mp hEq
      cases hPair
      exact ih _ (forward_sealing hs hPsi hTrivial)

theorem sealLoop_sealing {l : LoopPhis} (hPhis : l.phis.map (·.2) = phis)
    (hs : Sealing base phis phis s.func) (h : (s.sealLoop l latch).isOk = true) :
    ∃ live, Sealing base phis live (s.sealLoop l latch).state.func := by
  unfold sealLoop at h ⊢
  rcases hComplete : completePhis latch l.phis s with ⟨answer, t⟩
  rw [hComplete] at h
  cases answer with
  | error e => cases h
  | ok done =>
    have hRest : ∀ p ∈ l.phis, p.2 ∈ phis := by
      intro p hp
      rw [← hPhis]
      exact List.mem_map_of_mem hp
    have hDone := completePhis_sealing hs hRest hComplete
    rw [hPhis]
    exact dropTrivial_sealing l.phis.length ∅ hDone

/-! ## What is left behind -/

/-- **Flags lag behind a completed phi.** Completing a phi leaves a flag that does not agree exactly
if the phi was known, the new value is not, and an instruction other than the phi that is taken to be
known reads it. So it is with a loop: whatever is appended between opening and sealing it, flags
agree until then, and afterwards unless one of its phis has become unknown and an instruction that is
taken to be known reads it. -/
theorem completing_leaves_mismatch_iff (f : Func) (phi value : ValueId) (pred : BlockId)
    (s t : Scope) (header preheader latch : BlockId) (l : LoopPhis) (rs : List BuildRequest) :
    (f.Consistent → f.examine.has (· = .comptimeMismatch) = false →
      (f.addIncoming phi pred value).isOk = true →
      ((f.addIncoming phi pred value).state.examine.has (· = .comptimeMismatch) = true ↔
        f.isComptime phi = true ∧ f.isComptime value = false ∧
          ∃ i ∈ f.insts, i.id ≠ phi ∧ i.comptime = true ∧ phi ∈ i.op.operands)) ∧
    (s.func.Consistent → s.func.examine.has (· = .comptimeMismatch) = false →
      (s.openLoop header preheader).answer? = some l →
      (∀ r ∈ rs, r.isAddIncoming = false) →
      t.func = rs.foldl build (s.openLoop header preheader).state.func →
      (t.sealLoop l latch).isOk = true →
      ((∀ i ∈ s.func.insts, ∀ v ∈ i.op.operands, v.index < s.func.ids.nextValue) →
        t.func.examine.has (· = .comptimeMismatch) = false) ∧
      (t.func.examine.has (· = .comptimeMismatch) = false →
        ((t.sealLoop l latch).state.func.examine.has (· = .comptimeMismatch) = true ↔
          ∃ phi ∈ l.phis.map (·.2), t.func.isComptime phi = true ∧
            (t.sealLoop l latch).state.func.isComptime phi = false ∧
            ∃ i ∈ (t.sealLoop l latch).state.func.insts,
              i.comptime = true ∧ phi ∈ i.op.operands))) := by
  constructor
  · intro hf hAgree hOk
    exact hf.mismatch_addIncoming_iff hAgree hOk
  · intro hs hAgree hOpen hrs ht hOk
    obtain ⟨hExtends, hOpened⟩ := openLoop_spec hs hOpen
    have hBody : Extends (s.openLoop header preheader).state.func t.func := ⟨rs, hrs, ht.symm⟩
    have hMid := hExtends.consistent hs
    have hBuilt := hBody.consistent hMid
    constructor
    · intro hAllotted
      rw [hBuilt.mismatch_eq_false_iff]
      apply (hExtends.trans hBody).flagged hs
      · intro b i hi
        exact hAllotted i ((mem_insts hs.mem_layout).mpr ⟨b, hi⟩)
      · exact hs.mismatch_eq_false_iff.mp hAgree
    · intro hNone
      have hSealing := (hBody.opened hMid hOpened).sealing hBuilt
        (hBuilt.mismatch_eq_false_iff.mp hNone)
      obtain ⟨live, hSealed⟩ := sealLoop_sealing rfl hSealing hOk
      exact hSealed.but.mismatch_iff hSealed.consistent

/-- A constant that a loop adds to, one that it leaves alone, and a value from memory. -/
def mounting : Scope where
  func := [.createBlock "entry", .createBlock "head", .createBlock "exit",
    .append ⟨0⟩ (.scalar .i32) (.const (.int 0)), .append ⟨0⟩ (.scalar .i32) (.const (.int 5)),
    .append ⟨0⟩ (.ptr (.scalar .i32)) (.slot "n"), .append ⟨0⟩ (.scalar .i32) (.load ⟨2⟩),
    .append ⟨0⟩ .void (.jump ⟨1⟩)].foldl build (.empty "climbing" (.scalar .i32))
  vars := (VarTable.define {} "x" ⟨0⟩).define "y" ⟨1⟩

/-- The body of the loop: the sum of the two, which is taken to be known, then the value from memory
added to it. -/
def climb : List BuildRequest :=
  [.append ⟨1⟩ (.scalar .i32) (.binary .add ⟨5⟩ ⟨6⟩), .append ⟨1⟩ (.scalar .i32) (.binary .add ⟨7⟩ ⟨3⟩),
    .append ⟨1⟩ .bool (.binary .lt ⟨8⟩ ⟨3⟩), .append ⟨1⟩ .void (.branch ⟨9⟩ ⟨1⟩ ⟨2⟩),
    .append ⟨2⟩ .void (.ret (some ⟨7⟩))]

/-- The loop before it is sealed. -/
def climbing : Scope where
  func := climb.foldl build (mounting.openLoop ⟨1⟩ ⟨0⟩).state.func
  vars := (mounting.openLoop ⟨1⟩ ⟨0⟩).state.vars.define "x" ⟨8⟩

theorem climbing_leaves_mismatch_iff :
    (climbing.func.addIncoming ⟨5⟩ ⟨1⟩ ⟨8⟩).state.examine.has (· = .comptimeMismatch) = true ∧
      climbing.func.examine.has (· = .comptimeMismatch) = false ∧
      (climbing.sealLoop ⟨⟨1⟩, [("x", ⟨5⟩), ("y", ⟨6⟩)]⟩ ⟨1⟩).state.func.examine.has
        (· = .comptimeMismatch) = true := by
  have hOpen : (mounting.openLoop ⟨1⟩ ⟨0⟩).answer? = some ⟨⟨1⟩, [("x", ⟨5⟩), ("y", ⟨6⟩)]⟩ := by
    decide +kernel
  obtain ⟨hPhi, hLoop⟩ := completing_leaves_mismatch_iff climbing.func ⟨5⟩ ⟨8⟩ ⟨1⟩ mounting climbing
    ⟨1⟩ ⟨0⟩ ⟨1⟩ ⟨⟨1⟩, [("x", ⟨5⟩), ("y", ⟨6⟩)]⟩ climb
  obtain ⟨hBefore, hAfter⟩ := hLoop (by decide +kernel) (by decide +kernel) hOpen
    (by decide +kernel) rfl (by decide +kernel)
  have hNone := hBefore (by decide +kernel)
  refine ⟨?_, hNone, ?_⟩
  · apply (hPhi (by decide +kernel) hNone (by decide +kernel)).mpr
    decide +kernel
  · apply (hAfter hNone).mpr
    decide +kernel

/-- The sum is taken to be known before and after, but it is no longer a sum of known values. -/
theorem climbing_not_agreeing_after_seal :
    climbing.func.Consistent ∧
    climbing.func.examine.has (· = .comptimeMismatch) = false ∧
    (climbing.func.addIncoming ⟨5⟩ ⟨1⟩ ⟨8⟩).isOk = true ∧
    (climbing.func.addIncoming ⟨5⟩ ⟨1⟩ ⟨8⟩).state.examine.has (· = .comptimeMismatch) = true ∧
    mounting.func.Consistent ∧
    mounting.func.examine.has (· = .comptimeMismatch) = false ∧
    (mounting.openLoop ⟨1⟩ ⟨0⟩).answer? = some ⟨⟨1⟩, [("x", ⟨5⟩), ("y", ⟨6⟩)]⟩ ∧
    (climbing.sealLoop ⟨⟨1⟩, [("x", ⟨5⟩), ("y", ⟨6⟩)]⟩ ⟨1⟩).answer? = some 1 ∧
    (climbing.sealLoop ⟨⟨1⟩, [("x", ⟨5⟩), ("y", ⟨6⟩)]⟩ ⟨1⟩).state.func.examine.violations =
      [⟨"climbing", some ⟨1⟩, some ⟨7⟩, .comptimeMismatch⟩] := by
  decide +kernel

end Scope

end Midend
