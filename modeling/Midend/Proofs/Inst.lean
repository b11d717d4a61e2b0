import Midend.Func.Construction

/-!
# What an instruction asks of its function

What an instruction asks of the values that it reads is kept apart from where these are held
(`Inst.ReadsFrom`), and what a phi asks of the predecessors of its block from what these are
(`Inst.PairsUp`). A pass that moves or renames values or blocks then has one lemma to use for each
of the three changes that it can make to an instruction:

* `Inst.mapOperands` renames what the instruction reads;
* `Inst.keepIncoming` drops pairs of a phi;
* `Inst.moveIncoming` renames a block in the pairs of a phi.
-/

namespace Midend

namespace Inst

/-- Keeps the pairs of a phi that belong to the blocks of a kind. -/
def keepIncoming (keep : BlockId → Bool) (i : Inst) : Inst :=
  match i.op with
  | .phi incoming => { i with op := .phi (incoming.filter (keep ·.block)) }
  | _ => i

/-- Makes a phi expect control from the second block where it expected it from the first. -/
def moveIncoming (old new : BlockId) (i : Inst) : Inst :=
  if i.isPhi then i.mapBlocks fun a => if a = old then new else a else i

variable {i j : Inst} {K K' : ValueId → Prop} {H H' : ValueId → Ty → Bool → Prop}

/-- The first instruction may stand before the second in a block. -/
def Precedes (i j : Inst) : Prop := (j.isPhi = true → i.isPhi = true) ∧ i.isTerminator = false

/-- The compile-time flag of an instruction agrees with what is known of its operands. -/
def FlagAgrees (known : ValueId → Prop) (i : Inst) : Prop :=
  match i.op with
  | .const _ => i.comptime = true
  | .binary .. | .unary .. | .call .. | .convert _ =>
    i.comptime = true ↔ ∀ v ∈ i.op.operands, known v
  | .phi _ => i.comptime = true → ∀ v ∈ i.op.operands, known v
  | _ => i.comptime = false

/-- What an instruction asks of the values that it reads: that they are held somewhere, that those
of a phi have its type, and that they are known as its own flag says. -/
structure ReadsFrom (held : ValueId → Ty → Bool → Prop) (i : Inst) : Prop where
  operand : ∀ v ∈ i.op.operands, ∃ ty known, held v ty known
  ty_eq : i.isPhi = true → ∀ v ∈ i.op.operands, ∀ ty known, held v ty known → ty = i.ty
  flag : i.FlagAgrees fun v => ∃ ty, held v ty true
  named : i.op.missingName? = none

/-- A phi has one pair for each block of a kind. -/
def PairsUp (kind : BlockId → Prop) (i : Inst) : Prop :=
  i.isPhi = true →
    i.op.blockRefs ≠ [] ∧ i.op.blockRefs.Nodup ∧ ∀ a, a ∈ i.op.blockRefs ↔ kind a

/-- Two instructions differ in their operands and in the pairs of a phi at most. -/
structure Like (i j : Inst) : Prop where
  id_eq : i.id = j.id
  ty_eq : i.ty = j.ty
  comptime_eq : i.comptime = j.comptime
  isPhi_eq : i.isPhi = j.isPhi
  isTerminator_eq : i.isTerminator = j.isTerminator
  targets_eq : i.op.targets = j.op.targets

theorem Like.refl (i : Inst) : i.Like i := ⟨rfl, rfl, rfl, rfl, rfl, rfl⟩

theorem Like.symm (h : i.Like j) : j.Like i :=
  ⟨h.id_eq.symm, h.ty_eq.symm, h.comptime_eq.symm, h.isPhi_eq.symm, h.isTerminator_eq.symm,
    h.targets_eq.symm⟩

/-- A change that keeps phis and terminators what they are keeps the order. -/
theorem pairwise_precedes_map {r : Inst → Inst} (hPhi : ∀ i, (r i).isPhi = i.isPhi)
    (hTerm : ∀ i, (r i).isTerminator = i.isTerminator) {l : List Inst}
    (h : l.Pairwise Precedes) : (l.map r).Pairwise Precedes := by
  refine List.pairwise_map.mpr (h.imp fun {i j} hij => ?_)
  rw [Precedes, hPhi, hPhi, hTerm]
  exact hij

/-! ## Renamed operands -/

theorem FlagAgrees.mapOperands (h : i.FlagAgrees K) {r : ValueId → ValueId}
    (hK : ∀ v ∈ i.op.operands, K v ↔ K' (r v)) : (i.mapOperands r).FlagAgrees K' := by
  have hAll : (∀ v ∈ (i.op.mapOperands r).operands, K' v) ↔ ∀ v ∈ i.op.operands, K v := by
    simp only [Op.operands_mapOperands, List.forall_mem_map]
    exact forall₂_congr fun v hv => (hK v hv).symm
  rcases i with ⟨id, ty, known, op⟩
  cases op <;> simp only [FlagAgrees, Inst.mapOperands] at h ⊢ <;>
    first | exact h | exact h.trans hAll.symm | exact fun hc => hAll.mpr (h hc)

theorem mem_operands_mapOperands {r : ValueId → ValueId} {v : ValueId} (hv : v ∈ i.op.operands) :
    r v ∈ (i.mapOperands r).op.operands := by
  rw [Inst.mapOperands, Op.operands_mapOperands]
  exact List.mem_map_of_mem hv

theorem ReadsFrom.mapOperands (h : i.ReadsFrom H) {r : ValueId → ValueId}
    (hH : ∀ v ∈ i.op.operands, ∀ ty known, H v ty known ↔ H' (r v) ty known) :
    (i.mapOperands r).ReadsFrom H' where
  operand := by
    simp only [Inst.mapOperands, Op.operands_mapOperands, List.forall_mem_map]
    intro v hv
    obtain ⟨ty, known, hHeld⟩ := h.operand v hv
    exact ⟨ty, known, (hH v hv ty known).mp hHeld⟩
  ty_eq := by
    simp only [isPhi, Inst.mapOperands, Op.isPhi_mapOperands, Op.operands_mapOperands,
      List.forall_mem_map]
    intro hPhi v hv ty known hHeld
    exact h.ty_eq hPhi v hv ty known ((hH v hv ty known).mpr hHeld)
  flag := h.flag.mapOperands fun v hv => exists_congr fun ty => hH v hv ty true
  named := by
    have hNamed := h.named
    rcases i with ⟨id, ty, known, op⟩
    cases op <;> exact hNamed

theorem mapOperands_self (i : Inst) : i.mapOperands (fun v => v) = i := by
  rcases i with ⟨id, ty, known, op⟩
  cases op <;> simp [Inst.mapOperands, Op.mapOperands]

theorem ReadsFrom.congr (h : i.ReadsFrom H)
    (hH : ∀ v ∈ i.op.operands, ∀ ty known, H v ty known ↔ H' v ty known) : i.ReadsFrom H' :=
  mapOperands_self i ▸ h.mapOperands hH

theorem like_mapOperands (r : ValueId → ValueId) (i : Inst) : (i.mapOperands r).Like i :=
  ⟨rfl, rfl, rfl, Op.isPhi_mapOperands r i.op, Op.isTerminator_mapOperands r i.op,
    Op.targets_mapOperands r i.op⟩

theorem PairsUp.mapOperands {P : BlockId → Prop} (h : i.PairsUp P) (r : ValueId → ValueId) :
    (i.mapOperands r).PairsUp P := by
  simpa [PairsUp, Inst.mapOperands, isPhi] using h

theorem PairsUp.congr {P P' : BlockId → Prop} (h : i.PairsUp P) (hP : ∀ a, P a ↔ P' a) :
    i.PairsUp P' := by
  have : P = P' := funext fun a => propext (hP a)
  exact this ▸ h

/-! ## Dropped pairs -/

section KeepIncoming

variable {keep : BlockId → Bool}

@[simp] theorem id_keepIncoming : (i.keepIncoming keep).id = i.id := by
  rcases i with ⟨id, ty, known, op⟩
  cases op <;> rfl

@[simp] theorem ty_keepIncoming : (i.keepIncoming keep).ty = i.ty := by
  rcases i with ⟨id, ty, known, op⟩
  cases op <;> rfl

@[simp] theorem comptime_keepIncoming : (i.keepIncoming keep).comptime = i.comptime := by
  rcases i with ⟨id, ty, known, op⟩
  cases op <;> rfl

@[simp] theorem isPhi_keepIncoming : (i.keepIncoming keep).isPhi = i.isPhi := by
  rcases i with ⟨id, ty, known, op⟩
  cases op <;> rfl

@[simp] theorem isTerminator_keepIncoming :
    (i.keepIncoming keep).isTerminator = i.isTerminator := by
  rcases i with ⟨id, ty, known, op⟩
  cases op <;> rfl

@[simp] theorem targets_keepIncoming : (i.keepIncoming keep).op.targets = i.op.targets := by
  rcases i with ⟨id, ty, known, op⟩
  cases op <;> rfl

theorem like_keepIncoming (keep : BlockId → Bool) (i : Inst) : (i.keepIncoming keep).Like i :=
  ⟨id_keepIncoming, ty_keepIncoming, comptime_keepIncoming, isPhi_keepIncoming,
    isTerminator_keepIncoming, targets_keepIncoming⟩

theorem keepIncoming_of_not_phi (h : i.isPhi = false) : i.keepIncoming keep = i := by
  rcases i with ⟨id, ty, known, op⟩
  cases op <;> first | rfl | cases h

theorem mem_operands_keepIncoming {v : ValueId} (h : v ∈ (i.keepIncoming keep).op.operands) :
    v ∈ i.op.operands := by
  rcases i with ⟨id, ty, known, op⟩
  cases op with
  | phi incoming =>
    obtain ⟨p, hp, rfl⟩ := List.mem_map.mp h
    exact List.mem_map_of_mem (List.mem_filter.mp hp).1
  | _ => exact h

theorem blockRefs_keepIncoming (h : i.isPhi = true) :
    (i.keepIncoming keep).op.blockRefs = i.op.blockRefs.filter keep := by
  rcases i with ⟨id, ty, known, op⟩
  cases op with
  | phi incoming => exact List.filter_map.symm
  | _ => cases h

theorem keepIncoming_keepIncoming {keep' : BlockId → Bool} :
    (i.keepIncoming keep).keepIncoming keep' = i.keepIncoming fun a => keep a && keep' a := by
  rcases i with ⟨id, ty, known, op⟩
  cases op with
  | phi incoming => simp [keepIncoming, List.filter_filter, Bool.and_comm]
  | _ => rfl

theorem keepIncoming_eq_of_blockRefs {keep' : BlockId → Bool}
    (h : i.isPhi = true → ∀ a ∈ i.op.blockRefs, keep a = keep' a) :
    i.keepIncoming keep = i.keepIncoming keep' := by
  rcases i with ⟨id, ty, known, op⟩
  cases op with
  | phi incoming =>
    have hEq : incoming.filter (fun p => keep p.block) = incoming.filter fun p => keep' p.block :=
      List.filter_congr fun p hp => h rfl p.block (List.mem_map_of_mem hp)
    simp [keepIncoming, hEq]
  | _ => rfl

theorem keepIncoming_eq_self (h : i.isPhi = true → ∀ a ∈ i.op.blockRefs, keep a = true) :
    i.keepIncoming keep = i := by
  have hEq : i.keepIncoming keep = i.keepIncoming fun _ => true := keepIncoming_eq_of_blockRefs h
  rw [hEq]
  rcases i with ⟨id, ty, known, op⟩
  cases op <;> simp [keepIncoming]

/-- A phi that is known keeps only known operands. -/
theorem FlagAgrees.keepIncoming (h : i.FlagAgrees K) (keep : BlockId → Bool) :
    (i.keepIncoming keep).FlagAgrees K := by
  rcases i with ⟨id, ty, known, op⟩
  cases op with
  | phi incoming => exact fun hKnown v hv => h hKnown v (mem_operands_keepIncoming hv)
  | _ => exact h

@[simp] theorem missingName?_keepIncoming :
    (i.keepIncoming keep).op.missingName? = i.op.missingName? := by
  rcases i with ⟨id, ty, known, op⟩
  cases op <;> rfl

/-- Fewer operands ask for less. -/
theorem ReadsFrom.keepIncoming (h : i.ReadsFrom H) : (i.keepIncoming keep).ReadsFrom H where
  operand v hv := h.operand v (mem_operands_keepIncoming hv)
  ty_eq hPhi v hv := by
    rw [ty_keepIncoming]
    exact h.ty_eq (isPhi_keepIncoming ▸ hPhi) v (mem_operands_keepIncoming hv)
  flag := h.flag.keepIncoming keep
  named := missingName?_keepIncoming.trans h.named

theorem PairsUp.keepIncoming {P : BlockId → Prop} (h : i.PairsUp P)
    (hSome : i.isPhi = true → ∃ a, P a ∧ keep a = true) :
    (i.keepIncoming keep).PairsUp fun a => P a ∧ keep a = true := by
  intro hPhi
  rw [isPhi_keepIncoming] at hPhi
  obtain ⟨-, hNodup, hMem⟩ := h hPhi
  rw [blockRefs_keepIncoming hPhi]
  have hMem' : ∀ a, a ∈ i.op.blockRefs.filter keep ↔ P a ∧ keep a = true := by
    intro a
    rw [List.mem_filter, hMem]
  refine ⟨?_, hNodup.filter _, hMem'⟩
  obtain ⟨a, ha⟩ := hSome hPhi
  exact List.ne_nil_of_mem ((hMem' a).mpr ha)

end KeepIncoming

/-! ## Renamed blocks -/

section MapBlocks

variable {r : BlockId → BlockId}

theorem ReadsFrom.mapBlocks (h : i.ReadsFrom H) (r : BlockId → BlockId) :
    (i.mapBlocks r).ReadsFrom H where
  operand := by
    simpa [Inst.mapBlocks] using h.operand
  ty_eq := by
    simpa [Inst.mapBlocks, isPhi] using h.ty_eq
  flag := by
    have hFlag := h.flag
    rcases i with ⟨id, ty, known, op⟩
    cases op with
    | phi incoming =>
      intro hKnown v hv
      exact hFlag hKnown v (Op.operands_mapBlocks r (.phi incoming) ▸ hv)
    | _ => exact hFlag
  named := by
    have hNamed := h.named
    rcases i with ⟨id, ty, known, op⟩
    cases op <;> exact hNamed

theorem blockRefs_mapBlocks (h : i.isPhi = true) :
    (i.mapBlocks r).op.blockRefs = i.op.blockRefs.map r := by
  rcases i with ⟨id, ty, known, op⟩
  cases op with
  | phi incoming => simp [Inst.mapBlocks, Op.mapBlocks, Op.blockRefs, Function.comp_def]
  | _ => cases h

end MapBlocks

section MoveIncoming

variable {old new : BlockId}

@[simp] theorem id_moveIncoming : (i.moveIncoming old new).id = i.id := by
  unfold moveIncoming; split <;> rfl

@[simp] theorem ty_moveIncoming : (i.moveIncoming old new).ty = i.ty := by
  unfold moveIncoming; split <;> rfl

@[simp] theorem comptime_moveIncoming : (i.moveIncoming old new).comptime = i.comptime := by
  unfold moveIncoming; split <;> rfl

@[simp] theorem isPhi_moveIncoming : (i.moveIncoming old new).isPhi = i.isPhi := by
  unfold moveIncoming; split <;> simp [isPhi, Inst.mapBlocks]

@[simp] theorem isTerminator_moveIncoming :
    (i.moveIncoming old new).isTerminator = i.isTerminator := by
  unfold moveIncoming; split <;> simp [isTerminator, Inst.mapBlocks]

@[simp] theorem operands_moveIncoming :
    (i.moveIncoming old new).op.operands = i.op.operands := by
  unfold moveIncoming; split <;> simp [Inst.mapBlocks]

@[simp] theorem targets_moveIncoming : (i.moveIncoming old new).op.targets = i.op.targets := by
  rcases i with ⟨id, ty, known, op⟩
  cases op <;> rfl

theorem like_moveIncoming (old new : BlockId) (i : Inst) : (i.moveIncoming old new).Like i :=
  ⟨id_moveIncoming, ty_moveIncoming, comptime_moveIncoming, isPhi_moveIncoming,
    isTerminator_moveIncoming, targets_moveIncoming⟩

theorem moveIncoming_eq_self (h : i.isPhi = true → ¬ old ∈ i.op.blockRefs) :
    i.moveIncoming old new = i := by
  rcases i with ⟨id, ty, known, op⟩
  cases op with
  | phi incoming =>
    have hEq : incoming.map (fun p : Incoming =>
        { p with block := if p.block = old then new else p.block }) = incoming := by
      conv => rhs; rw [← List.map_id incoming]
      refine List.map_congr_left fun p hp => ?_
      have hne : p.block ≠ old := fun hEq => h rfl (hEq ▸ List.mem_map_of_mem hp)
      simp [hne]
    simp [moveIncoming, isPhi, Op.isPhi, Inst.mapBlocks, Op.mapBlocks, hEq]
  | _ => rfl

theorem ReadsFrom.moveIncoming (h : i.ReadsFrom H) (old new : BlockId) :
    (i.moveIncoming old new).ReadsFrom H := by
  unfold Inst.moveIncoming
  split
  · exact h.mapBlocks _
  · exact h

theorem PairsUp.moveIncoming {P P' : BlockId → Prop} (h : i.PairsUp P) (hNew : ¬ P new)
    (hP : ∀ a, P' a ↔ (P a ∧ a ≠ old) ∨ (a = new ∧ P old)) :
    (i.moveIncoming old new).PairsUp P' := by
  intro hPhi
  rw [isPhi_moveIncoming] at hPhi
  obtain ⟨hNe, hNodup, hMem⟩ := h hPhi
  have hRefs : (i.moveIncoming old new).op.blockRefs =
      i.op.blockRefs.map fun a => if a = old then new else a := by
    rw [Inst.moveIncoming, if_pos hPhi, blockRefs_mapBlocks hPhi]
  have hFresh : ∀ a ∈ i.op.blockRefs, a ≠ new := fun a ha hEq => hNew (hEq ▸ (hMem a).mp ha)
  rw [hRefs]
  refine ⟨fun hNil => hNe (List.map_eq_nil_iff.mp hNil), ?_, ?_⟩
  · refine List.pairwise_map.mpr (hNodup.imp_of_mem ?_)
    intro a b ha hb hne
    have ha' := hFresh a ha
    have hb' := hFresh b hb
    grind
  · intro a
    rw [List.mem_map, hP]
    constructor
    · rintro ⟨c, hc, rfl⟩
      by_cases hEq : c = old
      · rw [if_pos hEq]
        exact .inr ⟨rfl, hEq ▸ (hMem c).mp hc⟩
      · rw [if_neg hEq]
        exact .inl ⟨(hMem c).mp hc, hEq⟩
    · rintro (⟨ha, hne⟩ | ⟨rfl, hOld⟩)
      · exact ⟨a, (hMem a).mpr ha, if_neg hne⟩
      · exact ⟨old, (hMem old).mpr hOld, if_pos rfl⟩

end MoveIncoming

end Inst

end Midend
