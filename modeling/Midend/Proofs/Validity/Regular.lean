import Mathlib.Data.List.Pairwise
import Midend.Proofs.Func.Lawful
import Midend.Proofs.Validity.Examination

/-!
# Consistent, valid and strict functions are the regular ones

What is asked of a function from outside is that it is consistent, that the examination finds
nothing wrong with it, and that it is strict. `regular_iff` says that this is what the passes keep.
-/

namespace Midend

namespace Func

variable {f : Func} {b c : BlockId} {i j : Inst} {v : ValueId}

/-! ## Values -/

theorem insts_eq (f : Func) : f.insts = f.layout.flatMap f.code := by
  rw [insts, blocks]
  induction f.layout with
  | nil => rfl
  | cons b l ih =>
    rw [List.filterMap_cons, List.flatMap_cons]
    cases hBlk : f.block? b with
    | none =>
      have hCode : f.code b = [] := by
        rw [code, hBlk]
        rfl
      rw [hCode]
      exact ih
    | some blk =>
      rw [code_of_block? hBlk, ← ih]
      rfl

theorem mem_insts (hLayout : ∀ b, b ∈ f.layout ↔ f.hasBlock b = true) :
    i ∈ f.insts ↔ ∃ b, i ∈ f.code b := by
  rw [mem_insts_iff]
  exact exists_congr fun b => and_iff_right_of_imp fun hi => (hLayout b).mpr (hasBlock_of_mem_code hi)

/-- Names tell values apart if they do so in each block and between any two. -/
theorem nodup_insts_iff (hLayout : ∀ b, b ∈ f.layout ↔ f.hasBlock b = true)
    (hNodup : f.layout.Nodup) : (f.insts.map (·.id)).Nodup ↔
      (∀ b, ((f.code b).map (·.id)).Nodup) ∧
        ∀ a b, ∀ i ∈ f.code a, ∀ j ∈ f.code b, i.id = j.id → a = b := by
  rw [insts_eq, List.map_flatMap, List.nodup_flatMap]
  constructor
  · rintro ⟨hEach, hPairwise⟩
    constructor
    · intro b
      cases hb : f.hasBlock b with
      | true => exact hEach b ((hLayout b).mpr hb)
      | false => simp [code_of_not_hasBlock hb]
    · intro a b i hi j hj hId
      by_contra hne
      have ha := (hLayout a).mpr (hasBlock_of_mem_code hi)
      have hb := (hLayout b).mpr (hasBlock_of_mem_code hj)
      have : Std.Symm (Function.onFun List.Disjoint fun a => (f.code a).map (·.id)) :=
        ⟨fun _ _ h _ hv hw => h hw hv⟩
      refine hPairwise.forall ha hb hne (List.mem_map_of_mem hi) ?_
      rw [hId]
      exact List.mem_map_of_mem hj
  · rintro ⟨hEach, hInj⟩
    refine ⟨fun b _ => hEach b, hNodup.imp fun {a b} hne => ?_⟩
    intro v hv hw
    obtain ⟨i, hi, rfl⟩ := List.mem_map.mp hv
    obtain ⟨j, hj, hId⟩ := List.mem_map.mp hw
    exact hne (hInj a b i hi j hj hId.symm)

theorem value?_eq_some_iff (hNodup : (f.insts.map (·.id)).Nodup) :
    f.value? v = some i ↔ i ∈ f.insts ∧ i.id = v := by
  refine ⟨value?_eq_some, ?_⟩
  rintro ⟨hi, hId⟩
  obtain ⟨j, hj⟩ := Option.isSome_iff_exists.mp (hasValue_iff.mpr ⟨i, hi, hId⟩)
  obtain ⟨hj', hId'⟩ := value?_eq_some hj
  rw [hj, List.inj_on_of_nodup_map hNodup hj' hi (hId'.trans hId.symm)]

theorem tyOf?_eq_some_iff (hNodup : (f.insts.map (·.id)).Nodup) {ty : Ty} :
    f.tyOf? v = some ty ↔ ∃ i ∈ f.insts, i.id = v ∧ i.ty = ty := by
  rw [tyOf?, Option.map_eq_some_iff]
  simp only [value?_eq_some_iff hNodup, and_assoc]

theorem isComptime_iff (hNodup : (f.insts.map (·.id)).Nodup) :
    f.isComptime v = true ↔ ∃ i ∈ f.insts, i.id = v ∧ i.comptime = true := by
  rw [isComptime, Option.any_eq_true]
  simp only [value?_eq_some_iff hNodup, and_assoc]

/-- A name that no terminator bears. -/
def IsValue (f : Func) (v : ValueId) : Prop := ∀ j ∈ f.insts, j.id = v → j.isTerminator = false

instance (f : Func) (v : ValueId) : Decidable (f.IsValue v) :=
  inferInstanceAs (Decidable (∀ j ∈ f.insts, j.id = v → j.isTerminator = false))

section Holds

variable (hLayout : ∀ b, b ∈ f.layout ↔ f.hasBlock b = true) (hv : f.IsValue v)
include hLayout hv

theorem holds_iff_of_isValue {ty : Ty} {known : Bool} :
    f.Holds v ty known ↔ ∃ i ∈ f.insts, i.id = v ∧ i.ty = ty ∧ i.comptime = known := by
  constructor
  · rintro ⟨b, i, hi, -, hRest⟩
    exact ⟨i, (mem_insts hLayout).mpr ⟨b, hi⟩, hRest⟩
  · rintro ⟨i, hi, hId, hRest⟩
    obtain ⟨b, hi'⟩ := (mem_insts hLayout).mp hi
    exact ⟨b, i, hi', hv i hi hId, hId, hRest⟩

theorem hasValue_iff_holds : f.hasValue v = true ↔ ∃ ty known, f.Holds v ty known := by
  simp only [hasValue_iff, holds_iff_of_isValue hLayout hv]
  constructor
  · rintro ⟨i, hi, hId⟩
    exact ⟨_, _, i, hi, hId, rfl, rfl⟩
  · rintro ⟨-, -, i, hi, hId, -⟩
    exact ⟨i, hi, hId⟩

theorem tyOf?_iff_holds (hNodup : (f.insts.map (·.id)).Nodup) {ty : Ty} :
    f.tyOf? v = some ty ↔ ∃ known, f.Holds v ty known := by
  simp only [tyOf?_eq_some_iff hNodup, holds_iff_of_isValue hLayout hv]
  constructor
  · rintro ⟨i, hi, hId, hTy⟩
    exact ⟨_, i, hi, hId, hTy, rfl⟩
  · rintro ⟨-, i, hi, hId, hTy, -⟩
    exact ⟨i, hi, hId, hTy⟩

theorem isComptime_iff_holds (hNodup : (f.insts.map (·.id)).Nodup) :
    f.isComptime v = true ↔ ∃ ty, f.Holds v ty true := by
  simp only [isComptime_iff hNodup, holds_iff_of_isValue hLayout hv]
  constructor
  · rintro ⟨i, hi, hId, hKnown⟩
    exact ⟨_, i, hi, hId, rfl, hKnown⟩
  · rintro ⟨-, i, hi, hId, -, hKnown⟩
    exact ⟨i, hi, hId, hKnown⟩

end Holds

/-! ## Instructions -/

theorem missingName?_eq_none {op : Op} :
    op.missingName? = none ↔ (∀ args, op ≠ .call "" args) ∧ op ≠ .slot "" := by
  cases op <;> simp [Op.missingName?]

theorem flagAgrees_congr {K K' : ValueId → Prop} (hK : ∀ v ∈ i.op.operands, K v ↔ K' v) :
    i.FlagAgrees K ↔ i.FlagAgrees K' :=
  ⟨fun h => Inst.mapOperands_self i ▸ h.mapOperands hK,
    fun h => Inst.mapOperands_self i ▸ h.mapOperands fun v hv => (hK v hv).symm⟩

theorem perm_preds_iff {l : List BlockId} {s : BlockSet} :
    l.Perm s.toList ↔ l.Nodup ∧ ∀ a, a ∈ l ↔ a ∈ s := by
  constructor
  · exact fun h => ⟨h.nodup_iff.mpr s.nodup_toList, fun a => h.mem_iff⟩
  · rintro ⟨hNodup, hMem⟩
    exact (List.perm_ext_iff_of_nodup hNodup s.nodup_toList).mpr hMem

/-- The pairs of a phi and its type, apart from the values that are held. -/
theorem phiRight_iff {blk : Block} (hMirrored : f.Mirrored) (hBlk : f.block? b = some blk) :
    (∀ incoming, i.op = .phi incoming → f.PhiRight blk i incoming) ↔
      i.PairsUp (fun a => b ∈ f.succs a) ∧
        (i.isPhi = true → ∀ v ∈ i.op.operands, ∀ ty, f.tyOf? v = some ty → ty = i.ty) := by
  have hPreds : ∀ a, a ∈ blk.preds ↔ b ∈ f.succs a := by
    intro a
    rw [hMirrored a b, preds, hBlk]
    rfl
  rcases i with ⟨id, ty, known, op⟩
  cases op with
  | phi incoming =>
    have hRefs : (Op.phi incoming).blockRefs = incoming.map (·.block) := rfl
    constructor
    · intro h
      obtain ⟨hNe, hPerm, hTy⟩ := h incoming rfl
      obtain ⟨hNodup, hMem⟩ := perm_preds_iff.mp hPerm
      refine ⟨fun _ => ⟨?_, hNodup, fun a => (hMem a).trans (hPreds a)⟩, fun _ v hv => ?_⟩
      · exact fun hNil => hNe (List.map_eq_nil_iff.mp hNil)
      · obtain ⟨p, hp, rfl⟩ := List.mem_map.mp hv
        exact hTy p hp
    · rintro ⟨hPairs, hTy⟩ incoming' hEq
      obtain rfl := Op.phi.inj hEq
      obtain ⟨hNe, hNodup, hMem⟩ := hPairs rfl
      refine ⟨fun hNil => hNe (List.map_eq_nil_iff.mpr hNil),
        perm_preds_iff.mpr ⟨hNodup, fun a => (hMem a).trans (hPreds a).symm⟩, fun p hp => ?_⟩
      exact hTy rfl p.value (List.mem_map_of_mem hp)
  | _ => refine iff_of_true (fun _ h => ?_) ⟨fun h => ?_, fun h => ?_⟩ <;> cases h

theorem instRight_iff {blk : Block} (hLayout : ∀ b, b ∈ f.layout ↔ f.hasBlock b = true)
    (hNodup : (f.insts.map (·.id)).Nodup) (hMirrored : f.Mirrored) (hBlk : f.block? b = some blk)
    (hValue : ∀ v ∈ i.op.operands, f.IsValue v) :
    f.InstRight blk i ↔ (i.ReadsFrom f.Holds ∧ i.PairsUp fun a => b ∈ f.succs a) ∧
      ∀ a ∈ i.op.blockRefs, f.hasBlock a = true := by
  have hFlag : f.FlagRight i ↔ i.FlagAgrees fun v => ∃ ty, f.Holds v ty true :=
    flagAgrees_congr fun v hv => isComptime_iff_holds hLayout (hValue v hv) hNodup
  constructor
  · intro h
    obtain ⟨hPairs, hTy⟩ := (phiRight_iff hMirrored hBlk).mp h.phi
    refine ⟨⟨⟨fun v hv => ?_, fun hPhi v hv ty known hHeld => ?_, hFlag.mp h.flag,
      missingName?_eq_none.mpr ⟨h.callee_ne, h.slot_ne⟩⟩, hPairs⟩, h.blockRef_mem⟩
    · exact (hasValue_iff_holds hLayout (hValue v hv)).mp (h.operand_mem v hv)
    · exact hTy hPhi v hv ty ((tyOf?_iff_holds hLayout (hValue v hv) hNodup).mpr ⟨known, hHeld⟩)
  · rintro ⟨⟨hReads, hPairs⟩, hRefs⟩
    obtain ⟨hCallee, hSlot⟩ := missingName?_eq_none.mp hReads.named
    refine ⟨fun v hv => ?_, hRefs, hCallee, hSlot, (phiRight_iff hMirrored hBlk).mpr ⟨hPairs, ?_⟩,
      hFlag.mpr hReads.flag⟩
    · exact (hasValue_iff_holds hLayout (hValue v hv)).mpr (hReads.operand v hv)
    · intro hPhi v hv ty hTy
      obtain ⟨known, hHeld⟩ := (tyOf?_iff_holds hLayout (hValue v hv) hNodup).mp hTy
      exact hReads.ty_eq hPhi v hv ty known hHeld

/-! ## From strict functions to regular ones -/

theorem Consistent.arranged (hc : f.Consistent) : f.Arranged where
  layout_nodup := hc.layout_nodup
  mem_layout := hc.mem_layout
  named := hc.id_eq
  label_ne b hb := by
    obtain ⟨blk, hBlk, hLabel⟩ := Option.map_eq_some_iff.mp hb
    exact hc.label_ne b blk hBlk hLabel
  label_inj a b l ha hb := by
    obtain ⟨blk, hBlk, hLabel⟩ := Option.map_eq_some_iff.mp ha
    obtain ⟨blk', hBlk', hLabel'⟩ := Option.map_eq_some_iff.mp hb
    exact hc.label_inj a b blk blk' hBlk hBlk' (hLabel.trans hLabel'.symm)
  mirrored := hc.mirrored
  entry_mem := hc.entry_mem
  entry_none := hc.entry_none
  block_lt := hc.block_lt

theorem Consistent.numbered (hc : f.Consistent) : f.Numbered := by
  obtain ⟨hNodup, hInj⟩ := (nodup_insts_iff hc.mem_layout hc.layout_nodup).mp hc.values_nodup
  exact ⟨fun b i hi => hc.value_lt i ((mem_insts hc.mem_layout).mpr ⟨b, hi⟩), hNodup, hInj⟩

theorem WellFormed.blockRight (hw : f.WellFormed) (hLayout : ∀ b, b ∈ f.layout ↔ f.hasBlock b = true)
    {blk : Block} (hBlk : f.block? b = some blk) : f.BlockRight blk :=
  hw.block blk (mem_blocks_iff.mpr ⟨b, (hLayout b).mpr (hasBlock_iff.mpr ⟨blk, hBlk⟩), hBlk⟩)

theorem WellFormed.ordered (hw : f.WellFormed) (hLayout : ∀ b, b ∈ f.layout ↔ f.hasBlock b = true)
    (b : BlockId) : (f.code b).Pairwise Inst.Precedes := by
  cases hb : f.hasBlock b with
  | false => simp [code_of_not_hasBlock hb]
  | true =>
    obtain ⟨blk, hBlk⟩ := hasBlock_iff.mp hb
    rw [code_of_block? hBlk]
    exact ordered_iff.mp (hw.blockRight hLayout hBlk).ordered

/-- In a block in order, only the last instruction leads anywhere. -/
theorem exists_target_iff {l : List Inst} (hl : l.Pairwise Inst.Precedes) :
    (∃ i, l.getLast? = some i ∧ c ∈ i.op.targets) ↔ ∃ i ∈ l, c ∈ i.op.targets := by
  constructor
  · rintro ⟨i, hLast, hc⟩
    exact ⟨i, List.mem_of_getLast? hLast, hc⟩
  · rintro ⟨i, hi, hc⟩
    obtain ⟨front, back, rfl⟩ := List.append_of_mem hi
    cases back with
    | nil => exact ⟨i, List.getLast?_concat, hc⟩
    | cons j back =>
      rw [List.pairwise_append, List.pairwise_cons] at hl
      have hTerm := (hl.2.1.1 j List.mem_cons_self).2
      rw [isTerminator_of_mem_targets hc] at hTerm
      cases hTerm

/-- In a consistent function that passes the examination, control goes where the code says. -/
theorem WellFormed.wired (hw : f.WellFormed) (hc : f.Consistent) : f.Wired := by
  have hOrdered := hw.ordered hc.mem_layout
  refine ⟨⟨hOrdered, fun a b => ?_⟩, fun b i hi => ?_⟩
  · rw [← exists_target_iff (hOrdered a)]
    cases hBlk : f.block? a with
    | none => simp [succs, code, hBlk]
    | some blk =>
      rw [code_of_block? hBlk, ← (hw.blockRight hc.mem_layout hBlk).mem_succs, succs, hBlk]
      rfl
  · obtain ⟨blk, hBlk, hi'⟩ := mem_code_iff.mp hi
    exact ((phiRight_iff hc.mirrored hBlk).mp ((hw.blockRight hc.mem_layout hBlk).inst i hi').phi).1

/-- In a consistent function that passes the examination, nothing leads to the entry. -/
theorem WellFormed.entry_first (hw : f.WellFormed) (hc : f.Consistent) {e : BlockId}
    (he : f.entry = some e) (a : BlockId) : ¬ e ∈ f.succs a := by
  intro edge
  have hLayout : f.layout ≠ [] := List.ne_nil_of_mem ((hc.mem_layout e).mpr (hc.entry_mem e he))
  obtain ⟨e', blk, he', hBlk, hPreds⟩ := hw.entry hLayout
  obtain rfl := Option.some.inj (he.symm.trans he')
  rw [hc.mirrored a e, preds, hBlk] at edge
  change a ∈ blk.preds at edge
  rw [hPreds] at edge
  exact SortedSet.not_mem_empty a edge

theorem WellFormed.lawful (hw : f.WellFormed) (hc : f.Consistent)
    (hValue : ∀ i ∈ f.insts, ∀ v ∈ i.op.operands, f.IsValue v) : f.Lawful := by
  have hWired := hw.wired hc
  refine ⟨⟨hc.arranged, hw.name_ne⟩, ⟨hc.numbered, hWired.toSequenced, ?_⟩, hWired.pairs,
    fun e he => hw.entry_first hc he⟩
  intro b i hi
  obtain ⟨blk, hBlk, hi'⟩ := mem_code_iff.mp hi
  exact ((instRight_iff hc.mem_layout hc.values_nodup hc.mirrored hBlk
    (hValue i ((mem_insts hc.mem_layout).mpr ⟨b, hi⟩))).mp
      ((hw.blockRight hc.mem_layout hBlk).inst i hi')).1.1

theorem regular_of_strict (hc : f.Consistent) (hw : f.WellFormed) (hs : f.Strict) : f.Regular := by
  have hIn := fun b i => (mem_insts (f := f) (i := i) hc.mem_layout).mpr ∘ Exists.intro b
  have hComputes : ∀ b, ∀ i ∈ f.code b, ∀ v ∈ i.op.operands, ∀ d, f.DefinedIn v d →
      f.Computes d v := by
    intro b i hi v hv d hd
    obtain ⟨j, hj, hId⟩ := definedIn_iff.mp hd
    exact ⟨j, hj, hs.operand_isValue i (hIn b i hi) v hv j (hIn d j hj) hId, hId⟩
  refine ⟨hw.lawful hc hs.operand_isValue, ?_, ?_⟩
  · intro b hb earlier i later hCode hPhi v hv
    have hi : i ∈ f.code b := by simp [hCode]
    obtain ⟨blk, hBlk, -⟩ := mem_code_iff.mp hi
    rw [code_of_block? hBlk] at hCode
    rcases hs.operand_defined b blk hb hBlk earlier i later hCode hPhi v hv with h | ⟨d, hne, hd, hDef⟩
    · exact .inl h
    · exact .inr ⟨d, hne, hd, hComputes b i hi v hv d hDef⟩
  · intro b hb i hi incoming hOp p hp hLive
    obtain ⟨blk, hBlk, hi'⟩ := mem_code_iff.mp hi
    obtain ⟨d, hd, hDef⟩ := hs.incoming_defined b blk hb hBlk i hi' incoming hOp p hp hLive
    refine ⟨d, hd, hComputes b i hi p.value ?_ d hDef⟩
    rw [hOp]
    exact List.mem_map_of_mem hp

/-! ## From regular functions to strict ones -/

theorem Arranged.consistent (hf : f.Arranged) (hn : f.Numbered) : f.Consistent where
  layout_nodup := hf.layout_nodup
  mem_layout := hf.mem_layout
  id_eq := hf.named
  label_ne b blk hBlk hEq := hf.label_ne b (by rw [label?, hBlk, Option.map_some, hEq])
  label_inj a b blk blk' hBlk hBlk' hEq :=
    hf.label_inj a b blk.label (by rw [label?, hBlk]; rfl) (by rw [label?, hBlk', hEq]; rfl)
  mirrored := hf.mirrored
  entry_mem := hf.entry_mem
  entry_none := hf.entry_none
  values_nodup := (nodup_insts_iff hf.mem_layout hf.layout_nodup).mpr ⟨hn.nodup, hn.inj⟩
  block_lt := hf.block_lt
  value_lt i hi := by
    obtain ⟨b, hi⟩ := (mem_insts hf.mem_layout).mp hi
    exact hn.value_lt b i hi

/-- Every block that an instruction mentions is there: a phi mentions predecessors, and a terminator
the successors of its block. -/
theorem Wired.hasBlock_of_blockRef (hf : f.Wired) (hm : f.Mirrored) (hi : i ∈ f.code b)
    (hc : c ∈ i.op.blockRefs) : f.hasBlock c = true := by
  cases hPhi : i.isPhi with
  | true => exact hasBlock_of_mem_succs (((hf.pairs b i hi hPhi).2.2 c).mp hc)
  | false =>
    have hTargets : i.op.blockRefs = i.op.targets := by
      rcases i with ⟨id, ty, known, op⟩
      cases op <;> first | rfl | cases hPhi
    rw [hTargets] at hc
    exact hm.hasBlock_target ((hf.mem_succs b c).mpr ⟨i, hi, hc⟩)

/-- What is left to check when blocks, names, order, edges and pairs are as they should be. -/
theorem Framed.wellFormed (hf : f.Framed) (hn : f.Numbered) (hw : f.Wired)
    (hFirst : ∀ e, f.entry = some e → ∀ a, ¬ e ∈ f.succs a)
    (hInst : ∀ b blk, f.block? b = some blk → ∀ i ∈ f.code b, f.InstRight blk i) :
    f.WellFormed := by
  have hc := hf.toArranged.consistent hn
  refine ⟨hf.name_ne, ?_, ?_, hc.values_nodup, hf.mirrored, ?_⟩
  · intro hNe
    obtain ⟨b, hb⟩ := List.exists_mem_of_ne_nil _ hNe
    obtain ⟨e, he⟩ := hf.exists_entry ((hf.mem_layout b).mp hb)
    obtain ⟨blk, hBlk⟩ := hasBlock_iff.mp (hf.entry_mem e he)
    refine ⟨e, blk, he, hBlk, SortedSet.ext fun a => iff_of_false ?_ (SortedSet.not_mem_empty a)⟩
    intro ha
    exact hFirst e he a ((hf.mirrored a e).mpr (mem_preds_iff.mpr ⟨blk, hBlk, ha⟩))
  · rw [blocks, List.map_filterMap]
    exact hf.layout_nodup.filterMap fun a b l ha hb => hf.label_inj a b l ha hb
  · intro blk hMem
    obtain ⟨b, -, hBlk⟩ := mem_blocks_iff.mp hMem
    have hCode := code_of_block? hBlk
    refine ⟨hc.label_ne b blk hBlk, ordered_iff.mpr (hCode ▸ hw.ordered b), ?_, ?_⟩
    · intro s
      rw [exists_target_iff (hCode ▸ hw.ordered b), ← hCode, ← hw.mem_succs, succs, hBlk]
      rfl
    · exact fun i hi => hInst b blk hBlk i (hCode ▸ hi)

namespace Lawful

theorem isValue (hf : f.Listed) (hLayout : ∀ b, b ∈ f.layout ↔ f.hasBlock b = true)
    (hi : i ∈ f.code b) (hv : v ∈ i.op.operands) : f.IsValue v := by
  intro j hj hId
  obtain ⟨c, hj'⟩ := (mem_insts hLayout).mp hj
  exact hf.not_isTerminator_operand hi hv hj' hId

theorem consistent (hf : f.Lawful) : f.Consistent := hf.toArranged.consistent hf.toNumbered

theorem wellFormed (hf : f.Lawful) : f.WellFormed := by
  refine hf.toFramed.wellFormed hf.toNumbered hf.toWired hf.entry_first fun b blk hBlk i hi => ?_
  refine (instRight_iff hf.mem_layout hf.consistent.values_nodup hf.mirrored hBlk
    (fun v hv => isValue hf.toListed hf.mem_layout hi hv)).mpr
    ⟨⟨hf.reads b i hi, hf.pairs b i hi⟩, fun a ha => ?_⟩
  exact hf.toWired.hasBlock_of_blockRef hf.mirrored hi ha

theorem isValid (hf : f.Lawful) : f.isValid = true :=
  (isValid_iff_wellFormed hf.mem_layout hf.named).mpr hf.wellFormed

end Lawful

theorem Regular.strict (hf : f.Regular) : f.Strict where
  operand_isValue i hi v hv := by
    obtain ⟨b, hi⟩ := (mem_insts hf.mem_layout).mp hi
    exact Lawful.isValue hf.toListed hf.mem_layout hi hv
  operand_defined b blk hb hBlk earlier i later hCode hPhi v hv := by
    rw [← code_of_block? hBlk] at hCode
    rcases hf.operand b hb earlier i later hCode hPhi v hv with h | ⟨d, hne, hd, j, hj, -, hId⟩
    · exact .inl h
    · exact .inr ⟨d, hne, hd, definedIn_iff.mpr ⟨j, hj, hId⟩⟩
  incoming_defined b blk hb hBlk i hi incoming hOp p hp hLive := by
    rw [← code_of_block? hBlk] at hi
    obtain ⟨d, hd, j, hj, -, hId⟩ := hf.incoming b hb i hi incoming hOp p hp hLive
    exact ⟨d, hd, definedIn_iff.mpr ⟨j, hj, hId⟩⟩

/-- For a lawful function, strict means that every value that is read has been computed. -/
theorem Lawful.strict_iff_scoped (hf : f.Lawful) : f.Strict ↔ f.Scoped :=
  ⟨fun hs => (regular_of_strict hf.consistent hf.wellFormed hs).toScoped,
    fun hs => Regular.strict ⟨hf, hs⟩⟩

theorem regular_iff : f.Regular ↔ f.Consistent ∧ f.isValid = true ∧ f.Strict := by
  constructor
  · intro hf
    exact ⟨hf.consistent, hf.isValid, hf.strict⟩
  · rintro ⟨hc, hValid, hs⟩
    exact regular_of_strict hc ((isValid_iff_wellFormed hc.mem_layout hc.id_eq).mp hValid) hs

end Func

end Midend
