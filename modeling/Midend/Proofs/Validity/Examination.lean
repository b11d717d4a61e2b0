import Mathlib.Data.List.Nodup
import Midend.Proofs.Func.Checking
import Midend.Proofs.Func.Requests
import Midend.Shape.Request
import Midend.Validity.Examination
import Midend.Validity.WellFormed

/-!
# The examination accepts the well-formed functions

Each list of faults is empty just when what it looks for is not there: one lemma for each list, and
from them `isValid_iff_wellFormed` for functions whose layout lists the arena. A function without
blocks needs nothing but a name (`wellFormed_of_layout_nil`), and `isValid_iff_in_order` says what the
others need.
-/

namespace Midend

variable {l : List Inst} {blk : Block}

/-! ## Names, order and labels -/

theorem nameFaults_eq_nil {seen : List ValueId} :
    nameFaults seen l = [] ↔ (l.map (·.id)).Nodup ∧ ∀ i ∈ l, i.id ∉ seen := by
  induction l generalizing seen with
  | nil => simp [nameFaults]
  | cons i l ih =>
    rw [nameFaults, List.append_eq_nil_iff, ih, List.map_cons, List.nodup_cons]
    by_cases h : i.id ∈ seen
    · simp [h]
    · simp only [h, if_false, true_and, List.mem_cons, not_or, forall_eq_or_imp, not_false_eq_true]
      grind

theorem orderFaults_eq_nil {afterOther : Bool} :
    orderFaults afterOther l = [] ↔
      l.Pairwise Inst.Precedes ∧ (afterOther = true → ∀ i ∈ l, i.isPhi = false) := by
  induction l generalizing afterOther with
  | nil => simp [orderFaults]
  | cons i l ih =>
    rw [orderFaults, List.append_eq_nil_iff, List.append_eq_nil_iff, ih, List.pairwise_cons]
    have hLast : (if i.isTerminator && !l.isEmpty then [(i.id, Fault.terminatorNotLast)] else []) = [] ↔
        (i.isTerminator = true → l = []) := by
      cases i.isTerminator <;> cases l <;> simp
    have hHead : (if i.isPhi && afterOther then [(i.id, Fault.phiNotAtHead)] else []) = [] ↔
        (afterOther = true → i.isPhi = false) := by
      cases i.isPhi <;> cases afterOther <;> simp
    rw [hLast, hHead]
    simp only [Bool.or_eq_true, Bool.not_eq_true', List.mem_cons, forall_eq_or_imp]
    constructor
    · rintro ⟨⟨hTerm, hAfter⟩, hPairwise, hRest⟩
      refine ⟨⟨fun j hj => ⟨fun hPhi => ?_, ?_⟩, hPairwise⟩,
        fun h => ⟨hAfter h, hRest (.inl h)⟩⟩
      · by_contra hNot
        rw [Bool.not_eq_true] at hNot
        rw [hRest (.inr hNot) j hj] at hPhi
        cases hPhi
      · by_contra hNot
        rw [Bool.not_eq_false] at hNot
        exact List.ne_nil_of_mem hj (hTerm hNot)
    · rintro ⟨⟨hFirst, hPairwise⟩, hAfter⟩
      refine ⟨⟨fun hTerm => ?_, fun h => (hAfter h).1⟩, hPairwise, fun h j hj => ?_⟩
      · refine List.eq_nil_iff_forall_not_mem.mpr fun j hj => ?_
        rw [(hFirst j hj).2] at hTerm
        cases hTerm
      · rcases h with h | h
        · exact (hAfter h).2 j hj
        · by_contra hPhi
          rw [Bool.not_eq_false] at hPhi
          rw [(hFirst j hj).1 hPhi] at h
          cases h

/-- A relation holds throughout a list if it holds between every element and those before it. -/
theorem pairwise_of_forall_split {α : Type} {R : α → α → Prop} {l : List α}
    (h : ∀ earlier a later, l = earlier ++ a :: later → ∀ b ∈ earlier, R b a) : l.Pairwise R := by
  induction l with
  | nil => exact .nil
  | cons c l ih =>
    refine List.pairwise_cons.mpr ⟨fun a ha => ?_, ih fun earlier a later hEq b hb => ?_⟩
    · obtain ⟨earlier, later, rfl⟩ := List.append_of_mem ha
      exact h (c :: earlier) a later rfl c List.mem_cons_self
    · exact h (c :: earlier) a later (congrArg (c :: ·) hEq) b (List.mem_cons_of_mem _ hb)

theorem ordered_iff : blk.Ordered ↔ blk.insts.Pairwise Inst.Precedes := by
  constructor
  · intro h
    refine pairwise_of_forall_split fun earlier i later hEq j hj => ⟨fun hPhi => ?_, ?_⟩
    · exact h.phis_lead earlier i later hEq hPhi j hj
    · obtain ⟨front, back, rfl⟩ := List.append_of_mem hj
      by_contra hTerm
      rw [Bool.not_eq_false] at hTerm
      have := h.terminator_last front j (back ++ i :: later) (by simp [hEq]) hTerm
      simp at this
  · intro h
    constructor
    · intro earlier i later hEq hPhi j hj
      rw [hEq, List.pairwise_append] at h
      exact (h.2.2 j hj i List.mem_cons_self).1 hPhi
    · intro earlier i later hEq hTerm
      rw [hEq, List.pairwise_append, List.pairwise_cons] at h
      refine List.eq_nil_iff_forall_not_mem.mpr fun j hj => ?_
      have := (h.2.1.1 j hj).2
      rw [hTerm] at this
      cases this

theorem labelFaults_eq_nil {seen : List String} :
    labelFaults seen blk = [] ↔ blk.label ≠ "" ∧ blk.label ∉ seen := by
  rw [labelFaults]
  by_cases h : blk.label = "" <;> by_cases h' : blk.label ∈ seen <;> simp [h, h']

namespace Func

variable {f : Func}

/-! ## Edges -/

theorem edgeFaults_eq_nil : f.edgeFaults blk = [] ↔
    (∀ s, s ∈ blk.succs ↔ s ∈ blk.targets) ∧ (∀ s ∈ blk.succs, blk.id ∈ f.preds s) ∧
      ∀ p ∈ blk.preds, blk.id ∈ f.succs p := by
  have hTargets : SortedSet.ofList blk.targets = blk.succs ↔ ∀ s, s ∈ blk.succs ↔ s ∈ blk.targets := by
    rw [SortedSet.ext_iff]
    simp only [SortedSet.mem_ofList]
    exact forall_congr' fun _ => iff_comm
  rw [edgeFaults, List.append_eq_nil_iff, List.append_eq_nil_iff, ← hTargets]
  simp only [ite_eq_left_iff, List.map_eq_nil_iff, List.filter_eq_nil_iff, SortedSet.mem_toList,
    Bool.not_eq_true', Bool.not_eq_false, hasPred_iff, hasSucc_iff, reduceCtorEq, imp_false, not_not,
    and_assoc]

/-! ## Instructions -/

theorem pairFaults_eq_nil {ty : Ty} {covered : List BlockId} {incoming : List Incoming} :
    f.pairFaults blk ty covered incoming = [] ↔
      (∀ p ∈ incoming, p.block ∈ blk.preds) ∧ (incoming.map (·.block)).Nodup ∧
      (∀ p ∈ incoming, p.block ∉ covered) ∧
      ∀ p ∈ incoming, ∀ found, f.tyOf? p.value = some found → found = ty := by
  induction incoming generalizing covered with
  | nil => simp [pairFaults]
  | cons p rest ih =>
    rw [pairFaults, List.append_eq_nil_iff, List.append_eq_nil_iff, List.append_eq_nil_iff, ih]
    cases hTy : f.tyOf? p.value <;>
      simp only [hTy, ite_eq_left_iff, ite_eq_right_iff, List.cons_ne_nil, imp_false, not_not,
        List.mem_cons, List.map_cons, List.nodup_cons, List.mem_map, not_exists, not_and, not_or,
        forall_eq_or_imp] <;>
      grind

/-- Without repetition, and among a set, a list lists the set if it is as long or misses nothing. -/
theorem phiFaults_eq_nil {ty : Ty} {incoming : List Incoming} :
    f.phiFaults blk ty incoming = [] ↔
      incoming ≠ [] ∧ (incoming.map (·.block)).Perm blk.preds.toList ∧
      ∀ p ∈ incoming, ∀ found, f.tyOf? p.value = some found → found = ty := by
  rw [phiFaults, List.append_eq_nil_iff, List.append_eq_nil_iff, List.append_eq_nil_iff,
    pairFaults_eq_nil]
  simp only [ite_eq_right_iff, ite_eq_left_iff, List.cons_ne_nil, imp_false, not_not,
    List.map_eq_nil_iff, List.filter_eq_nil_iff, SortedSet.mem_toList, decide_eq_true_iff,
    List.isEmpty_iff, List.not_mem_nil, not_false_eq_true, implies_true, true_and]
  constructor
  · rintro ⟨⟨⟨hNe, -⟩, hPred, hNodup, hTy⟩, hAll⟩
    refine ⟨hNe, ?_, hTy⟩
    rw [List.perm_ext_iff_of_nodup hNodup blk.preds.nodup_toList]
    intro a
    constructor
    · intro ha
      obtain ⟨p, hp, rfl⟩ := List.mem_map.mp ha
      exact hPred p hp
    · exact fun ha => hAll a ha
  · rintro ⟨hNe, hPerm, hTy⟩
    refine ⟨⟨⟨hNe, ?_⟩, ?_, ?_, hTy⟩, ?_⟩
    · rw [SortedSet.size, ← hPerm.length_eq, List.length_map]
    · exact fun p hp => hPerm.mem_iff.mp (List.mem_map_of_mem hp)
    · exact hPerm.nodup_iff.mpr blk.preds.nodup_toList
    · exact fun a ha => hPerm.mem_iff.mpr ha

theorem comptimeAgrees_iff {i : Inst} : f.comptimeAgrees i = true ↔ f.FlagRight i := by
  have hAll : ∀ known : Bool, ∀ l : List ValueId, (known == l.all f.isComptime) = true ↔
      (known = true ↔ ∀ v ∈ l, f.isComptime v = true) := by
    intro known l
    rw [beq_iff_eq, Bool.eq_iff_iff, List.all_eq_true]
  rcases i with ⟨id, ty, known, op⟩
  cases op with
  | const c => rfl
  | binary | unary | call | convert => exact hAll known _
  | phi incoming =>
    rw [comptimeAgrees, FlagRight]
    cases known <;> simp
  | _ => exact iff_of_eq (Bool.not_eq_true' known)

theorem instFaults_eq_nil {i : Inst} : f.instFaults blk i = [] ↔ f.InstRight blk i := by
  rw [instFaults, List.append_eq_nil_iff, List.append_eq_nil_iff, List.append_eq_nil_iff]
  simp only [List.map_eq_nil_iff, List.filter_eq_nil_iff, Bool.not_eq_true', Bool.not_eq_false,
    ite_eq_left_iff, List.cons_ne_nil, imp_false, not_not, comptimeAgrees_iff]
  constructor
  · rintro ⟨⟨⟨hOperands, hRefs⟩, hOp⟩, hFlag⟩
    refine ⟨hOperands, hRefs, ?_, ?_, ?_, hFlag⟩
    · intro args hEq
      simp [hEq] at hOp
    · intro hEq
      simp [hEq] at hOp
    · intro incoming hEq
      simp only [hEq] at hOp
      obtain ⟨hNe, hPerm, hTy⟩ := phiFaults_eq_nil.mp hOp
      exact ⟨hNe, hPerm, hTy⟩
  · intro h
    refine ⟨⟨⟨h.operand_mem, h.blockRef_mem⟩, ?_⟩, h.flag⟩
    split
    · rename_i callee args hEq
      rw [if_neg]
      rintro rfl
      exact h.callee_ne args hEq
    · rename_i name hEq
      rw [if_neg]
      rintro rfl
      exact h.slot_ne hEq
    · rename_i incoming hEq
      obtain ⟨hNe, hPerm, hTy⟩ := h.phi incoming hEq
      exact phiFaults_eq_nil.mpr ⟨hNe, hPerm, hTy⟩
    · rfl

/-! ## Blocks -/

/-- What is wrong with a block apart from the blocks before it. -/
theorem blockViolations_eq_nil {labels : List String} {names : List ValueId} :
    f.blockViolations labels names blk = [] ↔
      (blk.label ≠ "" ∧ blk.label ∉ labels) ∧
      ((blk.insts.map (·.id)).Nodup ∧ ∀ i ∈ blk.insts, i.id ∉ names) ∧
      blk.Ordered ∧ f.edgeFaults blk = [] ∧ ∀ i ∈ blk.insts, f.InstRight blk i := by
  rw [blockViolations, List.append_eq_nil_iff, List.append_eq_nil_iff, List.append_eq_nil_iff,
    List.append_eq_nil_iff]
  simp only [List.map_eq_nil_iff, List.flatMap_eq_nil_iff, labelFaults_eq_nil, nameFaults_eq_nil,
    orderFaults_eq_nil, instFaults_eq_nil, ordered_iff, and_assoc, Bool.false_eq_true,
    false_implies, true_and]

theorem blocksViolations_eq_nil {labels : List String} {names : List ValueId} {l : List Block} :
    f.blocksViolations labels names l = [] ↔
      (l.map (·.label)).Nodup ∧ (∀ blk ∈ l, blk.label ∉ labels) ∧
      ((l.flatMap (·.insts)).map (·.id)).Nodup ∧ (∀ i ∈ l.flatMap (·.insts), i.id ∉ names) ∧
      ∀ blk ∈ l, blk.label ≠ "" ∧ blk.Ordered ∧ f.edgeFaults blk = [] ∧
        ∀ i ∈ blk.insts, f.InstRight blk i := by
  induction l generalizing labels names with
  | nil => simp [blocksViolations]
  | cons blk l ih =>
    rw [blocksViolations, List.append_eq_nil_iff, blockViolations_eq_nil, ih]
    rw [List.map_cons, List.nodup_cons, List.flatMap_cons, List.map_append, List.nodup_append,
      List.forall_mem_cons, List.forall_mem_cons, List.forall_mem_append]
    constructor
    · rintro ⟨⟨⟨hNe, hLabel⟩, ⟨hIds, hNames⟩, hOrdered, hEdges, hInst⟩, hLabels, hSeen, hRest, hOld,
        hBlocks⟩
      refine ⟨⟨fun hMem => ?_, hLabels⟩, ⟨hLabel, fun b hb hMem => ?_⟩, ⟨hIds, hRest, ?_⟩,
        ⟨hNames, fun i hi hMem => ?_⟩, ⟨hNe, hOrdered, hEdges, hInst⟩, hBlocks⟩
      · obtain ⟨b, hb, hEq⟩ := List.mem_map.mp hMem
        exact hSeen b hb (hEq ▸ List.mem_cons_self)
      · exact hSeen b hb (List.mem_cons_of_mem _ hMem)
      · rintro v hv w hw rfl
        obtain ⟨j, hj, hId⟩ := List.mem_map.mp hw
        exact hOld j hj (List.mem_append_left _ (hId ▸ hv))
      · exact hOld i hi (List.mem_append_right _ hMem)
    · rintro ⟨⟨hNew, hLabels⟩, ⟨hLabel, hSeen⟩, ⟨hIds, hRest, hDisjoint⟩, ⟨hNames, hOld⟩,
        ⟨hNe, hOrdered, hEdges, hInst⟩, hBlocks⟩
      refine ⟨⟨⟨hNe, hLabel⟩, ⟨hIds, hNames⟩, hOrdered, hEdges, hInst⟩, hLabels, ?_, hRest, ?_, hBlocks⟩
      · intro b hb hMem
        rcases List.mem_cons.mp hMem with hEq | hMem
        · exact hNew (hEq ▸ List.mem_map_of_mem hb)
        · exact hSeen b hb hMem
      · intro i hi hMem
        rcases List.mem_append.mp hMem with hMem | hMem
        · exact hDisjoint _ hMem _ (List.mem_map_of_mem hi) rfl
        · exact hOld i hi hMem

/-! ## Functions -/

theorem mem_targets_iff {s : BlockId} :
    s ∈ blk.targets ↔ ∃ i, blk.insts.getLast? = some i ∧ s ∈ i.op.targets := by
  rw [Block.targets, Block.terminator?]
  cases hLast : blk.insts.getLast? with
  | none => simp
  | some i =>
    cases hTerm : i.isTerminator with
    | true => simp [Option.filter, hTerm]
    | false =>
      have hNone : i.op.targets = [] := by
        rcases i with ⟨id, ty, known, op⟩
        cases op <;> first | rfl | cases hTerm
      simp [Option.filter, hTerm, hNone]

theorem entryFaults_eq_nil : f.entryFaults = [] ↔
    ∃ e blk, f.entry = some e ∧ f.block? e = some blk ∧ blk.preds = ∅ := by
  have hEmpty : ∀ blk : Block, blk.preds.isEmpty = true ↔ blk.preds = ∅ := by
    intro blk
    rw [SortedSet.isEmpty_iff, SortedSet.ext_iff]
    simp
  rw [entryFaults]
  cases hEntry : f.entryBlock? with
  | none =>
    refine iff_of_false (by simp) ?_
    rintro ⟨e, blk, he, hBlk, -⟩
    rw [entryBlock?, he, Option.bind_some, hBlk] at hEntry
    cases hEntry
  | some blk =>
    obtain ⟨e, he, hBlk⟩ := Option.bind_eq_some_iff.mp hEntry
    simp only [ite_eq_left_iff, List.cons_ne_nil, imp_false, not_not, hEmpty]
    constructor
    · exact fun hPreds => ⟨e, blk, he, hBlk, hPreds⟩
    · rintro ⟨e', blk', he', hBlk', hPreds⟩
      obtain rfl := Option.some.inj (he.symm.trans he')
      obtain rfl := Option.some.inj (hBlk.symm.trans hBlk')
      exact hPreds

theorem blockRight_iff : (blk.label ≠ "" ∧ blk.Ordered ∧ f.edgeFaults blk = [] ∧
    ∀ i ∈ blk.insts, f.InstRight blk i) ↔
      f.BlockRight blk ∧ (∀ s ∈ blk.succs, blk.id ∈ f.preds s) ∧
        ∀ p ∈ blk.preds, blk.id ∈ f.succs p := by
  rw [edgeFaults_eq_nil]
  simp only [mem_targets_iff]
  constructor
  · rintro ⟨hLabel, hOrdered, ⟨hSuccs, hLeave, hArrive⟩, hInst⟩
    exact ⟨⟨hLabel, hOrdered, hSuccs, hInst⟩, hLeave, hArrive⟩
  · rintro ⟨⟨hLabel, hOrdered, hSuccs, hInst⟩, hLeave, hArrive⟩
    exact ⟨hLabel, hOrdered, ⟨hSuccs, hLeave, hArrive⟩, hInst⟩

/-- Edges are recorded on both sides if every block finds its own on the other side. -/
theorem mirrored_iff_blocks (hLayout : ∀ b, b ∈ f.layout ↔ f.hasBlock b = true) (hNamed : f.Named) :
    f.Mirrored ↔ ∀ blk ∈ f.blocks, (∀ s ∈ blk.succs, blk.id ∈ f.preds s) ∧
      ∀ p ∈ blk.preds, blk.id ∈ f.succs p := by
  constructor
  · intro h blk hBlk
    obtain ⟨b, -, hBlk⟩ := mem_blocks_iff.mp hBlk
    obtain rfl := hNamed b blk hBlk
    exact ⟨fun s hs => (h blk.id s).mp (mem_succs_iff.mpr ⟨blk, hBlk, hs⟩),
      fun p hp => (h p blk.id).mpr (mem_preds_iff.mpr ⟨blk, hBlk, hp⟩)⟩
  · intro h a b
    have hMem : ∀ {c blk}, f.block? c = some blk → blk ∈ f.blocks := fun hBlk =>
      mem_blocks_iff.mpr ⟨_, (hLayout _).mpr (hasBlock_iff.mpr ⟨_, hBlk⟩), hBlk⟩
    constructor
    · intro edge
      obtain ⟨blk, hBlk, hb⟩ := mem_succs_iff.mp edge
      exact hNamed a blk hBlk ▸ (h blk (hMem hBlk)).1 b hb
    · intro edge
      obtain ⟨blk, hBlk, ha⟩ := mem_preds_iff.mp edge
      exact hNamed b blk hBlk ▸ (h blk (hMem hBlk)).2 a ha

/-- A function without blocks has no edges to record. -/
theorem wellFormed_of_layout_nil (hLayout : ∀ b, b ∈ f.layout ↔ f.hasBlock b = true)
    (hEmpty : f.layout = []) (hName : f.name ≠ "") : f.WellFormed := by
  have hNone : ∀ b, f.block? b = none := by
    intro b
    have hNot : ¬ f.hasBlock b = true := by
      rw [← hLayout, hEmpty]
      exact List.not_mem_nil
    rwa [hasBlock_eq_isSome, Bool.not_eq_true, Option.isSome_eq_false_iff,
      Option.isNone_iff_eq_none] at hNot
  have hNil : f.blocks = [] := by
    rw [blocks, hEmpty]
    rfl
  have hInsts : f.insts = [] := by
    rw [insts, hNil]
    rfl
  refine ⟨hName, fun hNe => absurd hEmpty hNe, by simp [hNil], by simp [hInsts], ?_, by simp [hNil]⟩
  intro a b
  simp [succs, preds, hNone]

/-- The examination finds nothing wrong with a function just when it is well-formed. -/
theorem isValid_iff_wellFormed (hLayout : ∀ b, b ∈ f.layout ↔ f.hasBlock b = true)
    (hNamed : f.Named) : f.isValid = true ↔ f.WellFormed := by
  have hBlocks : f.blocksViolations [] [] f.blocks = [] ↔
      (f.blocks.map (·.label)).Nodup ∧ (f.insts.map (·.id)).Nodup ∧ f.Mirrored ∧
        ∀ blk ∈ f.blocks, f.BlockRight blk := by
    rw [blocksViolations_eq_nil, mirrored_iff_blocks hLayout hNamed]
    simp only [blockRight_iff]
    constructor
    · rintro ⟨hLabels, -, hValues, -, hRight⟩
      exact ⟨hLabels, hValues, fun blk hBlk => (hRight blk hBlk).2, fun blk hBlk => (hRight blk hBlk).1⟩
    · rintro ⟨hLabels, hValues, hMirrored, hRight⟩
      exact ⟨hLabels, fun _ _ => List.not_mem_nil, hValues, fun _ _ => List.not_mem_nil,
        fun blk hBlk => ⟨hRight blk hBlk, hMirrored blk hBlk⟩⟩
  rw [isValid, Report.isValid, List.isEmpty_iff, examine, List.append_eq_nil_iff]
  simp only [ite_eq_right_iff, List.cons_ne_nil, imp_false]
  cases hEmpty : f.layout.isEmpty with
  | true =>
    rw [List.isEmpty_iff] at hEmpty
    constructor
    · exact fun h => wellFormed_of_layout_nil hLayout hEmpty h.1
    · exact fun h => ⟨h.name_ne, if_pos rfl⟩
  | false =>
    have hNe : f.layout ≠ [] := by
      rintro hNil
      rw [hNil] at hEmpty
      cases hEmpty
    rw [if_neg (by simp), List.append_eq_nil_iff, entryFaults_eq_nil, hBlocks]
    constructor
    · rintro ⟨hName, hEntry, hLabels, hValues, hMirrored, hRight⟩
      exact ⟨hName, fun _ => hEntry, hLabels, hValues, hMirrored, hRight⟩
    · intro h
      exact ⟨h.name_ne, h.entry hNe, h.labels_nodup, h.values_nodup, h.mirrored, h.block⟩

/-- **The examination accepts the well-formed functions and no others.** Where the layout lists the
arena and every block bears the name under which it is kept, nothing is found wrong with a function
just when it has a name and, unless it has no blocks: control enters at a block to which nothing
leads, labels and names of values tell blocks and values apart, edges are recorded on both sides,
and every block is in order with all its instructions. -/
theorem isValid_iff_in_order (f : Func) (hLayout : ∀ b, b ∈ f.layout ↔ f.hasBlock b = true)
    (hNamed : f.Named) :
    f.examine.isValid = true ↔ f.name ≠ "" ∧ (f.layout = [] ∨
      (∃ e blk, f.entry = some e ∧ f.block? e = some blk ∧ blk.preds = ∅) ∧
      (f.blocks.map (·.label)).Nodup ∧ (f.insts.map (·.id)).Nodup ∧ f.Mirrored ∧
      ∀ blk ∈ f.blocks, f.BlockRight blk) := by
  refine (isValid_iff_wellFormed hLayout hNamed).trans ?_
  constructor
  · intro h
    refine ⟨h.name_ne, ?_⟩
    by_cases hEmpty : f.layout = []
    · exact .inl hEmpty
    · exact .inr ⟨h.entry hEmpty, h.labels_nodup, h.values_nodup, h.mirrored, h.block⟩
  · rintro ⟨hName, hEmpty | ⟨hEntry, hLabels, hValues, hMirrored, hBlocks⟩⟩
    · exact wellFormed_of_layout_nil hLayout hEmpty hName
    · exact ⟨hName, fun _ => hEntry, hLabels, hValues, hMirrored, hBlocks⟩

/-- A loop that calls another function until it gives nothing more. -/
def calling : Func :=
  [.createBlock "entry", .createBlock "head", .createBlock "exit",
    .append ⟨0⟩ (.scalar .i32) (.const (.int 0)), .append ⟨0⟩ (.ptr (.scalar .i32)) (.slot "n"),
    .append ⟨0⟩ (.scalar .i32) (.load ⟨1⟩), .append ⟨0⟩ .void (.jump ⟨1⟩),
    .append ⟨1⟩ (.scalar .i32) (.phi [⟨⟨0⟩, ⟨2⟩⟩]), .append ⟨1⟩ (.scalar .i32) (.call "next" [⟨4⟩]),
    .append ⟨1⟩ .bool (.binary .lt ⟨0⟩ ⟨5⟩), .append ⟨1⟩ .void (.branch ⟨6⟩ ⟨1⟩ ⟨2⟩),
    .addIncoming ⟨4⟩ ⟨1⟩ ⟨5⟩, .append ⟨2⟩ .void (.ret (some ⟨5⟩))].foldl build
      (.empty "calling" (.scalar .i32))

theorem calling_in_order : (∀ b, b ∈ calling.layout ↔ calling.hasBlock b = true) ∧ calling.Named ∧
    calling.examine.isValid = true ∧ calling.layout ≠ [] ∧
      ∀ blk ∈ calling.blocks, calling.BlockRight blk := by
  have hc : calling.Consistent := by decide +kernel
  have hValid : calling.examine.isValid = true := by decide +kernel
  have hBlocks : calling.layout ≠ [] := by decide +kernel
  obtain ⟨-, hEmpty | ⟨-, -, -, -, hRight⟩⟩ :=
    (isValid_iff_in_order calling hc.mem_layout hc.id_eq).mp hValid
  · exact absurd hEmpty hBlocks
  · exact ⟨hc.mem_layout, hc.id_eq, hValid, hBlocks, hRight⟩

end Func

end Midend
