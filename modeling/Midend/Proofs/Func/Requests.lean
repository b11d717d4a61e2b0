import Midend.Proofs.Func.Code
import Midend.Proofs.Inst

/-!
# Requests, one by one

What each request that the passes make does to the code of a function and to its edges.

* `Exchanged`: the terminator of a block is exchanged (`replaceTerminator_exchanged`).
* `Shrunk`: blocks are taken away (`removeBlock_shrunk`).
* `Grown`: an empty block is added (`addBlock_grown`).
* Pairs of phis are dropped or renamed, and operands renamed, by a change of the code alone.
-/

namespace Midend

namespace Func

variable {f g : Func} {a b c x : BlockId} {i : Inst} {v : ValueId}

/-! ## Values -/

theorem mem_blocks_iff {blk : Block} : blk ∈ f.blocks ↔ ∃ b ∈ f.layout, f.block? b = some blk :=
  List.mem_filterMap

theorem mem_insts_iff : i ∈ f.insts ↔ ∃ b ∈ f.layout, i ∈ f.code b := by
  rw [insts, List.mem_flatMap]
  constructor
  · rintro ⟨blk, hBlk, hi⟩
    obtain ⟨b, hb, hBlk⟩ := mem_blocks_iff.mp hBlk
    exact ⟨b, hb, mem_code_iff.mpr ⟨blk, hBlk, hi⟩⟩
  · rintro ⟨b, hb, hi⟩
    obtain ⟨blk, hBlk, hi⟩ := mem_code_iff.mp hi
    exact ⟨blk, mem_blocks_iff.mpr ⟨b, hb, hBlk⟩, hi⟩

theorem value?_eq_some (h : f.value? v = some i) : i ∈ f.insts ∧ i.id = v := by
  obtain ⟨blk, hBlk, hFind⟩ := List.exists_of_findSome?_eq_some h
  refine ⟨List.mem_flatMap.mpr ⟨blk, hBlk, List.mem_of_find?_eq_some hFind⟩, ?_⟩
  simpa using List.find?_some hFind

theorem hasValue_iff : f.hasValue v = true ↔ ∃ i ∈ f.insts, i.id = v := by
  rw [hasValue, Option.isSome_iff_exists]
  constructor
  · rintro ⟨i, h⟩
    exact ⟨i, value?_eq_some h⟩
  · rintro ⟨i, hi, hId⟩
    obtain ⟨blk, hBlk, hi⟩ := List.mem_flatMap.mp hi
    rw [← Option.isSome_iff_exists, value?, List.findSome?_isSome_iff]
    exact ⟨blk, hBlk, by rw [Block.value?, List.find?_isSome]; exact ⟨i, hi, by simp [hId]⟩⟩

/-! ## Terminators -/

/-- A block gets a new terminator with the next free name, in place of the one that it had if it had
one, and the edges that go with it. -/
structure Exchanged (f : Func) (b : BlockId) (front : List Inst) (new : Inst) (g : Func) : Prop where
  frame : SameFrame f g
  nextValue_eq : g.ids.nextValue = f.ids.nextValue + 1
  code_before : f.code b = front ∨ ∃ old, f.code b = front ++ [old] ∧ old.isTerminator = true
  front_open : ∀ i ∈ front, i.isTerminator = false
  new_id : new.id = ⟨f.ids.nextValue⟩
  new_known : new.comptime = false
  new_terminator : new.isTerminator = true
  code_self : g.code b = front ++ [new]
  code_of_ne : ∀ x, x ≠ b → g.code x = f.code x
  mem_succs : ∀ x c, c ∈ g.succs x ↔ (x = b ∧ c ∈ new.op.targets) ∨ (x ≠ b ∧ c ∈ f.succs x)

theorem comptimeOf_of_isTerminator (f : Func) {op : Op} (h : op.isTerminator = true) :
    f.comptimeOf op = false := by
  cases op <;> first | rfl | cases h

theorem isPhi_of_isTerminator {op : Op} (h : op.isTerminator = true) : op.isPhi = false := by
  cases op <;> first | rfl | cases h

theorem missingName?_of_isTerminator {op : Op} (h : op.isTerminator = true) :
    op.missingName? = none := by
  cases op <;> first | rfl | cases h

theorem blockRefs_of_isTerminator {op : Op} (h : op.isTerminator = true) :
    op.blockRefs = op.targets := by
  cases op <;> first | rfl | cases h

/-- A terminator is taken at the end of a block that has none if all that it mentions is there. -/
theorem append_terminator (ty : Ty) {op : Op} (hOp : op.isTerminator = true)
    (hb : f.hasBlock b = true) (hOpen : ∀ i ∈ f.code b, i.isTerminator = false)
    (hOperands : ∀ v ∈ op.operands, f.hasValue v = true)
    (hTargets : ∀ c ∈ op.targets, f.hasBlock c = true) :
    f.append b ty op = .ok ⟨f.ids.nextValue⟩ (f.addInst b ty op) := by
  obtain ⟨blk, hBlk⟩ := hasBlock_iff.mp hb
  have hNone : blk.hasTerminator = false := by
    rw [Block.hasTerminator, Block.terminator?]
    cases hLast : blk.insts.getLast? with
    | none => rfl
    | some i =>
      have hi : i ∈ f.code b := by
        rw [code_of_block? hBlk]
        exact List.mem_of_getLast? hLast
      simp [hOpen i hi]
  have hRefuse : f.refuseAppend? b op = none := by
    have hValues : op.operands.find? (fun v => !f.hasValue v) = none := by simpa using hOperands
    have hBlocks : op.blockRefs.find? (fun c => !f.hasBlock c) = none := by
      rw [blockRefs_of_isTerminator hOp]
      simpa using hTargets
    simp only [refuseAppend?, hBlk, hNone, Bool.false_and, Bool.false_eq_true, if_false, refuseOp?,
      hValues, hBlocks, missingName?_of_isTerminator hOp, Option.map_none]
  rw [append, hRefuse]
  rfl

/-- Puts an instruction that has the next free name at the end of a block, without its edges. -/
def extend (f : Func) (b : BlockId) (i : Inst) : Func :=
  { f.rewrite b (· ++ [i]) with ids := f.ids.takeValue.2 }

theorem SameFrame.extend (f : Func) (b : BlockId) (i : Inst) : SameFrame f (f.extend b i) :=
  have h := SameFrame.rewrite f b (· ++ [i])
  ⟨rfl, rfl, rfl, rfl, h.hasBlock_eq, h.label?_eq, h.named, h.mirrored⟩

theorem addInst_of_not_phi (ty : Ty) {op : Op} (hOp : op.isPhi = false) :
    f.addInst b ty op =
      (f.extend b ⟨⟨f.ids.nextValue⟩, ty, f.comptimeOf op, op⟩).addEdges b op.targets := by
  have hPlace : (fun blk : Block => blk.place ⟨⟨f.ids.nextValue⟩, ty, f.comptimeOf op, op⟩) =
      fun blk =>
        { blk with insts := blk.insts ++ [⟨⟨f.ids.nextValue⟩, ty, f.comptimeOf op, op⟩] } := by
    funext blk
    rw [Block.place, Inst.isPhi, hOp]
    rfl
  rw [extend, rewrite, ← hPlace]
  rfl

/-- A terminator added at the end of a block brings its edges. -/
theorem addInst_terminator (ty : Ty) {op : Op} (hOp : op.isTerminator = true)
    (hb : f.hasBlock b = true) (hTargets : ∀ c ∈ op.targets, f.hasBlock c = true) :
    SameFrame f (f.addInst b ty op) ∧
      (f.addInst b ty op).ids.nextValue = f.ids.nextValue + 1 ∧
      (f.addInst b ty op).code b = f.code b ++ [⟨⟨f.ids.nextValue⟩, ty, false, op⟩] ∧
      (∀ x, x ≠ b → (f.addInst b ty op).code x = f.code x) ∧
      ∀ x c, c ∈ (f.addInst b ty op).succs x ↔ c ∈ f.succs x ∨ (x = b ∧ c ∈ op.targets) := by
  rw [addInst_of_not_phi ty (isPhi_of_isTerminator hOp), comptimeOf_of_isTerminator f hOp]
  generalize hi : (⟨⟨f.ids.nextValue⟩, ty, false, op⟩ : Inst) = i
  have hSame := SameCode.addEdges (f.extend b i) b op.targets
  have hMid := SameFrame.extend f b i
  have hCode : ∀ x, (f.extend b i).code x = (f.rewrite b (· ++ [i])).code x := fun _ => rfl
  have hSuccs : ∀ x, (f.extend b i).succs x = f.succs x := fun x =>
    (succs_rewrite : (f.rewrite b (· ++ [i])).succs x = f.succs x)
  refine ⟨hMid.trans (.of_sameCode hSame fun h => h.addEdges b op.targets), ?_, ?_, ?_, ?_⟩
  · rw [hSame.ids_eq]
    rfl
  · rw [hSame.code_eq, hCode, code_rewrite_self hb]
  · intro x hx
    rw [hSame.code_eq, hCode, code_rewrite_of_ne hx]
  · intro x c
    rw [mem_succs_addEdges, hSuccs, hMid.hasBlock_eq, hMid.hasBlock_eq]
    constructor
    · rintro (h | ⟨hx, hc, -⟩)
      · exact .inl h
      · exact .inr ⟨hx, hc⟩
    · rintro (h | ⟨hx, hc⟩)
      · exact .inl h
      · exact .inr ⟨hx, hc, hb, hTargets c hc⟩

/-- A block that has no terminator can get one. -/
theorem append_exchanged (ty : Ty) (op : Op) (hOp : op.isTerminator = true)
    (hb : f.hasBlock b = true) (hOpen : ∀ i ∈ f.code b, i.isTerminator = false)
    (hSuccs : ∀ c, ¬ c ∈ f.succs b) (hOperands : ∀ v ∈ op.operands, f.hasValue v = true)
    (hTargets : ∀ c ∈ op.targets, f.hasBlock c = true) :
    ∃ g, f.append b ty op = .ok ⟨f.ids.nextValue⟩ g ∧
      Exchanged f b (f.code b) ⟨⟨f.ids.nextValue⟩, ty, false, op⟩ g := by
  obtain ⟨hFrame, hNext, hSelf, hOther, hEdges⟩ := addInst_terminator ty hOp hb hTargets
  refine ⟨_, append_terminator ty hOp hb hOpen hOperands hTargets,
    hFrame, hNext, .inl rfl, hOpen, rfl, rfl, hOp, hSelf, hOther, ?_⟩
  intro x c
  have := hSuccs c
  rw [hEdges]
  grind

theorem terminator?_of_code {blk : Block} {front : List Inst} {old : Inst}
    (hBlk : f.block? b = some blk) (hCode : f.code b = front ++ [old])
    (hOld : old.isTerminator = true) : blk.terminator? = some old := by
  rw [Block.terminator?, ← code_of_block? hBlk, hCode, List.getLast?_concat]
  simp [hOld]

theorem code_of_terminator? {old : Inst} (h : (f.block? a).bind (·.terminator?) = some old) :
    ∃ front, f.code a = front ++ [old] ∧ old.isTerminator = true := by
  obtain ⟨blk, hBlk, hTerm⟩ := Option.bind_eq_some_iff.mp h
  rw [Block.terminator?, Option.filter_eq_some_iff] at hTerm
  obtain ⟨front, hInsts⟩ := List.getLast?_eq_some_iff.mp hTerm.1
  exact ⟨front, by rw [code_of_block? hBlk, hInsts], hTerm.2⟩

theorem dropTerminator_spec {front : List Inst} {old : Inst} (hCode : f.code b = front ++ [old]) :
    SameFrame f (f.dropTerminator b old) ∧ (f.dropTerminator b old).ids = f.ids ∧
      (f.dropTerminator b old).code b = front ∧
      (∀ x, x ≠ b → (f.dropTerminator b old).code x = f.code x) ∧
      ∀ x c, c ∈ (f.dropTerminator b old).succs x ↔
        c ∈ f.succs x ∧ ¬ (x = b ∧ c ∈ old.op.targets) := by
  have hb : f.hasBlock b = true := hasBlock_of_mem_code (i := old) (by simp [hCode])
  have hEq : f.dropTerminator b old =
      (f.rewrite b List.dropLast).removeEdges b old.op.targets := rfl
  have hSame := SameCode.removeEdges (f.rewrite b List.dropLast) b old.op.targets
  rw [hEq]
  refine ⟨(SameFrame.rewrite f b _).trans
    (.of_sameCode hSame fun h => h.removeEdges b old.op.targets), hSame.ids_eq, ?_, ?_, ?_⟩
  · rw [hSame.code_eq, code_rewrite_self hb, hCode, List.dropLast_concat]
  · intro x hx
    rw [hSame.code_eq, code_rewrite_of_ne hx]
  · intro x c
    rw [mem_succs_removeEdges, succs_rewrite]

theorem restoreTerminator_eq (f : Func) (b : BlockId) (old : Inst) :
    f.restoreTerminator b old = (f.rewrite b (· ++ [old])).addEdges b old.op.targets := rfl

/-- A terminator that has been taken away, and whose edges were recorded, can be put back. -/
theorem restoreTerminator_dropTerminator {front : List Inst} {old : Inst} (hf : f.Mirrored)
    (hCode : f.code b = front ++ [old]) (hSuccs : ∀ c ∈ old.op.targets, c ∈ f.succs b) :
    (f.dropTerminator b old).restoreTerminator b old = f := by
  obtain ⟨hFrame, -, -, -, hEdges⟩ := dropTerminator_spec hCode
  have hDropped : SameCode (f.rewrite b List.dropLast) (f.dropTerminator b old) :=
    SameCode.removeEdges (f.rewrite b List.dropLast) b old.op.targets
  generalize f.dropTerminator b old = mid at *
  have hSame : SameCode f (mid.restoreTerminator b old) := by
    have hAdded := hDropped.rewrite b (· ++ [old])
    rw [rewrite_rewrite_cancel (by simp [hCode])] at hAdded
    exact hAdded.trans (restoreTerminator_eq mid b old ▸ SameCode.addEdges _ b old.op.targets)
  have hMirrored : (mid.restoreTerminator b old).Mirrored := by
    rw [restoreTerminator_eq]
    exact ((hFrame.mirrored hf).rewrite b _).addEdges b _
  refine hSame.eq_of_mem_succs hf hMirrored fun x c => ?_
  rw [restoreTerminator_eq, mem_succs_addEdges, succs_rewrite, hEdges, hasBlock_rewrite,
    hasBlock_rewrite, hFrame.hasBlock_eq, hFrame.hasBlock_eq]
  constructor
  · rintro (⟨hc, -⟩ | ⟨rfl, hc, -⟩)
    · exact hc
    · exact hSuccs c hc
  · intro hc
    by_cases hOld : x = b ∧ c ∈ old.op.targets
    · obtain ⟨rfl, hc'⟩ := hOld
      exact .inr ⟨rfl, hc', hasBlock_of_mem_succs hc, hf.hasBlock_target hc⟩
    · exact .inl ⟨hc, hOld⟩

/-- A terminator can be exchanged for any other whose operands and targets are there. -/
theorem replaceTerminator_exchanged {front : List Inst} {old : Inst} (ty : Ty) (op : Op)
    (hCode : f.code b = front ++ [old]) (hOld : old.isTerminator = true)
    (hFront : ∀ i ∈ front, i.isTerminator = false)
    (hSuccs : ∀ c, c ∈ f.succs b ↔ c ∈ old.op.targets) (hOp : op.isTerminator = true)
    (hOperands : ∀ v ∈ op.operands, (f.dropTerminator b old).hasValue v = true)
    (hTargets : ∀ c ∈ op.targets, f.hasBlock c = true) :
    ∃ g, f.replaceTerminator b ty op = .ok ⟨f.ids.nextValue⟩ g ∧
      Exchanged f b front ⟨⟨f.ids.nextValue⟩, ty, false, op⟩ g := by
  have hb : f.hasBlock b = true := hasBlock_of_mem_code (i := old) (by simp [hCode])
  obtain ⟨blk, hBlk⟩ := hasBlock_iff.mp hb
  have hLast := terminator?_of_code hBlk hCode hOld
  obtain ⟨hFrame, hIds, hSelf, hOther, hEdges⟩ := dropTerminator_spec hCode
  have hTargets' : ∀ c ∈ op.targets, (f.dropTerminator b old).hasBlock c = true := by
    intro c hc
    rw [hFrame.hasBlock_eq]
    exact hTargets c hc
  have hb' : (f.dropTerminator b old).hasBlock b = true := by rw [hFrame.hasBlock_eq, hb]
  have hAppend := append_terminator ty hOp hb' (by rwa [hSelf]) hOperands hTargets'
  obtain ⟨hFrame', hNext, hSelf', hOther', hEdges'⟩ :=
    addInst_terminator ty hOp hb' hTargets'
  rw [hIds] at hAppend hNext hSelf'
  refine ⟨_, ?_, hFrame.trans hFrame', hNext, .inr ⟨old, hCode, hOld⟩, hFront, rfl, rfl, hOp, ?_, ?_,
    ?_⟩
  · rw [replaceTerminator, hBlk, hOp]
    simp only [hLast, hAppend]
    rfl
  · rw [hSelf', hSelf]
  · intro x hx
    rw [hOther' x hx, hOther x hx]
  · intro x c
    rw [hEdges', hEdges]
    by_cases hx : x = b
    · subst hx
      rw [hSuccs]
      grind
    · grind

theorem append_of_not_hasValue {v : ValueId} (ty : Ty) {op : Op} (hv : v ∈ op.operands)
    (hMissing : f.hasValue v = false) : ∃ e, f.append b ty op = .fail e f := by
  rw [append]
  cases hRefuse : f.refuseAppend? b op with
  | some e => exact ⟨e, rfl⟩
  | none =>
    have hOp : f.refuseOp? op = none := by
      rw [refuseAppend?] at hRefuse
      split at hRefuse
      · cases hRefuse
      · split at hRefuse
        · cases hRefuse
        · exact hRefuse
    rw [refuseOp?] at hOp
    split at hOp
    · cases hOp
    · rename_i hNone
      have hKnown := List.find?_eq_none.mp hNone v hv
      rw [hMissing] at hKnown
      exact absurd rfl hKnown

/-- A terminator that leads to blocks of the function is refused only because it reads a value that
is not there once the old one is gone, and then nothing has changed. -/
theorem replaceTerminator_cases {front : List Inst} {old : Inst} (ty : Ty) (op : Op)
    (hf : f.Mirrored) (hCode : f.code b = front ++ [old]) (hOld : old.isTerminator = true)
    (hFront : ∀ i ∈ front, i.isTerminator = false)
    (hSuccs : ∀ c, c ∈ f.succs b ↔ c ∈ old.op.targets) (hOp : op.isTerminator = true)
    (hTargets : ∀ c ∈ op.targets, f.hasBlock c = true) :
    (∃ g, f.replaceTerminator b ty op = .ok ⟨f.ids.nextValue⟩ g ∧
        Exchanged f b front ⟨⟨f.ids.nextValue⟩, ty, false, op⟩ g) ∨
      ∃ e, f.replaceTerminator b ty op = .fail e f ∧
        ∃ v ∈ op.operands, (f.dropTerminator b old).hasValue v = false := by
  by_cases hOperands : ∀ v ∈ op.operands, (f.dropTerminator b old).hasValue v = true
  · exact .inl (replaceTerminator_exchanged ty op hCode hOld hFront hSuccs hOp hOperands hTargets)
  · right
    obtain ⟨v, hMissing⟩ := Classical.not_forall.mp hOperands
    rw [Classical.not_imp, Bool.not_eq_true] at hMissing
    obtain ⟨blk, hBlk⟩ :=
      hasBlock_iff.mp (hasBlock_of_mem_code (f := f) (b := b) (i := old) (by simp [hCode]))
    obtain ⟨e, hAppend⟩ := append_of_not_hasValue (b := b) ty hMissing.1 hMissing.2
    refine ⟨e, ?_, v, hMissing⟩
    rw [replaceTerminator, hBlk, hOp]
    simp only [terminator?_of_code hBlk hCode hOld, hAppend]
    exact congrArg (Outcome.fail e) (restoreTerminator_dropTerminator hf hCode fun c => (hSuccs c).mpr)

/-! ## Blocks -/

/-- Only the blocks of a kind are left, with their code and the edges between them. -/
structure Shrunk (f : Func) (keep : BlockId → Bool) (g : Func) : Prop where
  name_eq : g.name = f.name
  layout_eq : g.layout = f.layout.filter keep
  entry_eq : g.entry = f.entry
  ids_eq : g.ids = f.ids
  hasBlock_iff : ∀ x, g.hasBlock x = true ↔ keep x = true ∧ f.hasBlock x = true
  label?_eq : ∀ x, keep x = true → g.label? x = f.label? x
  code_eq : ∀ x, keep x = true → g.code x = f.code x
  mem_succs : ∀ x c, c ∈ g.succs x ↔ c ∈ f.succs x ∧ keep x = true ∧ keep c = true
  named : f.Named → g.Named
  mirrored : f.Mirrored → g.Mirrored

theorem Shrunk.refl (f : Func) : Shrunk f (fun _ => true) f where
  name_eq := rfl
  layout_eq := (List.filter_eq_self.mpr fun _ _ => rfl).symm
  entry_eq := rfl
  ids_eq := rfl
  hasBlock_iff := by simp
  label?_eq _ _ := rfl
  code_eq _ _ := rfl
  mem_succs := by simp
  named := id
  mirrored := id

theorem Shrunk.trans {h : Func} {keep keep' : BlockId → Bool} (hfg : Shrunk f keep g)
    (hgh : Shrunk g keep' h) : Shrunk f (fun x => keep x && keep' x) h where
  name_eq := hgh.name_eq.trans hfg.name_eq
  layout_eq := by
    rw [hgh.layout_eq, hfg.layout_eq, List.filter_filter]
    exact List.filter_congr fun x _ => Bool.and_comm ..
  entry_eq := hgh.entry_eq.trans hfg.entry_eq
  ids_eq := hgh.ids_eq.trans hfg.ids_eq
  hasBlock_iff x := by
    rw [hgh.hasBlock_iff, hfg.hasBlock_iff]
    grind
  label?_eq x hx := by
    rw [Bool.and_eq_true] at hx
    exact (hgh.label?_eq x hx.2).trans (hfg.label?_eq x hx.1)
  code_eq x hx := by
    rw [Bool.and_eq_true] at hx
    exact (hgh.code_eq x hx.2).trans (hfg.code_eq x hx.1)
  mem_succs x c := by
    rw [hgh.mem_succs, hfg.mem_succs]
    grind
  named h := hgh.named (hfg.named h)
  mirrored h := hgh.mirrored (hfg.mirrored h)

theorem block?_detach (f : Func) (b x : BlockId) :
    (f.detach b).block? x = if x = b then none else (f.disconnect b).block? x :=
  SortedMap.get?_erase ..

theorem name_detach : (f.detach b).name = f.name := (SameCode.disconnect f b).name_eq

theorem ids_detach : (f.detach b).ids = f.ids := (SameCode.disconnect f b).ids_eq

theorem block?_detach_of_ne (hne : x ≠ b) : (f.detach b).block? x = (f.disconnect b).block? x := by
  rw [block?_detach, if_neg hne]

theorem hasBlock_detach : (f.detach b).hasBlock x = true ↔ x ≠ b ∧ f.hasBlock x = true := by
  rw [hasBlock_eq_isSome, block?_detach, ← (SameCode.disconnect f b).hasBlock_eq]
  by_cases hx : x = b <;> simp [hx, hasBlock_eq_isSome]

theorem code_detach_of_ne (hne : x ≠ b) : (f.detach b).code x = f.code x := by
  rw [← (SameCode.disconnect f b).code_eq, code, code, block?_detach_of_ne hne]

theorem label?_detach_of_ne (hne : x ≠ b) : (f.detach b).label? x = f.label? x := by
  rw [← (SameCode.disconnect f b).label?_eq, label?, label?, block?_detach_of_ne hne]

theorem mem_succs_detach (hf : f.Mirrored) :
    c ∈ (f.detach b).succs x ↔ c ∈ f.succs x ∧ x ≠ b ∧ c ≠ b := by
  rw [← mem_succs_disconnect hf, mem_succs_iff, block?_detach]
  by_cases hx : x = b
  · simp [hx, mem_succs_disconnect hf]
  · rw [if_neg hx, ← mem_succs_iff]

theorem mem_preds_detach (hf : f.Mirrored) :
    c ∈ (f.detach b).preds x ↔ x ∈ f.succs c ∧ c ≠ b ∧ x ≠ b := by
  rw [← mem_succs_disconnect hf, (hf.disconnect b) c x, mem_preds_iff, block?_detach]
  by_cases hx : x = b
  · simp [hx, ← (hf.disconnect b) c b, mem_succs_disconnect hf]
  · rw [if_neg hx, ← mem_preds_iff]

theorem Mirrored.detach (hf : f.Mirrored) (b : BlockId) : (f.detach b).Mirrored := fun _ _ =>
  (mem_succs_detach hf).trans (mem_preds_detach hf).symm

theorem Named.detach (hf : f.Named) (b : BlockId) : (f.detach b).Named := by
  intro x blk hBlk
  rw [block?_detach] at hBlk
  split at hBlk
  · cases hBlk
  · exact (SameCode.disconnect f b).named hf x blk hBlk

theorem removeBlock_shrunk (hf : f.Mirrored) (hb : f.hasBlock b = true) (hEntry : f.entry ≠ some b) :
    Shrunk f (· ≠ b) (f.removeBlock b).2 := by
  have hName := name_detach (f := f) (b := b)
  have hIds := ids_detach (f := f) (b := b)
  have hHas := fun x => hasBlock_detach (f := f) (b := b) (x := x)
  have hLabel := fun x => label?_detach_of_ne (f := f) (b := b) (x := x)
  have hCode := fun x => code_detach_of_ne (f := f) (b := b) (x := x)
  have hSuccs := fun x c => mem_succs_detach (b := b) (x := x) (c := c) hf
  have hNamed := fun h : f.Named => h.detach b
  have hMirrored := fun h : f.Mirrored => h.detach b
  rw [removeBlock, if_pos hb]
  -- what is proved does not depend on how the block has been detached, and need not see it
  generalize f.detach b = g at *
  exact {
    name_eq := hName
    layout_eq := rfl
    entry_eq := if_neg hEntry
    ids_eq := hIds
    hasBlock_iff x := by rw [decide_eq_true_iff]; exact hHas x
    label?_eq x hx := hLabel x (of_decide_eq_true hx)
    code_eq x hx := hCode x (of_decide_eq_true hx)
    mem_succs x c := by rw [decide_eq_true_iff, decide_eq_true_iff]; exact hSuccs x c
    named := hNamed
    mirrored := hMirrored }

/-- An empty block is added under the next free name. -/
structure Grown (f : Func) (b : BlockId) (label : String) (g : Func) : Prop where
  name_eq : g.name = f.name
  layout_eq : g.layout = f.layout ++ [b]
  entry_eq : g.entry = f.entry.or (some b)
  id_eq : b = ⟨f.ids.nextBlock⟩
  nextBlock_eq : g.ids.nextBlock = f.ids.nextBlock + 1
  nextValue_eq : g.ids.nextValue = f.ids.nextValue
  hasBlock_iff : ∀ x, g.hasBlock x = true ↔ x = b ∨ f.hasBlock x = true
  label?_self : g.label? b = some label
  label?_of_ne : ∀ x, x ≠ b → g.label? x = f.label? x
  code_self : g.code b = []
  code_of_ne : ∀ x, x ≠ b → g.code x = f.code x
  mem_succs : ∀ x c, c ∈ g.succs x ↔ x ≠ b ∧ c ∈ f.succs x
  named : f.Named → g.Named
  mirrored : f.Mirrored → g.Mirrored

theorem block?_addBlock (f : Func) (label : String) (x : BlockId) :
    (f.addBlock label).block? x =
      if x = ⟨f.ids.nextBlock⟩ then some { id := ⟨f.ids.nextBlock⟩, label } else f.block? x :=
  SortedMap.get?_insert ..

theorem mem_succs_addBlock {label : String} :
    c ∈ (f.addBlock label).succs x ↔ x ≠ ⟨f.ids.nextBlock⟩ ∧ c ∈ f.succs x := by
  rw [mem_succs_iff, block?_addBlock]
  by_cases hx : x = ⟨f.ids.nextBlock⟩
  · simp [hx]
  · simp [hx, mem_succs_iff]

theorem mem_preds_addBlock {label : String} :
    c ∈ (f.addBlock label).preds x ↔ x ≠ ⟨f.ids.nextBlock⟩ ∧ c ∈ f.preds x := by
  rw [mem_preds_iff, block?_addBlock]
  by_cases hx : x = ⟨f.ids.nextBlock⟩
  · simp [hx]
  · simp [hx, mem_preds_iff]

theorem addBlock_grown (f : Func) (label : String) (hNew : f.hasBlock ⟨f.ids.nextBlock⟩ = false) :
    Grown f ⟨f.ids.nextBlock⟩ label (f.addBlock label) := by
  have hSelf := (f.block?_addBlock label ⟨f.ids.nextBlock⟩).trans (if_pos rfl)
  have hOther : ∀ x, x ≠ ⟨f.ids.nextBlock⟩ → (f.addBlock label).block? x = f.block? x :=
    fun x hx => (f.block?_addBlock label x).trans (if_neg hx)
  exact {
    name_eq := rfl
    layout_eq := rfl
    entry_eq := rfl
    id_eq := rfl
    nextBlock_eq := rfl
    nextValue_eq := rfl
    hasBlock_iff x := by
      rw [hasBlock_eq_isSome, block?_addBlock]
      by_cases hx : x = ⟨f.ids.nextBlock⟩ <;> simp [hx, hasBlock_eq_isSome]
    label?_self := by rw [label?, hSelf]; rfl
    label?_of_ne x hx := by rw [label?, hOther x hx, label?]
    code_self := by rw [code, hSelf]; rfl
    code_of_ne x hx := by rw [code, hOther x hx, code]
    mem_succs _ _ := mem_succs_addBlock
    named h x blk hBlk := by
      by_cases hx : x = ⟨f.ids.nextBlock⟩
      · rw [hx, hSelf] at hBlk
        rw [← Option.some.inj hBlk, hx]
      · exact h x blk (hOther x hx ▸ hBlk)
    mirrored h x y := by
      rw [mem_succs_addBlock, mem_preds_addBlock, ← h x y]
      exact and_congr_left fun hy =>
        ⟨fun _ => fun hEq => h.not_mem_succs_of_not_hasBlock hNew x (hEq ▸ hy),
          fun _ => fun hEq => not_mem_succs_of_not_hasBlock hNew y (hEq ▸ hy)⟩ }

/-! ## Phis and operands -/

theorem removeIncoming_eq (f : Func) (b pred : BlockId) :
    (f.removeIncoming b pred).2 = f.rewrite b (·.map (Inst.keepIncoming (· ≠ pred))) := by
  have hDrop : ∀ i : Inst, i.dropIncoming pred = i.keepIncoming (· ≠ pred) := fun _ => rfl
  rw [removeIncoming]
  cases hBlk : f.block? b with
  | none => exact (rewrite_of_not_hasBlock (by rw [hasBlock_eq_isSome, hBlk]; rfl)).symm
  | some blk =>
    simp only [Block.mapInsts, hDrop]
    rfl

theorem retargetIncoming_eq (f : Func) (b old new : BlockId) :
    (f.retargetIncoming b old new).2 = f.rewrite b (·.map (Inst.moveIncoming old new)) := by
  rw [retargetIncoming]
  cases hBlk : f.block? b with
  | none => exact (rewrite_of_not_hasBlock (by rw [hasBlock_eq_isSome, hBlk]; rfl)).symm
  | some blk => rfl

end Func

end Midend
