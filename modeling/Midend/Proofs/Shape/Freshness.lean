import Mathlib.Data.List.Flatten
import Midend.Proofs.Func.Refusal
import Midend.Proofs.Shape.History

/-!
# Names after a replacement

A block that is put in the place of others brings its own name and those of its values. Only a clash
of its name with a block that stays is looked for; whether the names had been handed out is not, and
the supply of names is left as it is. What follows depends on these names alone.

If the name of the block had been handed out, no later request goes wrong: edges stay recorded on both
sides and no new block gets a name that is in use. Both are kept by every request, also in a function
that is not consistent otherwise (`Anchored.perform`). If the name had not been handed out, the
supply comes to it after enough new blocks (`exists_createAll`). The next new block then takes the
place of the one that was put in, and the edges between that one and others are left recorded on one
side only (`mirrored_addBlock_iff`).

* `replaceBlocks_freshness`: when the names handed out next are in use, when values have different
  names, and what becomes of the block later.
-/

namespace Midend

namespace Func

variable {f g : Func} {a b c x : BlockId} {v : ValueId} {blk : Block} {removed : List BlockId}

/-! ## Requests that leave the blocks where they are -/

namespace SameFrame

theorem addParam (f : Func) (name : String) (ty : Ty) : SameFrame f (f.addParam name ty).state := by
  unfold Func.addParam
  split
  · exact .refl f
  · exact ⟨rfl, rfl, rfl, rfl, fun _ => rfl, fun _ => rfl, id, id⟩

theorem append (f : Func) (b : BlockId) (ty : Ty) (op : Op) :
    SameFrame f (f.append b ty op).state := by
  rcases append_cases f b ty op with hEq | ⟨-, hAppended⟩
  · rw [hEq]
    exact .refl f
  · exact hAppended.frame

theorem addIncoming (f : Func) (phi : ValueId) (pred : BlockId) (v : ValueId) :
    SameFrame f (f.addIncoming phi pred v).state := by
  rcases addIncoming_cases f phi pred v with hEq | ⟨-, -, b, hEq⟩
  · rw [hEq]
    exact .refl f
  · rw [hEq]
    exact .rewrite f b _

theorem retargetIncoming (f : Func) (b old new : BlockId) :
    SameFrame f (f.retargetIncoming b old new).2 := by
  rw [retargetIncoming_eq]
  exact .rewrite f b _

theorem removeIncoming (f : Func) (b pred : BlockId) : SameFrame f (f.removeIncoming b pred).2 := by
  rw [removeIncoming_eq]
  exact .rewrite f b _

theorem addEdge (f : Func) (a b : BlockId) : SameFrame f (f.addEdge a b) :=
  .of_sameCode (.addEdge f a b) fun h => h.addEdge a b

theorem removeEdge (f : Func) (a b : BlockId) : SameFrame f (f.removeEdge a b) :=
  .of_sameCode (.removeEdge f a b) fun h => h.removeEdge a b

theorem removeValue (f : Func) (v : ValueId) : SameFrame f (f.removeValue v).2 := by
  unfold Func.removeValue
  split
  · exact .refl f
  rename_i b _
  split
  · exact .refl f
  rename_i i _
  have hSame := SameCode.removeEdges (f.modifyBlock b (·.erase v)) b i.op.targets
  exact (SameFrame.rewrite f b _).trans (.of_sameCode hSame fun h => h.removeEdges b i.op.targets)

theorem restoreTerminator (f : Func) (b : BlockId) (old : Inst) :
    SameFrame f (f.restoreTerminator b old) := by
  have hSame := SameCode.addEdges (f.rewrite b (· ++ [old])) b old.op.targets
  exact (SameFrame.rewrite f b _).trans (.of_sameCode hSame fun h => h.addEdges b old.op.targets)

theorem replaceTerminator (f : Func) (b : BlockId) (ty : Ty) (op : Op) :
    SameFrame f (f.replaceTerminator b ty op).state := by
  rcases replaceTerminator_cases_of_last f b ty op with
    ⟨e, hEq⟩ | ⟨front, old, hCode, -, -, ⟨hAccepts, hEq⟩ | ⟨e, hEq⟩⟩
  · rw [hEq]
    exact .refl f
  · rw [hEq]
    exact (dropTerminator_spec hCode).1.trans (addInst_appended hAccepts.hasBlock ty op).frame
  · rw [hEq]
    exact (dropTerminator_spec hCode).1.trans (.restoreTerminator _ b old)

end SameFrame

/-! ## What every request keeps -/

/-- Edges are recorded on both sides, and the names of blocks have been handed out. -/
structure Anchored (f : Func) : Prop where
  mirrored : f.Mirrored
  block_lt : ∀ b, f.hasBlock b = true → b.index < f.ids.nextBlock

namespace Anchored

theorem not_hasBlock_next (hf : f.Anchored) : f.hasBlock ⟨f.ids.nextBlock⟩ = false := by
  rw [Bool.eq_false_iff]
  exact fun hb => Nat.lt_irrefl _ (hf.block_lt _ hb)

theorem of_subset (hf : f.Anchored) (hMirrored : g.Mirrored)
    (hNext : g.ids.nextBlock = f.ids.nextBlock)
    (hSub : ∀ x, g.hasBlock x = true → f.hasBlock x = true) : g.Anchored :=
  ⟨hMirrored, fun x hx => hNext ▸ hf.block_lt x (hSub x hx)⟩

theorem of_sameFrame (hf : f.Anchored) (hSame : SameFrame f g) : g.Anchored :=
  hf.of_subset (hSame.mirrored hf.mirrored) hSame.nextBlock_eq fun x hx => hSame.hasBlock_eq x ▸ hx

theorem createBlock (hf : f.Anchored) (label : String) : (f.createBlock label).state.Anchored := by
  rcases createBlock_cases f label with hEq | ⟨-, -, hEq⟩
  · rwa [hEq]
  · have hGrown := addBlock_grown f label hf.not_hasBlock_next
    rw [hEq]
    refine ⟨hGrown.mirrored hf.mirrored, fun x hx => ?_⟩
    rw [hGrown.nextBlock_eq]
    rcases (hGrown.hasBlock_iff x).mp hx with rfl | hx
    · exact Nat.lt_succ_self _
    · exact Nat.lt_succ_of_lt (hf.block_lt x hx)

theorem removeBlock (hf : f.Anchored) (b : BlockId) : (f.removeBlock b).2.Anchored := by
  unfold Func.removeBlock
  split
  · have hDetach : (f.detach b).Anchored :=
      hf.of_subset (hf.mirrored.detach b) (congrArg IdSupply.nextBlock ids_detach)
        fun x hx => (hasBlock_detach.mp hx).2
    exact ⟨hDetach.mirrored, hDetach.block_lt⟩
  · exact hf

/-- A block whose name had been handed out can be put in the place of others. -/
theorem substitute (hf : f.Anchored) (hId : f.hasBlock blk.id = true → blk.id ∈ removed)
    (hLt : blk.id.index < f.ids.nextBlock) : (f.substitute removed blk).Anchored := by
  refine ⟨hf.mirrored.substitute hId, fun x hx => ?_⟩
  rw [ids_substitute]
  rcases hasBlock_substitute_or.mp hx with rfl | ⟨-, hx⟩
  · exact hLt
  · exact hf.block_lt x hx

theorem not_hasBlock_next_substitute_iff (hf : f.Anchored) :
    (f.substitute removed blk).hasBlock ⟨f.ids.nextBlock⟩ = false ↔
      blk.id.index ≠ f.ids.nextBlock := by
  rw [Bool.eq_false_iff, Ne, hasBlock_substitute_or, hf.not_hasBlock_next]
  constructor
  · intro h hEq
    exact h (.inl (congrArg BlockId.mk hEq.symm))
  · rintro h (hEq | ⟨-, hFalse⟩)
    · exact h (congrArg BlockId.index hEq.symm)
    · cases hFalse

theorem mergeBlocks (hf : f.Anchored) (a b : BlockId) : (f.mergeBlocks a b).2.Anchored := by
  unfold Func.mergeBlocks
  split
  · exact hf
  rename_i blk hMerged
  obtain ⟨blkA, blkB, hA, -, -, -, -, -, -, -, -, rfl⟩ := merged?_inversion hMerged
  unfold applyMerge replaceBlocks
  generalize hNew : (⟨a, blkA.label, blkA.body ++ blkB.insts, blkA.preds, blkB.succs⟩ : Block) = new
  have hId : new.id = a := by rw [← hNew]
  cases f.refuseReplacement? [a, b] new with
  | some e => exact hf
  | none =>
    have hSub : (f.substitute [a, b] new).Anchored :=
      hf.substitute (fun _ => hId ▸ List.mem_cons_self)
        (hId ▸ hf.block_lt a (hasBlock_iff.mpr ⟨blkA, hA⟩))
    exact List.foldlRecOn _ _ hSub fun g hg s _ => hg.of_sameFrame (.retargetIncoming g s b new.id)

theorem lasting : Lasting Anchored where
  createBlock _ label hf := hf.createBlock label
  append f b ty op hf := hf.of_sameFrame (.append f b ty op)
  replaceTerminator f b ty op hf := hf.of_sameFrame (.replaceTerminator f b ty op)
  removeBlock _ b hf := hf.removeBlock b
  retargetIncoming f b old new hf := hf.of_sameFrame (.retargetIncoming f b old new)

theorem build (hf : f.Anchored) (r : BuildRequest) : (f.build r).Anchored := by
  cases r with
  | addParam name ty => exact hf.of_sameFrame (.addParam f name ty)
  | createBlock label => exact hf.createBlock label
  | append b ty op => exact hf.of_sameFrame (.append f b ty op)
  | addIncoming phi pred v => exact hf.of_sameFrame (.addIncoming f phi pred v)

theorem perform (hf : f.Anchored) (r : Request) : (f.perform r).Anchored := by
  cases r with
  | build r => exact hf.build r
  | replaceTerminator b ty op => exact hf.of_sameFrame (.replaceTerminator f b ty op)
  | removeValue v => exact hf.of_sameFrame (.removeValue f v)
  | removeBlock b => exact hf.removeBlock b
  | replaceUses old new => exact hf.of_sameFrame (replaceUses_spared f old new).frame
  | retargetIncoming b old new => exact hf.of_sameFrame (.retargetIncoming f b old new)
  | removeIncoming b pred => exact hf.of_sameFrame (.removeIncoming f b pred)
  | addEdge a b => exact hf.of_sameFrame (.addEdge f a b)
  | removeEdge a b => exact hf.of_sameFrame (.removeEdge f a b)
  | mergeBlocks a b => exact hf.mergeBlocks a b
  | threadJump p t => exact lasting.threadJump hf p t
  | splitEdge a b => exact lasting.splitEdge hf a b

theorem history (hf : f.Anchored) (rs : List Request) : (rs.foldl Func.perform f).Anchored :=
  List.foldlRecOn rs Func.perform hf fun _ hg r _ => hg.perform r

end Anchored

/-! ## The names handed out next -/

/-- New blocks get a name that is free exactly if the next one is: some label is always granted. -/
theorem createBlock_fresh_iff (f : Func) :
    (∀ label b k, f.createBlock label = .ok b k → f.hasBlock b = false) ↔
      f.hasBlock ⟨f.ids.nextBlock⟩ = false := by
  constructor
  · intro h
    have hRefuse := f.refuseLabel?_splitLabel ⟨0⟩ ⟨0⟩
    apply h (f.splitLabel ⟨0⟩ ⟨0⟩) _ (f.addBlock (f.splitLabel ⟨0⟩ ⟨0⟩))
    rw [createBlock, hRefuse]
    rfl
  · intro h label b k hEq
    unfold createBlock at hEq
    split at hEq
    · cases hEq
    · cases hEq
      exact h

/-- New values get a name that is free exactly if the next one is: a phi without pairs is granted in
any block. -/
theorem append_fresh_iff (hb : f.hasBlock b = true) :
    (∀ b ty op v k, f.append b ty op = .ok v k → f.hasValue v = false) ↔
      f.hasValue ⟨f.ids.nextValue⟩ = false := by
  constructor
  · intro h
    obtain ⟨blk, hBlk⟩ := hasBlock_iff.mp hb
    have hRefuse : f.refuseAppend? b (.phi []) = none := by
      rw [refuseAppend?, hBlk]
      simp [Op.isPhi, refuseOp?, Op.operands, Op.blockRefs, Op.missingName?]
    apply h b .void (.phi []) _ (f.addInst b .void (.phi []))
    rw [append, hRefuse]
    rfl
  · intro h b ty op v k hEq
    unfold append at hEq
    split at hEq
    · cases hEq
    · cases hEq
      exact h

theorem replaceBlocks_eq_ok (h : f.replaceBlocks removed blk = .ok () g) :
    g = f.substitute removed blk ∧ (f.hasBlock blk.id = true → blk.id ∈ removed) := by
  unfold replaceBlocks at h
  split at h
  · cases h
  rename_i hRefuse
  cases h
  refine ⟨rfl, fun hb => ?_⟩
  unfold refuseReplacement? at hRefuse
  split at hRefuse
  · cases hRefuse
  split at hRefuse
  · cases hRefuse
  · rename_i hStays
    simpa [hb] using hStays

/-! ## The values after a replacement -/

section Values

variable (hf : f.Consistent) (hId : f.hasBlock blk.id = true → blk.id ∈ removed)

/-- The instructions of the blocks that are not removed. -/
def instsOutside (f : Func) (removed : List BlockId) : List Inst :=
  (f.layout.filter (· ∉ removed)).flatMap f.code

include hf in
theorem mem_instsOutside {j : Inst} :
    j ∈ f.instsOutside removed ↔ ∃ b, b ∉ removed ∧ j ∈ f.code b := by
  simp only [instsOutside, List.mem_flatMap, List.mem_filter, decide_eq_true_iff, and_assoc]
  exact exists_congr fun b =>
    and_iff_right_of_imp fun h => (hf.mem_layout b).mpr (hasBlock_of_mem_code h.2)

include hf hId

theorem insts_substitute_perm :
    (f.substitute removed blk).insts.Perm (blk.insts ++ f.instsOutside removed) := by
  have hOutside : (f.layout.filter (· ∉ removed)).flatMap (f.substitute removed blk).code =
      f.instsOutside removed := by
    refine List.flatMap_congr fun x hx => code_substitute_of_not_mem ?_ ?_
    · rintro rfl
      obtain ⟨hx, hNot⟩ := List.mem_filter.mp hx
      exact of_decide_eq_true hNot (hId ((hf.mem_layout _).mp hx))
    · exact of_decide_eq_true (List.mem_filter.mp hx).2
  have hPerm := (layout_substitute_perm f removed blk).flatMap_right (f.substitute removed blk).code
  rwa [← insts_eq, List.flatMap_cons, code_substitute_self rfl, hOutside] at hPerm

theorem nodup_insts_substitute_iff : ((f.substitute removed blk).insts.map (·.id)).Nodup ↔
    (blk.insts.map (·.id)).Nodup ∧
      ∀ i ∈ blk.insts, ∀ b, b ∉ removed → ∀ j ∈ f.code b, i.id ≠ j.id := by
  have hRest : ((f.instsOutside removed).map (·.id)).Nodup := by
    refine hf.values_nodup.sublist (List.Sublist.map _ ?_)
    rw [insts_eq]
    exact List.filter_sublist.flatMap f.code
  rw [((insts_substitute_perm hf hId).map (·.id)).nodup_iff, List.map_append, List.nodup_append]
  constructor
  · rintro ⟨hNew, -, hDiffer⟩
    refine ⟨hNew, fun i hi b hb j hj => ?_⟩
    exact hDiffer _ (List.mem_map_of_mem hi) _
      (List.mem_map_of_mem ((mem_instsOutside hf).mpr ⟨b, hb, hj⟩))
  · rintro ⟨hNew, hDiffer⟩
    refine ⟨hNew, hRest, fun v hv w hw => ?_⟩
    obtain ⟨i, hi, rfl⟩ := List.mem_map.mp hv
    obtain ⟨j, hj, rfl⟩ := List.mem_map.mp hw
    obtain ⟨b, hb, hj⟩ := (mem_instsOutside hf).mp hj
    exact hDiffer i hi b hb j hj

theorem not_hasValue_next_substitute_iff :
    (f.substitute removed blk).hasValue ⟨f.ids.nextValue⟩ = false ↔
      ∀ i ∈ blk.insts, i.id.index ≠ f.ids.nextValue := by
  rw [Bool.eq_false_iff, Ne, hasValue_iff]
  simp only [(insts_substitute_perm hf hId).mem_iff, List.mem_append]
  constructor
  · intro h i hi hEq
    exact h ⟨i, .inl hi, congrArg ValueId.mk hEq⟩
  · rintro h ⟨i, hi | hi, hEq⟩
    · exact h i hi (congrArg ValueId.index hEq)
    · obtain ⟨b, -, hi⟩ := (mem_instsOutside hf).mp hi
      have hLt := hf.value_lt i ((mem_insts hf.mem_layout).mpr ⟨b, hi⟩)
      rw [hEq] at hLt
      exact Nat.lt_irrefl _ hLt

end Values

/-! ## New blocks up to a name -/

/-- The function after new blocks with the given labels have been asked for. -/
def createAll (f : Func) (labels : List String) : Func :=
  labels.foldl (fun g label => (g.createBlock label).state) f

/-- A new block keeps edges recorded on both sides exactly if none between another block and one of its
name is recorded. -/
theorem mirrored_addBlock_iff (hf : f.Mirrored) (label : String) :
    (f.addBlock label).Mirrored ↔ ∀ a, a ≠ ⟨f.ids.nextBlock⟩ →
      ¬ a ∈ f.preds ⟨f.ids.nextBlock⟩ ∧ ¬ a ∈ f.succs ⟨f.ids.nextBlock⟩ := by
  constructor
  · intro h a ha
    constructor
    · intro hPred
      have hSucc : ⟨f.ids.nextBlock⟩ ∈ (f.addBlock label).succs a :=
        mem_succs_addBlock.mpr ⟨ha, (hf a _).mpr hPred⟩
      exact (mem_preds_addBlock.mp ((h a _).mp hSucc)).1 rfl
    · intro hSucc
      have hPred : ⟨f.ids.nextBlock⟩ ∈ (f.addBlock label).preds a :=
        mem_preds_addBlock.mpr ⟨ha, (hf _ a).mp hSucc⟩
      exact (mem_succs_addBlock.mp ((h _ a).mpr hPred)).1 rfl
  · intro h x y
    rw [mem_succs_addBlock, mem_preds_addBlock, ← hf x y]
    constructor
    · rintro ⟨hx, edge⟩
      refine ⟨?_, edge⟩
      rintro rfl
      exact (h x hx).1 ((hf x _).mp edge)
    · rintro ⟨hy, edge⟩
      refine ⟨?_, edge⟩
      rintro rfl
      exact (h y hy).2 edge

/-- As long as the next names are free, new blocks can be asked for, and the blocks that are there
stay as they are. -/
theorem exists_createAll (n : Nat) (hf : f.Mirrored)
    (hFree : ∀ x, f.hasBlock x = true →
      x.index < f.ids.nextBlock ∨ f.ids.nextBlock + n ≤ x.index) :
    ∃ labels, (f.createAll labels).ids.nextBlock = f.ids.nextBlock + n ∧
      (f.createAll labels).Mirrored ∧
      ∀ x, f.hasBlock x = true → (f.createAll labels).block? x = f.block? x := by
  induction n generalizing f with
  | zero => exact ⟨[], rfl, hf, fun _ _ => rfl⟩
  | succ n ih =>
    -- the first of the names is free, and the rest are still free when it is taken
    have hne : ∀ x, f.hasBlock x = true → x ≠ ⟨f.ids.nextBlock⟩ := by
      rintro x hx rfl
      have := hFree _ hx
      dsimp only at this
      omega
    have hNew : f.hasBlock ⟨f.ids.nextBlock⟩ = false :=
      Bool.eq_false_iff.mpr fun hx => hne _ hx rfl
    obtain ⟨label, hRefuse⟩ : ∃ label, f.refuseLabel? label = none :=
      ⟨_, f.refuseLabel?_splitLabel ⟨0⟩ ⟨0⟩⟩
    have hCreate : (f.createBlock label).state = f.addBlock label := by
      rw [createBlock, hRefuse]
      rfl
    have hGrown := addBlock_grown f label hNew
    have hFree' : ∀ x, (f.addBlock label).hasBlock x = true →
        x.index < (f.addBlock label).ids.nextBlock ∨
          (f.addBlock label).ids.nextBlock + n ≤ x.index := by
      intro x hx
      rw [hGrown.nextBlock_eq]
      rcases (hGrown.hasBlock_iff x).mp hx with rfl | hx
      · exact .inl (Nat.lt_succ_self _)
      · have := hFree x hx
        omega
    obtain ⟨labels, hNext, hMirrored, hBlocks⟩ := ih (hGrown.mirrored hf) hFree'
    refine ⟨label :: labels, ?_⟩
    rw [createAll, List.foldl_cons, hCreate, ← createAll]
    refine ⟨?_, hMirrored, fun x hx => ?_⟩
    · rw [hNext, hGrown.nextBlock_eq, Nat.add_right_comm, Nat.add_assoc]
    · rw [hBlocks x ((hGrown.hasBlock_iff x).mpr (.inr hx)), block?_addBlock, if_neg (hne x hx)]

/-- Once the supply of names has come to a block, a new block takes its place. -/
theorem exists_createBlock_overwrites (hf : f.Mirrored) (hb : f.hasBlock b = true)
    (hOthers : ∀ x, f.hasBlock x = true → x ≠ b → x.index < f.ids.nextBlock)
    (hLe : f.ids.nextBlock ≤ b.index) :
    ∃ labels label g, (f.createAll labels).hasBlock b = true ∧
      (f.createAll labels).code b = f.code b ∧
      (f.createAll labels).createBlock label = .ok b g ∧ g.code b = [] ∧
      (g.Mirrored ↔ ∀ a, a ≠ b → ¬ a ∈ f.preds b ∧ ¬ a ∈ f.succs b) := by
  have hFree : ∀ x, f.hasBlock x = true →
      x.index < f.ids.nextBlock ∨ f.ids.nextBlock + (b.index - f.ids.nextBlock) ≤ x.index := by
    intro x hx
    by_cases hxb : x = b
    · rw [hxb]
      omega
    · exact .inl (hOthers x hx hxb)
  obtain ⟨labels, hNext, hMirrored, hBlocks⟩ := exists_createAll _ hf hFree
  have hSame := hBlocks b hb
  generalize hm : f.createAll labels = m at *
  have hId : (⟨m.ids.nextBlock⟩ : BlockId) = b := by
    rw [hNext, Nat.add_sub_cancel' hLe]
  have hSuccs : m.succs b = f.succs b := by rw [succs, hSame, succs]
  have hPreds : m.preds b = f.preds b := by rw [preds, hSame, preds]
  refine ⟨labels, m.splitLabel b b, m.addBlock (m.splitLabel b b), ?_⟩
  rw [hm]
  refine ⟨?_, ?_, ?_, ?_, ?_⟩
  · rwa [hasBlock_eq_isSome, hSame, ← hasBlock_eq_isSome]
  · rw [code, hSame, code]
  · rw [createBlock, m.refuseLabel?_splitLabel]
    exact congrArg (Outcome.ok · _) hId
  · rw [code, block?_addBlock, if_pos hId.symm]
    rfl
  · rw [mirrored_addBlock_iff hMirrored, hId, hSuccs, hPreds]

/-! ## The names after a replacement -/

/-- **Names after a replacement.** Whether new blocks and values get free names after a block has been
put in the place of others, and whether values still have different names, is seen from the names
that the block brings. If its own name had been handed out before, no later request can go wrong; if
not, a new block takes its place sooner or later, and leaves its edges recorded on one side only. -/
theorem replaceBlocks_freshness (hf : f.Consistent)
    (hg : f.replaceBlocks removed blk = .ok () g) :
    g.ids = f.ids ∧
      ((∀ label b k, g.createBlock label = .ok b k → g.hasBlock b = false) ↔
        blk.id.index ≠ f.ids.nextBlock) ∧
      ((∀ b ty op v k, g.append b ty op = .ok v k → g.hasValue v = false) ↔
        ∀ i ∈ blk.insts, i.id.index ≠ f.ids.nextValue) ∧
      ((g.insts.map (·.id)).Nodup ↔ (blk.insts.map (·.id)).Nodup ∧
        ∀ i ∈ blk.insts, ∀ b, b ∉ removed → ∀ j ∈ f.code b, i.id ≠ j.id) ∧
      (blk.id.index < f.ids.nextBlock → ∀ rs : List Request, (rs.foldl perform g).Mirrored ∧
        ∀ label b k, (rs.foldl perform g).createBlock label = .ok b k →
          (rs.foldl perform g).hasBlock b = false) ∧
      (f.ids.nextBlock ≤ blk.id.index → ∃ labels label k,
        (g.createAll labels).hasBlock blk.id = true ∧
        (g.createAll labels).code blk.id = blk.insts ∧
        (g.createAll labels).createBlock label = .ok blk.id k ∧ k.code blk.id = [] ∧
        (k.Mirrored ↔ ∀ a, a ≠ blk.id → ¬ a ∈ g.preds blk.id ∧ ¬ a ∈ g.succs blk.id)) := by
  obtain ⟨rfl, hId⟩ := replaceBlocks_eq_ok hg
  have hIds := ids_substitute f removed blk
  have hNew : (f.substitute removed blk).hasBlock blk.id = true :=
    hasBlock_substitute_or.mpr (.inl rfl)
  have hAnchored : f.Anchored := ⟨hf.mirrored, hf.block_lt⟩
  refine ⟨hIds, ?_, ?_, nodup_insts_substitute_iff hf hId, ?_, ?_⟩
  · rw [createBlock_fresh_iff, hIds]
    exact hAnchored.not_hasBlock_next_substitute_iff
  · rw [append_fresh_iff hNew, hIds]
    exact not_hasValue_next_substitute_iff hf hId
  · intro hLt rs
    have hLater := (hAnchored.substitute hId hLt).history rs
    exact ⟨hLater.mirrored, (createBlock_fresh_iff _).mpr hLater.not_hasBlock_next⟩
  · intro hLe
    have hCode : (f.substitute removed blk).code blk.id = blk.insts := code_substitute_self rfl
    rw [← hCode]
    apply exists_createBlock_overwrites (hf.mirrored.substitute hId) hNew
    · intro x hx hne
      rw [hIds]
      exact hf.block_lt x ((hasBlock_substitute_or.mp hx).resolve_left hne).2
    · rwa [hIds]

/-- One block leads past another to the last one. -/
def skipping : Func :=
  [.createBlock "entry", .createBlock "left", .createBlock "exit",
    .append ⟨0⟩ .bool (.const (.bool true)), .append ⟨0⟩ .void (.branch ⟨0⟩ ⟨1⟩ ⟨2⟩),
    .append ⟨1⟩ .void (.jump ⟨2⟩), .append ⟨2⟩ .void (.ret none)].foldl build
      (.empty "skipping" .void)

/-- Its name has not been handed out in `skipping`, nor has that of its first value; the name of its
second value belongs to one in the entry. -/
def detour : Block where
  id := ⟨5⟩
  label := "detour"
  insts := [⟨⟨4⟩, .bool, true, .const (.bool false)⟩, ⟨⟨0⟩, .void, false, .jump ⟨2⟩⟩]
  preds := .ofList [⟨0⟩]
  succs := .ofList [⟨2⟩]

theorem skipping_freshness :
    skipping.Consistent ∧ ∃ g, skipping.replaceBlocks [⟨1⟩] detour = .ok () g ∧
      (∀ label b k, g.createBlock label = .ok b k → g.hasBlock b = false) ∧
      ¬ (∀ b ty op v k, g.append b ty op = .ok v k → g.hasValue v = false) ∧
      ¬ (g.insts.map (·.id)).Nodup ∧
      ∃ labels label k, (g.createAll labels).code ⟨5⟩ = detour.insts ∧
        (g.createAll labels).createBlock label = .ok ⟨5⟩ k ∧ ¬ k.Mirrored := by
  have hf : skipping.Consistent :=
    List.foldlRecOn _ build (Consistent.empty _ _) fun _ hf r _ => hf.build r
  have hg : skipping.replaceBlocks [⟨1⟩] detour = .ok () (skipping.substitute [⟨1⟩] detour) := by
    rw [replaceBlocks, show skipping.refuseReplacement? [⟨1⟩] detour = none by decide]
  obtain ⟨-, hBlocks, hValues, hNames, -, hOverwritten⟩ := replaceBlocks_freshness hf hg
  refine ⟨hf, _, hg, hBlocks.mpr (by decide), ?_, ?_, ?_⟩
  · rw [hValues]
    decide
  · rw [hNames]
    rintro ⟨-, hDiffer⟩
    exact hDiffer ⟨⟨0⟩, .void, false, .jump ⟨2⟩⟩ (by decide) ⟨0⟩ (by decide)
      ⟨⟨0⟩, .bool, true, .const (.bool true)⟩ (by decide) rfl
  · obtain ⟨labels, label, k, -, hKept, hCreate, -, hMirrored⟩ := hOverwritten (by decide)
    refine ⟨labels, label, k, hKept, hCreate, fun h => ?_⟩
    exact (hMirrored.mp h ⟨0⟩ (by decide)).1 (by decide)

/-- A block that takes the next name lasts until the next block is created. -/
theorem exit_overwritten :
    ((empty "f" .void).build (.createBlock "entry")).Consistent ∧
      ∃ g k, ((empty "f" .void).build (.createBlock "entry")).replaceBlocks []
          { id := ⟨1⟩, label := "exit", preds := .ofList [⟨0⟩] } = .ok () g ∧
        g.hasBlock ⟨1⟩ = true ∧ g.createBlock "next" = .ok ⟨1⟩ k ∧ ¬ k.Mirrored := by
  refine ⟨(Consistent.empty _ _).build _, _, _, rfl, by decide, rfl, fun h => ?_⟩
  exact absurd ((h ⟨0⟩ ⟨1⟩).mp (by decide)) (by decide)

end Func

end Midend
