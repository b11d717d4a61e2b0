import Midend.Proofs.Func.Refusal
import Midend.Proofs.Func.Replacement
import Midend.Proofs.Redundancy.Elimination
import Midend.Proofs.Shape.Merge
import Midend.Proofs.Shape.Split
import Midend.Proofs.Validity.Regular

/-!
# A function stays consistent, whatever is asked of it

A function without blocks is consistent, and every request keeps a consistent function consistent,
whether it is granted or refused and whatever its arguments are (`Consistent.perform`). So is
whatever a list of requests makes of a function without blocks (`consistent_of_history`).

Consistency has two halves. Requests that leave the blocks where they are keep the first half,
`Arranged`, by `SameFrame.arranged`; for these only the names of the instructions are left to look
at. A request that adds no instruction keeps the second half, `Numbered`, because the names in each
block are some of those that were there, in their order (`Numbered.of_sublist`).
-/

namespace Midend

namespace Func

variable {f g : Func} {a b x : BlockId} {i old : Inst} {front : List Inst}

/-! ## Names of instructions -/

theorem Numbered.appended (hf : f.Numbered) (h : Appended f b i g)
    (hId : i.id = ⟨f.ids.nextValue⟩) : g.Numbered := by
  apply hf.of_new hId h.nextValue_eq fun _ _ hj => (h.mem_code.mp hj).symm
  intro x
  by_cases hx : x = b
  · rw [hx, h.code_self, ((placed_perm i (f.code b)).map _).nodup_iff, List.map_cons,
      List.nodup_cons]
    refine ⟨fun hi => ?_, hf.nodup b⟩
    obtain ⟨j, hj, hEq⟩ := List.mem_map.mp hi
    exact hf.id_ne_next hj (hEq.trans hId)
  · rw [h.code_of_ne x hx]
    exact hf.nodup x

/-! ## Requests that leave the blocks where they are -/

theorem SameFrame.consistent (hSame : SameFrame f g) (hf : f.Consistent) (hn : g.Numbered) :
    g.Consistent :=
  (hSame.arranged hf.arranged).consistent hn

namespace Consistent

theorem of_sameCode (hf : f.Consistent) (hSame : SameCode f g)
    (hMirrored : f.Mirrored → g.Mirrored) : g.Consistent := by
  apply (SameFrame.of_sameCode hSame hMirrored).consistent hf
  apply hf.numbered.of_sublist
  · rw [hSame.ids_eq]
  · intro x
    rw [hSame.code_eq]

theorem rewrite (hf : f.Consistent) (b : BlockId) {r : List Inst → List Inst}
    (hr : ∀ l, ((r l).map (·.id)).Sublist (l.map (·.id))) : (f.rewrite b r).Consistent := by
  apply (SameFrame.rewrite f b r).consistent hf
  have hNil : r [] = [] := List.map_eq_nil_iff.mp (List.sublist_nil.mp (hr []))
  refine hf.numbered.of_sublist rfl fun x => ?_
  rw [code_rewrite hNil]
  split
  · exact hr (f.code x)
  · exact List.Sublist.refl _

theorem addEdge (hf : f.Consistent) (a b : BlockId) : (f.addEdge a b).Consistent :=
  hf.of_sameCode (.addEdge f a b) fun h => h.addEdge a b

theorem removeEdge (hf : f.Consistent) (a b : BlockId) : (f.removeEdge a b).Consistent :=
  hf.of_sameCode (.removeEdge f a b) fun h => h.removeEdge a b

theorem removeEdges (hf : f.Consistent) (a : BlockId) (l : List BlockId) :
    (f.removeEdges a l).Consistent :=
  hf.of_sameCode (.removeEdges f a l) fun h => h.removeEdges a l

theorem addParam (hf : f.Consistent) (name : String) (ty : Ty) :
    (f.addParam name ty).state.Consistent := by
  unfold Func.addParam
  split
  · exact hf
  · -- what is asked of a function does not look at its parameters
    exact { hf with }

theorem append (hf : f.Consistent) (b : BlockId) (ty : Ty) (op : Op) :
    (f.append b ty op).state.Consistent := by
  rcases append_cases f b ty op with hEq | ⟨-, hAppended⟩
  · rwa [hEq]
  · exact hAppended.frame.consistent hf (hf.numbered.appended hAppended rfl)

theorem addIncoming (hf : f.Consistent) (phi : ValueId) (pred : BlockId) (v : ValueId) :
    (f.addIncoming phi pred v).state.Consistent := by
  rcases addIncoming_cases f phi pred v with hEq | ⟨-, -, b, hEq⟩
  · rwa [hEq]
  · rw [hEq]
    apply hf.rewrite b
    intro l
    rw [map_updateFirst (·.id) fun _ => Inst.id_addIncoming]

theorem retargetIncoming (hf : f.Consistent) (b old new : BlockId) :
    (f.retargetIncoming b old new).2.Consistent := by
  rw [retargetIncoming_eq]
  apply hf.rewrite b
  intro l
  simp [Function.comp_def]

theorem removeIncoming (hf : f.Consistent) (b pred : BlockId) :
    (f.removeIncoming b pred).2.Consistent := by
  rw [removeIncoming_eq]
  apply hf.rewrite b
  intro l
  simp [Function.comp_def]

theorem replaceUses (hf : f.Consistent) (old new : ValueId) :
    (f.replaceUses old new).2.Consistent := by
  have hSpared := replaceUses_spared f old new
  apply hSpared.frame.consistent hf
  apply hf.numbered.of_sublist
  · rw [hSpared.ids_eq]
  · intro x
    rw [hSpared.code_eq]
    exact ids_spare

theorem removeValue (hf : f.Consistent) (v : ValueId) : (f.removeValue v).2.Consistent := by
  unfold Func.removeValue
  split
  · exact hf
  rename_i b _
  split
  · exact hf
  rename_i i _
  have hErase : (f.modifyBlock b (·.erase v)).Consistent :=
    hf.rewrite b fun l => List.eraseP_sublist.map _
  exact hErase.removeEdges b i.op.targets

end Consistent

/-! ## Terminators -/

/-- Taking the last instruction of a block away and putting it back keeps the names. -/
theorem Consistent.restoreTerminator (hf : f.Consistent) (hCode : f.code b = front ++ [old]) :
    ((f.dropTerminator b old).restoreTerminator b old).Consistent := by
  have hb : f.hasBlock b = true := hasBlock_of_mem_code (i := old) (by simp [hCode])
  obtain ⟨hFrame, hIds, hSelf, hOther, -⟩ := dropTerminator_spec hCode
  generalize f.dropTerminator b old = mid at *
  have hb' : mid.hasBlock b = true := by rw [hFrame.hasBlock_eq, hb]
  have hSame := SameCode.addEdges (mid.rewrite b (· ++ [old])) b old.op.targets
  have hFrame' : SameFrame mid (mid.restoreTerminator b old) :=
    (SameFrame.rewrite mid b (· ++ [old])).trans
      (.of_sameCode hSame fun h => h.addEdges b old.op.targets)
  apply (hFrame.trans hFrame').consistent hf
  apply hf.numbered.of_sublist
  · have hIds' : (mid.restoreTerminator b old).ids = mid.ids := hSame.ids_eq
    rw [hIds', hIds]
  · intro x
    have hCode' : (mid.restoreTerminator b old).code x = f.code x := by
      refine (hSame.code_eq x).trans ?_
      by_cases hx : x = b
      · rw [hx, code_rewrite_self hb', hSelf, hCode]
      · rw [code_rewrite_of_ne hx, hOther x hx]
    rw [hCode']

theorem Consistent.dropTerminator (hf : f.Consistent) (b : BlockId) (old : Inst) :
    (f.dropTerminator b old).Consistent := by
  have hDrop : (f.rewrite b List.dropLast).Consistent :=
    hf.rewrite b fun l => (List.dropLast_sublist l).map _
  exact hDrop.removeEdges b old.op.targets

theorem Consistent.replaceTerminator (hf : f.Consistent) (b : BlockId) (ty : Ty) (op : Op) :
    (f.replaceTerminator b ty op).state.Consistent := by
  unfold Func.replaceTerminator
  split
  · exact hf
  split
  · exact hf
  rename_i blk hBlk
  split
  · exact hf
  rename_i old hOld
  have hAppend := (hf.dropTerminator b old).append b ty op
  split
  · rename_i v g hEq
    rw [hEq] at hAppend
    exact hAppend
  · -- the new terminator has been refused, and what is left is the block without the old one
    rename_i e g hEq
    have hg : g = f.dropTerminator b old := by
      have hState := append_atomic (f.dropTerminator b old) b ty op e (congrArg Outcome.answer hEq)
      rwa [hEq] at hState
    obtain ⟨front, hCode, -⟩ := code_of_terminator? (Option.bind_eq_some_iff.mpr ⟨blk, hBlk, hOld⟩)
    rw [hg]
    exact hf.restoreTerminator hCode

/-! ## Blocks -/

theorem Grown.consistent {label : String} (hg : Grown f b label g) (hf : f.Consistent)
    (hNe : label ≠ "") (hNew : ∀ x, f.label? x ≠ some label) : g.Consistent := by
  apply (hg.arranged hf.arranged hNe hNew).consistent
  apply hf.numbered.of_sublist
  · rw [hg.nextValue_eq]
  · intro x
    rw [hg.code_eq hf.arranged]

theorem Consistent.createBlock (hf : f.Consistent) (label : String) :
    (f.createBlock label).state.Consistent := by
  rcases createBlock_cases f label with hEq | ⟨hNe, hNone, hEq⟩
  · rwa [hEq]
  · rw [hEq]
    exact (addBlock_grown f label hf.arranged.not_hasBlock_next).consistent hf hNe
      (blockByLabel?_eq_none_iff.mp hNone)

/-- If the entry is removed, the first block that is left takes its place. -/
theorem Consistent.removeBlock (hf : f.Consistent) (b : BlockId) :
    (f.removeBlock b).2.Consistent := by
  unfold Func.removeBlock
  split
  swap
  · exact hf
  have hIds := ids_detach (f := f) (b := b)
  have hHas := fun x => hasBlock_detach (f := f) (b := b) (x := x)
  have hLabel := fun x => label?_detach_of_ne (f := f) (b := b) (x := x)
  have hCode := fun x => code_detach_of_ne (f := f) (b := b) (x := x)
  have hNamed := hf.arranged.named.detach b
  have hMirrored := hf.mirrored.detach b
  generalize f.detach b = g at *
  have hLeft : ∀ x, x ∈ f.layout.filter (· ≠ b) ↔ g.hasBlock x = true := by
    intro x
    rw [List.mem_filter, decide_eq_true_iff, hf.mem_layout, hHas, and_comm]
  apply Arranged.consistent
  · apply hf.arranged.of_subset (hf.layout_nodup.filter _) hLeft
    · exact congrArg IdSupply.nextBlock hIds
    · intro x hx
      obtain ⟨hne, hx⟩ := (hHas x).mp hx
      exact ⟨hx, hLabel x hne⟩
    · intro e he
      change (if f.entry = some b then (f.layout.filter (· ≠ b)).head? else f.entry) = some e at he
      split at he
      · exact (hLeft e).mp (List.mem_of_head? he)
      · rename_i hEntry
        refine (hHas e).mpr ⟨?_, hf.entry_mem e he⟩
        rintro rfl
        exact hEntry he
    · intro he
      change (if f.entry = some b then (f.layout.filter (· ≠ b)).head? else f.entry) = none at he
      change f.layout.filter (· ≠ b) = []
      split at he
      · exact List.head?_eq_none_iff.mp he
      · rw [hf.entry_none he]
        rfl
    · exact hNamed
    · exact hMirrored
  · apply hf.numbered.of_sublist
    · exact congrArg IdSupply.nextValue hIds
    · intro x
      change ((g.code x).map (·.id)).Sublist _
      by_cases hx : x = b
      · have hGone : g.hasBlock x = false := by
          rw [Bool.eq_false_iff, Ne, hHas]
          exact fun h => h.1 hx
        rw [code_of_not_hasBlock hGone]
        exact List.nil_sublist _
      · rw [hCode x hx]

/-! ## Merging -/

section Substitute

variable {blk : Block} (hne : a ≠ b) (ha : f.hasBlock a = true) (hId : blk.id = a)

include hne ha hId

theorem Arranged.substitute (hf : f.Arranged) (hLabel : some blk.label = f.label? a) :
    (f.substitute [a, b] blk).Arranged := by
  have hHas : ∀ x, (f.substitute [a, b] blk).hasBlock x = true ↔ x ≠ b ∧ f.hasBlock x = true :=
    fun x => hasBlock_substitute_iff hId hne ha
  obtain ⟨e, he⟩ := hf.exists_entry ha
  have hEntry : (f.substitute [a, b] blk).entry = if e ∈ [a, b] then some blk.id else some e :=
    entry_substitute he
  have hMem : blk.id ∈ [a, b] := hId ▸ List.mem_cons_self
  apply hf.of_subset (layout_nodup_substitute hf.layout_nodup fun _ => hMem)
  · intro x
    rw [mem_layout_substitute, hHas, hf.mem_layout, hId]
    grind
  · rw [ids_substitute]
  · intro x hx
    obtain ⟨hxb, hx⟩ := (hHas x).mp hx
    exact ⟨hx, label?_substitute_eq hId hLabel hxb⟩
  · intro e' he'
    rw [hEntry] at he'
    rw [hHas]
    split at he'
    · rw [← Option.some.inj he', hId]
      exact ⟨hne, ha⟩
    · rename_i hNot
      rw [← Option.some.inj he']
      exact ⟨fun hEq => hNot (by simp [hEq]), hf.entry_mem e he⟩
  · intro he'
    rw [hEntry] at he'
    split at he' <;> cases he'
  · exact hf.named.substitute
  · exact hf.mirrored.substitute fun _ => hMem

theorem Numbered.substitute (hf : f.Numbered) (hInsts : blk.insts = front ++ f.code b)
    (hFront : front.Sublist (f.code a)) : (f.substitute [a, b] blk).Numbered := by
  have hSelf : (f.substitute [a, b] blk).code a = front ++ f.code b := by
    rw [code_substitute_self hId, hInsts]
  have hGone : (f.substitute [a, b] blk).code b = [] := by
    apply code_of_not_hasBlock
    rw [Bool.eq_false_iff, Ne, hasBlock_substitute_iff hId hne ha]
    exact fun h => h.1 rfl
  apply hf.of_origin (by rw [ids_substitute]) (seat a b)
  · intro x i hi
    by_cases hx : x = a
    · rw [hx, hSelf, List.mem_append] at hi
      rcases hi with hi | hi
      · exact ⟨a, i, hFront.subset hi, by rw [hx, seat_of_ne hne], rfl⟩
      · exact ⟨b, i, hi, by rw [hx, seat_second], rfl⟩
    · have hxb : x ≠ b := by
        rintro rfl
        rw [hGone] at hi
        exact List.not_mem_nil hi
      rw [code_substitute_of_ne hId hx hxb] at hi
      exact ⟨x, i, hi, (seat_of_ne hxb).symm, rfl⟩
  · intro x
    by_cases hx : x = a
    · rw [hx, hSelf]
      exact hf.nodup_append hne hFront
    · by_cases hxb : x = b
      · rw [hxb, hGone]
        exact List.nodup_nil
      · rw [code_substitute_of_ne hId hx hxb]
        exact hf.nodup x

/-- One block with the name and the label of the first and with instructions of both has been put in
the place of two. -/
theorem Consistent.substitute (hf : f.Consistent) (hLabel : some blk.label = f.label? a)
    (hInsts : blk.insts = front ++ f.code b) (hFront : front.Sublist (f.code a)) :
    (f.substitute [a, b] blk).Consistent :=
  (hf.arranged.substitute hne ha hId hLabel).consistent
    (hf.numbered.substitute hne ha hId hInsts hFront)

end Substitute

theorem body_sublist (blk : Block) : blk.body.Sublist blk.insts := by
  unfold Block.body
  split
  · exact List.dropLast_sublist _
  · exact List.Sublist.refl _

theorem Consistent.mergeBlocks (hf : f.Consistent) (a b : BlockId) :
    (f.mergeBlocks a b).2.Consistent := by
  unfold Func.mergeBlocks
  split
  · exact hf
  rename_i blk hMerged
  obtain ⟨blkA, blkB, hA, hB, hne, -, -, -, -, -, -, rfl⟩ := merged?_inversion hMerged
  unfold applyMerge replaceBlocks
  cases f.refuseReplacement? [a, b] ⟨a, blkA.label, blkA.body ++ blkB.insts, blkA.preds, blkB.succs⟩ with
  | some e => exact hf
  | none =>
    have hSub : (f.substitute [a, b]
        ⟨a, blkA.label, blkA.body ++ blkB.insts, blkA.preds, blkB.succs⟩).Consistent := by
      apply hf.substitute hne (hasBlock_iff.mpr ⟨blkA, hA⟩) rfl
      · rw [label?, hA]
        rfl
      · rw [code_of_block? hB]
      · rw [code_of_block? hA]
        exact body_sublist blkA
    -- the phis of the blocks behind are told one block after the other
    exact List.foldlRecOn _ _ hSub fun g hg s _ => hg.retargetIncoming s b a

/-! ## Threading and splitting -/

/-- A property that is kept by each of the requests that threading and splitting are made of. -/
structure Lasting (P : Func → Prop) : Prop where
  createBlock : ∀ f label, P f → P (f.createBlock label).state
  append : ∀ f b ty op, P f → P (f.append b ty op).state
  replaceTerminator : ∀ f b ty op, P f → P (f.replaceTerminator b ty op).state
  removeBlock : ∀ f b, P f → P (f.removeBlock b).2
  retargetIncoming : ∀ f b old new, P f → P (f.retargetIncoming b old new).2

namespace Lasting

variable {P : Func → Prop}

theorem threadJump (hP : Lasting P) (hf : P f) (p t : BlockId) : P (f.threadJump p t).2 := by
  unfold Func.threadJump
  split
  · exact hf
  rename_i d _
  split
  · exact hf
  have hReplaced := hP.replaceTerminator f p .void (.jump d) hf
  split
  · rename_i e g hEq
    rw [hEq] at hReplaced
    exact hReplaced
  · rename_i v g hEq
    rw [hEq] at hReplaced
    change P (if (g.preds t).isEmpty && decide (g.entry ≠ some t) then (g.removeBlock t).2 else g)
    split
    · exact hP.removeBlock g t hReplaced
    · exact hReplaced

theorem rewire (hP : Lasting P) (hf : P f) (a b split : BlockId) (old : Inst) :
    P (f.rewire a b split old).state := by
  have hJump := hP.append f split .void (.jump b) hf
  unfold Func.rewire Outcome.andThen
  split
  · exact hP.replaceTerminator _ a _ _ hJump
  · exact hJump

theorem splitEdge (hP : Lasting P) (hf : P f) (a b : BlockId) : P (f.splitEdge a b).2 := by
  unfold Func.splitEdge
  split
  swap
  · exact hf
  rename_i old _ _
  have hNew := hP.createBlock f (f.splitLabel a b) hf
  split
  · rename_i e g hEq
    rw [hEq] at hNew
    exact hNew
  · rename_i s g hEq
    rw [hEq] at hNew
    have hWired := hP.rewire hNew a b s old
    split
    · rename_i e h hEq'
      rw [hEq'] at hWired
      exact hP.removeBlock h s hWired
    · rename_i v h hEq'
      rw [hEq'] at hWired
      exact hP.retargetIncoming h b a s hWired

end Lasting

theorem consistent_lasting : Lasting Consistent where
  createBlock _ label hf := hf.createBlock label
  append _ b ty op hf := hf.append b ty op
  replaceTerminator _ b ty op hf := hf.replaceTerminator b ty op
  removeBlock _ b hf := hf.removeBlock b
  retargetIncoming _ b old new hf := hf.retargetIncoming b old new

theorem Consistent.threadJump (hf : f.Consistent) (p t : BlockId) :
    (f.threadJump p t).2.Consistent :=
  consistent_lasting.threadJump hf p t

theorem Consistent.splitEdge (hf : f.Consistent) (a b : BlockId) :
    (f.splitEdge a b).2.Consistent :=
  consistent_lasting.splitEdge hf a b

/-! ## Histories -/

theorem Consistent.build (hf : f.Consistent) (r : BuildRequest) : (f.build r).Consistent := by
  cases r with
  | addParam name ty => exact hf.addParam name ty
  | createBlock label => exact hf.createBlock label
  | append b ty op => exact hf.append b ty op
  | addIncoming phi pred v => exact hf.addIncoming phi pred v

/-- Whatever is asked of a consistent function, it stays consistent. -/
theorem Consistent.perform (hf : f.Consistent) (r : Request) : (f.perform r).Consistent := by
  cases r with
  | build r => exact hf.build r
  | replaceTerminator b ty op => exact hf.replaceTerminator b ty op
  | removeValue v => exact hf.removeValue v
  | removeBlock b => exact hf.removeBlock b
  | replaceUses old new => exact hf.replaceUses old new
  | retargetIncoming b old new => exact hf.retargetIncoming b old new
  | removeIncoming b pred => exact hf.removeIncoming b pred
  | addEdge a b => exact hf.addEdge a b
  | removeEdge a b => exact hf.removeEdge a b
  | mergeBlocks a b => exact hf.mergeBlocks a b
  | threadJump p t => exact hf.threadJump p t
  | splitEdge a b => exact hf.splitEdge a b

/-- **Requests keep a function consistent.** It is consistent after any requests whatsoever, granted
or refused. -/
theorem consistent_of_history (name : String) (returnTy : Ty) (rs : List Request) :
    (rs.foldl perform (empty name returnTy)).Consistent :=
  List.foldlRecOn rs perform (Consistent.empty name returnTy) fun _ hf r _ => hf.perform r

end Func

end Midend
