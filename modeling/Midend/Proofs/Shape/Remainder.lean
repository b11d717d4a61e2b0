import Midend.Proofs.Flow.Strict
import Midend.Proofs.Shape.Prune
import Midend.Proofs.Validity.Regular

/-!
# What removing unreachable blocks leaves

The blocks in reach are left as they were, but for the pairs and predecessors out of reach
(`Restricts.block?_eq`). What an instruction asks of the values that it reads it still finds, because
these are in reach as well and are what they were (`Restricts.value?_eq`); so the examination accepts
what is left (`Restricts.wellFormed`). Terminators may be read and a value may come after the
instruction that reads it: the function need not be strict.

* `removeUnreachable_exact`: what is removed, what is left, and that nothing is left to remove.
-/

namespace Midend

namespace Func

variable {f g : Func} {b : BlockId} {i : Inst} {v : ValueId} {keep : BlockId → Bool}

/-! ## Restricted functions -/

namespace Restricts

theorem block?_eq (h : Restricts f keep g) (hf : f.Arranged) (hKeep : f.Sufficient keep) {blk : Block}
    (hb : keep b = true) (hBlk : f.block? b = some blk) :
    g.block? b = some { blk with
      insts := blk.insts.map (·.keepIncoming keep), preds := blk.preds.filter keep } := by
  obtain ⟨blk', hBlk'⟩ := Func.hasBlock_iff.mp
    ((h.hasBlock_iff b).mpr ⟨hb, Func.hasBlock_iff.mpr ⟨blk, hBlk⟩⟩)
  have hId : blk'.id = blk.id := (h.named b blk' hBlk').trans (hf.named b blk hBlk).symm
  have hLabel : blk'.label = blk.label := by
    have hEq := h.label?_eq b hb
    rw [label?, label?, hBlk, hBlk'] at hEq
    exact Option.some.inj hEq
  have hInsts : blk'.insts = blk.insts.map (·.keepIncoming keep) := by
    rw [← code_of_block? hBlk', h.code_eq b hb, code_of_block? hBlk]
  have hSuccs : blk'.succs = blk.succs := by
    have hEq : g.succs b = f.succs b := SortedSet.ext fun c => by
      rw [h.mem_succs]
      exact and_iff_left_of_imp fun edge => ⟨hb, hKeep.closed b c hb edge⟩
    rwa [succs, succs, hBlk, hBlk'] at hEq
  have hPreds : blk'.preds = blk.preds.filter keep := by
    refine SortedSet.ext fun a => ?_
    have hNew : a ∈ blk'.preds ↔ a ∈ g.preds b := by simp [preds, hBlk']
    have hOld : a ∈ blk.preds ↔ a ∈ f.preds b := by simp [preds, hBlk]
    rw [hNew, ← h.mirrored a b, h.mem_succs, hf.mirrored a b, SortedSet.mem_filter, hOld,
      and_iff_left hb]
  rw [hBlk']
  rcases blk' with ⟨id, label, insts, preds, succs⟩
  obtain rfl : id = blk.id := hId
  obtain rfl : label = blk.label := hLabel
  obtain rfl : insts = _ := hInsts
  obtain rfl : preds = _ := hPreds
  obtain rfl : succs = blk.succs := hSuccs
  rfl

theorem block?_eq_none (h : Restricts f keep g) (hb : keep b = false) : g.block? b = none := by
  refine Option.eq_none_iff_forall_not_mem.mpr fun blk hBlk => ?_
  have hKept := ((h.hasBlock_iff b).mp (Func.hasBlock_iff.mpr ⟨blk, hBlk⟩)).1
  rw [hb] at hKept
  cases hKept

/-- A value that is left is what it was, but for the pairs of a phi. -/
theorem value?_eq (h : Restricts f keep g) (hf : f.Consistent) (hg : g.Consistent)
    (hv : ∃ c, keep c = true ∧ f.DefinedIn v c) :
    g.value? v = (f.value? v).map (·.keepIncoming keep) := by
  obtain ⟨c, hc, hv⟩ := hv
  obtain ⟨j, hj, hId⟩ := definedIn_iff.mp hv
  have hOld : f.value? v = some j :=
    (value?_eq_some_iff hf.values_nodup).mpr ⟨(mem_insts hf.mem_layout).mpr ⟨c, hj⟩, hId⟩
  have hLeft : j.keepIncoming keep ∈ g.insts :=
    (mem_insts hg.mem_layout).mpr ⟨c, h.mem_code.mpr ⟨hc, j, hj, rfl⟩⟩
  rw [hOld, (value?_eq_some_iff hg.values_nodup).mpr ⟨hLeft, by simpa using hId⟩]
  rfl

/-- What an instruction needs is left to it. -/
theorem instRight (h : Restricts f keep g) (hf : f.Consistent) (hg : g.Consistent) (hw : g.Wired)
    (hKeep : f.Sufficient keep) {blk blk' : Block} (hBlk : f.block? b = some blk)
    (hBlk' : g.block? b = some blk') (hb : keep b = true) (hi : i ∈ f.code b)
    (hRight : f.InstRight blk i) : g.InstRight blk' (i.keepIncoming keep) := by
  have hLeft : i.keepIncoming keep ∈ g.code b := h.mem_code.mpr ⟨hb, i, hi, rfl⟩
  have hValue : ∀ v ∈ (i.keepIncoming keep).op.operands,
      g.value? v = (f.value? v).map (·.keepIncoming keep) := fun v hv =>
    h.value?_eq hf hg (hKeep.defined b hb i hi v hv)
  have hNamed : (i.keepIncoming keep).op.missingName? = none :=
    Inst.missingName?_keepIncoming.trans (missingName?_eq_none.mpr ⟨hRight.callee_ne, hRight.slot_ne⟩)
  obtain ⟨hCallee, hSlot⟩ := missingName?_eq_none.mp hNamed
  refine ⟨?_, fun a ha => hw.hasBlock_of_blockRef hg.mirrored hLeft ha, hCallee, hSlot,
    (phiRight_iff hg.mirrored hBlk').mpr ⟨hw.pairs b _ hLeft, ?_⟩, ?_⟩
  · intro v hv
    rw [hasValue, hValue v hv, Option.isSome_map]
    exact hRight.operand_mem v (Inst.mem_operands_keepIncoming hv)
  · intro hPhi v hv ty hTy
    have hSame : g.tyOf? v = f.tyOf? v := by
      rw [tyOf?, tyOf?, hValue v hv, Option.map_map]
      exact congrArg (Option.map · _) (funext fun j => Inst.ty_keepIncoming)
    rw [Inst.isPhi_keepIncoming] at hPhi
    rw [Inst.ty_keepIncoming]
    exact ((phiRight_iff hf.mirrored hBlk).mp hRight.phi).2 hPhi v (Inst.mem_operands_keepIncoming hv)
      ty (hSame ▸ hTy)
  · have hFlag : i.FlagAgrees fun v => f.isComptime v = true := hRight.flag
    refine (flagAgrees_congr fun v hv => ?_).mp (hFlag.keepIncoming keep)
    rw [isComptime, isComptime, hValue v hv, Option.any_map]
    simp only [Inst.comptime_keepIncoming]

theorem wellFormed (h : Restricts f keep g) (hf : f.WellFormed) (hc : f.Consistent)
    (hKeep : f.Sufficient keep) : g.WellFormed := by
  have hFramed := h.framed ⟨hc.arranged, hf.name_ne⟩ hKeep
  have hNumbered := h.numbered hc.numbered
  have hWired := h.wired (hf.wired hc) hKeep
  refine hFramed.wellFormed hNumbered hWired ?_ ?_
  · intro e he a edge
    exact hf.entry_first hc (h.entry_eq ▸ he) a ((h.mem_succs a e).mp edge).1
  · intro b blk' hBlk' i hi
    obtain ⟨hb, j, hj, rfl⟩ := h.mem_code.mp hi
    obtain ⟨blk, hBlk, hj'⟩ := mem_code_iff.mp hj
    exact h.instRight hc (hFramed.toArranged.consistent hNumbered) hWired hKeep hBlk hBlk' hb hj
      ((hf.blockRight hc.mem_layout hBlk).inst j hj')

end Restricts

/-! ## Removal -/

theorem unreachable_eq (hf : f.Framed) : f.unreachable = f.layout.filter fun b => ¬ f.Live b := by
  cases hEntry : f.entry with
  | none =>
    rw [unreachable, hEntry, hf.entry_none hEntry]
    rfl
  | some e =>
    rw [unreachable, hEntry]
    refine List.filter_congr fun b _ => ?_
    rw [decide_eq_decide, mem_reachable, live_iff hEntry, and_iff_right (hf.entry_mem e hEntry)]

/-- What is in reach stays in reach. -/
theorem Restricts.live_of_live (h : Restricts f (f.Live ·) g) (hb : f.Live b) : g.Live b := by
  refine hb.induct (P := g.Live) (fun e he => ⟨e, h.entry_eq.trans he, .refl e⟩) ?_
  intro a b ha hLive edge
  exact hLive.step ((h.mem_succs a b).mpr ⟨edge, decide_eq_true ha, decide_eq_true (ha.step edge)⟩)

/-- **Removing unreachable blocks is exact.** In a consistent and valid function whose blocks in reach
read nothing from out of reach, the blocks out of reach are removed and counted. The others keep their
order, names, labels, successors and instructions; only their phis lose the pairs, and they
themselves the predecessors, that are out of reach. The result is valid, and nothing is left to
remove. -/
theorem removeUnreachable_exact (f : Func) (hConsistent : f.Consistent) (hValid : f.isValid = true)
    (hSelf : f.SelfContained) :
    let g := f.removeUnreachable.2
    f.removeUnreachable.1 = (f.layout.filter fun b => ¬ f.Live b).length ∧
      g.layout = f.layout.filter (f.Live ·) ∧
      (∀ b, ¬ f.Live b → g.block? b = none) ∧
      (∀ b blk, f.Live b → f.block? b = some blk → g.block? b = some { blk with
        insts := blk.insts.map (·.keepIncoming (f.Live ·)), preds := blk.preds.filter (f.Live ·) }) ∧
      g.isValid = true ∧ g.removeUnreachable = (0, g) := by
  intro g
  have hw := (isValid_iff_wellFormed hConsistent.mem_layout hConsistent.id_eq).mp hValid
  have hFramed : f.Framed := ⟨hConsistent.arranged, hw.name_ne⟩
  have hWired := hw.wired hConsistent
  have hRes : Restricts f (f.Live ·) g := removeUnreachable_restricts hFramed hWired
  have hKeep := hSelf.sufficient hWired fun e he => hw.entry_first hConsistent he
  have hLeft := hRes.framed hFramed hKeep
  have hNone : g.unreachable = [] := by
    refine List.eq_nil_iff_forall_not_mem.mpr fun b hb => ?_
    obtain ⟨hHas, hNot⟩ := (mem_unreachable hLeft).mp hb
    exact hNot (hRes.live_of_live (of_decide_eq_true ((hRes.hasBlock_iff b).mp hHas).1))
  refine ⟨?_, hRes.layout_eq, fun b hb => hRes.block?_eq_none (decide_eq_false hb),
    fun b blk hb hBlk => hRes.block?_eq hFramed.toArranged hKeep (decide_eq_true hb) hBlk, ?_, ?_⟩
  · rw [← unreachable_eq hFramed]
    rfl
  · exact (isValid_iff_wellFormed hLeft.mem_layout hLeft.named).mpr
      (hRes.wellFormed hw hConsistent hKeep)
  · rw [removeUnreachable, hNone]
    rfl

theorem selfContained_iff : f.SelfContained ↔ ∀ b ∈ f.reversePostorder, ∀ i ∈ f.code b,
    (i.isPhi = false → ∀ v ∈ i.op.operands, ∃ d ∈ f.reversePostorder, f.DefinedIn v d) ∧
      ∀ p ∈ i.op.incoming, p.block ∈ f.reversePostorder →
        ∃ d ∈ f.reversePostorder, f.DefinedIn p.value d := by
  simp only [mem_reversePostorder, Op.mem_incoming]
  constructor
  · intro h b hb i hi
    refine ⟨h.operand b hb i hi, ?_⟩
    rintro p ⟨incoming, hOp, hp⟩
    exact h.incoming b hb i hi incoming hOp p hp
  · intro h
    exact ⟨fun b hb i hi => (h b hb i hi).1, fun b hb i hi incoming hOp p hp =>
      (h b hb i hi).2 p ⟨incoming, hOp, hp⟩⟩

instance (f : Func) : Decidable f.SelfContained := decidable_of_iff _ selfContained_iff.symm

/-- Two blocks out of reach lead to each other and to a block in reach, whose phi has a pair for each
of them. A call there reads the name of a jump, so the function is not strict. -/
def severed : Func :=
  [.createBlock "entry", .createBlock "x", .createBlock "join", .createBlock "y",
    .append ⟨0⟩ (.scalar .i32) (.const (.int 1)), .append ⟨0⟩ .void (.jump ⟨2⟩),
    .append ⟨1⟩ (.scalar .i32) (.const (.int 2)), .append ⟨1⟩ .bool (.const (.bool true)),
    .append ⟨1⟩ .void (.branch ⟨3⟩ ⟨3⟩ ⟨2⟩), .append ⟨3⟩ .void (.branch ⟨3⟩ ⟨1⟩ ⟨2⟩),
    .append ⟨2⟩ (.scalar .i32) (.phi [⟨⟨1⟩, ⟨2⟩⟩, ⟨⟨0⟩, ⟨0⟩⟩, ⟨⟨3⟩, ⟨2⟩⟩]),
    .append ⟨2⟩ .void (.call "log" [⟨1⟩]),
    .append ⟨2⟩ .void (.ret (some ⟨6⟩))].foldl build (.empty "severed" (.scalar .i32))

theorem severed_removeUnreachable :
    severed.Consistent ∧ severed.isValid = true ∧ severed.SelfContained ∧ ¬ severed.Strict ∧
      severed.removeUnreachable.1 = 2 ∧
      let g := severed.removeUnreachable.2
      severed.removeUnreachable.1 = (severed.layout.filter fun b => ¬ severed.Live b).length ∧
        g.layout = severed.layout.filter (severed.Live ·) ∧
        (∀ b, ¬ severed.Live b → g.block? b = none) ∧
        (∀ b blk, severed.Live b → severed.block? b = some blk → g.block? b = some { blk with
          insts := blk.insts.map (·.keepIncoming (severed.Live ·))
          preds := blk.preds.filter (severed.Live ·) }) ∧
        g.isValid = true ∧ g.removeUnreachable = (0, g) := by
  have hConsistent : severed.Consistent := by decide +kernel
  have hValid : severed.isValid = true := by decide +kernel
  have hSelf : severed.SelfContained := by decide +kernel
  exact ⟨hConsistent, hValid, hSelf, by decide +kernel, by decide +kernel,
    removeUnreachable_exact severed hConsistent hValid hSelf⟩

end Func

end Midend
