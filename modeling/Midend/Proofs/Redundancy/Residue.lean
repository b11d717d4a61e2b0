import Midend.Proofs.Redundancy.Meaning
import Midend.Proofs.Redundancy.Representative

/-!
# Nothing redundant is left

What is left by an elimination reads representatives only. Two instructions that have become the
same were the same before up to the representatives of what they read, so of two such instructions
the later one would have been reported (`Numbering.survivors_differ`). A second scan numbers the
function afresh, but where no two instructions are the same it has nothing to report
(`Numbering.scan_eq_nil`).

* `Func.eliminateDominated_leaves_nothing`: one pass is enough.
-/

namespace Midend

@[simp] theorem Op.isFormula_mapOperands (ren : ValueId → ValueId) (op : Op) :
    (op.mapOperands ren).isFormula = op.isFormula := by
  cases op <;> rfl

/-- Operations that have become the same were the same up to the names of what they read. -/
theorem Op.matches_of_mapOperands_eq {ren : ValueId → ValueId} {p q : Op} (h : p.isFormula = true)
    (hEq : p.mapOperands ren = q.mapOperands ren) : p.Matches (fun v w => ren v = ren w) q := by
  cases p with
  | const c =>
    cases q <;> cases hEq
    exact .const c
  | binary op a b =>
    cases q <;> injection hEq
    rename_i hOp hl hr
    exact hOp ▸ .binary op hl hr
  | unary op a =>
    cases q <;> injection hEq
    rename_i hOp ha
    exact hOp ▸ .unary op ha
  | convert a =>
    cases q <;> injection hEq
    rename_i ha
    exact .convert ha
  | _ => cases h

namespace Numbering

open Redundancy

variable {available : BlockId → BlockId → Bool} {l : List (BlockId × Inst)}

/-- Of what is not reported, no instruction becomes the same as an available one before it. -/
theorem survivors_differ (hNodup : (l.map (·.2.id)).Nodup) (hOrder : ReadsBack (l.map (·.2))) :
    (l.filter fun x => !isGone (scan available l {}) x.2.id).Pairwise fun x y =>
      available x.1 y.1 = true → y.2.op.isFormula = true → y.2.ty = x.2.ty →
        y.2.op.mapOperands (rename (scan available l {})) ≠
          x.2.op.mapOperands (rename (scan available l {})) := by
  refine List.pairwise_filter.mpr (pairwise_of_forall_split ?_)
  intro front y back hSplit x hx hxStays hyStays hAvailable hForm hTy hEq
  have hGone := reported_of_matches hNodup hOrder hSplit hx hAvailable (by simpa using hxStays) hTy
    (Op.matches_of_mapOperands_eq hForm hEq)
  rw [hGone] at hyStays
  cases hyStays

end Numbering

namespace Func

variable {f g : Func} {gone : ValueId → Bool} {ren : ValueId → ValueId}

theorem Regular.readsBack (hf : f.Regular) : ReadsBack ((f.located f.reversePostorder).map (·.2)) :=
  fun _ _ _ hSplit hForm _ hv _ => hf.operand_before hSplit (Inst.not_isPhi_of_isFormula hForm) hv

theorem Spared.located_eq (hfg : Spared f gone ren g) (hf : f.Distinct) (order : List BlockId) :
    g.located order = ((f.located order).filter fun x => !gone x.2.id).map
      fun x => (x.1, x.2.mapOperands ren) := by
  induction order with
  | nil => rfl
  | cons b order ih =>
    rw [located_cons hf.named, located_cons (hfg.distinct hf).named, ih, hfg.code_eq, spare,
      List.filter_append, List.map_append, List.filter_map, List.map_map, List.map_map]
    rfl

/-- Of what an elimination leaves, no instruction is the same as one before it whose block
dominates its own. -/
theorem Regular.residue_differs (hf : f.Regular) {dom : Dominance}
    (hNodes : dom.nodes = f.reversePostorder) :
    ((f.eliminateDominated dom).2.located dom.nodes).Pairwise fun x y =>
      dom.dominates x.1 y.1 = true → y.2.op.isFormula = true → y.2.ty = x.2.ty →
        y.2.op ≠ x.2.op := by
  have hNodup := nodup_located hf.distinct (nodup_reversePostorder f)
  have hOrder := hf.readsBack
  rw [← hNodes] at hNodup hOrder
  rw [(eliminateDominated_spared hf.distinct hNodes).located_eq hf.distinct, List.pairwise_map]
  simp only [Inst.mapOperands, Op.isFormula_mapOperands]
  exact Numbering.survivors_differ hNodup hOrder

/-- **One pass is enough.** After an elimination of the values that are redundant by dominance, with
whatever sets of dominators, the same scan finds nothing more and eliminates nothing, and nothing is
redundant within a block that control can reach. -/
theorem eliminateDominated_leaves_nothing (f : Func) (hConsistent : f.Consistent)
    (hValid : f.isValid = true) (hStrict : f.Strict) {cap : Nat} {r : Fixpoint Dominance}
    (hDom : f.dominance cap = .ok r) :
    let g := (f.eliminateDominated r.value).2
    g.eliminateDominated r.value = (0, g) ∧
      ∀ b blk, g.Live b → g.block? b = some blk → blk.redundancies = [] := by
  intro g
  have hf : f.Regular := regular_iff.mpr ⟨hConsistent, hValid, hStrict⟩
  have hNodes := nodes_of_dominance hDom
  have hfg : Spared f _ _ g := eliminateDominated_spared hf.distinct hNodes
  have hDiffer := hf.residue_differs hNodes
  constructor
  · have hNone : g.dominatedRedundancies r.value = [] := Numbering.scan_eq_nil hDiffer
    rw [eliminateDominated, hNone]
    rfl
  · intro b blk hb hBlk
    have hLive : f.Live b := hfg.live_iff.mp hb
    have hName : blk.id = b := (hfg.distinct hf.distinct).named b blk hBlk
    have hMem : blk ∈ r.value.nodes.filterMap g.block? :=
      List.mem_filterMap.mpr ⟨b, hNodes ▸ mem_reversePostorder.mpr hLive, hBlk⟩
    have hSelf : r.value.dominates b b = true :=
      dominates_of_guards hf.mirrored hDom hLive (.refl f b)
    have hWithin := (List.pairwise_flatMap.mp hDiffer).1 blk hMem
    refine Numbering.scan_eq_nil (hWithin.imp_of_mem fun hx hy hNot _ => hNot ?_)
    obtain ⟨i, -, rfl⟩ := List.mem_map.mp hx
    obtain ⟨j, -, rfl⟩ := List.mem_map.mp hy
    exact hName ▸ hSelf

theorem counting_leaves_nothing :
    counting.Consistent ∧ counting.isValid = true ∧ counting.Strict ∧
    ∃ r, counting.dominance 3 = .ok r ∧ r.isConverged = true ∧
      (counting.eliminateDominated r.value).1 = 2 ∧
      (counting.eliminateDominated r.value).2.eliminateDominated r.value =
        (0, (counting.eliminateDominated r.value).2) ∧
      ∀ b blk, (counting.eliminateDominated r.value).2.Live b →
        (counting.eliminateDominated r.value).2.block? b = some blk → blk.redundancies = [] := by
  have hConsistent : counting.Consistent := by decide +kernel
  have hValid : counting.isValid = true := by decide +kernel
  have hStrict : counting.Strict := by decide +kernel
  have hDom := dominance_eq (f := counting) (e := ⟨0⟩) rfl 3
  exact ⟨hConsistent, hValid, hStrict, _, hDom, by decide +kernel, by decide +kernel,
    eliminateDominated_leaves_nothing counting hConsistent hValid hStrict hDom⟩

end Func

end Midend
