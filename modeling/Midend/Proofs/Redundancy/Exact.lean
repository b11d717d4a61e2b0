import Midend.Proofs.Redundancy.Meaning
import Midend.Proofs.Redundancy.Representative

/-!
# Value numbering is exact

In a scan where every earlier value is available, and which comes by every value before it comes by
what reads it, values have one representative exactly if they have one expansion
(`Numbering.alike_of_expands`, `Numbering.related_rename`). One half is that a report is never
without a reason. For the other, instructions with one expansion are the same up to the
representatives of what they read, by induction on the expansion; so are then their own
representatives, and of two such values the later one would have been reported.

* `Func.redundancies_exact`: what is reported, of a function and of a block.
-/

namespace Midend

/-- The value is the first of the list that has the expansion. -/
def Foremost (l : List Inst) (e : Expansion) (v : ValueId) : Prop :=
  ∃ front i back, l = front ++ i :: back ∧ i.id = v ∧ Expands l v e ∧
    ∀ j ∈ front, ¬ Expands l j.id e

/-- Every value has one expansion. In the order of the list, the reports are the constants,
operators and conversions of which an earlier value has the expansion, each with the first such
value. -/
structure Exact (l : List Inst) (reports : List Redundancy) : Prop where
  expands : ∀ v, ∃! e, Expands l v e
  in_order : (reports.map (·.value)).Sublist (l.map (·.id))
  mem_iff : ∀ r, r ∈ reports ↔ (∃ i ∈ l, i.id = r.value ∧ i.op.isFormula = true) ∧
    r.earlier ≠ r.value ∧ ∃ e, Expands l r.value e ∧ Foremost l e r.earlier

/-! ## Lists that read back -/

theorem readsBack_iff {l : List Inst} : ReadsBack l ↔ ∀ k, (h : k < l.length) →
    l[k].op.isFormula = true → ∀ v ∈ l[k].op.operands, v ∈ l.map (·.id) →
      v ∈ (l.take k).map (·.id) := by
  constructor
  · intro h k hk
    apply h (l.take k) l[k] (l.drop (k + 1))
    rw [← List.drop_eq_getElem_cons hk, List.take_append_drop]
  · rintro h front i back rfl hForm v hv hMem
    have hAt := h front.length (by simp)
    simp only [List.getElem_append_right (Nat.le_refl _), Nat.sub_self, List.getElem_cons_zero,
      List.take_left'] at hAt
    exact hAt hForm v hv hMem

instance (l : List Inst) : Decidable (ReadsBack l) := decidable_of_iff' _ readsBack_iff

/-- A part of a list reads back if the whole does. -/
theorem ReadsBack.part {before l after : List Inst}
    (hNodup : ((before ++ l ++ after).map (·.id)).Nodup) (h : ReadsBack (before ++ l ++ after)) :
    ReadsBack l := by
  rintro front i back rfl hForm v hv hMem
  have hWhole : before ++ (front ++ i :: back) ++ after =
      (before ++ front) ++ i :: (back ++ after) := by simp
  have hFront := h _ i _ hWhole hForm v hv (by
    rw [List.map_append, List.map_append]
    exact List.mem_append_left _ (List.mem_append_right _ hMem))
  rw [List.map_append, List.mem_append] at hFront
  refine hFront.resolve_left fun hBefore => ?_
  rw [List.append_assoc, List.map_append, List.nodup_append] at hNodup
  exact hNodup.2.2 v hBefore v (by rw [List.map_append]; exact List.mem_append_left _ hMem) rfl

theorem ReadsBack.exists_expands {l : List Inst} (hl : (l.map (·.id)).Nodup) (h : ReadsBack l)
    (v : ValueId) : ∃ e, Expands l v e := by
  by_cases hv : v ∈ l.map (·.id)
  · obtain ⟨i, hi, rfl⟩ := List.mem_map.mp hv
    refine exists_expands_along hl (List.Subset.refl l) ?_ i hi
    intro front j back hSplit hForm w hw
    by_cases hMem : w ∈ l.map (·.id)
    · exact .inl (List.mem_map.mp (h front j back hSplit hForm w hw hMem))
    · exact .inr ⟨_, .leaf fun k hk hId => absurd (List.mem_map.mpr ⟨k, hk, hId⟩) hMem⟩
  · exact ⟨_, .leaf fun k hk hId => absurd (List.mem_map.mpr ⟨k, hk, hId⟩) hv⟩

/-! ## Matching -/

namespace Op.Matches

variable {E : ValueId → ValueId → Prop} {p q o : Op}

theorem refl (hE : ∀ v, E v v) (h : p.isFormula = true) : p.Matches E p := by
  cases p with
  | const c => exact .const c
  | binary op a b => exact .binary op (hE a) (hE b)
  | unary op a => exact .unary op (hE a)
  | convert a => exact .convert (hE a)
  | _ => cases h

theorem trans (h : p.Matches E q) (h' : q.Matches E o) (hE : ∀ u v w, E u v → E v w → E u w) :
    p.Matches E o := by
  cases h with
  | const c =>
    cases h'
    exact .const c
  | binary op lhs rhs =>
    cases h' with
    | binary _ lhs' rhs' => exact .binary op (hE _ _ _ lhs lhs') (hE _ _ _ rhs rhs')
  | unary op operand =>
    cases h' with
    | unary _ operand' => exact .unary op (hE _ _ _ operand operand')
  | convert operand =>
    cases h' with
    | convert operand' => exact .convert (hE _ _ _ operand operand')

end Op.Matches

/-! ## Representatives and expansions -/

namespace Numbering

open Redundancy

variable {l : List (BlockId × Inst)} {x y : BlockId × Inst} {v w : ValueId} {e : Expansion}

section Scan

variable (hNodup : (l.map (·.2.id)).Nodup) (hOrder : ReadsBack (l.map (·.2)))
include hNodup hOrder

/-- The representative of a value is a value that is not reported and is the same up to the
representatives of what is read. -/
theorem exists_representative {available : BlockId → BlockId → Bool} (hx : x ∈ l)
    (hForm : x.2.op.isFormula = true) :
    ∃ y ∈ l, y.2.id = rename (scan available l {}) x.2.id ∧
      isGone (scan available l {}) y.2.id = false ∧ x.2.ty = y.2.ty ∧
      x.2.op.Matches (Alike available l) y.2.op := by
  cases hGone : isGone (scan available l {}) x.2.id with
  | false =>
    exact ⟨x, hx, (rename_of_not_isGone hGone).symm, hGone, rfl, .refl (fun _ => rfl) hForm⟩
  | true =>
    obtain ⟨r, hr, hId, hEq⟩ := exists_rename_eq hGone
    obtain ⟨front, b, i, back, c, j, hSplit, hj, hValue, hEarlier, -, hTy, hMatch⟩ :=
      reported_matches hNodup hOrder hr
    have hi : (b, i) ∈ l := by
      rw [hSplit]
      simp
    obtain rfl : (b, i) = x := List.inj_on_of_nodup_map hNodup hi hx (hValue.trans hId)
    have hjl : (c, j) ∈ l := by
      rw [hSplit]
      exact List.mem_append_left _ hj
    refine ⟨(c, j), hjl, hEarlier.trans hEq.symm, ?_, hTy, hMatch⟩
    rw [hEarlier, isGone_eq_false_iff]
    exact earlier_not_reported hNodup hr

/-- Of two values that are the same up to the representatives of what they read, and of which none
is reported, there is only one. -/
theorem eq_of_not_reported (hx : x ∈ l) (hy : y ∈ l)
    (hxStays : isGone (scan (fun _ _ => true) l {}) x.2.id = false)
    (hyStays : isGone (scan (fun _ _ => true) l {}) y.2.id = false) (hTy : x.2.ty = y.2.ty)
    (hMatch : x.2.op.Matches (Alike (fun _ _ => true) l) y.2.op) : x = y := by
  obtain ⟨front, back, hSplit⟩ := List.append_of_mem hx
  rw [hSplit, List.mem_append, List.mem_cons] at hy
  rcases hy with hy | rfl | hy
  · have hGone := reported_of_matches hNodup hOrder hSplit hy rfl hyStays hTy hMatch
    rw [hxStays] at hGone
    cases hGone
  · rfl
  · obtain ⟨between, after, rfl⟩ := List.append_of_mem hy
    have hSplit' : l = (front ++ x :: between) ++ y :: after := by
      rw [hSplit]
      simp
    have hGone := reported_of_matches hNodup hOrder hSplit' (by simp) rfl hxStays hTy.symm
      (hMatch.symm fun _ _ => Alike.symm)
    rw [hyStays] at hGone
    cases hGone

theorem alike_of_matches (hx : x ∈ l) (hy : y ∈ l) (hTy : x.2.ty = y.2.ty)
    (hMatch : x.2.op.Matches (Alike (fun _ _ => true) l) y.2.op) :
    Alike (fun _ _ => true) l x.2.id y.2.id := by
  obtain ⟨x', hx', hId, hStays, hTyX, hMatchX⟩ :=
    exists_representative hNodup hOrder hx hMatch.isFormula.1
  obtain ⟨y', hy', hId', hStays', hTyY, hMatchY⟩ :=
    exists_representative hNodup hOrder hy hMatch.isFormula.2
  have hBoth : x' = y' := by
    apply eq_of_not_reported hNodup hOrder hx' hy' hStays hStays'
    · rw [← hTyX, hTy, hTyY]
    · have hBack : x'.2.op.Matches (Alike (fun _ _ => true) l) x.2.op :=
        hMatchX.symm fun _ _ => Alike.symm
      exact (hBack.trans hMatch fun _ _ _ => Alike.trans).trans hMatchY fun _ _ _ => Alike.trans
  exact hId.symm.trans (hBoth ▸ hId')

/-- Values with one expansion have one representative. -/
theorem alike_of_expands (h : Expands (l.map (·.2)) v e) (h' : Expands (l.map (·.2)) w e) :
    Alike (fun _ _ => true) l v w := by
  have hSame : ∀ i ∈ l.map (·.2), ∀ j ∈ l.map (·.2), i.ty = j.ty →
      i.op.Matches (Alike (fun _ _ => true) l) j.op → Alike (fun _ _ => true) l i.id j.id := by
    intro i hi j hj
    obtain ⟨x, hx, rfl⟩ := List.mem_map.mp hi
    obtain ⟨y, hy, rfl⟩ := List.mem_map.mp hj
    exact alike_of_matches hNodup hOrder hx hy
  induction h generalizing w with
  | leaf =>
    cases h'
    rfl
  | @const i c mem op =>
    generalize hTy : i.ty = ty at h'
    cases h' with
    | const mem' op' =>
      apply hSame _ mem _ mem' hTy
      rw [op, op']
      exact .const _
  | @binary i o a b s t mem op lhs rhs ihl ihr =>
    generalize hTy : i.ty = ty at h'
    cases h' with
    | binary mem' op' lhs' rhs' =>
      apply hSame _ mem _ mem' hTy
      rw [op, op']
      exact .binary _ (ihl lhs') (ihr rhs')
  | @unary i o a t mem op operand ih =>
    generalize hTy : i.ty = ty at h'
    cases h' with
    | unary mem' op' operand' =>
      apply hSame _ mem _ mem' hTy
      rw [op, op']
      exact .unary _ (ih operand')
  | @convert i a t mem op operand ih =>
    generalize hTy : i.ty = ty at h'
    cases h' with
    | convert mem' op' operand' =>
      apply hSame _ mem _ mem' hTy
      rw [op, op']
      exact .convert (ih operand')

/-- Of the values with one expansion, the first is their representative. -/
theorem foremost_iff (hv : v ∈ l.map (·.2.id)) (he : Expands (l.map (·.2)) v e) :
    Foremost (l.map (·.2)) e w ↔ rename (scan (fun _ _ => true) l {}) v = w := by
  have hFirst : ∀ front back, l = front ++ back → ∀ u, Expands (l.map (·.2)) u e →
      u ∈ front.map (·.2.id) → rename (scan (fun _ _ => true) l {}) v ∈ front.map (·.2.id) := by
    intro front back hSplit u hu hMem
    rw [alike_of_expands hNodup hOrder he hu]
    exact rename_mem_front hNodup hSplit hMem
  have hl : ((l.map (·.2)).map (·.id)).Nodup := by rwa [List.map_map]
  have hRep : Expands (l.map (·.2)) (rename (scan (fun _ _ => true) l {}) v) e :=
    (related_rename (congruence_expands hl) (fun x hx => List.mem_map_of_mem hx) v e).mp he
  have hIn : rename (scan (fun _ _ => true) l {}) v ∈ l.map (·.2.id) := rename_mem hNodup hv
  constructor
  · rintro ⟨front', i, back', hSplit, rfl, hw, hNone⟩
    obtain ⟨front, rest, hl, rfl, hRest⟩ := List.map_eq_append_iff.mp hSplit
    obtain ⟨y, back, rfl, rfl, -⟩ := List.map_eq_cons_iff.mp hRest
    -- the representative is this value or comes before it, but nothing before it has the expansion
    have hMem := hFirst (front ++ [y]) back (by rw [hl]; simp) y.2.id hw (by simp)
    rw [List.map_append, List.mem_append] at hMem
    rcases hMem with hMem | hMem
    · obtain ⟨z, hz, hId⟩ := List.mem_map.mp hMem
      exact absurd (hId ▸ hRep) (hNone z.2 (List.mem_map_of_mem hz))
    · simpa using hMem
  · rintro rfl
    obtain ⟨y, hy, hId⟩ := List.mem_map.mp hIn
    obtain ⟨front, back, hSplit⟩ := List.append_of_mem hy
    refine ⟨front.map (·.2), y.2, back.map (·.2), by rw [hSplit]; simp, hId, hRep, ?_⟩
    intro j hj hExpands
    obtain ⟨z, hz, rfl⟩ := List.mem_map.mp hj
    have hMem := hFirst front (y :: back) hSplit z.2.id hExpands (List.mem_map_of_mem hz)
    rw [← hId] at hMem
    rw [hSplit, List.map_append, List.nodup_append] at hNodup
    exact hNodup.2.2 _ hMem _ (by simp) rfl

theorem scan_exact : Exact (l.map (·.2)) (scan (fun _ _ => true) l {}) := by
  have hl : ((l.map (·.2)).map (·.id)).Nodup := by rwa [List.map_map]
  refine ⟨fun v => ?_, ?_, fun r => ?_⟩
  · obtain ⟨e, he⟩ := hOrder.exists_expands hl v
    exact ⟨e, he, fun e' he' => he'.unique hl he⟩
  · rw [List.map_map]
    exact values_sublist l {}
  constructor
  · intro hr
    have hRep := rename_of_mem (nodup_reports hNodup) hr
    obtain ⟨front, b, i, back, c, j, hSplit, -, hValue, -, -, -, hMatch⟩ :=
      reported_matches hNodup hOrder hr
    obtain ⟨e, he⟩ := hOrder.exists_expands hl r.value
    refine ⟨⟨i, by rw [hSplit]; simp, hValue, hMatch.isFormula.1⟩, ?_, e, he,
      (foremost_iff hNodup hOrder (value_mem hr) he).mpr hRep⟩
    exact (earlier_not_reported hNodup hr r hr).symm
  · rintro ⟨⟨i, hi, hId, -⟩, hne, e, he, hFirst⟩
    have hv : r.value ∈ l.map (·.2.id) := by
      obtain ⟨x, hx, rfl⟩ := List.mem_map.mp hi
      exact hId ▸ List.mem_map_of_mem hx
    have hRep := (foremost_iff hNodup hOrder hv he).mp hFirst
    have hGone : isGone (scan (fun _ _ => true) l {}) r.value = true := by
      by_contra hStays
      rw [rename_of_not_isGone (Bool.of_not_eq_true hStays)] at hRep
      exact hne hRep.symm
    obtain ⟨r', hr', hValue, hEq⟩ := exists_rename_eq hGone
    have hSame : r' = r := by
      cases r
      cases r'
      simp_all
    exact hSame ▸ hr'

end Scan

end Numbering

/-! ## Functions and blocks -/

theorem Block.insts_located (blk : Block) : blk.located.map (·.2) = blk.insts := by
  rw [Block.located, List.map_map]
  exact List.map_id' blk.insts

namespace Func

variable {f : Func} {blk : Block}

/-- The instructions in the order in which the whole function is scanned. -/
def scanned (f : Func) : List Inst := (f.located f.scanOrder).map (·.2)

theorem nodup_scanOrder (hf : f.layout.Nodup) : f.scanOrder.Nodup := by
  rw [scanOrder]
  refine List.nodup_append.mpr ⟨nodup_reversePostorder f, hf.filter _, ?_⟩
  intro a ha b hb hEq
  rw [List.mem_filter, decide_eq_true_eq] at hb
  exact hb.2 (hEq ▸ ha)

theorem mem_scanOrder {b : BlockId} (hb : b ∈ f.layout) : b ∈ f.scanOrder := by
  rw [scanOrder, List.mem_append, List.mem_filter, decide_eq_true_eq]
  by_cases h : b ∈ f.reversePostorder
  · exact .inl h
  · exact .inr ⟨hb, h⟩

/-- The scan comes through the instructions of a block one after the other. -/
theorem exists_scanned_eq (h : blk ∈ f.blocks) :
    ∃ before after, f.scanned = before ++ blk.insts ++ after := by
  obtain ⟨b, hb, hBlk⟩ := mem_blocks_iff.mp h
  have hMem : blk ∈ f.scanOrder.filterMap f.block? :=
    List.mem_filterMap.mpr ⟨b, mem_scanOrder hb, hBlk⟩
  obtain ⟨front, back, hSplit⟩ := List.append_of_mem hMem
  refine ⟨(front.flatMap Block.located).map (·.2), (back.flatMap Block.located).map (·.2), ?_⟩
  rw [scanned, located, hSplit, List.flatMap_append, List.flatMap_cons, List.map_append,
    List.map_append, blk.insts_located, List.append_assoc]

/-- A block that is scanned alone need only read back itself. -/
theorem Consistent.exact_block (hf : f.Consistent) (h : blk ∈ f.blocks)
    (hOrder : ReadsBack blk.insts) : Exact blk.insts blk.redundancies := by
  obtain ⟨b, -, hb⟩ := mem_blocks_iff.mp h
  have hNodup : (blk.located.map (·.2.id)).Nodup := by
    rw [Block.located, List.map_map]
    exact code_of_block? hb ▸ hf.numbered.nodup b
  rw [← blk.insts_located] at hOrder ⊢
  exact Numbering.scan_exact hNodup hOrder

/-- **Value numbering is exact.** Take a consistent function whose scan comes by every value before
it comes by the constants, operators and conversions that read it. In the order of the scan, the
values that are reported are those of these kinds whose expansion an earlier value has, each with
the first value that has it; every value has one expansion. So it is for each block when it is
scanned alone. -/
theorem redundancies_exact (f : Func) (hf : f.Consistent) (hOrder : ReadsBack f.scanned) :
    Exact f.scanned f.redundancies ∧ ∀ blk ∈ f.blocks, Exact blk.insts blk.redundancies := by
  have hNodup := nodup_located hf.distinct (nodup_scanOrder hf.layout_nodup)
  refine ⟨Numbering.scan_exact hNodup hOrder, fun blk hBlk => hf.exact_block hBlk ?_⟩
  obtain ⟨before, after, hEq⟩ := exists_scanned_eq hBlk
  have hWhole : ((before ++ blk.insts ++ after).map (·.id)).Nodup := by
    rwa [← hEq, scanned, List.map_map]
  exact ReadsBack.part hWhole (hEq ▸ hOrder)

theorem counting_redundancies_exact :
    counting.Consistent ∧ ReadsBack counting.scanned ∧
      counting.redundancies = [⟨⟨7⟩, ⟨1⟩⟩, ⟨⟨8⟩, ⟨4⟩⟩] ∧
      Exact counting.scanned counting.redundancies ∧
      ∀ blk ∈ counting.blocks, Exact blk.insts blk.redundancies := by
  have hConsistent : counting.Consistent := by decide +kernel
  have hOrder : ReadsBack counting.scanned := by decide +kernel
  exact ⟨hConsistent, hOrder, by decide +kernel, counting.redundancies_exact hConsistent hOrder⟩

end Func

end Midend
