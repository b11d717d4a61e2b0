import Midend.Proofs.Func.Uses
import Midend.Proofs.Redundancy.Numbering
import Midend.Proofs.Validity.Regular
import Midend.Redundancy.Elimination

/-!
# What elimination leaves

Eliminating redundant values one after the other comes to dropping them all and renaming what reads
them, in one step, since what stands in the place of a redundant value is not itself redundant
(`Func.eliminate_spared`). Blocks, labels and edges stay.
-/

namespace Midend

/-- Drops the instructions of the given names and renames what the others read. -/
def spare (gone : ValueId → Bool) (ren : ValueId → ValueId) (l : List Inst) : List Inst :=
  (l.filter fun i => !gone i.id).map (·.mapOperands ren)

theorem Inst.mapOperands_mapOperands (r r' : ValueId → ValueId) (i : Inst) :
    (i.mapOperands r).mapOperands r' = i.mapOperands (r' ∘ r) := by
  rcases i with ⟨id, ty, known, op⟩
  cases op <;> simp [Inst.mapOperands, Op.mapOperands, Function.comp_def]

section Spare

variable {gone gone' : ValueId → Bool} {ren ren' : ValueId → ValueId} {l : List Inst} {i : Inst}

theorem spare_spare :
    spare gone' ren' (spare gone ren l) = spare (fun v => gone v || gone' v) (ren' ∘ ren) l := by
  simp only [spare, List.filter_map, List.map_map, List.filter_filter]
  congr 1
  · exact funext fun i => Inst.mapOperands_mapOperands ren ren' i
  · refine List.filter_congr fun i _ => ?_
    simp [Inst.mapOperands, Bool.and_comm]

theorem mem_spare : i ∈ spare gone ren l ↔ ∃ j ∈ l, gone j.id = false ∧ j.mapOperands ren = i := by
  simp [spare, and_assoc]

theorem spare_append {m : List Inst} :
    spare gone ren (l ++ m) = spare gone ren l ++ spare gone ren m := by
  simp [spare]

theorem ids_spare : ((spare gone ren l).map (·.id)).Sublist (l.map (·.id)) := by
  rw [spare, List.map_map]
  exact List.filter_sublist.map _

/-- A part of what is left is what is left of a part. -/
theorem exists_of_spare_eq {earlier later : List Inst}
    (h : spare gone ren l = earlier ++ i :: later) :
    ∃ front j back, l = front ++ j :: back ∧ gone j.id = false ∧ j.mapOperands ren = i ∧
      spare gone ren front = earlier := by
  rw [spare, List.map_eq_append_iff] at h
  obtain ⟨l₁, l₂, hl, rfl, h⟩ := h
  obtain ⟨j, l₃, rfl, rfl, rfl⟩ := List.map_eq_cons_iff.mp h
  obtain ⟨front, m, rfl, rfl, hm⟩ := List.filter_eq_append_iff.mp hl
  obtain ⟨skipped, back, rfl, hSkip, hj, -⟩ := List.filter_eq_cons_iff.mp hm
  refine ⟨front ++ skipped, j, back, by simp, by simpa using hj, rfl, ?_⟩
  have hNone : spare gone ren skipped = [] := by
    rw [spare, List.map_eq_nil_iff, List.filter_eq_nil_iff]
    exact hSkip
  rw [spare_append, hNone, List.append_nil, spare]

end Spare

namespace Func

variable {f g h : Func} {b x : BlockId} {i : Inst} {v o : ValueId} {gone gone' : ValueId → Bool}
  {ren ren' : ValueId → ValueId}

/-- The second function is the first without some values, with other names for what is read. -/
structure Spared (f : Func) (gone : ValueId → Bool) (ren : ValueId → ValueId) (g : Func) : Prop where
  block?_eq : ∀ x, g.block? x =
    (f.block? x).map fun blk => { blk with insts := spare gone ren blk.insts }
  name_eq : g.name = f.name
  layout_eq : g.layout = f.layout
  entry_eq : g.entry = f.entry
  ids_eq : g.ids = f.ids

namespace Spared

theorem refl (f : Func) : Spared f (fun _ => false) (fun v => v) f where
  block?_eq x := by
    have hSame : ∀ l, spare (fun _ => false) (fun v => v) l = l := by
      intro l
      simp [spare, Inst.mapOperands_self]
    simp [hSame]
  name_eq := rfl
  layout_eq := rfl
  entry_eq := rfl
  ids_eq := rfl

theorem trans (hfg : Spared f gone ren g) (hgh : Spared g gone' ren' h) :
    Spared f (fun v => gone v || gone' v) (ren' ∘ ren) h where
  block?_eq x := by
    rw [hgh.block?_eq, hfg.block?_eq, Option.map_map]
    refine congrArg (Option.map · _) (funext fun blk => ?_)
    simp [spare_spare]
  name_eq := hgh.name_eq.trans hfg.name_eq
  layout_eq := hgh.layout_eq.trans hfg.layout_eq
  entry_eq := hgh.entry_eq.trans hfg.entry_eq
  ids_eq := hgh.ids_eq.trans hfg.ids_eq

theorem congr (hfg : Spared f gone ren g) (hGone : ∀ v, gone v = gone' v)
    (hRen : ∀ v, ren v = ren' v) : Spared f gone' ren' g := by
  rwa [← funext hGone, ← funext hRen]

/-- Whatever is read off a block without its instructions stays. -/
theorem map_eq {α : Type} (hfg : Spared f gone ren g) (p : Block → α)
    (hp : ∀ blk l, p { blk with insts := l } = p blk) (x : BlockId) :
    (g.block? x).map p = (f.block? x).map p := by
  rw [hfg.block?_eq, Option.map_map]
  cases f.block? x with
  | none => rfl
  | some blk => exact congrArg some (hp blk _)

theorem code_eq (hfg : Spared f gone ren g) (x : BlockId) :
    g.code x = spare gone ren (f.code x) := by
  rw [code, code, hfg.block?_eq]
  cases f.block? x <;> rfl

theorem succs_eq (hfg : Spared f gone ren g) (x : BlockId) : g.succs x = f.succs x := by
  rw [succs, succs, hfg.map_eq _ fun _ _ => rfl]

theorem preds_eq (hfg : Spared f gone ren g) (x : BlockId) : g.preds x = f.preds x := by
  rw [preds, preds, hfg.map_eq _ fun _ _ => rfl]

theorem frame (hfg : Spared f gone ren g) : SameFrame f g where
  name_eq := hfg.name_eq
  layout_eq := hfg.layout_eq
  entry_eq := hfg.entry_eq
  nextBlock_eq := by rw [hfg.ids_eq]
  hasBlock_eq x := by
    rw [hasBlock_eq_isSome, hasBlock_eq_isSome, hfg.block?_eq, Option.isSome_map]
  label?_eq := hfg.map_eq _ fun _ _ => rfl
  named hf x blk hBlk := by
    rw [hfg.block?_eq] at hBlk
    obtain ⟨blk', hBlk', rfl⟩ := Option.map_eq_some_iff.mp hBlk
    exact hf x blk' hBlk'
  mirrored hf x y := by
    rw [hfg.succs_eq, hfg.preds_eq]
    exact hf x y

theorem mem_code (hfg : Spared f gone ren g) :
    i ∈ g.code x ↔ ∃ j ∈ f.code x, gone j.id = false ∧ j.mapOperands ren = i := by
  rw [hfg.code_eq, mem_spare]

end Spared

/-! ## One value at a time -/

/-- Every name belongs to one instruction. -/
structure Distinct (f : Func) : Prop where
  mem_layout : ∀ b, f.hasBlock b = true → b ∈ f.layout
  named : f.Named
  nodup : ∀ b, ((f.code b).map (·.id)).Nodup
  inj : ∀ a b, ∀ i ∈ f.code a, ∀ j ∈ f.code b, i.id = j.id → a = b

theorem Lawful.distinct (hf : f.Lawful) : f.Distinct :=
  ⟨fun b => (hf.mem_layout b).mpr, hf.named, hf.nodup, hf.inj⟩

theorem Consistent.distinct (hf : f.Consistent) : f.Distinct :=
  ⟨fun b => (hf.mem_layout b).mpr, hf.arranged.named, hf.numbered.nodup, hf.numbered.inj⟩

theorem Spared.distinct (hfg : Spared f gone ren g) (hf : f.Distinct) : g.Distinct where
  mem_layout b hb := by
    rw [hfg.layout_eq]
    exact hf.mem_layout b (hfg.frame.hasBlock_eq b ▸ hb)
  named := hfg.frame.named hf.named
  nodup b := by
    rw [hfg.code_eq]
    exact ids_spare.nodup (hf.nodup b)
  inj a b i hi j hj hId := by
    obtain ⟨i', hi', -, rfl⟩ := hfg.mem_code.mp hi
    obtain ⟨j', hj', -, rfl⟩ := hfg.mem_code.mp hj
    exact hf.inj a b i' hi' j' hj' hId

theorem replaceUses_spared (f : Func) (v o : ValueId) :
    Spared f (fun _ => false) (fun u => if u = v then o else u) (f.replaceUses v o).2 where
  block?_eq x := by
    rw [block?_replaceUses]
    simp [spare]
  name_eq := rfl
  layout_eq := rfl
  entry_eq := rfl
  ids_eq := rfl

theorem home?_eq (hf : f.Distinct) (hi : i ∈ f.code b) : f.home? i.id = some b := by
  obtain ⟨blk, hBlk, hMem⟩ := mem_code_iff.mp hi
  have hb := hf.mem_layout b (hasBlock_of_mem_code hi)
  rw [home?]
  cases hFind : f.blocks.find? fun blk => (blk.value? i.id).isSome with
  | none =>
    have hNone := List.find?_eq_none.mp hFind blk (mem_blocks_iff.mpr ⟨b, hb, hBlk⟩)
    rw [Block.value?, List.find?_isSome] at hNone
    exact absurd ⟨i, hMem, by simp⟩ hNone
  | some blk' =>
    obtain ⟨b', -, hBlk'⟩ := mem_blocks_iff.mp (List.mem_of_find?_eq_some hFind)
    have hSome := List.find?_some hFind
    rw [Block.value?, List.find?_isSome] at hSome
    obtain ⟨j, hj, hId⟩ := hSome
    have hEq := hf.inj b' b j (mem_code_iff.mpr ⟨blk', hBlk', hj⟩) i hi (by simpa using hId)
    rw [Option.map_some, hf.named b' blk' hBlk', hEq]

theorem targets_of_not_isTerminator (hi : i.isTerminator = false) : i.op.targets = [] := by
  refine List.eq_nil_iff_forall_not_mem.mpr fun c hc => ?_
  rw [isTerminator_of_mem_targets hc] at hi
  cases hi

theorem removeValue_eq (hf : f.Distinct) (hi : i ∈ f.code b) (hTerm : i.isTerminator = false) :
    (f.removeValue i.id).2 = f.rewrite b (·.eraseP (·.id = i.id)) := by
  obtain ⟨blk, hBlk, hMem⟩ := mem_code_iff.mp hi
  have hNodup := hf.nodup b
  rw [code_of_block? hBlk] at hNodup
  have hValue : blk.value? i.id = some i := by
    cases hFind : blk.value? i.id with
    | none => exact absurd (List.find?_eq_none.mp hFind i hMem) (by simp)
    | some j =>
      have hId : j.id = i.id := by simpa using List.find?_some hFind
      exact congrArg some
        (List.inj_on_of_nodup_map hNodup (List.mem_of_find?_eq_some hFind) hMem hId)
  simp only [removeValue, home?_eq hf hi, hBlk, Option.bind_some, hValue,
    targets_of_not_isTerminator hTerm]
  rfl

theorem eraseP_id_eq_filter {l : List Inst} (hl : (l.map (·.id)).Nodup) (v : ValueId) :
    l.eraseP (·.id = v) = l.filter (·.id ≠ v) := by
  induction l with
  | nil => rfl
  | cons i l ih =>
    obtain ⟨hi, hl⟩ := List.nodup_cons.mp hl
    by_cases hId : i.id = v
    · have hRest : ∀ j ∈ l, j.id ≠ v := fun j hj hEq =>
        hi (List.mem_map.mpr ⟨j, hj, hEq.trans hId.symm⟩)
      simpa [hId] using (List.filter_eq_self.mpr fun j hj => by simpa using hRest j hj).symm
    · simpa [hId] using ih hl

theorem removeValue_spared (hf : f.Distinct) (hi : i ∈ f.code b) (hTerm : i.isTerminator = false) :
    Spared f (fun u => u = i.id) (fun u => u) (f.removeValue i.id).2 := by
  have hSame : ∀ l, spare (fun u => u = i.id) (fun u => u) l = l.filter (·.id ≠ i.id) := by
    intro l
    simp [spare, Inst.mapOperands_self]
  rw [removeValue_eq hf hi hTerm]
  refine ⟨fun x => ?_, rfl, rfl, rfl, rfl⟩
  rw [block?_rewrite]
  cases hBlk : f.block? x with
  | none => rfl
  | some blk =>
    have hNodup := hf.nodup x
    rw [code_of_block? hBlk] at hNodup
    have hInsts : (if x = b then blk.insts.eraseP (·.id = i.id) else blk.insts) =
        spare (fun u => u = i.id) (fun u => u) blk.insts := by
      rw [hSame]
      split
      · exact eraseP_id_eq_filter hNodup i.id
      · rename_i hx
        have hNone : ∀ j ∈ blk.insts, j.id ≠ i.id := fun j hj hId =>
          hx (hf.inj x b j (mem_code_iff.mpr ⟨blk, hBlk, hj⟩) i hi hId)
        exact (List.filter_eq_self.mpr fun j hj => by simpa using hNone j hj).symm
    simp only [Option.map_some, hInsts]

/-! ## All values at once -/

end Func

/-- Whether a value is reported. -/
def Redundancy.isGone (l : List Redundancy) (v : ValueId) : Bool := l.any (·.value = v)

/-- What stands in the place of a value. -/
def Redundancy.rename (l : List Redundancy) (v : ValueId) : ValueId :=
  ((l.find? (·.value = v)).map (·.earlier)).getD v

namespace Redundancy

variable {l : List Redundancy} {r : Redundancy} {v : ValueId}

theorem isGone_iff : isGone l v = true ↔ ∃ r ∈ l, r.value = v := by
  simp [isGone]

theorem isGone_eq_false_iff : isGone l v = false ↔ ∀ r ∈ l, r.value ≠ v := by
  simp [isGone]

theorem isGone_cons : isGone (r :: l) v = (decide (r.value = v) || isGone l v) := rfl

theorem rename_cons : rename (r :: l) v = if r.value = v then r.earlier else rename l v := by
  rw [rename, List.find?_cons]
  by_cases h : r.value = v <;> simp [h, rename]

theorem rename_of_not_isGone (h : isGone l v = false) : rename l v = v := by
  have hNone : l.find? (·.value = v) = none :=
    List.find?_eq_none.mpr fun r hr => by simpa using isGone_eq_false_iff.mp h r hr
  rw [rename, hNone]
  rfl

/-- What stands in the place of a reported value is the earlier value of a report. -/
theorem exists_rename_eq (h : isGone l v = true) : ∃ r ∈ l, r.value = v ∧ rename l v = r.earlier := by
  cases hFind : l.find? (·.value = v) with
  | none =>
    obtain ⟨r, hr, hEq⟩ := isGone_iff.mp h
    exact absurd (List.find?_eq_none.mp hFind r hr) (by simp [hEq])
  | some r =>
    refine ⟨r, List.mem_of_find?_eq_some hFind, by simpa using List.find?_some hFind, ?_⟩
    rw [rename, hFind]
    rfl

theorem rename_of_mem (hl : (l.map (·.value)).Nodup) (hr : r ∈ l) : rename l r.value = r.earlier := by
  obtain ⟨r', hr', hValue, hEq⟩ := exists_rename_eq (isGone_iff.mpr ⟨r, hr, rfl⟩)
  rw [hEq, List.inj_on_of_nodup_map hl hr' hr hValue]

/-- Nothing that stands in the place of a value is reported. -/
theorem not_isGone_rename (hl : ∀ r ∈ l, isGone l r.earlier = false) (v : ValueId) :
    isGone l (rename l v) = false := by
  cases h : isGone l v with
  | false => rwa [rename_of_not_isGone h]
  | true =>
    obtain ⟨r, hr, -, hEq⟩ := exists_rename_eq h
    exact hEq ▸ hl r hr

end Redundancy

/-- What stands in the place of a value is related to it by every congruence. -/
theorem Numbering.related_rename {P : Inst → Prop} {E : ValueId → ValueId → Prop}
    {l : List (BlockId × Inst)} {available : BlockId → BlockId → Bool} (hE : Congruence P E)
    (hP : ∀ x ∈ l, P x.2) (v : ValueId) : E v (Redundancy.rename (scan available l {}) v) := by
  cases h : Redundancy.isGone (scan available l {}) v with
  | false => exact (Redundancy.rename_of_not_isGone h).symm ▸ hE.refl v
  | true =>
    obtain ⟨r, hr, rfl, hEq⟩ := Redundancy.exists_rename_eq h
    obtain ⟨front, b, i, back, c, j, hSplit, hj, hId, hEarlier, -, hTy, hMatch⟩ :=
      scan_justified hE hP hr
    have hi : (b, i) ∈ l := by
      rw [hSplit]
      simp
    have hj : (c, j) ∈ l := by
      rw [hSplit]
      exact List.mem_append_left _ hj
    rw [hEq, ← hId, ← hEarlier]
    exact hE.congr i j (hP _ hi) (hP _ hj) hTy hMatch

namespace Func

variable {f : Func}

open Redundancy in
/-- Eliminating values one after the other is dropping them and renaming what is read at once. -/
theorem eliminate_spared {l : List Redundancy} (hf : f.Distinct) (hl : (l.map (·.value)).Nodup)
    (hHeld : ∀ r ∈ l, ∃ b, ∃ i ∈ f.code b, i.id = r.value ∧ i.isTerminator = false)
    (hEarlier : ∀ r ∈ l, isGone l r.earlier = false) :
    Spared f (isGone l) (rename l) (f.eliminate l) := by
  induction l generalizing f with
  | nil => exact .refl f
  | cons r l ih =>
    obtain ⟨hr, hl⟩ := List.nodup_cons.mp hl
    obtain ⟨b, i, hi, hId, hTerm⟩ := hHeld r List.mem_cons_self
    -- the two requests for the first report
    have hUses := replaceUses_spared f r.value r.earlier
    have hMem := hUses.mem_code.mpr ⟨i, hi, rfl, rfl⟩
    have hStep := hUses.trans (removeValue_spared (hUses.distinct hf) hMem
      ((Op.isTerminator_mapOperands _ i.op).trans hTerm))
    rw [show (i.mapOperands fun u => if u = r.value then r.earlier else u).id = r.value from hId]
      at hStep
    have hEarlier' : ∀ r' ∈ r :: l, isGone l r'.earlier = false := fun r' hr' => by
      have := hEarlier r' hr'
      rw [isGone_cons, Bool.or_eq_false_iff] at this
      exact this.2
    have hRest := ih (hStep.distinct hf) hl ?_ fun r' hr' => hEarlier' r' (List.mem_cons_of_mem _ hr')
    · refine (hStep.trans hRest).congr (fun v => ?_) fun v => ?_
      · simp [isGone_cons, eq_comm]
      · rw [rename_cons]
        by_cases hv : v = r.value
        · simp [hv, rename_of_not_isGone (hEarlier' r List.mem_cons_self)]
        · simp [hv, Ne.symm hv]
    · intro r' hr'
      obtain ⟨c, j, hj, hId', hTerm'⟩ := hHeld r' (List.mem_cons_of_mem _ hr')
      refine ⟨c, _, hStep.mem_code.mpr ⟨j, hj, ?_, rfl⟩, hId',
        (Op.isTerminator_mapOperands _ j.op).trans hTerm'⟩
      have hne : j.id ≠ r.value := fun hEq => hr (List.mem_map.mpr ⟨r', hr', hId' ▸ hEq⟩)
      simp [hne]

end Func

end Midend
