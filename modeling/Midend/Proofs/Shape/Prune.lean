import Midend.Proofs.Shape.Restriction
import Midend.Shape.Prune

/-!
# Removing unreachable blocks keeps a function lawful and strict

`removeUnreachable` restricts the function to the blocks in reach (`removeUnreachable_restricts`).
These can do without the others if what they read is held in reach (`SelfContained.sufficient`). In a
strict function it is, because it comes from blocks that guard them.
-/

namespace Midend

namespace Func

variable {f g h : Func} {b e : BlockId} {drop drop' : BlockId → BlockId → Prop}

theorem mem_unreachable (hf : f.Framed) : b ∈ f.unreachable ↔ f.hasBlock b = true ∧ ¬ f.Live b := by
  cases hEntry : f.entry with
  | none =>
    have hNone : ¬ f.hasBlock b = true := by
      rw [← hf.mem_layout, hf.entry_none hEntry]
      exact List.not_mem_nil
    rw [unreachable, hEntry]
    simp [hNone]
  | some e =>
    rw [live_iff hEntry, unreachable, hEntry]
    simp [hf.mem_layout, mem_reachable, hf.entry_mem e hEntry]

/-- The phis of each block have lost their pairs for some blocks, and nothing else has changed. -/
structure Forsaken (f : Func) (drop : BlockId → BlockId → Prop) (g : Func) : Prop where
  frame : SameFrame f g
  ids_eq : g.ids = f.ids
  succs_eq : ∀ x, g.succs x = f.succs x
  code_eq : ∀ x, ∃ keep : BlockId → Bool, (∀ a, keep a = true ↔ ¬ drop x a) ∧
    g.code x = (f.code x).map (·.keepIncoming keep)

namespace Forsaken

theorem refl (f : Func) : Forsaken f (fun _ _ => False) f where
  frame := .refl f
  ids_eq := rfl
  succs_eq _ := rfl
  code_eq x := by
    refine ⟨fun _ => true, by simp, ?_⟩
    conv => lhs; rw [← List.map_id (f.code x)]
    exact List.map_congr_left fun i _ => (Inst.keepIncoming_eq_self fun _ _ _ => rfl).symm

theorem trans (hfg : Forsaken f drop g) (hgh : Forsaken g drop' h) :
    Forsaken f (fun x a => drop x a ∨ drop' x a) h where
  frame := hfg.frame.trans hgh.frame
  ids_eq := hgh.ids_eq.trans hfg.ids_eq
  succs_eq x := (hgh.succs_eq x).trans (hfg.succs_eq x)
  code_eq x := by
    obtain ⟨keep, hKeep, hCode⟩ := hfg.code_eq x
    obtain ⟨keep', hKeep', hCode'⟩ := hgh.code_eq x
    refine ⟨fun a => keep a && keep' a, ?_, ?_⟩
    · intro a
      rw [Bool.and_eq_true, hKeep, hKeep', not_or]
    · rw [hCode', hCode, List.map_map]
      exact List.map_congr_left fun i _ => Inst.keepIncoming_keepIncoming

theorem congr (h : Forsaken f drop g) (hEq : ∀ x a, drop x a ↔ drop' x a) : Forsaken f drop' g := by
  have : drop = drop' := funext fun x => funext fun a => propext (hEq x a)
  exact this ▸ h

theorem removeIncoming (f : Func) (b pred : BlockId) :
    Forsaken f (fun x a => x = b ∧ a = pred) (f.removeIncoming b pred).2 := by
  rw [removeIncoming_eq]
  refine ⟨.rewrite .., rfl, fun _ => succs_rewrite, fun x => ?_⟩
  rw [code_rewrite_map]
  by_cases hx : x = b
  · exact ⟨(· ≠ pred), by simp [hx], if_pos hx⟩
  · obtain ⟨keep, hKeep, hCode⟩ := (refl f).code_eq x
    exact ⟨keep, fun a => by simp [hKeep, hx], by rw [if_neg hx, ← hCode]⟩

theorem foldl_removeIncoming (pred : BlockId) (l : List BlockId) (f : Func) :
    Forsaken f (fun x a => x ∈ l ∧ a = pred)
      (l.foldl (fun g s => (g.removeIncoming s pred).2) f) := by
  induction l generalizing f with
  | nil => exact (refl f).congr fun x a => by simp
  | cons s l ih =>
    refine ((removeIncoming f s pred).trans (ih _)).congr fun x a => ?_
    rw [List.mem_cons, or_and_right]

theorem forsake (f : Func) (b : BlockId) :
    Forsaken f (fun x a => x ∈ f.succs b ∧ a = b) (f.forsake b) :=
  foldl_removeIncoming b (f.succs b).toList f

theorem foldl_forsake (l : List BlockId) (f : Func) :
    Forsaken f (fun x a => x ∈ f.succs a ∧ a ∈ l) (l.foldl Func.forsake f) := by
  induction l generalizing f with
  | nil => exact (refl f).congr fun x a => by simp
  | cons b l ih =>
    have hStep := forsake f b
    refine (hStep.trans (ih _)).congr fun x a => ?_
    rw [hStep.succs_eq, List.mem_cons]
    grind

end Forsaken

/-- Removing blocks one after the other, none of them the entry. -/
theorem foldl_removeBlock_shrunk (l : List BlockId) (hNodup : l.Nodup) (hf : f.Mirrored)
    (hl : ∀ b ∈ l, f.hasBlock b = true ∧ f.entry ≠ some b) :
    Shrunk f (· ∉ l) (l.foldl (fun g b => (g.removeBlock b).2) f) := by
  induction l generalizing f with
  | nil => simpa using Shrunk.refl f
  | cons b l ih =>
    obtain ⟨hNot, hNodup⟩ := List.nodup_cons.mp hNodup
    have hStep := removeBlock_shrunk hf (hl b List.mem_cons_self).1 (hl b List.mem_cons_self).2
    have hRest := ih hNodup (hStep.mirrored hf) (by
      intro c hc
      obtain ⟨hHas, hEntry⟩ := hl c (List.mem_cons_of_mem _ hc)
      rw [hStep.hasBlock_iff, hStep.entry_eq]
      exact ⟨⟨decide_eq_true fun hEq => hNot (hEq ▸ hc), hHas⟩, hEntry⟩)
    have hKeep : (fun x => decide (x ≠ b) && decide (x ∉ l)) = fun x => decide (x ∉ b :: l) := by
      funext x
      simp
    exact hKeep ▸ hStep.trans hRest

/-- What is left depends on the kind of the blocks that are there only. -/
theorem Shrunk.congr {keep : BlockId → Bool} (h : Shrunk f keep g) (hf : f.Arranged)
    (keep' : BlockId → Bool) (hEq : ∀ x, f.hasBlock x = true → keep x = keep' x) :
    Shrunk f keep' g := by
  have hNone : ∀ {x}, f.hasBlock x = false → g.hasBlock x = false := by
    intro x hx
    by_contra hHas
    rw [Bool.not_eq_false, h.hasBlock_iff, hx] at hHas
    cases hHas.2
  refine ⟨h.name_eq, ?_, h.entry_eq, h.ids_eq, fun x => ?_, fun x hx => ?_, fun x hx => ?_,
    fun x c => ?_, h.named, h.mirrored⟩
  · rw [h.layout_eq]
    exact List.filter_congr fun x hx => hEq x ((hf.mem_layout x).mp hx)
  · rw [h.hasBlock_iff]
    exact and_congr_left fun hx => by rw [hEq x hx]
  · cases hHas : f.hasBlock x with
    | true => exact h.label?_eq x ((hEq x hHas).trans hx)
    | false =>
      have hf' := label?_isSome.trans hHas
      have hg' := label?_isSome.trans (hNone hHas)
      rw [Option.isSome_eq_false_iff, Option.isNone_iff_eq_none] at hf' hg'
      rw [hf', hg']
  · cases hHas : f.hasBlock x with
    | true => exact h.code_eq x ((hEq x hHas).trans hx)
    | false => rw [code_of_not_hasBlock hHas, code_of_not_hasBlock (hNone hHas)]
  · rw [h.mem_succs]
    refine and_congr_right fun edge => ?_
    rw [hEq x (hasBlock_of_mem_succs edge), hEq c (hf.mirrored.hasBlock_target edge)]

/-- The blocks in reach are left, and the pairs that their phis have for blocks in reach. -/
theorem removeUnreachable_restricts (hf : f.Framed) (hw : f.Wired) :
    Restricts f (f.Live ·) f.removeUnreachable.2 := by
  have hDrop := Forsaken.foldl_forsake f.unreachable f
  have hDead : ∀ b ∈ f.unreachable, f.hasBlock b = true ∧ f.entry ≠ some b := by
    intro b hb
    obtain ⟨hHas, hNot⟩ := (mem_unreachable hf).mp hb
    exact ⟨hHas, fun hEntry => hNot ⟨b, hEntry, .refl b⟩⟩
  have hNodup : f.unreachable.Nodup := by
    rw [unreachable]
    split
    · exact List.nodup_nil
    · exact hf.layout_nodup.filter _
  have hShrunk := foldl_removeBlock_shrunk f.unreachable hNodup (hDrop.frame.mirrored hf.mirrored)
    fun b hb => by
      rw [hDrop.frame.hasBlock_eq, hDrop.frame.entry_eq]
      exact hDead b hb
  have hLive : ∀ x, f.hasBlock x = true →
      decide (x ∉ f.unreachable) = decide (f.Live x) := by
    intro x hx
    rw [decide_eq_decide, mem_unreachable hf, not_and, not_not]
    exact ⟨fun h => h hx, fun h _ => h⟩
  have hRest := hShrunk.congr (hDrop.frame.arranged hf.toArranged) (f.Live ·) fun x hx =>
    hLive x (by rwa [hDrop.frame.hasBlock_eq] at hx)
  refine hRest.restricts hDrop.frame hDrop.ids_eq hDrop.succs_eq ?_ hf
  intro x _
  obtain ⟨keep, hKeep, hCode⟩ := hDrop.code_eq x
  rw [hCode]
  -- A phi has pairs for predecessors only, so it does not matter where the others would go.
  refine List.map_congr_left fun i hi => Inst.keepIncoming_eq_of_blockRefs fun hPhi a ha => ?_
  have edge := ((hw.pairs x i hi hPhi).2.2 a).mp ha
  rw [← hLive a (hasBlock_of_mem_succs edge), Bool.eq_iff_iff, hKeep, decide_eq_true_iff,
    and_iff_right edge]

/-- Whatever a block in reach reads is held by a block in reach; of the pairs of a phi only those
count that belong to blocks in reach. -/
structure SelfContained (f : Func) : Prop where
  operand : ∀ b, f.Live b → ∀ i ∈ f.code b, i.isPhi = false →
    ∀ v ∈ i.op.operands, ∃ d, f.Live d ∧ f.DefinedIn v d
  incoming : ∀ b, f.Live b → ∀ i ∈ f.code b, ∀ incoming, i.op = .phi incoming →
    ∀ p ∈ incoming, f.Live p.block → ∃ d, f.Live d ∧ f.DefinedIn p.value d

theorem Computes.definedIn {v : ValueId} (h : f.Computes b v) : f.DefinedIn v b := by
  obtain ⟨i, hi, -, hId⟩ := h
  exact definedIn_iff.mpr ⟨i, hi, hId⟩

/-- What is computed on every way to a block in reach is computed in reach. -/
theorem Scoped.selfContained (hf : f.Scoped) : f.SelfContained where
  operand b hb i hi hPhi v hv := by
    obtain ⟨front, back, hCode⟩ := List.append_of_mem hi
    rcases hf.operand b hb front i back hCode hPhi v hv with ⟨j, hj, hId⟩ | ⟨d, -, hd, hDef⟩
    · exact ⟨b, hb, definedIn_iff.mpr ⟨j, hCode ▸ List.mem_append_left _ hj, hId⟩⟩
    · exact ⟨d, hd.live hb, hDef.definedIn⟩
  incoming b hb i hi incoming hOp p hp hLive := by
    obtain ⟨d, hd, hDef⟩ := hf.incoming b hb i hi incoming hOp p hp hLive
    exact ⟨d, hd.live hLive, hDef.definedIn⟩

/-- The blocks in reach can do without the others. -/
theorem SelfContained.sufficient (h : f.SelfContained) (hw : f.Wired)
    (hFirst : ∀ e, f.entry = some e → ∀ a, ¬ e ∈ f.succs a) : f.Sufficient (f.Live ·) where
  entry e he := decide_eq_true ⟨e, he, .refl e⟩
  closed a b ha edge := decide_eq_true ((of_decide_eq_true ha).step edge)
  defined b hb i hi v hv := by
    have hLive : f.Live b := of_decide_eq_true hb
    simp only [decide_eq_true_iff]
    cases hPhi : i.isPhi with
    | false =>
      rw [Inst.keepIncoming_of_not_phi hPhi] at hv
      exact h.operand b hLive i hi hPhi v hv
    | true =>
      rcases i with ⟨id, ty, known, op⟩
      cases op with
      | phi incoming =>
        obtain ⟨p, hp, rfl⟩ := List.mem_map.mp hv
        obtain ⟨hp, hKept⟩ := List.mem_filter.mp hp
        exact h.incoming b hLive _ hi incoming rfl p hp (of_decide_eq_true hKept)
      | _ => cases hPhi
  entered b hb i hi hPhi := by
    simp only [decide_eq_true_iff]
    rcases (of_decide_eq_true hb).cases with hEntry | ⟨a, ha, edge⟩
    · rw [hw.not_isPhi_of_unled (hFirst b hEntry) hi] at hPhi
      cases hPhi
    · exact ⟨a, edge, ha⟩

theorem RegularFrom.removeUnreachable (hf : f.RegularFrom e) : f.removeUnreachable.2.RegularFrom e := by
  have hRes := removeUnreachable_restricts hf.toFramed hf.toWired
  have hSelf := hf.toScoped.selfContained
  exact ⟨hRes.regular hf.toRegular (hSelf.sufficient hf.toWired hf.entry_first),
    hRes.entry_eq.trans hf.entry_eq⟩

end Func

end Midend
