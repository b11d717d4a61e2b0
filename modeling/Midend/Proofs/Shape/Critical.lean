import Mathlib.Data.Set.Card
import Midend.Proofs.Shape.Split
import Midend.Proofs.Validity.Regular

/-!
# Splitting removes every critical edge

A split exchanges one edge for two that meet in a new block (`Divides`). The start of the edge still
leads to as many blocks as before and its end is still led to by as many, so no other edge becomes
critical or stops being it (`Divides.critical_iff`), and the blocks of earlier splits, which have one
neighbour on each side, are not touched (`Divides.spans`). What the loops keep is that the critical
edges that are left are those that they have not come to (`Splits`).

* `splitAll_exact`: every critical edge is split once and no other, and nothing is left to split.
-/

namespace Midend

/-- A set with an element has more than one if it has another. -/
theorem SortedSet.one_lt_size_iff {κ : Type} [Key κ] {s : SortedSet κ} {a : κ} (ha : a ∈ s) :
    1 < s.size ↔ ∃ b ∈ s, b ≠ a := by
  constructor
  · intro hSize
    by_contra hNone
    have hOnly : s.toList ⊆ [a] := fun b hb =>
      List.mem_singleton.mpr (by_contra fun hne => hNone ⟨b, hb, hne⟩)
    exact absurd (s.nodup_toList.length_le_of_subset hOnly) (Nat.not_le_of_lt hSize)
  · rintro ⟨b, hb, hne⟩
    have hNodup : [b, a].Nodup := by simp [hne]
    have hBoth : [b, a] ⊆ s.toList :=
      List.cons_subset.mpr ⟨hb, List.cons_subset.mpr ⟨ha, List.nil_subset _⟩⟩
    exact hNodup.length_le_of_subset hBoth

/-- A block on the way from one block to another. -/
structure Passage where
  block : BlockId
  source : BlockId
  target : BlockId

/-- The edge that leads through the block. -/
def Passage.edge (p : Passage) : BlockId × BlockId := (p.source, p.target)

namespace Func

variable {f g h : Func} {a b c s x y : BlockId} {p : Passage} {new : List Passage} {n : Nat}
  {pending pending' : BlockId → BlockId → Prop}

/-! ## Critical edges -/

/-- There is an edge from the first block to the second, the first one leads to another block too,
and another block leads to the second one too. -/
def Critical (f : Func) (a b : BlockId) : Prop :=
  b ∈ f.succs a ∧ (∃ c ∈ f.succs a, c ≠ b) ∧ ∃ q, b ∈ f.succs q ∧ q ≠ a

theorem isCritical_iff_critical (hm : f.Mirrored) : f.isCritical a b = true ↔ f.Critical a b := by
  rw [isCritical_iff]
  refine and_congr_right fun edge => ?_
  rw [SortedSet.one_lt_size_iff edge, SortedSet.one_lt_size_iff ((hm a b).mp edge)]
  exact and_congr_right fun _ => exists_congr fun q => and_congr_left fun _ => (hm q b).symm

/-- The block holds nothing but a jump, and has no neighbours but the ends of the edge. -/
structure Spans (f : Func) (p : Passage) : Prop where
  jumps : ∃ jump, f.code p.block = [jump] ∧ jump.op = .jump p.target
  preds_eq : f.preds p.block = .singleton p.source
  succs_eq : f.succs p.block = .singleton p.target

/-! ## One split -/

/-- A critical edge of the first function leads through a new block in the second. -/
structure Divides (f : Func) (a b s : BlockId) (g : Func) : Prop where
  critical : f.Critical a b
  fresh : f.hasBlock s = false
  layout_eq : g.layout = f.layout ++ [s]
  jumps : ∃ jump, g.code s = [jump] ∧ jump.op = .jump b
  code_eq : ∀ x, x ≠ a → x ≠ b → x ≠ s → g.code x = f.code x
  mem_succs : ∀ x c, c ∈ g.succs x ↔
    (x = s ∧ c = b) ∨ (x = a ∧ c = s) ∨ (c ∈ f.succs x ∧ ¬ (x = a ∧ c = b))

/-- A critical edge of a lawful function is always split. -/
theorem Lawful.splitEdge (hf : f.Lawful) (a b : BlockId) :
    (¬ f.Critical a b ∧ f.splitEdge a b = (none, f)) ∨
      ∃ s g, f.splitEdge a b = (some s, g) ∧ g.Lawful ∧ Divides f a b s g := by
  rcases hf.splitEdge_cases a b with
    ⟨hNot, hEq⟩ | ⟨hCritical, s, label, mid, front, g, hGrown, hArranged, hEntry, hBridge, hEq⟩
  · refine .inl ⟨fun hCritical => ?_, hEq⟩
    rw [(isCritical_iff_critical hf.mirrored).mpr hCritical] at hNot
    cases hNot
  have hMid := hGrown.lawful hf hArranged hEntry
  have hFresh : f.hasBlock s = false := hGrown.id_eq ▸ hf.not_hasBlock_next
  refine .inr ⟨s, _, hEq, hBridge.lawful hMid, (isCritical_iff_critical hf.mirrored).mp hCritical,
    hFresh, ?_, ?_, ?_, ?_⟩
  · exact hBridge.frame.layout_eq.trans hGrown.layout_eq
  · exact hBridge.code_led_new
  · intro x hxa hxb hxs
    rw [hBridge.code_led_of_ne hxa hxb hxs, hGrown.code_of_ne x hxs]
  · intro x c
    have hSuccs := fun x => hGrown.succs_eq hf.toArranged (c := c) x
    have hFrom := not_mem_succs_of_not_hasBlock hFresh c
    rw [hBridge.mem_succs_led hMid.toSequenced, hSuccs, hSuccs]
    grind

namespace Divides

variable (hd : Divides f a b s g)
include hd

theorem mem_succs_new : c ∈ g.succs s ↔ c = b := by
  have hFrom := not_mem_succs_of_not_hasBlock hd.fresh
  have hsa : s ≠ a := fun hEq => hFrom b (hEq ▸ hd.critical.1)
  simp [hd.mem_succs, hFrom, hsa]

variable (hf : f.Mirrored)
include hf

theorem led_new_iff : s ∈ g.succs x ↔ x = a := by
  have hTo := hf.not_mem_succs_of_not_hasBlock hd.fresh
  have hsb : s ≠ b := fun hEq => hTo a (hEq ▸ hd.critical.1)
  simp [hd.mem_succs, hTo, hsb]

/-- The new block takes the place of the end of the edge, so as many edges leave its start. -/
theorem leaves_iff (edge : y ∈ f.succs x) (hNot : ¬ (x = a ∧ y = b)) :
    (∃ c ∈ g.succs x, c ≠ y) ↔ ∃ c ∈ f.succs x, c ≠ y := by
  by_cases hx : x = a
  · subst hx
    have hys : s ≠ y := fun hEq => hf.not_mem_succs_of_not_hasBlock hd.fresh x (hEq ▸ edge)
    exact iff_of_true ⟨s, (hd.led_new_iff hf).mpr rfl, hys⟩
      ⟨b, hd.critical.1, fun hEq => hNot ⟨rfl, hEq.symm⟩⟩
  · have hxs : x ≠ s := fun hEq => not_mem_succs_of_not_hasBlock hd.fresh y (hEq ▸ edge)
    simp [hd.mem_succs, hx, hxs]

/-- The new block takes the place of the start of the edge, so as many edges arrive at its end. -/
theorem arrives_iff (edge : y ∈ f.succs x) (hNot : ¬ (x = a ∧ y = b)) :
    (∃ q, y ∈ g.succs q ∧ q ≠ x) ↔ ∃ q, y ∈ f.succs q ∧ q ≠ x := by
  by_cases hy : y = b
  · subst hy
    have hxs : s ≠ x := fun hEq => not_mem_succs_of_not_hasBlock hd.fresh y (hEq ▸ edge)
    exact iff_of_true ⟨s, hd.mem_succs_new.mpr rfl, hxs⟩
      ⟨a, hd.critical.1, fun hEq => hNot ⟨hEq.symm, rfl⟩⟩
  · have hys : y ≠ s := fun hEq => hf.not_mem_succs_of_not_hasBlock hd.fresh x (hEq ▸ edge)
    simp [hd.mem_succs, hy, hys]

/-- A split neither makes nor hides another critical edge. -/
theorem critical_iff : g.Critical x y ↔ f.Critical x y ∧ ¬ (x = a ∧ y = b) := by
  constructor
  · rintro ⟨edge, hOut, hIn⟩
    rcases (hd.mem_succs x y).mp edge with ⟨rfl, rfl⟩ | ⟨rfl, rfl⟩ | ⟨edge, hNot⟩
    · obtain ⟨c, hc, hne⟩ := hOut
      exact absurd (hd.mem_succs_new.mp hc) hne
    · obtain ⟨q, hq, hne⟩ := hIn
      exact absurd ((hd.led_new_iff hf).mp hq) hne
    · refine ⟨⟨edge, ?_, ?_⟩, hNot⟩
      · exact (hd.leaves_iff hf edge hNot).mp hOut
      · exact (hd.arrives_iff hf edge hNot).mp hIn
  · rintro ⟨⟨edge, hOut, hIn⟩, hNot⟩
    refine ⟨(hd.mem_succs x y).mpr (.inr (.inr ⟨edge, hNot⟩)), ?_, ?_⟩
    · exact (hd.leaves_iff hf edge hNot).mpr hOut
    · exact (hd.arrives_iff hf edge hNot).mpr hIn

theorem spans_new (hg : g.Mirrored) : g.Spans ⟨s, a, b⟩ := by
  refine ⟨hd.jumps, SortedSet.ext fun x => ?_, SortedSet.ext fun c => ?_⟩
  · rw [← hg x s, hd.led_new_iff hf, SortedSet.mem_singleton]
  · rw [hd.mem_succs_new, SortedSet.mem_singleton]

/-- A passage stays as it is: the start of a critical edge leads to two blocks and its end is led to by
two, so neither is the block of a passage. -/
theorem spans (hg : g.Mirrored) (hp : f.Spans p) : g.Spans p := by
  have hSuccs : ∀ c, c ∈ f.succs p.block ↔ c = p.target := fun c => by
    rw [hp.succs_eq, SortedSet.mem_singleton]
  have hPreds : ∀ x, p.block ∈ f.succs x ↔ x = p.source := fun x => by
    rw [hf x p.block, hp.preds_eq, SortedSet.mem_singleton]
  obtain ⟨edge, ⟨c, hc, hcb⟩, ⟨q, hq, hqa⟩⟩ := hd.critical
  have hpa : p.block ≠ a := by
    intro hEq
    rw [← hEq, hSuccs] at edge hc
    exact hcb (hc.trans edge.symm)
  have hpb : p.block ≠ b := by
    intro hEq
    rw [← hEq, hPreds] at edge hq
    exact hqa (hq.trans edge.symm)
  have hps : p.block ≠ s := by
    intro hEq
    exact not_mem_succs_of_not_hasBlock hd.fresh p.target (hEq ▸ (hSuccs _).mpr rfl)
  refine ⟨hd.code_eq p.block hpa hpb hps ▸ hp.jumps, SortedSet.ext fun x => ?_,
    SortedSet.ext fun c => ?_⟩
  · rw [← hg x p.block, hd.mem_succs, hPreds, SortedSet.mem_singleton]
    grind
  · rw [hd.mem_succs, hSuccs, SortedSet.mem_singleton]
    grind

end Divides

/-! ## What has been split -/

/-- Critical edges have been led through new blocks, each through one of its own. -/
structure Splitting (f : Func) (new : List Passage) (g : Func) : Prop where
  lawful : g.Lawful
  layout_eq : g.layout = f.layout ++ new.map Passage.block
  nodup : (new.map Passage.edge).Nodup
  spans : ∀ p ∈ new, g.Spans p
  critical : ∀ a b, (a, b) ∈ new.map Passage.edge → f.Critical a b
  critical_iff : ∀ a b, g.Critical a b ↔ f.Critical a b ∧ (a, b) ∉ new.map Passage.edge
  mem_succs : ∀ a b, f.hasBlock a = true → f.hasBlock b = true →
    (b ∈ g.succs a ↔ b ∈ f.succs a ∧ (a, b) ∉ new.map Passage.edge)

namespace Splitting

theorem refl (hf : f.Lawful) : Splitting f [] f := by
  refine ⟨hf, by simp, .nil, ?_, ?_, ?_, ?_⟩ <;> simp

theorem hasBlock (hf : f.Arranged) (hg : Splitting f new g) (hx : f.hasBlock x = true) :
    g.hasBlock x = true := by
  rw [← hg.lawful.mem_layout, hg.layout_eq]
  exact List.mem_append_left _ ((hf.mem_layout x).mpr hx)

theorem divide (hf : f.Arranged) (hg : Splitting f new g) (hd : Divides g a b s h) (hh : h.Lawful) :
    Splitting f (new ++ [⟨s, a, b⟩]) h := by
  have hCritical := (hg.critical_iff a b).mp hd.critical
  have hEdges : ∀ x y, (x, y) ∈ (new ++ [Passage.mk s a b]).map Passage.edge ↔
      (x, y) ∈ new.map Passage.edge ∨ (x = a ∧ y = b) := fun x y => by simp [Passage.edge]
  refine ⟨hh, ?_, ?_, ?_, ?_, ?_, ?_⟩
  · rw [hd.layout_eq, hg.layout_eq, List.map_append, List.append_assoc]
    rfl
  · rw [List.map_append, List.nodup_append]
    refine ⟨hg.nodup, List.nodup_singleton _, ?_⟩
    rintro e he e' he' rfl
    rw [List.mem_singleton.mp he'] at he
    exact hCritical.2 he
  · intro p hp
    rcases List.mem_append.mp hp with hp | hp
    · exact hd.spans hg.lawful.mirrored hh.mirrored (hg.spans p hp)
    · rw [List.mem_singleton.mp hp]
      exact hd.spans_new hg.lawful.mirrored hh.mirrored
  · intro x y hEdge
    rcases (hEdges x y).mp hEdge with hEdge | ⟨rfl, rfl⟩
    · exact hg.critical x y hEdge
    · exact hCritical.1
  · intro x y
    rw [hd.critical_iff hg.lawful.mirrored, hg.critical_iff, hEdges, not_or, and_assoc]
  · intro x y hx hy
    have hOld : ∀ z, f.hasBlock z = true → z ≠ s := by
      rintro z hz rfl
      exact absurd (hg.hasBlock hf hz) (by simp [hd.fresh])
    have hxs := hOld x hx
    have hys := hOld y hy
    rw [hd.mem_succs, hg.mem_succs x y hx hy, hEdges]
    grind

end Splitting

/-! ## The loops -/

/-- A loop takes one item after another off those that are left. -/
theorem foldl_left {α σ : Type} {step : σ → α → σ} {P : List α → σ → Prop}
    (hStep : ∀ x left t, P (x :: left) t → P left (step t x)) {l : List α} {t : σ} (h : P l t) :
    P [] (l.foldl step t) := by
  induction l generalizing t with
  | nil => exact h
  | cons x l ih => exact ih (hStep x l t h)

/-- Some number of critical edges has been split, and those that are left are pending. -/
def Splits (f : Func) (pending : BlockId → BlockId → Prop) (n : Nat) (g : Func) : Prop :=
  ∃ new, new.length = n ∧ Splitting f new g ∧ ∀ a b, g.Critical a b → pending a b

namespace Splits

theorem imp (h : Splits f pending n g) (hImp : ∀ a b, g.Critical a b → pending a b → pending' a b) :
    Splits f pending' n g := by
  obtain ⟨new, hLength, hSplit, hPending⟩ := h
  exact ⟨new, hLength, hSplit, fun a b hCritical => hImp a b hCritical (hPending a b hCritical)⟩

theorem splitEdge (hf : f.Arranged) (h : Splits f pending n g) (a b : BlockId) :
    (g.splitEdge a b = (none, g) ∧ Splits f (fun x y => pending x y ∧ ¬ (x = a ∧ y = b)) n g) ∨
      ∃ s k, g.splitEdge a b = (some s, k) ∧
        Splits f (fun x y => pending x y ∧ ¬ (x = a ∧ y = b)) (n + 1) k := by
  obtain ⟨new, hLength, hSplit, hPending⟩ := h
  rcases hSplit.lawful.splitEdge a b with ⟨hNot, hEq⟩ | ⟨s, k, hEq, hk, hd⟩
  · refine .inl ⟨hEq, new, hLength, hSplit, fun x y hCritical => ⟨hPending x y hCritical, ?_⟩⟩
    rintro ⟨rfl, rfl⟩
    exact hNot hCritical
  · refine .inr ⟨s, k, hEq, new ++ [⟨s, a, b⟩], by simp [hLength], Splitting.divide hf hSplit hd hk, ?_⟩
    intro x y hCritical
    obtain ⟨hOld, hne⟩ := (hd.critical_iff hSplit.lawful.mirrored).mp hCritical
    exact ⟨hPending x y hOld, hne⟩

/-- An edge that has had its turn is not pending any more. -/
theorem take {left : List BlockId}
    (h : Splits f (fun x y => (pending x y ∧ (x = a → y ∈ b :: left)) ∧ ¬ (x = a ∧ y = b)) n g) :
    Splits f (fun x y => pending x y ∧ (x = a → y ∈ left)) n g := by
  refine h.imp fun x y _ hxy => ⟨hxy.1.1, fun hx => ?_⟩
  exact (List.mem_cons.mp (hxy.1.2 hx)).resolve_left fun hy => hxy.2 ⟨hx, hy⟩

/-- When a block has had its turn, no critical edge leaves it any more. -/
theorem splitFrom (hf : f.Arranged) (h : Splits f pending n g) (a : BlockId) :
    Splits f (fun x y => pending x y ∧ x ≠ a) (n + (g.splitFrom a).1) (g.splitFrom a).2 := by
  refine (foldl_left (P := fun left (t : Nat × Func) =>
    Splits f (fun x y => pending x y ∧ (x = a → y ∈ left)) (n + t.1) t.2) ?_ ?_).imp ?_
  · rintro b left ⟨m, k⟩ hLeft
    rcases hLeft.splitEdge hf a b with ⟨hEq, hSplit⟩ | ⟨s, k', hEq, hSplit⟩
    · simpa [hEq] using hSplit.take
    · simpa [hEq, Nat.add_assoc] using hSplit.take
  · refine h.imp fun x y hCritical hxy => ⟨hxy, ?_⟩
    rintro rfl
    obtain ⟨new, -, hSplit, -⟩ := h
    exact List.mem_filter.mpr ⟨hCritical.1,
      (isCritical_iff_critical hSplit.lawful.mirrored).mpr hCritical⟩
  · exact fun x y _ hxy => ⟨hxy.1, fun hx => List.not_mem_nil (hxy.2 hx)⟩

theorem splitAll (hf : f.Lawful) : Splits f (fun _ _ => False) f.splitAll.1 f.splitAll.2 := by
  refine (foldl_left (P := fun left (t : Nat × Func) =>
    Splits f (fun x _ => x ∈ left) t.1 t.2) ?_ ?_).imp ?_
  · intro a left t hLeft
    refine (hLeft.splitFrom hf.toArranged a).imp fun x y _ hx => ?_
    exact (List.mem_cons.mp hx.1).resolve_left hx.2
  · refine ⟨[], rfl, .refl hf, fun a b hCritical => ?_⟩
    exact (hf.mem_layout a).mpr (hasBlock_of_mem_succs hCritical.1)
  · exact fun x _ _ hx => List.not_mem_nil hx

end Splits

/-- Where no edge is critical, there is nothing to split. -/
theorem splitAll_of_not_critical (hm : f.Mirrored) (hNone : ∀ a b, ¬ f.Critical a b) :
    f.splitAll = (0, f) := by
  have hFrom : ∀ a, f.splitFrom a = (0, f) := by
    intro a
    have hTargets : f.criticalTargets a = [] := by
      refine List.filter_eq_nil_iff.mpr fun b _ hCritical => ?_
      exact hNone a b ((isCritical_iff_critical hm).mp hCritical)
    rw [Func.splitFrom, hTargets]
    rfl
  exact List.foldl_fixed' (fun a => by simp [hFrom]) _

/-- **Splitting removes all critical edges, each exactly once.** In a consistent and valid function
whose operands name no terminators, the number that is given is that of the critical edges, and no
edge is critical afterwards. The layout is continued by as many new blocks; each of them holds nothing
but a jump and lies on a critical edge, and on every critical edge lies one. The edges between the old
blocks are the old ones that were not critical, and nothing is left to split. -/
theorem splitAll_exact (f : Func) (hConsistent : f.Consistent) (hValid : f.isValid = true)
    (hOperands : ∀ i ∈ f.insts, ∀ v ∈ i.op.operands, f.IsValue v) :
    let g := f.splitAll.2
    f.splitAll.1 = {e : BlockId × BlockId | f.Critical e.1 e.2}.ncard ∧
      (∀ a b, ¬ g.Critical a b) ∧
      (∃ new : List Passage, new.length = f.splitAll.1 ∧
        g.layout = f.layout ++ new.map Passage.block ∧ (new.map Passage.block).Nodup ∧
        (∀ p ∈ new, f.hasBlock p.block = false ∧ g.Spans p) ∧
        (new.map Passage.edge).Nodup ∧ ∀ a b, (a, b) ∈ new.map Passage.edge ↔ f.Critical a b) ∧
      (∀ a b, f.hasBlock a = true → f.hasBlock b = true →
        (b ∈ g.succs a ↔ b ∈ f.succs a ∧ ¬ f.Critical a b)) ∧
      g.splitAll = (0, g) := by
  intro g
  have hf : f.Lawful := ((isValid_iff_wellFormed hConsistent.mem_layout hConsistent.id_eq).mp
    hValid).lawful hConsistent hOperands
  obtain ⟨new, hLength, hSplit, hNone⟩ := Splits.splitAll hf
  have hEdges : ∀ a b, (a, b) ∈ new.map Passage.edge ↔ f.Critical a b := by
    refine fun a b => ⟨hSplit.critical a b, fun hCritical => ?_⟩
    by_contra hEdge
    exact hNone a b ((hSplit.critical_iff a b).mpr ⟨hCritical, hEdge⟩)
  have hNodup := hSplit.lawful.layout_nodup
  rw [hSplit.layout_eq, List.nodup_append] at hNodup
  refine ⟨?_, hNone, ⟨new, hLength, hSplit.layout_eq, hNodup.2.1, ?_, hSplit.nodup, hEdges⟩, ?_,
    splitAll_of_not_critical hSplit.lawful.mirrored hNone⟩
  · have hSet : {e : BlockId × BlockId | f.Critical e.1 e.2} = ↑(new.map Passage.edge).toFinset := by
      ext e
      simp only [List.coe_toFinset, Set.mem_ofPred_eq, ← hEdges]
    rw [hSet, Set.ncard_coe_finset, List.toFinset_card_of_nodup hSplit.nodup, List.length_map,
      hLength]
  · intro p hp
    refine ⟨Bool.eq_false_iff.mpr fun hHas => ?_, hSplit.spans p hp⟩
    exact hNodup.2.2 _ ((hf.mem_layout p.block).mpr hHas) _ (List.mem_map_of_mem hp) rfl
  · intro a b ha hb
    rw [hSplit.mem_succs a b ha hb, hEdges]

/-- All edges but the last are critical, one of them leads from a block to itself, and two blocks
branch between the same two. The label for the block on the first edge is taken. -/
def knotted : Func :=
  [.createBlock "entry", .createBlock "loop", .createBlock "join", .createBlock "entry.loop.split",
    .append ⟨0⟩ .bool (.const (.bool true)), .append ⟨0⟩ (.scalar .i32) (.const (.int 1)),
    .append ⟨0⟩ (.scalar .i32) (.const (.int 2)), .append ⟨0⟩ .void (.branch ⟨0⟩ ⟨1⟩ ⟨2⟩),
    .append ⟨1⟩ (.scalar .i32) (.phi [⟨⟨0⟩, ⟨1⟩⟩]), .append ⟨1⟩ (.scalar .i32) (.binary .add ⟨4⟩ ⟨1⟩),
    .append ⟨1⟩ .void (.branch ⟨0⟩ ⟨1⟩ ⟨2⟩), .append ⟨2⟩ (.scalar .i32) (.phi [⟨⟨0⟩, ⟨2⟩⟩, ⟨⟨1⟩, ⟨5⟩⟩]),
    .append ⟨2⟩ .void (.branch ⟨0⟩ ⟨1⟩ ⟨3⟩), .addIncoming ⟨4⟩ ⟨1⟩ ⟨5⟩, .addIncoming ⟨4⟩ ⟨2⟩ ⟨7⟩,
    .append ⟨3⟩ .void (.ret (some ⟨7⟩))].foldl build (.empty "knotted" (.scalar .i32))

theorem knotted_splitAll :
    knotted.Consistent ∧ knotted.isValid = true ∧
      (∀ i ∈ knotted.insts, ∀ v ∈ i.op.operands, knotted.IsValue v) ∧
      knotted.splitAll.1 = 5 ∧ knotted.splitAll.2.label? ⟨4⟩ = some "entry.loop.split.1" ∧
      let g := knotted.splitAll.2
      knotted.splitAll.1 = {e : BlockId × BlockId | knotted.Critical e.1 e.2}.ncard ∧
        (∀ a b, ¬ g.Critical a b) ∧
        (∃ new : List Passage, new.length = knotted.splitAll.1 ∧
          g.layout = knotted.layout ++ new.map Passage.block ∧ (new.map Passage.block).Nodup ∧
          (∀ p ∈ new, knotted.hasBlock p.block = false ∧ g.Spans p) ∧
          (new.map Passage.edge).Nodup ∧
          ∀ a b, (a, b) ∈ new.map Passage.edge ↔ knotted.Critical a b) ∧
        (∀ a b, knotted.hasBlock a = true → knotted.hasBlock b = true →
          (b ∈ g.succs a ↔ b ∈ knotted.succs a ∧ ¬ knotted.Critical a b)) ∧
        g.splitAll = (0, g) := by
  have hConsistent : knotted.Consistent := by decide +kernel
  have hValid : knotted.isValid = true := by decide +kernel
  have hOperands : ∀ i ∈ knotted.insts, ∀ v ∈ i.op.operands, knotted.IsValue v := by decide +kernel
  exact ⟨hConsistent, hValid, hOperands, by decide +kernel, by decide +kernel,
    splitAll_exact knotted hConsistent hValid hOperands⟩

end Func

end Midend
