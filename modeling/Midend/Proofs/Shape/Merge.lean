import Midend.Proofs.Flow.Bypass
import Midend.Proofs.Func.Lawful
import Midend.Proofs.Func.Replacement
import Midend.Shape.Merge

/-!
# Merging blocks keeps a function lawful and strict

Two blocks merge only if the one edge between them is the only one at either end and nothing leads
back from the second to the first (`Adjoins`). The merged block takes the name of the first; what
was computed in the second is computed there now (`Fused.guards`, `Fused.computes`).
-/

namespace Midend

namespace Func

variable {f g : Func} {a b c d e x y : BlockId} {i : Inst} {v : ValueId} {front : List Inst}

/-! ## When blocks merge -/

/-- The second block follows the first and no other, and does not lead back. -/
structure Adjoins (f : Func) (a b : BlockId) (front : List Inst) : Prop where
  ne : a ≠ b
  entry_ne : f.entry ≠ some b
  mem_succs_first : ∀ c, c ∈ f.succs a ↔ c = b
  mem_succs_second : ∀ c, b ∈ f.succs c ↔ c = a
  no_return : ¬ a ∈ f.succs b
  code_first : ∃ old, f.code a = front ++ [old] ∧ old.isTerminator = true
  no_phi : ∀ i ∈ f.code b, i.isPhi = false

/-- A block that leads somewhere ends with a terminator. -/
theorem Sequenced.last_of_mem_succs (hf : f.Sequenced) (edge : c ∈ f.succs a) :
    ∃ front old, f.code a = front ++ [old] ∧ old.isTerminator = true := by
  obtain ⟨old, hOld, hc⟩ := (hf.mem_succs a c).mp edge
  have hTerm := isTerminator_of_mem_targets hc
  obtain ⟨front, back, hCode⟩ := List.append_of_mem hOld
  obtain rfl := hf.terminator_last hCode hTerm
  exact ⟨front, old, hCode, hTerm⟩

theorem body_of_code {blk : Block} {old : Inst} (hBlk : f.block? a = some blk)
    (hCode : f.code a = front ++ [old]) (hOld : old.isTerminator = true) : blk.body = front := by
  have hInsts : blk.insts = front ++ [old] := (code_of_block? hBlk).symm.trans hCode
  have hHas : blk.hasTerminator = true := by
    rw [Block.hasTerminator, Block.terminator?, hInsts, List.getLast?_concat]
    simp [hOld]
  rw [Block.body, if_pos hHas, hInsts, List.dropLast_concat]

/-- What is checked of two blocks before they merge, and the block that they merge to. -/
theorem merged?_inversion {blk : Block} (h : f.merged? a b = some blk) :
    ∃ blkA blkB, f.block? a = some blkA ∧ f.block? b = some blkB ∧ a ≠ b ∧ f.entry ≠ some b ∧
      blkA.succs = .singleton b ∧ blkB.preds = .singleton a ∧
      (∀ i ∈ blkB.insts, i.isPhi = false) ∧ (∀ i ∈ blkA.body, i.isTerminator = false) ∧
      (∀ i ∈ blkB.insts, a ∉ i.op.blockRefs) ∧
      blk = ⟨a, blkA.label, blkA.body ++ blkB.insts, blkA.preds, blkB.succs⟩ := by
  rw [merged?] at h
  split at h
  swap
  · cases h
  rename_i hCond
  rw [Bool.and_eq_true] at hCond
  obtain ⟨hMergeable, hSafe⟩ := hCond
  split at h
  swap
  · cases h
  rename_i blkA blkB hA hB
  simp only [isMergeable, hA, hB, decide_eq_true_iff] at hMergeable
  obtain ⟨hne, hEntry, hSuccs, hPreds⟩ := hMergeable
  simp only [isSafeToMerge, hA, hB, Bool.and_eq_true, Bool.not_eq_true', Block.hasPhi,
    Block.mentions, List.any_eq_false, Bool.not_eq_true, decide_eq_false_iff_not] at hSafe
  obtain ⟨⟨⟨⟨⟨hPhi, hBody⟩, -⟩, hMentions⟩, -⟩, -⟩ := hSafe
  exact ⟨blkA, blkB, hA, hB, hne, hEntry, hSuccs, hPreds, hPhi, hBody, hMentions,
    (Option.some.inj h).symm⟩

/-- The only edge from the first block leads to the second, and is the only edge there. -/
structure SoleEdge (f : Func) (x y : BlockId) : Prop where
  mem_succs_iff : ∀ z, z ∈ f.succs x ↔ z = y
  mem_preds_iff : ∀ z, y ∈ f.succs z ↔ z = x

theorem SoleEdge.edge (h : f.SoleEdge x y) : y ∈ f.succs x := (h.mem_succs_iff y).mpr rfl

theorem Mirrored.soleEdge (hf : f.Mirrored) {blkA blkB : Block} (hA : f.block? a = some blkA)
    (hB : f.block? b = some blkB) (hSuccs : blkA.succs = .singleton b)
    (hPreds : blkB.preds = .singleton a) : f.SoleEdge a b where
  mem_succs_iff z := by
    rw [succs, hA]
    change z ∈ blkA.succs ↔ z = b
    rw [hSuccs, SortedSet.mem_singleton]
  mem_preds_iff z := by
    rw [hf z b, preds, hB]
    change z ∈ blkB.preds ↔ z = a
    rw [hPreds, SortedSet.mem_singleton]

theorem merged?_eq_some (hf : f.Sequenced) (hm : f.Mirrored) {blk : Block}
    (h : f.merged? a b = some blk) :
    ∃ front, f.Adjoins a b front ∧ blk.id = a ∧ some blk.label = f.label? a ∧
      blk.insts = front ++ f.code b ∧ blk.preds = f.preds a ∧ blk.succs = f.succs b := by
  obtain ⟨blkA, blkB, hA, hB, hne, hEntry, hSuccs, hPreds, hPhi, -, hMentions, rfl⟩ :=
    merged?_inversion h
  have hSole := hm.soleEdge hA hB hSuccs hPreds
  obtain ⟨front, old, hCode, hOld⟩ := hf.last_of_mem_succs hSole.edge
  have hCodeB := code_of_block? hB
  refine ⟨front, ⟨hne, hEntry, hSole.mem_succs_iff, hSole.mem_preds_iff, ?_, ⟨old, hCode, hOld⟩, ?_⟩,
    rfl, ?_, ?_, ?_, ?_⟩
  · intro edge
    obtain ⟨i, hi, ha⟩ := (hf.mem_succs b a).mp edge
    apply hMentions i (hCodeB ▸ hi)
    rwa [blockRefs_of_isTerminator (isTerminator_of_mem_targets ha)]
  · exact hCodeB ▸ hPhi
  · rw [label?, hA]
    rfl
  · rw [body_of_code hA hCode hOld, hCodeB]
  · rw [preds, hA]
    rfl
  · rw [succs, hB]
    rfl

/-! ## The merged function -/

/-- The second block has been added to the first, and phis have been told. -/
structure Fused (f : Func) (a b : BlockId) (front : List Inst) (g : Func) : Prop where
  name_eq : g.name = f.name
  layout_nodup : g.layout.Nodup
  mem_layout : ∀ x, x ∈ g.layout ↔ x ≠ b ∧ x ∈ f.layout
  entry_eq : g.entry = f.entry
  ids_eq : g.ids = f.ids
  hasBlock_iff : ∀ x, g.hasBlock x = true ↔ x ≠ b ∧ f.hasBlock x = true
  label?_eq : ∀ x, x ≠ b → g.label? x = f.label? x
  code_first : g.code a = front ++ f.code b
  code_of_ne : ∀ x, x ≠ a → x ≠ b → g.code x = (f.code x).map (·.moveIncoming b a)
  mem_succs : ∀ x c, c ∈ g.succs x ↔
    (x = a ∧ c ∈ f.succs b) ∨ (x ≠ a ∧ x ≠ b ∧ c ∈ f.succs x)
  named : g.Named
  mirrored : g.Mirrored

/-- Telling the phis of some blocks that control comes another way. -/
theorem foldl_retargetIncoming (old new : BlockId) {l : List BlockId} (hl : l.Nodup) (f : Func) :
    SameFrame f (l.foldl (fun g s => (g.retargetIncoming s old new).2) f) ∧
      (l.foldl (fun g s => (g.retargetIncoming s old new).2) f).ids = f.ids ∧
      (∀ x, (l.foldl (fun g s => (g.retargetIncoming s old new).2) f).succs x = f.succs x) ∧
      ∀ x, (l.foldl (fun g s => (g.retargetIncoming s old new).2) f).code x =
        if x ∈ l then (f.code x).map (·.moveIncoming old new) else f.code x := by
  induction l generalizing f with
  | nil => exact ⟨.refl f, rfl, fun _ => rfl, fun _ => by simp⟩
  | cons s l ih =>
    obtain ⟨hNot, hl⟩ := List.nodup_cons.mp hl
    rw [List.foldl_cons, retargetIncoming_eq]
    obtain ⟨hFrame, hIds, hSuccs, hCode⟩ :=
      ih hl (f.rewrite s (·.map (·.moveIncoming old new)))
    refine ⟨(SameFrame.rewrite ..).trans hFrame, hIds, ?_, ?_⟩
    · intro x
      rw [hSuccs, succs_rewrite]
    · intro x
      rw [hCode, code_rewrite_map]
      by_cases hx : x = s
      · simp [hx, hNot]
      · simp [hx]

section Substitute

variable {blk : Block} (hId : blk.id = a) (hf : f.Arranged) (ha : f.hasBlock a = true)
include hId hf ha

theorem mem_layout_substitute_iff (hne : a ≠ b) :
    x ∈ (f.substitute [a, b] blk).layout ↔ x ≠ b ∧ x ∈ f.layout := by
  rw [mem_layout_substitute, hId]
  have hMem := hf.mem_layout a
  grind

theorem entry_substitute_eq (hEntry : f.entry ≠ some b) :
    (f.substitute [a, b] blk).entry = f.entry := by
  obtain ⟨e, he⟩ := hf.exists_entry ha
  have heb : e ≠ b := fun hEq => hEntry (hEq ▸ he)
  rw [entry_substitute he, he, hId]
  by_cases hea : e = a <;> simp [hea, heb]

omit ha in
/-- The edges of a block that takes the place of two, if the only edge from the first leads to the
second and is the only one there. An edge back becomes an edge from the new block to itself. -/
theorem mem_succs_substitute_iff (hFirst : ∀ c, c ∈ f.succs a ↔ c = b)
    (hSecond : ∀ c, b ∈ f.succs c ↔ c = a) (hPreds : blk.preds = f.preds a)
    (hSuccs : blk.succs = f.succs b) :
    c ∈ (f.substitute [a, b] blk).succs x ↔
      (x = a ∧ c ∈ f.succs b) ∨ (x ≠ a ∧ x ≠ b ∧ c ∈ f.succs x) := by
  have hNew : (f.without [a, b]).hasBlock blk.id = false :=
    not_hasBlock_without fun _ => hId ▸ List.mem_cons_self
  rw [succs_substitute, mem_succs_install hNew, mem_succs_without hf.mirrored, hPreds, hSuccs,
    ← hf.mirrored x a, hasBlock_without, hasBlock_without, hId]
  have hHas := fun hc : c ∈ f.succs b => hf.mirrored.hasBlock_target hc
  have hHas' := fun hc : a ∈ f.succs x => hasBlock_of_mem_succs hc
  grind

end Substitute

/-- Putting the merged block in place of the two, and then telling the phis of its successors. -/
theorem Adjoins.fused (h : f.Adjoins a b front) (hf : f.Arranged) (hw : f.Wired) {blk : Block}
    (hId : blk.id = a) (hLabel : some blk.label = f.label? a) (hInsts : blk.insts = front ++ f.code b)
    (hPreds : blk.preds = f.preds a) (hSuccs : blk.succs = f.succs b) :
    Fused f a b front ((f.succs b).toList.foldl (fun g s => (g.retargetIncoming s b a).2)
      (f.substitute [a, b] blk)) := by
  obtain ⟨hFrame, hIds, hSuccs', hCode⟩ := foldl_retargetIncoming b a
    (f.succs b).nodup_toList (f.substitute [a, b] blk)
  have ha : f.hasBlock a = true := hasBlock_of_mem_succs ((h.mem_succs_first b).mpr rfl)
  refine {
    name_eq := ?_
    layout_nodup := ?_
    mem_layout := ?_
    entry_eq := ?_
    ids_eq := ?_
    hasBlock_iff := ?_
    label?_eq := ?_
    code_first := ?_
    code_of_ne := ?_
    mem_succs := ?_
    named := hFrame.named hf.named.substitute
    mirrored := hFrame.mirrored (hf.mirrored.substitute fun _ => hId ▸ List.mem_cons_self) }
  · rw [hFrame.name_eq]
    exact name_substitute f _ blk
  · rw [hFrame.layout_eq]
    exact layout_nodup_substitute hf.layout_nodup fun _ => hId ▸ List.mem_cons_self
  · intro x
    rw [hFrame.layout_eq, mem_layout_substitute_iff hId hf ha h.ne]
  · rw [hFrame.entry_eq, entry_substitute_eq hId hf ha h.entry_ne]
  · rw [hIds]
    exact ids_substitute f _ blk
  · intro x
    rw [hFrame.hasBlock_eq, hasBlock_substitute_iff hId h.ne ha]
  · intro x hx
    rw [hFrame.label?_eq, label?_substitute_eq hId hLabel hx]
  · have hNot : ¬ a ∈ (f.succs b).toList := h.no_return
    rw [hCode, if_neg hNot, code_substitute_self hId, hInsts]
  · intro x hxa hxb
    rw [hCode, code_substitute_of_ne hId hxa hxb]
    split
    · rfl
    · -- A phi of a block that the second does not lead to has no pair for the second.
      rename_i hNot
      conv => lhs; rw [← List.map_id (f.code x)]
      refine List.map_congr_left fun i hi => (Inst.moveIncoming_eq_self fun hPhi hb => ?_).symm
      exact hNot (((hw.pairs x i hi hPhi).2.2 b).mp hb)
  · intro x c
    rw [hSuccs', mem_succs_substitute_iff hId hf h.mem_succs_first h.mem_succs_second hPreds hSuccs]

/-! ## What the merged function keeps -/

/-- Where the instructions of a block are once the second block has been added to the first. -/
def seat (a b x : BlockId) : BlockId := if x = b then a else x

@[simp] theorem seat_second : seat a b b = a := if_pos rfl

theorem seat_of_ne (hx : x ≠ b) : seat a b x = x := if_neg hx

/-- No way leads to the first block through the second only. -/
theorem Adjoins.not_guards_first (hAdj : f.Adjoins a b front) (ha : f.Live a) : ¬ f.Guards b a := by
  intro hb
  have hGuards : f.Guards a b := by
    rw [guards_iff_not_bypasses]
    intro hBy
    obtain ⟨e, hEntry, path, w, hNot⟩ := hBy
    rcases w.snoc_cases with ⟨rfl, -⟩ | ⟨front, y, w', edge, rfl⟩
    · exact hAdj.entry_ne hEntry
    · obtain rfl := (hAdj.mem_succs_second y).mp edge
      exact hNot (List.mem_append_left _ w'.right_mem)
  exact hAdj.ne (hb.antisymm hGuards ha).symm

namespace Fused

theorem like_of_moved {j : Inst} (h : i = j ∨ i = j.moveIncoming b a) : i.Like j := by
  rcases h with rfl | rfl
  · exact .refl i
  · exact Inst.like_moveIncoming b a j

theorem code_second (h : Fused f a b front g) : g.code b = [] := by
  refine code_of_not_hasBlock ?_
  by_contra hHas
  rw [Bool.not_eq_false, h.hasBlock_iff] at hHas
  exact hHas.1 rfl

section Code

variable (h : Fused f a b front g) (hAdj : f.Adjoins a b front)
include h hAdj

theorem origin (hi : i ∈ g.code x) :
    ∃ y, ∃ j ∈ f.code y, x = seat a b y ∧ (i = j ∨ i = j.moveIncoming b a) := by
  by_cases hxa : x = a
  · rw [hxa, h.code_first, List.mem_append] at hi
    obtain ⟨old, hCode, -⟩ := hAdj.code_first
    rcases hi with hi | hi
    · exact ⟨a, i, by rw [hCode]; exact List.mem_append_left _ hi,
        by rw [hxa, seat_of_ne hAdj.ne], .inl rfl⟩
    · exact ⟨b, i, hi, by rw [hxa, seat_second], .inl rfl⟩
  · have hxb : x ≠ b := ((h.hasBlock_iff x).mp (hasBlock_of_mem_code hi)).1
    rw [h.code_of_ne x hxa hxb, List.mem_map] at hi
    obtain ⟨j, hj, rfl⟩ := hi
    exact ⟨x, j, hj, (seat_of_ne hxb).symm, .inr rfl⟩

theorem image {j : Inst} (hj : j ∈ f.code y) (hTerm : j.isTerminator = false) :
    ∃ i ∈ g.code (seat a b y), i = j ∨ i = j.moveIncoming b a := by
  by_cases hyb : y = b
  · rw [hyb, seat_second, h.code_first]
    exact ⟨j, List.mem_append_right _ (hyb ▸ hj), .inl rfl⟩
  · rw [seat_of_ne hyb]
    by_cases hya : y = a
    · obtain ⟨old, hCode, hOld⟩ := hAdj.code_first
      rw [hya, hCode, List.mem_append, List.mem_singleton] at hj
      rcases hj with hj | rfl
      · rw [hya, h.code_first]
        exact ⟨j, List.mem_append_left _ hj, .inl rfl⟩
      · rw [hOld] at hTerm
        cases hTerm
    · rw [h.code_of_ne y hya hyb]
      exact ⟨_, List.mem_map_of_mem hj, .inr rfl⟩

theorem computes (hv : f.Computes y v) : g.Computes (seat a b y) v := by
  refine hv.of_like fun j hj hTerm _ => ?_
  obtain ⟨i, hi, hFrom⟩ := image h hAdj hj hTerm
  exact ⟨i, hi, like_of_moved hFrom⟩

theorem holds_iff {ty : Ty} {known : Bool} : f.Holds v ty known ↔ g.Holds v ty known := by
  constructor
  · refine fun hHeld => hHeld.of_like fun y j hj hTerm _ => ?_
    obtain ⟨i, hi, hFrom⟩ := image h hAdj hj hTerm
    exact ⟨_, i, hi, like_of_moved hFrom⟩
  · refine fun hHeld => hHeld.of_like fun x i hi _ _ => ?_
    obtain ⟨y, j, hj, -, hFrom⟩ := origin h hAdj hi
    exact ⟨y, j, hj, (like_of_moved hFrom).symm⟩

theorem framed (hf : f.Framed) : g.Framed := by
  refine hf.of_subset h.name_eq h.layout_nodup ?_ h.entry_eq (by rw [h.ids_eq]) ?_ ?_ h.named
    h.mirrored
  · intro x
    rw [h.mem_layout, h.hasBlock_iff, hf.mem_layout]
  · intro x hx
    obtain ⟨hne, hHas⟩ := (h.hasBlock_iff x).mp hx
    exact ⟨hHas, h.label?_eq x hne⟩
  · exact fun e he =>
      (h.hasBlock_iff e).mpr ⟨fun hEq => hAdj.entry_ne (hEq ▸ he), hf.entry_mem e he⟩

theorem sequenced (hf : f.Sequenced) : g.Sequenced where
  ordered x := by
    obtain ⟨old, hCode, -⟩ := hAdj.code_first
    by_cases hxa : x = a
    · have hFront := hf.ordered a
      rw [hCode, List.pairwise_append] at hFront
      rw [hxa, h.code_first, List.pairwise_append]
      refine ⟨hFront.1, hf.ordered b, fun i hi j hj => ⟨fun hPhi => ?_, ?_⟩⟩
      · rw [hAdj.no_phi j hj] at hPhi
        cases hPhi
      · exact hf.not_isTerminator_front hCode i hi
    · by_cases hxb : x = b
      · simp [hxb, h.code_second]
      · rw [h.code_of_ne x hxa hxb]
        exact Inst.pairwise_precedes_map (fun _ => Inst.isPhi_moveIncoming)
          (fun _ => Inst.isTerminator_moveIncoming) (hf.ordered x)
  mem_succs x c := by
    obtain ⟨old, hCode, -⟩ := hAdj.code_first
    rw [h.mem_succs, hf.mem_succs, hf.mem_succs]
    constructor
    · rintro (⟨rfl, i, hi, hc⟩ | ⟨hxa, hxb, i, hi, hc⟩)
      · exact ⟨i, by rw [h.code_first]; exact List.mem_append_right _ hi, hc⟩
      · exact ⟨_, by rw [h.code_of_ne x hxa hxb]; exact List.mem_map_of_mem hi, by simpa using hc⟩
    · rintro ⟨i, hi, hc⟩
      by_cases hxa : x = a
      · rw [hxa, h.code_first, List.mem_append] at hi
        rcases hi with hi | hi
        · have hTerm := isTerminator_of_mem_targets hc
          rw [hf.not_isTerminator_front hCode i hi] at hTerm
          cases hTerm
        · exact .inl ⟨hxa, i, hi, hc⟩
      · by_cases hxb : x = b
        · rw [hxb, h.code_second] at hi
          exact absurd hi List.not_mem_nil
        · rw [h.code_of_ne x hxa hxb, List.mem_map] at hi
          obtain ⟨j, hj, rfl⟩ := hi
          exact .inr ⟨hxa, hxb, j, hj, by simpa using hc⟩

theorem listed (hf : f.Listed) : g.Listed where
  toNumbered := by
    apply hf.toNumbered.of_origin (by rw [h.ids_eq]) (seat a b)
    · intro x i hi
      obtain ⟨y, j, hj, hx, hFrom⟩ := origin h hAdj hi
      exact ⟨y, j, hj, hx, (like_of_moved hFrom).id_eq⟩
    · intro x
      obtain ⟨old, hCode, -⟩ := hAdj.code_first
      by_cases hxa : x = a
      · rw [hxa, h.code_first]
        exact hf.nodup_append hAdj.ne (hCode ▸ List.sublist_append_left front [old])
      · by_cases hxb : x = b
        · simp [hxb, h.code_second]
        · simpa [h.code_of_ne x hxa hxb, Function.comp_def] using hf.nodup x
  toSequenced := sequenced h hAdj hf.toSequenced
  reads x i hi := by
    obtain ⟨y, j, hj, -, rfl | rfl⟩ := origin h hAdj hi
    · exact (hf.reads y i hj).congr fun v _ _ _ => holds_iff h hAdj
    · exact ((hf.reads y j hj).moveIncoming b a).congr fun v _ _ _ => holds_iff h hAdj

theorem wired (hf : f.Wired) : g.Wired := by
  obtain ⟨old, hCode, -⟩ := hAdj.code_first
  have hFirst := hAdj.mem_succs_first
  have hSecond := hAdj.mem_succs_second
  have hReturn := hAdj.no_return
  have hne := hAdj.ne
  refine ⟨sequenced h hAdj hf.toSequenced, fun x i hi => ?_⟩
  by_cases hxa : x = a
  · rw [hxa, h.code_first, List.mem_append] at hi
    rcases hi with hi | hi
    · have hi' : i ∈ f.code a := by
        rw [hCode]
        exact List.mem_append_left _ hi
      refine (hf.pairs a i hi').congr fun c => ?_
      rw [hxa, h.mem_succs]
      grind
    · intro hPhi
      rw [hAdj.no_phi i hi] at hPhi
      cases hPhi
  · by_cases hxb : x = b
    · rw [hxb, h.code_second] at hi
      exact absurd hi List.not_mem_nil
    · rw [h.code_of_ne x hxa hxb, List.mem_map] at hi
      obtain ⟨j, hj, rfl⟩ := hi
      refine (hf.pairs x j hj).moveIncoming (fun edge => hxb ((hFirst x).mp edge)) fun c => ?_
      rw [h.mem_succs]
      grind

theorem lawful (hf : f.Lawful) : g.Lawful := by
  refine ⟨framed h hAdj hf.toFramed, listed h hAdj hf.toListed, (wired h hAdj hf.toWired).pairs, ?_⟩
  intro e he c edge
  rw [h.entry_eq] at he
  rcases (h.mem_succs c e).mp edge with ⟨-, edge⟩ | ⟨-, -, edge⟩
  · exact hf.entry_first e he b edge
  · exact hf.entry_first e he c edge

/-! ## Ways through the merged function -/

theorem live (hb : g.Live x) : f.Live x := by
  refine hb.induct (P := f.Live) ?_ ?_
  · intro e he
    exact ⟨e, h.entry_eq ▸ he, .refl e⟩
  · intro y c _ hy edge
    rcases (h.mem_succs y c).mp edge with ⟨rfl, edge⟩ | ⟨-, -, edge⟩
    · exact (hy.step ((hAdj.mem_succs_first b).mpr rfl)).step edge
    · exact hy.step edge

/-- A way around the merged block is a way around both of its parts. -/
theorem guards (hd : f.Guards d x) : g.Guards (seat a b d) x := by
  rw [guards_iff_not_bypasses] at hd ⊢
  refine fun hBy => hd ?_
  by_cases hdb : d = b
  · rw [hdb, seat_second] at hBy
    rw [hdb]
    refine hBy.induct (P := f.Bypasses b) ?_ ?_
    · intro e he _
      exact .entry (h.entry_eq ▸ he) fun hEq => hAdj.entry_ne (h.entry_eq ▸ hEq ▸ he)
    · intro y c hyBy hy edge _
      rcases (h.mem_succs y c).mp edge with ⟨hya, -⟩ | ⟨hya, -, edge⟩
      · exact absurd hya hyBy.ne
      · exact hy.step edge fun hEq => hya ((hAdj.mem_succs_second y).mp (hEq ▸ edge))
  · rw [seat_of_ne hdb] at hBy
    refine hBy.induct (P := f.Bypasses d) ?_ ?_
    · intro e he hne
      exact .entry (h.entry_eq ▸ he) hne
    · intro y c _ hy edge hne
      rcases (h.mem_succs y c).mp edge with ⟨rfl, edge⟩ | ⟨-, -, edge⟩
      · exact (hy.step ((hAdj.mem_succs_first b).mpr rfl) (Ne.symm hdb)).step edge hne
      · exact hy.step edge hne

/-- What comes on every way to the end of a block still does. -/
theorem arrives (hv : f.Arrives x v) : g.Arrives x v := by
  obtain ⟨d, hd, hDef⟩ := hv
  exact ⟨_, guards h hAdj hd, computes h hAdj hDef⟩

/-- What comes on every way to the end of the second block comes on every way to the end of the
merged one. -/
theorem arrives_second (hv : f.Arrives b v) : g.Arrives a v := by
  obtain ⟨d, hd, hDef⟩ := hv
  by_cases hdb : d = b
  · exact ⟨a, .refl g a, seat_second (a := a) (b := b) ▸ computes h hAdj (hdb ▸ hDef)⟩
  · have hd' : f.Guards d a := hd.of_edge hdb ((hAdj.mem_succs_first b).mpr rfl)
    have hDef' := computes h hAdj hDef
    rw [seat_of_ne hdb] at hDef'
    exact ⟨d, seat_of_ne (a := a) hdb ▸ guards h hAdj hd', hDef'⟩

theorem operand_first (hf : f.Regular) (ha : g.Live a) {earlier later : List Inst}
    (hCode : g.code a = earlier ++ i :: later) (hPhi : i.isPhi = false) (hv : v ∈ i.op.operands) :
    g.Ready a earlier v := by
  have ha' := live h hAdj ha
  obtain ⟨old, hOld, hTerm⟩ := hAdj.code_first
  rw [h.code_first] at hCode
  rcases append_eq_append_cons hCode with ⟨l, hFront, -⟩ | ⟨l, rfl, hEq⟩
  · have hOld' : f.code a = earlier ++ i :: (l ++ [old]) := by simp [hOld, hFront]
    refine (hf.operand a ha' earlier i _ hOld' hPhi v hv).imp fun d hd hDef => ?_
    have hdb : d ≠ b := fun hEq => hAdj.not_guards_first ha' (hEq ▸ hd)
    have hd' := guards h hAdj hd
    have hDef' := computes h hAdj hDef
    rw [seat_of_ne hdb] at hd' hDef'
    exact ⟨hd', hDef'⟩
  · -- The instruction comes from the second block.
    have edge := (hAdj.mem_succs_first b).mpr rfl
    rcases hf.operand b (ha'.step edge) l i later hEq hPhi v hv with
      ⟨j, hj, hId⟩ | ⟨d, hdb, hd, hDef⟩
    · exact .inl ⟨j, List.mem_append_right _ hj, hId⟩
    · by_cases hda : d = a
      · obtain ⟨j, hj, hOpen, hId⟩ := hDef
        rw [hda, hOld, List.mem_append, List.mem_singleton] at hj
        rcases hj with hj | rfl
        · exact .inl ⟨j, List.mem_append_left _ hj, hId⟩
        · rw [hTerm] at hOpen
          cases hOpen
      · have hd' := guards h hAdj (hd.of_edge hdb edge)
        have hDef' := computes h hAdj hDef
        rw [seat_of_ne hdb] at hd' hDef'
        exact .inr ⟨d, hda, hd', hDef'⟩

theorem operand_other (hf : f.Regular) (hx : g.Live x) (hxa : x ≠ a) {earlier later : List Inst}
    (hCode : g.code x = earlier ++ i :: later) (hPhi : i.isPhi = false) (hv : v ∈ i.op.operands) :
    g.Ready x earlier v := by
  have hxb : x ≠ b := by
    rintro rfl
    rw [h.code_second] at hCode
    simp at hCode
  rw [h.code_of_ne x hxa hxb, List.map_eq_append_iff] at hCode
  obtain ⟨l, back, hEq, rfl, hBack⟩ := hCode
  obtain ⟨j, rest, rfl, rfl, rfl⟩ := List.map_eq_cons_iff.mp hBack
  rw [Inst.isPhi_moveIncoming] at hPhi
  rw [Inst.operands_moveIncoming] at hv
  rcases hf.operand x (live h hAdj hx) l j rest hEq hPhi v hv with ⟨k, hk, hId⟩ | ⟨d, hne, hd, hDef⟩
  · exact .inl ⟨_, List.mem_map_of_mem hk, by simpa using hId⟩
  · refine .inr ⟨seat a b d, ?_, guards h hAdj hd, computes h hAdj hDef⟩
    rw [seat]
    split
    · exact hxa.symm
    · exact hne

theorem regular (hf : f.Regular) : g.Regular := by
  refine ⟨lawful h hAdj hf.toLawful, ?_, ?_⟩
  · intro x hx earlier i later hCode hPhi v hv
    by_cases hxa : x = a
    · subst hxa
      exact operand_first h hAdj hf hx hCode hPhi hv
    · exact operand_other h hAdj hf hx hxa hCode hPhi hv
  · intro x hx i hi incoming hOp p hp hLive
    have hp' := live h hAdj hLive
    obtain ⟨y, j, hj, hSeat, hFrom⟩ := origin h hAdj hi
    have hy : f.Live y := by
      by_cases hyb : y = b
      · rw [hyb, seat_second] at hSeat
        rw [hyb]
        exact (live h hAdj (hSeat ▸ hx)).step ((hAdj.mem_succs_first b).mpr rfl)
      · rw [seat_of_ne hyb] at hSeat
        exact hSeat ▸ live h hAdj hx
    rcases hFrom with rfl | rfl
    · exact arrives h hAdj (hf.incoming y hy i hj incoming hOp p hp hp')
    · -- A renamed pair was the pair of the second block.
      rcases j with ⟨id, ty, known, op⟩
      cases op with
      | phi incoming' =>
        obtain rfl : incoming'.map _ = incoming := Op.phi.inj hOp
        obtain ⟨q, hq, rfl⟩ := List.mem_map.mp hp
        by_cases hqb : q.block = b
        · simp only [hqb, if_true] at hp' ⊢
          have hLiveB := hp'.step ((hAdj.mem_succs_first b).mpr rfl)
          exact arrives_second h hAdj
            (hqb ▸ hf.incoming y hy _ hj incoming' rfl q hq (hqb ▸ hLiveB))
        · simp only [hqb, if_false] at hp' ⊢
          exact arrives h hAdj (hf.incoming y hy _ hj incoming' rfl q hq hp')
      | _ => cases hOp

end Code

end Fused

/-- Two blocks merge, or nothing happens. -/
theorem mergeBlocks_cases (hf : f.Arranged) (hw : f.Wired) (a b : BlockId) :
    (f.mergeBlocks a b).2 = f ∨
      ∃ front, f.Adjoins a b front ∧ Fused f a b front (f.mergeBlocks a b).2 := by
  rw [Func.mergeBlocks]
  split
  · exact .inl rfl
  rename_i blk hMerged
  obtain ⟨front, hAdj, hId, hLabel, hInsts, hPreds, hSuccs⟩ :=
    merged?_eq_some hw.toSequenced hf.mirrored hMerged
  rw [applyMerge, replaceBlocks]
  cases f.refuseReplacement? [a, b] blk with
  | some _ => exact .inl rfl
  | none =>
    have hFused := hAdj.fused hf hw hId hLabel hInsts hPreds hSuccs
    rw [hId]
    exact .inr ⟨front, hAdj, hFused⟩

/-- What merging any two blocks keeps, merging all of them keeps. -/
theorem mergeAll_induct {P : Func → Prop} (hStep : ∀ g a b, P g → P (g.mergeBlocks a b).2)
    (hf : P f) : P f.mergeAll.2 := by
  rw [Func.mergeAll]
  generalize f.arena.size = fuel
  induction fuel generalizing f with
  | zero => exact hf
  | succ fuel ih =>
    rw [Func.mergeUpTo]
    split
    · exact hf
    rename_i a b _
    have hMerge := hStep f a b hf
    split
    · rename_i hEq
      rwa [hEq] at hMerge
    · rename_i hEq
      rw [hEq] at hMerge
      exact ih hMerge

theorem RegularFrom.mergeBlocks (hf : f.RegularFrom e) (a b : BlockId) :
    (f.mergeBlocks a b).2.RegularFrom e := by
  rcases mergeBlocks_cases hf.toArranged hf.toWired a b with hEq | ⟨front, hAdj, hFused⟩
  · rwa [hEq]
  · exact ⟨hFused.regular hAdj hf.toRegular, hFused.entry_eq.trans hf.entry_eq⟩

theorem RegularFrom.mergeAll (hf : f.RegularFrom e) : f.mergeAll.2.RegularFrom e :=
  mergeAll_induct (P := (RegularFrom · e)) (fun _ a b hg => hg.mergeBlocks a b) hf

end Func

end Midend
