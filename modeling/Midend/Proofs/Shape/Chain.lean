import Mathlib.Data.List.Chain
import Mathlib.Data.List.Perm.Basic
import Midend.Proofs.Shape.History

/-!
# Merging all blocks

Merging goes on until no two blocks can be merged. In the end every block stands for a chain of the
blocks that there were, each of which led to the next and nowhere else and was the only one to do
so. It holds their instructions one after the other; only the terminators inside the chain are gone
(`joined`), and the pairs of a phi may name other blocks (`Inst.blockless`).

One merge adds the chain of the second block to that of the first (`Chained.spliced`). A merge is
never refused, since the merged block has the name and the label of one that it replaces; so each
leaves one block less, and the loop comes to its end (`mergeUpTo_of_le`).

* `mergeAll_chained`: what merging all blocks leaves.
-/

namespace Midend

/-! ## Instructions in a row -/

/-- The instruction without the blocks that its pairs name. -/
def Inst.blockless (i : Inst) : Inst := if i.isPhi then i.mapBlocks fun _ => ⟨0⟩ else i

theorem Inst.blockless_moveIncoming (old new : BlockId) (i : Inst) :
    (i.moveIncoming old new).blockless = i.blockless := by
  rw [blockless, isPhi_moveIncoming, blockless, moveIncoming]
  split
  · rcases i with ⟨id, ty, known, op⟩
    cases op <;> simp [mapBlocks, Op.mapBlocks]
  · rfl

theorem Inst.isTerminator_blockless (i : Inst) : i.blockless.isTerminator = i.isTerminator := by
  rw [blockless]
  split
  · rcases i with ⟨id, ty, known, op⟩
    cases op <;> rfl
  · rfl

theorem Inst.id_blockless (i : Inst) : i.blockless.id = i.id := by
  rw [blockless]
  split <;> rfl

theorem Inst.ty_blockless (i : Inst) : i.blockless.ty = i.ty := by
  rw [blockless]
  split <;> rfl

theorem map_blockless_moveIncoming (old new : BlockId) (l : List Inst) :
    (l.map (·.moveIncoming old new)).map (·.blockless) = l.map (·.blockless) := by
  rw [List.map_map]
  exact List.map_congr_left fun i _ => i.blockless_moveIncoming old new

/-- The instructions without a terminator at the end. -/
def trim (l : List Inst) : List Inst :=
  if l.getLast?.any (·.isTerminator) then l.dropLast else l

theorem Block.body_eq_trim (blk : Block) : blk.body = trim blk.insts := by
  rw [body, trim, hasTerminator, terminator?, Option.isSome_filter]

theorem trim_append {l m : List Inst} (h : ∀ i ∈ l, i.isTerminator = false) :
    trim (l ++ m) = l ++ trim m := by
  rcases List.eq_nil_or_concat m with rfl | ⟨front, i, rfl⟩
  · have hLast : l.getLast?.any (·.isTerminator) = false := by
      cases hEq : l.getLast? with
      | none => rfl
      | some i => exact h i (List.mem_of_getLast? hEq)
    rw [List.append_nil, trim, hLast]
    simp [trim]
  · rw [List.concat_eq_append, ← List.append_assoc, trim, trim, List.getLast?_concat,
      List.getLast?_concat, List.dropLast_concat, List.dropLast_concat]
    split <;> simp

/-- All that is left out is the terminator at the end. -/
theorem mem_trim_or {l : List Inst} {i : Inst} (hi : i ∈ l) :
    i ∈ trim l ∨ l.getLast? = some i ∧ i.isTerminator = true := by
  rcases List.eq_nil_or_concat l with rfl | ⟨front, last, rfl⟩
  · exact absurd hi List.not_mem_nil
  rw [List.concat_eq_append] at hi ⊢
  rw [trim, List.getLast?_concat, List.dropLast_concat]
  split
  · rename_i hLast
    rcases List.mem_append.mp hi with hi | hi
    · exact .inl hi
    · rw [List.mem_singleton.mp hi]
      exact .inr ⟨rfl, hLast⟩
  · exact .inl hi

theorem trim_map_blockless (l : List Inst) :
    trim (l.map (·.blockless)) = (trim l).map (·.blockless) := by
  simp only [trim, List.getLast?_map, Option.any_map, Inst.isTerminator_blockless]
  split <;> simp

namespace Func

variable {f g h : Func} {a b c x y z : BlockId} {chain : BlockId → List BlockId}

/-- The instructions of some blocks, one block after the other. Only the last keeps a terminator at
its end. -/
def joined (f : Func) : List BlockId → List Inst
  | [] => []
  | [b] => f.code b
  | b :: c :: rest => trim (f.code b) ++ joined f (c :: rest)

theorem joined_append (f : Func) (l : List BlockId) {m : List BlockId} (hm : m ≠ []) :
    f.joined (l ++ m) = l.flatMap (fun x => trim (f.code x)) ++ f.joined m := by
  induction l with
  | nil => rfl
  | cons b l ih =>
    obtain ⟨c, rest, hEq⟩ := List.exists_cons_of_ne_nil (List.append_ne_nil_of_right_ne_nil l hm)
    rw [hEq] at ih
    rw [List.cons_append, hEq, joined, ih, List.flatMap_cons, List.append_assoc]

/-- If no terminator stands in the middle, the one at the end is that of the last block. -/
theorem trim_joined {l : List BlockId}
    (hCalm : ∀ x ∈ l.dropLast, ∀ i ∈ trim (f.code x), i.isTerminator = false) :
    trim (f.joined l) = l.flatMap fun x => trim (f.code x) := by
  rcases List.eq_nil_or_concat l with rfl | ⟨front, x, rfl⟩
  · rfl
  · rw [List.concat_eq_append] at hCalm ⊢
    rw [List.dropLast_concat] at hCalm
    rw [joined_append f front (List.cons_ne_nil x []), joined, trim_append, List.flatMap_append]
    · simp
    · intro i hi
      obtain ⟨y, hy, hi⟩ := List.mem_flatMap.mp hi
      exact hCalm y hy i hi

/-- Every instruction is there but the terminators of blocks before the last. -/
theorem mem_joined_or {l : List BlockId} {i : Inst} (hx : x ∈ l) (hi : i ∈ f.code x) :
    i ∈ f.joined l ∨
      x ∈ l.dropLast ∧ (f.code x).getLast? = some i ∧ i.isTerminator = true := by
  fun_induction joined f l with
  | case1 => exact absurd hx List.not_mem_nil
  | case2 b =>
    rw [← List.mem_singleton.mp hx]
    exact .inl hi
  | case3 b c rest ih =>
    rcases List.mem_cons.mp hx with rfl | hx
    · rcases mem_trim_or hi with hTrim | hLast
      · exact .inl (List.mem_append_left _ hTrim)
      · exact .inr ⟨List.mem_cons_self, hLast⟩
    · rcases ih hx with hJoined | ⟨hBefore, hLast⟩
      · exact .inl (List.mem_append_right _ hJoined)
      · exact .inr ⟨List.mem_cons_of_mem b hBefore, hLast⟩

/-! ## One merge -/

/-- The second block has been added to the first, which it followed. -/
structure Spliced (f : Func) (a b : BlockId) (g : Func) : Prop where
  ne : a ≠ b
  soleEdge : f.SoleEdge a b
  calm : ∀ i ∈ trim (f.code a), i.isTerminator = false
  layout_perm : f.layout.Perm (b :: g.layout)
  entry_eq : g.entry = f.entry
  hasBlock_iff : ∀ x, g.hasBlock x = true ↔ x ≠ b ∧ f.hasBlock x = true
  code_first : (g.code a).map (·.blockless) = (trim (f.code a) ++ f.code b).map (·.blockless)
  code_of_ne : ∀ x, x ≠ a → x ≠ b → (g.code x).map (·.blockless) = (f.code x).map (·.blockless)
  mem_succs_first : ∀ c, c ∈ g.succs a ↔ c ∈ f.succs b
  mem_succs_of_ne : ∀ x, x ≠ a → x ≠ b → ∀ c, c ∈ g.succs x ↔ c ∈ f.succs x

/-- The merged block is made of two blocks with one edge between them. -/
theorem merged?_spec (hf : f.Mirrored) {blk : Block} (h : f.merged? a b = some blk) :
    a ≠ b ∧ f.entry ≠ some b ∧ f.SoleEdge a b ∧
      (∀ i ∈ trim (f.code a), i.isTerminator = false) ∧ blk.id = a ∧
      some blk.label = f.label? a ∧ blk.insts = trim (f.code a) ++ f.code b ∧
      blk.preds = f.preds a ∧ blk.succs = f.succs b := by
  obtain ⟨blkA, blkB, hA, hB, hne, hEntry, hSuccs, hPreds, -, hCalm, -, rfl⟩ := merged?_inversion h
  have hBody : blkA.body = trim (f.code a) := by
    rw [Block.body_eq_trim, code_of_block? hA]
  refine ⟨hne, hEntry, hf.soleEdge hA hB hSuccs hPreds, hBody ▸ hCalm, rfl, ?_, ?_, ?_, ?_⟩
  · rw [label?, hA]
    rfl
  · rw [hBody, code_of_block? hB]
  · rw [preds, hA]
    rfl
  · rw [succs, hB]
    rfl

/-- A block with the name and the label of a block that it replaces is not refused. -/
theorem refuseReplacement?_eq_none (hf : f.Consistent) (ha : f.hasBlock a = true)
    (hb : f.hasBlock b = true) {blk : Block} (hId : blk.id = a)
    (hLabel : some blk.label = f.label? a) : f.refuseReplacement? [a, b] blk = none := by
  have hFind : ([a, b].find? fun x => !f.hasBlock x) = none := by simp [ha, hb]
  have hOwn : ∀ other ∈ f.arena.values, other.label = blk.label → other.id = a := by
    intro other hOther hSame
    obtain ⟨⟨x, blk'⟩, hMem, rfl⟩ := List.mem_map.mp hOther
    have hBlk : f.block? x = some blk' := SortedMap.get?_eq_some_iff.mpr hMem
    obtain ⟨blkA, hA, hLabelA⟩ := Option.map_eq_some_iff.mp hLabel.symm
    rw [hf.id_eq x blk' hBlk]
    exact hf.label_inj x a blk' blkA hBlk hA (hSame.trans hLabelA.symm)
  have hFree : (f.arena.values.any fun other =>
      other.label = blk.label && !(other.id ∈ [a, b])) = false := by
    rw [List.any_eq_false]
    intro other hOther hBoth
    rw [Bool.and_eq_true, decide_eq_true_iff] at hBoth
    simp [hOwn other hOther hBoth.1] at hBoth
  rw [refuseReplacement?, hFind]
  simp only [hFree, hId]
  simp

theorem mergeBlocks_spliced (hf : f.Consistent) {blk : Block} (h : f.merged? a b = some blk) :
    (f.mergeBlocks a b).1 = true ∧ Spliced f a b (f.mergeBlocks a b).2 := by
  obtain ⟨hne, hEntry, hSole, hCalm, hId, hLabel, hInsts, hPreds, hSuccs⟩ :=
    merged?_spec hf.mirrored h
  have hEdge := hSole.edge
  have ha : f.hasBlock a = true := hasBlock_of_mem_succs hEdge
  have hb : f.hasBlock b = true := hf.mirrored.hasBlock_target hEdge
  obtain ⟨hFrame, -, hSuccs', hCode⟩ := foldl_retargetIncoming b a
    (f.succs b).nodup_toList (f.substitute [a, b] blk)
  have hEq : f.mergeBlocks a b = (true, (f.succs b).toList.foldl
      (fun g s => (g.retargetIncoming s b a).2) (f.substitute [a, b] blk)) := by
    rw [mergeBlocks, h]
    dsimp only
    rw [applyMerge, replaceBlocks, refuseReplacement?_eq_none hf ha hb hId hLabel, hId]
    rfl
  have hCode' : ∀ x, (((f.succs b).toList.foldl (fun g s => (g.retargetIncoming s b a).2)
      (f.substitute [a, b] blk)).code x).map (·.blockless) =
      ((f.substitute [a, b] blk).code x).map (·.blockless) := by
    intro x
    rw [hCode]
    split
    · exact map_blockless_moveIncoming b a _
    · rfl
  have hMem := fun x c => mem_succs_substitute_iff (x := x) (c := c) hId hf.arranged
    hSole.mem_succs_iff hSole.mem_preds_iff hPreds hSuccs
  rw [hEq]
  refine ⟨rfl, hne, hSole, hCalm, ?_, ?_, ?_, ?_, ?_, ?_, ?_⟩
  · rw [hFrame.layout_eq, List.perm_ext_iff_of_nodup hf.layout_nodup]
    · intro x
      rw [List.mem_cons, mem_layout_substitute_iff hId hf.arranged ha hne]
      have hMemB := (hf.mem_layout b).mpr hb
      grind
    · refine List.nodup_cons.mpr ⟨fun hMemB => ?_,
        layout_nodup_substitute hf.layout_nodup fun _ => hId ▸ List.mem_cons_self⟩
      exact ((mem_layout_substitute_iff hId hf.arranged ha hne).mp hMemB).1 rfl
  · rw [hFrame.entry_eq, entry_substitute_eq hId hf.arranged ha hEntry]
  · intro x
    rw [hFrame.hasBlock_eq, hasBlock_substitute_iff hId hne ha]
  · rw [hCode', code_substitute_self hId, hInsts]
  · intro x hxa hxb
    rw [hCode', code_substitute_of_ne hId hxa hxb]
  · intro c
    rw [hSuccs', hMem]
    simp
  · intro x hxa hxb c
    rw [hSuccs', hMem]
    simp [hxa, hxb]

theorem Spliced.length_layout (h : Spliced f a b g) : f.layout.length = g.layout.length + 1 :=
  h.layout_perm.length_eq

/-- Something holds of each block if it holds of the first with what has been added to it, and of
the others as they were. -/
theorem Spliced.forall_update {P : BlockId → List BlockId → Prop} {l : List BlockId}
    (h : Spliced f a b g) (hFirst : P a l)
    (hOther : ∀ c, c ≠ a → c ≠ b → f.hasBlock c = true → P c (chain c)) :
    ∀ c, g.hasBlock c = true → P c (Function.update chain a l c) := by
  intro c hc
  obtain ⟨hcb, hc⟩ := (h.hasBlock_iff c).mp hc
  by_cases hca : c = a
  · rw [hca, Function.update_self]
    exact hFirst
  · rw [Function.update_of_ne hca]
    exact hOther c hca hcb hc

/-! ## Chains -/

/-- Every block of the second function stands for a chain of blocks of the first, which begins with
the block of the same name. -/
structure Chained (f g : Func) (chain : BlockId → List BlockId) : Prop where
  head : ∀ c, g.hasBlock c = true → (chain c).head? = some c
  /-- Every block of the first function is in one chain, and there once. -/
  perm : (g.layout.flatMap chain).Perm f.layout
  /-- Inside a chain each block leads to the next and nowhere else, and nothing else leads there. -/
  linked : ∀ c, g.hasBlock c = true → (chain c).IsChain f.SoleEdge
  /-- What leads to the head of a chain is the end of a chain. -/
  entered : ∀ c, g.hasBlock c = true → ∀ z, c ∈ f.succs z →
    ∃ d, g.hasBlock d = true ∧ (chain d).getLast? = some z
  /-- The edges from a block are those from the end of its chain. -/
  mem_succs : ∀ c, g.hasBlock c = true → ∀ x, (chain c).getLast? = some x →
    ∀ z, z ∈ g.succs c ↔ z ∈ f.succs x
  /-- Inside a chain a terminator stands at most at the end of a block. -/
  calm : ∀ c, g.hasBlock c = true → ∀ x ∈ (chain c).dropLast, ∀ i ∈ trim (f.code x),
    i.isTerminator = false
  /-- The instructions of a block are those of its chain, in their order. -/
  code_eq : ∀ c, g.hasBlock c = true →
    (g.code c).map (·.blockless) = (f.joined (chain c)).map (·.blockless)

theorem Chained.refl (f : Func) : Chained f f fun c => [c] where
  head c _ := rfl
  perm := by simp
  linked c _ := List.isChain_singleton c
  entered c _ z edge := ⟨z, hasBlock_of_mem_succs edge, rfl⟩
  mem_succs c _ x hx z := by
    rw [List.getLast?_singleton, Option.some.injEq] at hx
    rw [hx]
  calm c _ x hx := absurd hx List.not_mem_nil
  code_eq c _ := rfl

namespace Chained

variable (hc : Chained f g chain)
include hc

theorem ne_nil (hx : g.hasBlock c = true) : chain c ≠ [] := by
  intro hNil
  have hHead := hc.head c hx
  rw [hNil] at hHead
  cases hHead

/-- Without the terminator at its end a block holds its chain without any terminator at the end of a
block. -/
theorem map_trim (hx : g.hasBlock c = true) : (trim (g.code c)).map (·.blockless) =
    ((chain c).flatMap fun x => trim (f.code x)).map (·.blockless) := by
  rw [← trim_joined (hc.calm c hx), ← trim_map_blockless, hc.code_eq c hx, trim_map_blockless]

/-- Every instruction is in the block that stands for its chain, unless it is the terminator of
a block that has had another added to it. -/
theorem mem_code_or (hf : f.Consistent) (hg : g.Consistent) {i : Inst} (hi : i ∈ f.code x) :
    ∃ c, g.hasBlock c = true ∧ x ∈ chain c ∧
      ((∃ j ∈ g.code c, j.id = i.id ∧ j.ty = i.ty ∧ j.blockless = i.blockless) ∨
        x ∈ (chain c).dropLast ∧ (f.code x).getLast? = some i ∧ i.isTerminator = true) := by
  have hx : x ∈ g.layout.flatMap chain :=
    hc.perm.mem_iff.mpr ((hf.mem_layout x).mpr (hasBlock_of_mem_code hi))
  obtain ⟨c, hMem, hx⟩ := List.mem_flatMap.mp hx
  have hThere := (hg.mem_layout c).mp hMem
  refine ⟨c, hThere, hx, (mem_joined_or hx hi).imp_left fun hJoined => ?_⟩
  have hMem : i.blockless ∈ (g.code c).map (·.blockless) := by
    rw [hc.code_eq c hThere]
    exact List.mem_map_of_mem hJoined
  obtain ⟨j, hj, hEq⟩ := List.mem_map.mp hMem
  refine ⟨j, hj, ?_, ?_, hEq⟩
  · rw [← j.id_blockless, hEq, i.id_blockless]
  · rw [← j.ty_blockless, hEq, i.ty_blockless]

variable (hg : g.Consistent) (hs : Spliced g a b h)
include hg hs

/-- The end of the chain of the first block leads to the head of the chain of the second, and to
nothing else, and nothing else leads there. -/
theorem soleEdge (hx : (chain a).getLast? = some x) : f.SoleEdge x b := by
  have hEdge := hs.soleEdge.edge
  have hSuccs := hc.mem_succs a (hasBlock_of_mem_succs hEdge) x hx
  refine ⟨fun z => (hSuccs z).symm.trans (hs.soleEdge.mem_succs_iff z), fun z => ⟨?_, ?_⟩⟩
  · intro edge
    obtain ⟨d, hd, hLast⟩ := hc.entered b (hg.mirrored.hasBlock_target hEdge) z edge
    obtain rfl : d = a := (hs.soleEdge.mem_preds_iff d).mp ((hc.mem_succs d hd z hLast b).mpr edge)
    exact Option.some.inj (hLast.symm.trans hx)
  · rintro rfl
    exact (hSuccs b).mp hEdge

theorem perm_update :
    (h.layout.flatMap (Function.update chain a (chain a ++ chain b))).Perm f.layout := by
  have hEdge := hs.soleEdge.edge
  have ha : a ∈ g.layout := (hg.mem_layout a).mpr (hasBlock_of_mem_succs hEdge)
  have hMem : a ∈ h.layout :=
    (List.mem_cons.mp (hs.layout_perm.mem_iff.mp ha)).resolve_left hs.ne
  have hNodup : h.layout.Nodup :=
    (List.nodup_cons.mp (hs.layout_perm.nodup_iff.mp hg.layout_nodup)).2
  have hRest : (h.layout.erase a).flatMap (Function.update chain a (chain a ++ chain b)) =
      (h.layout.erase a).flatMap chain := by
    apply List.flatMap_congr
    intro x hx
    exact Function.update_of_ne (hNodup.mem_erase_iff.mp hx).1 _ _
  have hNew : (h.layout.flatMap (Function.update chain a (chain a ++ chain b))).Perm
      (chain a ++ chain b ++ (h.layout.erase a).flatMap chain) := by
    have hFlat := (List.perm_cons_erase hMem).flatMap_right
      (Function.update chain a (chain a ++ chain b))
    rwa [List.flatMap_cons, Function.update_self, hRest] at hFlat
  have hOld : (g.layout.flatMap chain).Perm
      (chain b ++ chain a ++ (h.layout.erase a).flatMap chain) := by
    have hFlat := (hs.layout_perm.trans ((List.perm_cons_erase hMem).cons b)).flatMap_right chain
    rwa [List.flatMap_cons, List.flatMap_cons, ← List.append_assoc] at hFlat
  exact (hNew.trans (List.perm_append_comm.append_right _)).trans (hOld.symm.trans hc.perm)

omit hg in
/-- No terminator stands in the middle of what is joined. -/
theorem calm_first (ha : g.hasBlock a = true) :
    ∀ x ∈ chain a, ∀ i ∈ trim (f.code x), i.isTerminator = false := by
  intro x hx i hi
  have hMem : i.blockless ∈ (trim (g.code a)).map (·.blockless) := by
    rw [hc.map_trim ha]
    exact List.mem_map_of_mem (List.mem_flatMap.mpr ⟨x, hx, hi⟩)
  obtain ⟨j, hj, hEq⟩ := List.mem_map.mp hMem
  rw [← i.isTerminator_blockless, ← hEq, j.isTerminator_blockless]
  exact hs.calm j hj

/-- Merging two blocks adds the chain of the second to that of the first. -/
theorem spliced : Chained f h (Function.update chain a (chain a ++ chain b)) := by
  have hEdge := hs.soleEdge.edge
  have ha : g.hasBlock a = true := hasBlock_of_mem_succs hEdge
  have hb : g.hasBlock b = true := hg.mirrored.hasBlock_target hEdge
  have hLast : (chain a ++ chain b).getLast? = (chain b).getLast? :=
    List.getLast?_append_of_ne_nil _ (hc.ne_nil hb)
  refine {
    head := ?_
    perm := hc.perm_update hg hs
    linked := ?_
    entered := ?_
    mem_succs := ?_
    calm := ?_
    code_eq := ?_ }
  · apply hs.forall_update (P := fun c l => l.head? = some c)
    · rw [List.head?_append, hc.head a ha, Option.some_or]
    · exact fun c _ _ => hc.head c
  · apply hs.forall_update (P := fun _ l => l.IsChain f.SoleEdge)
    · refine List.isChain_append.mpr ⟨hc.linked a ha, hc.linked b hb, fun x hx y hy => ?_⟩
      obtain rfl : b = y := Option.some.inj ((hc.head b hb).symm.trans hy)
      exact hc.soleEdge hg hs hx
    · exact fun c _ _ => hc.linked c
  · intro c hThere z edge
    obtain ⟨hcb, hThere⟩ := (hs.hasBlock_iff c).mp hThere
    obtain ⟨d, hd, hdLast⟩ := hc.entered c hThere z edge
    by_cases hdb : d = b
    · refine ⟨a, (hs.hasBlock_iff a).mpr ⟨hs.ne, ha⟩, ?_⟩
      rw [Function.update_self, hLast, ← hdb, hdLast]
    · refine ⟨d, (hs.hasBlock_iff d).mpr ⟨hdb, hd⟩, ?_⟩
      have hda : d ≠ a := by
        -- the chain of the first block leads to the second only, which is no head any more
        rintro rfl
        exact hcb (((hc.soleEdge hg hs hdLast).mem_succs_iff c).mp edge)
      rw [Function.update_of_ne hda, hdLast]
  · apply hs.forall_update
      (P := fun c l => ∀ x, l.getLast? = some x → ∀ z, z ∈ h.succs c ↔ z ∈ f.succs x)
    · intro x hx z
      rw [hLast] at hx
      rw [hs.mem_succs_first, hc.mem_succs b hb x hx]
    · intro c hca hcb hThere x hx z
      rw [hs.mem_succs_of_ne c hca hcb, hc.mem_succs c hThere x hx]
  · apply hs.forall_update
      (P := fun _ l => ∀ x ∈ l.dropLast, ∀ i ∈ trim (f.code x), i.isTerminator = false)
    · intro x hx
      rw [List.dropLast_append_of_ne_nil (hc.ne_nil hb)] at hx
      exact (List.mem_append.mp hx).elim (hc.calm_first hs ha x) (hc.calm b hb x)
    · exact fun c _ _ => hc.calm c
  · apply hs.forall_update
      (P := fun c l => (h.code c).map (·.blockless) = (f.joined l).map (·.blockless))
    · rw [joined_append f _ (hc.ne_nil hb), hs.code_first, List.map_append, List.map_append,
        hc.map_trim ha, hc.code_eq b hb]
    · intro c hca hcb hThere
      rw [hs.code_of_ne c hca hcb, hc.code_eq c hThere]

end Chained

/-! ## All merges -/

/-- The second function comes from the first by the given number of merges. -/
inductive Merges : Func → Nat → Func → Prop
  | done (f : Func) : Merges f 0 f
  | step {f g h : Func} {a b : BlockId} {n : Nat} (hStep : Spliced f a b g) (hg : g.Consistent)
      (hRest : Merges g n h) : Merges f (n + 1) h

section Merges

variable {n : Nat} (hm : Merges f n g)
include hm

theorem Merges.length_layout : n + g.layout.length = f.layout.length := by
  induction hm with
  | done f => exact Nat.zero_add _
  | step hStep _ _ ih =>
    rw [hStep.length_layout, ← ih]
    omega

theorem Merges.entry_eq : g.entry = f.entry := by
  induction hm with
  | done f => rfl
  | step hStep _ _ ih => exact ih.trans hStep.entry_eq

/-- What one merge does to the chains, several do. -/
theorem Merges.chained {base : Func} (hf : f.Consistent) (hc : Chained base f chain) :
    ∃ chain', Chained base g chain' := by
  induction hm generalizing chain with
  | done f => exact ⟨chain, hc⟩
  | step hStep hg _ ih => exact ih hg (hc.spliced hf hStep)

end Merges

theorem mergeCandidate?_eq_some (h : f.mergeCandidate? = some (a, b)) :
    ∃ blk, f.merged? a b = some blk := by
  obtain ⟨x, -, hx⟩ := List.exists_of_findSome?_eq_some h
  split at hx
  · split at hx
    · rename_i hSome
      cases hx
      exact Option.isSome_iff_exists.mp hSome
    · cases hx
  · cases hx

/-- If no candidate is found, there are no two blocks that can be merged. -/
theorem merged?_eq_none (hf : f.Consistent) (h : f.mergeCandidate? = none) (a b : BlockId) :
    f.merged? a b = none := by
  rw [mergeCandidate?, List.findSome?_eq_none_iff] at h
  by_contra hSome
  obtain ⟨blk, hBlk⟩ := Option.ne_none_iff_exists'.mp hSome
  have hSole := (merged?_spec hf.mirrored hBlk).2.2.1
  have hEdge := hSole.edge
  have hOnly : f.succs a = .singleton b := by
    ext1 z
    rw [hSole.mem_succs_iff, SortedSet.mem_singleton]
  have hNone := h a ((hf.mem_layout a).mpr (hasBlock_of_mem_succs hEdge))
  rw [hOnly] at hNone
  change (if (f.merged? a b).isSome then some (a, b) else none) = none at hNone
  rw [hBlk] at hNone
  cases hNone

theorem mergeUpTo_of_none (fuel : Nat) (h : f.mergeCandidate? = none) :
    mergeUpTo fuel f = (0, f) := by
  cases fuel with
  | zero => rfl
  | succ fuel => rw [mergeUpTo, h]

/-- A candidate is merged, and the loop goes on with what is left. -/
theorem mergeUpTo_of_some (fuel : Nat) (hf : f.Consistent) (h : f.mergeCandidate? = some (a, b)) :
    mergeUpTo (fuel + 1) f = ((mergeUpTo fuel (f.mergeBlocks a b).2).1 + 1,
      (mergeUpTo fuel (f.mergeBlocks a b).2).2) := by
  obtain ⟨blk, hBlk⟩ := mergeCandidate?_eq_some h
  have hTrue := (mergeBlocks_spliced hf hBlk).1
  rw [mergeUpTo, h]
  dsimp only
  generalize f.mergeBlocks a b = r at hTrue
  obtain ⟨merged, g⟩ := r
  cases hTrue
  rfl

theorem mergeUpTo_merges (fuel : Nat) (hf : f.Consistent) :
    Merges f (mergeUpTo fuel f).1 (mergeUpTo fuel f).2 := by
  induction fuel generalizing f with
  | zero => exact .done f
  | succ fuel ih =>
    cases h : f.mergeCandidate? with
    | none =>
      rw [mergeUpTo_of_none _ h]
      exact .done f
    | some p =>
      obtain ⟨a, b⟩ := p
      obtain ⟨blk, hBlk⟩ := mergeCandidate?_eq_some h
      rw [mergeUpTo_of_some fuel hf h]
      have hg := hf.mergeBlocks a b
      exact .step (mergeBlocks_spliced hf hBlk).2 hg (ih hg)

/-- With a merge allowed for each block the loop runs to its end, and no more merges than that
change what it gives. -/
theorem mergeUpTo_of_le {fuel more : Nat} (hf : f.Consistent) (hFuel : f.layout.length ≤ fuel)
    (hMore : fuel ≤ more) : mergeUpTo more f = mergeUpTo fuel f ∧
      (mergeUpTo fuel f).2.mergeCandidate? = none := by
  induction fuel generalizing f more with
  | zero =>
    have hNil : f.layout = [] := List.length_eq_zero_iff.mp (Nat.le_zero.mp hFuel)
    have hNone : f.mergeCandidate? = none := by rw [mergeCandidate?, hNil]; rfl
    rw [mergeUpTo_of_none more hNone]
    exact ⟨rfl, hNone⟩
  | succ fuel ih =>
    obtain ⟨more, rfl⟩ : ∃ m, more = m + 1 := ⟨more - 1, by omega⟩
    cases h : f.mergeCandidate? with
    | none =>
      rw [mergeUpTo_of_none _ h, mergeUpTo_of_none _ h]
      exact ⟨rfl, h⟩
    | some p =>
      obtain ⟨a, b⟩ := p
      obtain ⟨blk, hBlk⟩ := mergeCandidate?_eq_some h
      have hLength := (mergeBlocks_spliced hf hBlk).2.length_layout
      obtain ⟨hSame, hNone⟩ := ih (hf.mergeBlocks a b) (by omega) (Nat.le_of_succ_le_succ hMore)
      rw [mergeUpTo_of_some _ hf h, mergeUpTo_of_some _ hf h, hSame]
      exact ⟨rfl, hNone⟩

theorem Consistent.length_layout (hf : f.Consistent) : f.layout.length = f.arena.size := by
  have hPerm : f.layout.Perm f.arena.keys := by
    rw [List.perm_ext_iff_of_nodup hf.layout_nodup f.arena.nodup_keys]
    intro x
    rw [hf.mem_layout, hasBlock_iff, SortedMap.mem_keys_iff]
    rfl
  rw [hPerm.length_eq, SortedMap.length_keys]

/-- **Merging all blocks merges chains.** It comes to its end, since no more merges than there are
blocks can be made, and gives the number of blocks that are gone. No two blocks can be merged then.
The entry is the same, and each block stands for a chain of those that there were: it holds their
instructions in their order, and of these only terminators that stood before the end of a chain are
gone. -/
theorem mergeAll_chained (f : Func) (hf : f.Consistent) :
    (∀ fuel, f.arena.size ≤ fuel → mergeUpTo fuel f = f.mergeAll) ∧
      f.mergeAll.1 = f.arena.size - f.mergeAll.2.arena.size ∧
      f.mergeAll.2.arena.size ≤ f.arena.size ∧
      (∀ a b, f.mergeAll.2.merged? a b = none) ∧ f.mergeAll.2.entry = f.entry ∧
      ∃ chain, Chained f f.mergeAll.2 chain ∧ ∀ x, ∀ i ∈ f.code x, ∃ c,
        f.mergeAll.2.hasBlock c = true ∧ x ∈ chain c ∧
          ((∃ j ∈ f.mergeAll.2.code c, j.id = i.id ∧ j.ty = i.ty ∧ j.blockless = i.blockless) ∨
            x ∈ (chain c).dropLast ∧ (f.code x).getLast? = some i ∧ i.isTerminator = true) := by
  have hLength := hf.length_layout
  have hg : f.mergeAll.2.Consistent :=
    mergeAll_induct (P := Consistent) (fun _ a b hg => hg.mergeBlocks a b) hf
  have hMerges : Merges f f.mergeAll.1 f.mergeAll.2 := mergeUpTo_merges _ hf
  have hCount := hMerges.length_layout
  rw [hLength, hg.length_layout] at hCount
  obtain ⟨chain, hc⟩ := hMerges.chained hf (.refl f)
  exact ⟨fun fuel hFuel => (mergeUpTo_of_le hf (Nat.le_of_eq hLength) hFuel).1, by omega, by omega,
    merged?_eq_none hg (mergeUpTo_of_le hf (Nat.le_of_eq hLength) (Nat.le_refl _)).2,
    hMerges.entry_eq, chain, hc, fun _ _ => hc.mem_code_or hf hg⟩

/-- Three blocks in a row and a branch. One way goes through two blocks, the other through one, and
where they meet there are two in a row again. -/
def winding : Func :=
  [.createBlock "entry", .createBlock "middle", .createBlock "fork", .createBlock "left",
    .createBlock "farther", .createBlock "right", .createBlock "meet", .createBlock "exit",
    .append ⟨0⟩ .bool (.const (.bool true)), .append ⟨0⟩ .void (.jump ⟨1⟩),
    .append ⟨1⟩ (.scalar .i32) (.const (.int 1)), .append ⟨1⟩ .void (.jump ⟨2⟩),
    .append ⟨2⟩ (.scalar .i32) (.const (.int 2)), .append ⟨2⟩ .void (.branch ⟨0⟩ ⟨3⟩ ⟨5⟩),
    .append ⟨3⟩ .void (.jump ⟨4⟩), .append ⟨4⟩ .void (.jump ⟨6⟩), .append ⟨5⟩ .void (.jump ⟨6⟩),
    .append ⟨6⟩ (.scalar .i32) (.phi [⟨⟨4⟩, ⟨2⟩⟩, ⟨⟨5⟩, ⟨4⟩⟩]), .append ⟨6⟩ .void (.jump ⟨7⟩),
    .append ⟨7⟩ .void (.ret (some ⟨9⟩))].foldl build (.empty "winding" (.scalar .i32))

theorem winding_mergeAll_chained :
    winding.Consistent ∧ winding.arena.size = 8 ∧ winding.mergeAll.1 = 4 ∧
      (winding.mergeAll.2.code ⟨0⟩).map (·.id) = [⟨0⟩, ⟨2⟩, ⟨4⟩, ⟨5⟩] ∧
      (∀ a b, winding.mergeAll.2.merged? a b = none) ∧
      ∃ chain, Chained winding winding.mergeAll.2 chain := by
  have hf : winding.Consistent := by decide +kernel
  obtain ⟨-, -, -, hNone, -, chain, hc, -⟩ := mergeAll_chained winding hf
  exact ⟨hf, by decide +kernel, by decide +kernel, by decide +kernel, hNone, chain, hc⟩

end Func

end Midend
