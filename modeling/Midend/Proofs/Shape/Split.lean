import Midend.Proofs.Flow.Bypass
import Midend.Proofs.Func.Construction
import Midend.Proofs.Func.Terminators
import Midend.Proofs.Shape.Label

/-!
# Splitting critical edges keeps a function lawful and strict

An edge is split in four steps. An empty block is added, which nothing leads to yet
(`Grown.regular`); it gets a jump to the end of the edge; the terminator at the start of the edge is
exchanged for one that leads to the new block; and the phis at the end of the edge are told. What
happens on the way through the new block is what happened on the edge (`Bridge.live`,
`Bridge.guards`). The label of the new block is never refused (`refuseLabel?_splitLabel`), and in a
lawful function no step fails (`Lawful.splitEdge_cases`).
-/

namespace Midend

namespace Func

variable {f g h : Func} {a b c d e s x : BlockId} {i : Inst} {v : ValueId} {front : List Inst}

/-! ## The new block -/

namespace Grown

variable {label : String}

theorem arranged (hg : Grown f s label g) (hf : f.Arranged) (hNe : label ≠ "")
    (hNew : ∀ x, f.label? x ≠ some label) : g.Arranged := by
  have hs : f.hasBlock s = false := hg.id_eq ▸ hf.not_hasBlock_next
  have hne : ∀ {x}, f.hasBlock x = true → x ≠ s := fun hx hEq => by
    rw [hEq, hs] at hx
    cases hx
  refine ⟨?_, ?_, hg.named hf.named, ?_, ?_, hg.mirrored hf.mirrored, ?_, ?_, ?_⟩
  · rw [hg.layout_eq, List.nodup_append]
    refine ⟨hf.layout_nodup, List.nodup_singleton _, fun x hx y hy hEq => ?_⟩
    exact hne ((hf.mem_layout x).mp hx) (hEq.trans (List.mem_singleton.mp hy))
  · intro x
    rw [hg.layout_eq, List.mem_append, List.mem_singleton, hf.mem_layout, hg.hasBlock_iff, or_comm]
  · intro x hx
    by_cases hxs : x = s
    · rw [hxs, hg.label?_self] at hx
      exact hNe (Option.some.inj hx)
    · rw [hg.label?_of_ne x hxs] at hx
      exact hf.label_ne x hx
  · intro x y l hx hy
    by_cases hxs : x = s <;> by_cases hys : y = s
    · rw [hxs, hys]
    · rw [hxs, hg.label?_self] at hx
      rw [hg.label?_of_ne y hys, ← hx] at hy
      exact absurd hy (hNew y)
    · rw [hys, hg.label?_self] at hy
      rw [hg.label?_of_ne x hxs, ← hy] at hx
      exact absurd hx (hNew x)
    · rw [hg.label?_of_ne x hxs] at hx
      rw [hg.label?_of_ne y hys] at hy
      exact hf.label_inj x y l hx hy
  · intro e he
    rw [hg.entry_eq] at he
    rw [hg.hasBlock_iff]
    cases hEntry : f.entry with
    | none =>
      rw [hEntry] at he
      exact .inl (Option.some.inj he).symm
    | some e' =>
      rw [hEntry] at he
      exact .inr (hf.entry_mem e (hEntry.trans he))
  · intro he
    rw [hg.entry_eq] at he
    cases hEntry : f.entry <;> rw [hEntry] at he <;> cases he
  · intro x hx
    rw [hg.nextBlock_eq]
    rcases (hg.hasBlock_iff x).mp hx with rfl | hx
    · rw [hg.id_eq]
      exact Nat.lt_succ_self _
    · exact Nat.lt_succ_of_lt (hf.block_lt x hx)

/-- The new block is empty, and the others have the code that they had. -/
theorem code_eq (hg : Grown f s label g) (hf : f.Arranged) (x : BlockId) : g.code x = f.code x := by
  by_cases hx : x = s
  · rw [hx, hg.code_self, code_of_not_hasBlock (hg.id_eq ▸ hf.not_hasBlock_next)]
  · exact hg.code_of_ne x hx

theorem succs_eq (hg : Grown f s label g) (hf : f.Arranged) (x : BlockId) :
    c ∈ g.succs x ↔ c ∈ f.succs x := by
  rw [hg.mem_succs]
  have hs : f.hasBlock s = false := hg.id_eq ▸ hf.not_hasBlock_next
  exact and_iff_right_of_imp fun edge hx => not_mem_succs_of_not_hasBlock hs c (hx ▸ edge)

end Grown

/-- A function with the code and the edges of another. -/
theorem Wired.of_same (hf : f.Wired) (hCode : ∀ x, g.code x = f.code x)
    (hSuccs : ∀ x c, c ∈ g.succs x ↔ c ∈ f.succs x) : g.Wired := by
  refine ⟨⟨?_, ?_⟩, ?_⟩
  · simpa only [hCode] using hf.ordered
  · simpa only [hCode, hSuccs] using hf.mem_succs
  · simpa only [hCode, hSuccs] using hf.pairs

theorem Coded.of_same (hf : f.Coded) (hCode : ∀ x, g.code x = f.code x)
    (hSuccs : ∀ x c, c ∈ g.succs x ↔ c ∈ f.succs x) (hEntry : g.entry = f.entry)
    (hNext : g.ids.nextValue = f.ids.nextValue) : g.Coded := by
  have hHolds : g.Holds = f.Holds := by
    funext v ty known
    simp only [Holds, hCode]
  have hWired := hf.toWired.of_same hCode hSuccs
  refine ⟨⟨⟨?_, ?_, ?_⟩, hWired.toSequenced, ?_⟩, hWired.pairs, ?_⟩
  · simpa only [hCode, hNext] using hf.value_lt
  · simpa only [hCode] using hf.nodup
  · simpa only [hCode] using hf.inj
  · simpa only [hCode, hHolds] using hf.reads
  · simpa only [hSuccs, hEntry] using hf.entry_first

theorem Grown.lawful {label : String} (hg : Grown f s label g) (hf : f.Lawful)
    (hArranged : g.Arranged) (hEntry : g.entry = f.entry) : g.Lawful :=
  ⟨⟨hArranged, hg.name_eq ▸ hf.name_ne⟩, hf.toCoded.of_same (hg.code_eq hf.toArranged)
    (fun x _ => hg.succs_eq hf.toArranged x) hEntry hg.nextValue_eq⟩

theorem Grown.regular {label : String} (hg : Grown f s label g) (hf : f.Regular)
    (hArranged : g.Arranged) (hEntry : g.entry = f.entry) : g.Regular := by
  have hCode := hg.code_eq hf.toArranged
  have hSuccs := fun x c => hg.succs_eq hf.toArranged (c := c) x
  have hDef : ∀ d v, f.Computes d v → g.Computes d v := by
    simp only [Computes, hCode]
    exact fun _ _ => id
  refine ⟨hg.lawful hf.toLawful hArranged hEntry, ?_, ?_⟩
  · intro x hx earlier i later hEq hPhi v hv
    rw [hCode] at hEq
    refine (hf.operand x ((live_congr hSuccs hEntry).mp hx) earlier i later hEq hPhi v hv).imp ?_
    exact fun d hd hv => ⟨guards_congr hSuccs hEntry hd, hDef d v hv⟩
  · intro x hx i hi incoming hOp p hp hLive
    rw [hCode] at hi
    obtain ⟨d, hd, hv⟩ := hf.incoming x ((live_congr hSuccs hEntry).mp hx) i hi incoming hOp p hp
      ((live_congr hSuccs hEntry).mp hLive)
    exact ⟨d, guards_congr hSuccs hEntry hd, hDef _ _ hv⟩

/-! ## The way through the new block -/

theorem mem_targets_mapBlocks {op : Op} {r : BlockId → BlockId} :
    c ∈ (op.mapBlocks r).targets ↔ ∃ t ∈ op.targets, c = r t := by
  cases op <;> simp only [Op.mapBlocks, Op.targets, List.not_mem_nil, false_and, exists_false]
  case jump t => simp
  case branch v t e => grind

theorem Sequenced.not_mem_succs_of_empty (hf : f.Sequenced) (hEmpty : f.code s = []) (c : BlockId) :
    ¬ c ∈ f.succs s := by
  intro edge
  obtain ⟨i, hi, -⟩ := (hf.mem_succs s c).mp edge
  rw [hEmpty] at hi
  exact List.not_mem_nil hi

/-- An empty block has got a jump to the end of an edge, and the start of the edge leads to it. -/
structure Bridge (f : Func) (a b s : BlockId) (front : List Inst) (g : Func) : Prop where
  empty : f.code s = []
  unled : ∀ q, ¬ s ∈ f.succs q
  entry_ne : f.entry ≠ some s
  edge : b ∈ f.succs a
  built : ∃ mid jump old new, Exchanged f s [] jump mid ∧ jump.op = .jump b ∧
    f.code a = front ++ [old] ∧ old.isTerminator = true ∧ Exchanged mid a front new g ∧
    new.op = old.op.mapBlocks fun t => if t = b then s else t

namespace Bridge

section

variable (hg : Bridge f a b s front g)
include hg

theorem first_ne : a ≠ s := by
  obtain ⟨mid, jump, old, new, -, -, hCode, -⟩ := hg.built
  rintro rfl
  rw [hg.empty] at hCode
  simp at hCode

theorem second_ne : b ≠ s := fun hEq => hg.unled a (hEq ▸ hg.edge)

theorem frame : SameFrame f g := by
  obtain ⟨mid, jump, old, new, hMid, -, -, -, hEx, -⟩ := hg.built
  exact hMid.frame.trans hEx.frame

theorem code_cases {earlier later : List Inst} (hCode : g.code x = earlier ++ i :: later) :
    (∃ later', f.code x = earlier ++ i :: later') ∨
      (x = a ∧ earlier = front ∧ i.isTerminator = true ∧
        ∃ old, f.code a = front ++ [old] ∧ old.isTerminator = true ∧
          i.op.operands = old.op.operands) ∨
      (x = s ∧ i.isTerminator = true ∧ i.op.operands = []) := by
  obtain ⟨mid, jump, old, new, hMid, hJump, hOld, hTerm, hEx, hNew⟩ := hg.built
  rcases hEx.code_cases hCode with ⟨later', hCode'⟩ | ⟨rfl, rfl, rfl⟩
  · rcases hMid.code_cases hCode' with hCode' | ⟨rfl, rfl, -⟩
    · exact .inl hCode'
    · exact .inr (.inr ⟨rfl, hMid.new_terminator, by rw [hJump]; rfl⟩)
  · refine .inr (.inl ⟨rfl, rfl, hEx.new_terminator, old, hOld, hTerm, ?_⟩)
    rw [hNew, Op.operands_mapBlocks]

theorem mem_code (hi : i ∈ g.code x) : i ∈ f.code x ∨ i.isTerminator = true := by
  obtain ⟨earlier, later, hCode⟩ := List.append_of_mem hi
  rcases code_cases hg hCode with ⟨later', hCode'⟩ | ⟨-, -, hTerm, -⟩ | ⟨-, hTerm, -⟩
  · exact .inl (by simp [hCode'])
  · exact .inr hTerm
  · exact .inr hTerm

theorem computes_iff : g.Computes x v ↔ f.Computes x v := by
  obtain ⟨mid, jump, old, new, hMid, -, -, -, hEx, -⟩ := hg.built
  rw [hEx.computes_iff, hMid.computes_iff]

theorem listed (hf : f.Listed) : g.Listed := by
  obtain ⟨mid, jump, old, new, hMid, hJump, hOld, hTerm, hEx, hNew⟩ := hg.built
  have hMidListed : mid.Listed := hMid.listed hf fun v hv => by
    rw [hJump] at hv
    exact absurd hv List.not_mem_nil
  refine hEx.listed hMidListed fun v hv => ?_
  rw [hNew, Op.operands_mapBlocks] at hv
  have hOld' : old ∈ f.code a := by simp [hOld]
  obtain ⟨ty, known, hHeld⟩ := (hf.reads a old hOld').operand v hv
  exact ⟨ty, known, hMid.holds_iff.mp hHeld⟩

theorem mem_succs (hf : f.Sequenced) : c ∈ g.succs x ↔
    (x = s ∧ c = b) ∨ (x = a ∧ (c = s ∨ (c ∈ f.succs a ∧ c ≠ b))) ∨
      (x ≠ s ∧ x ≠ a ∧ c ∈ f.succs x) := by
  obtain ⟨mid, jump, old, new, hMid, hJump, hOld, hTerm, hEx, hNew⟩ := hg.built
  have hLast : ∀ t, t ∈ f.succs a ↔ t ∈ old.op.targets := fun t => hf.mem_succs_of_last hOld
  have hTargets : c ∈ new.op.targets ↔ c = s ∨ (c ∈ f.succs a ∧ c ≠ b) := by
    have edge := hg.edge
    rw [hNew, mem_targets_mapBlocks, hLast]
    rw [hLast] at edge
    constructor
    · rintro ⟨t, ht, rfl⟩
      by_cases htb : t = b <;> simp [htb, ht]
    · rintro (rfl | ⟨hc, hne⟩)
      · exact ⟨b, edge, (if_pos rfl).symm⟩
      · exact ⟨c, hc, (if_neg hne).symm⟩
  have hJump' : c ∈ jump.op.targets ↔ c = b := by
    rw [hJump]
    exact List.mem_singleton
  have hne := first_ne hg
  rw [hEx.mem_succs, hMid.mem_succs, hTargets, hJump']
  grind

theorem live (hf : f.Sequenced) (hx : g.Live x) : (x ≠ s → f.Live x) ∧ (x = s → f.Live a) := by
  refine hx.induct (P := fun x => (x ≠ s → f.Live x) ∧ (x = s → f.Live a)) ?_ ?_
  · intro e he
    rw [(frame hg).entry_eq] at he
    exact ⟨fun _ => ⟨e, he, .refl e⟩, fun hEq => absurd (hEq ▸ he) hg.entry_ne⟩
  · intro q c _ hq edge
    rcases (mem_succs hg hf).mp edge with ⟨rfl, rfl⟩ | ⟨rfl, hc⟩ | ⟨hqs, -, edge⟩
    · exact ⟨fun _ => (hq.2 rfl).step hg.edge, fun hEq => absurd hEq (second_ne hg)⟩
    · have hq' := hq.1 (first_ne hg)
      refine ⟨fun hcs => ?_, fun _ => hq'⟩
      rcases hc with rfl | ⟨edge, -⟩
      · exact absurd rfl hcs
      · exact hq'.step edge
    · exact ⟨fun _ => (hq.1 hqs).step edge, fun hEq => absurd (hEq ▸ edge) (hg.unled q)⟩

/-- A way around a block through the new one was a way around it along the edge. -/
theorem bypasses (hf : f.Sequenced) (hBy : g.Bypasses d x) :
    (x ≠ s → f.Bypasses d x) ∧ (x = s → f.Bypasses d a) := by
  refine hBy.induct (P := fun x => (x ≠ s → f.Bypasses d x) ∧ (x = s → f.Bypasses d a)) ?_ ?_
  · intro e he hne
    rw [(frame hg).entry_eq] at he
    exact ⟨fun _ => .entry he hne, fun hEq => absurd (hEq ▸ he) hg.entry_ne⟩
  · intro q c _ hq edge hne
    rcases (mem_succs hg hf).mp edge with ⟨rfl, rfl⟩ | ⟨rfl, hc⟩ | ⟨hqs, -, edge⟩
    · exact ⟨fun _ => (hq.2 rfl).step hg.edge hne, fun hEq => absurd hEq (second_ne hg)⟩
    · have hq' := hq.1 (first_ne hg)
      refine ⟨fun hcs => ?_, fun _ => hq'⟩
      rcases hc with rfl | ⟨edge, -⟩
      · exact absurd rfl hcs
      · exact hq'.step edge hne
    · exact ⟨fun _ => (hq.1 hqs).step edge hne, fun hEq => absurd (hEq ▸ edge) (hg.unled q)⟩

theorem guards (hf : f.Sequenced) (hd : f.Guards d x) (hx : x ≠ s) : g.Guards d x := by
  rw [guards_iff_not_bypasses] at hd ⊢
  exact fun hBy => hd ((bypasses hg hf hBy).1 hx)

theorem guards_new (hf : f.Sequenced) (hd : f.Guards d a) : g.Guards d s := by
  rw [guards_iff_not_bypasses] at hd ⊢
  exact fun hBy => hd ((bypasses hg hf hBy).2 rfl)

end

end Bridge

/-! ## The phis at the end of the edge -/

namespace Bridge

/-- What the phis of a block are changed to. -/
def told (a b s x : BlockId) (i : Inst) : Inst := if x = b then i.moveIncoming a s else i

theorem like_told (a b s x : BlockId) (i : Inst) : (told a b s x i).Like i := by
  rw [told]
  split
  · exact Inst.like_moveIncoming a s i
  · exact .refl i

theorem operands_told : (told a b s x i).op.operands = i.op.operands := by
  rw [told]
  split <;> simp

theorem code_told (g : Func) (a b s x : BlockId) :
    (g.rewrite b (·.map (·.moveIncoming a s))).code x = (g.code x).map (told a b s x) := by
  rw [code_rewrite_map]
  split
  · rename_i hx
    exact List.map_congr_left fun i _ => (if_pos hx).symm
  · rename_i hx
    conv => lhs; rw [← List.map_id (g.code x)]
    exact List.map_congr_left fun i _ => (if_neg hx).symm

section

variable (hg : Bridge f a b s front g)
include hg

theorem sequenced (hf : f.Sequenced) : g.Sequenced := by
  obtain ⟨mid, jump, old, new, hMid, -, -, -, hEx, -⟩ := hg.built
  exact hEx.sequenced (hMid.sequenced hf)

theorem code_led_new :
    ∃ jump, (g.rewrite b (·.map (·.moveIncoming a s))).code s = [jump] ∧ jump.op = .jump b := by
  obtain ⟨mid, jump, old, new, hMid, hJump, -, -, hEx, -⟩ := hg.built
  refine ⟨jump, ?_, hJump⟩
  rw [code_rewrite_of_ne (second_ne hg).symm, hEx.code_of_ne s (first_ne hg).symm, hMid.code_self,
    List.nil_append]

theorem code_led_of_ne (hxa : x ≠ a) (hxb : x ≠ b) (hxs : x ≠ s) :
    (g.rewrite b (·.map (·.moveIncoming a s))).code x = f.code x := by
  obtain ⟨mid, jump, old, new, hMid, -, -, -, hEx, -⟩ := hg.built
  rw [code_rewrite_of_ne hxb, hEx.code_of_ne x hxa, hMid.code_of_ne x hxs]

theorem mem_succs_led (hf : f.Sequenced) :
    c ∈ (g.rewrite b (·.map (·.moveIncoming a s))).succs x ↔
      (x = s ∧ c = b) ∨ (x = a ∧ (c = s ∨ (c ∈ f.succs a ∧ c ≠ b))) ∨
        (x ≠ s ∧ x ≠ a ∧ c ∈ f.succs x) := by
  rw [succs_rewrite]
  exact mem_succs hg hf

theorem wired (hf : f.Wired) : (g.rewrite b (·.map (·.moveIncoming a s))).Wired := by
  have hCode := code_told g a b s
  have hNone := hf.not_mem_succs_of_empty hg.empty
  have hEdges := fun x c => mem_succs_led hg hf.toSequenced (x := x) (c := c)
  refine ⟨(sequenced hg hf.toSequenced).of_map (like_told a b s) hCode
    (fun _ _ => by rw [succs_rewrite]), ?_⟩
  intro x i hi hPhi
  rw [hCode] at hi
  obtain ⟨j, hj, rfl⟩ := List.mem_map.mp hi
  rw [(like_told a b s x j).isPhi_eq] at hPhi
  have hj' : j ∈ f.code x := by
    rcases mem_code hg hj with hj | hTerm
    · exact hj
    · rw [isPhi_eq_false_of_isTerminator hTerm] at hPhi
      cases hPhi
  have hxs : x ≠ s := by
    rintro rfl
    rw [hg.empty] at hj'
    exact List.not_mem_nil hj'
  have hsb := second_ne hg
  have has := first_ne hg
  rw [← (like_told a b s x j).isPhi_eq] at hPhi
  refine (?_ : (told a b s x j).PairsUp _) hPhi
  simp only [hEdges]
  rw [told]
  split
  · rename_i hxb
    have edge := hg.edge
    refine (hf.pairs x j hj').moveIncoming (hNone x) fun q => ?_
    subst hxb
    grind
  · rename_i hxb
    refine (hf.pairs x j hj').congr fun q => ?_
    have := hNone x
    grind

theorem lawful (hf : f.Lawful) : (g.rewrite b (·.map (·.moveIncoming a s))).Lawful := by
  have hFrame := SameFrame.rewrite g b (·.map (·.moveIncoming a s))
  have hListed := listed hg hf.toListed
  refine ⟨hFrame.framed ((frame hg).framed hf.toFramed),
    hListed.of_map (like_told a b s) (code_told g a b s) (fun _ _ => by rw [succs_rewrite]) rfl ?_,
    (wired hg hf.toWired).pairs, ?_⟩
  · intro x i hi
    rw [told]
    split
    · exact (hListed.reads x i hi).moveIncoming a s
    · exact hListed.reads x i hi
  · intro e he q edge
    rw [hFrame.entry_eq, (frame hg).entry_eq] at he
    rw [mem_succs_led hg hf.toSequenced] at edge
    rcases edge with ⟨-, rfl⟩ | ⟨-, rfl | ⟨edge, -⟩⟩ | ⟨-, -, edge⟩
    · exact hf.entry_first e he a hg.edge
    · exact hg.entry_ne he
    · exact hf.entry_first e he a edge
    · exact hf.entry_first e he q edge

theorem regular (hf : f.Regular) : (g.rewrite b (·.map (·.moveIncoming a s))).Regular := by
  have hl := hf.toSequenced
  have hCode := code_told g a b s
  have hSuccs : ∀ x c, c ∈ (g.rewrite b (·.map (·.moveIncoming a s))).succs x ↔ c ∈ g.succs x :=
    fun x c => by rw [succs_rewrite]
  have hEmpty : ∀ {x}, ∀ i ∈ f.code x, x ≠ s := by
    rintro x i hi rfl
    rw [hg.empty] at hi
    exact List.not_mem_nil hi
  have hLive := fun x => live_congr (b := x) hSuccs rfl
  have hCarry : ∀ v d x, x ≠ s → f.Guards d x → f.Computes d v →
      (g.rewrite b (·.map (·.moveIncoming a s))).Guards d x ∧
        (g.rewrite b (·.map (·.moveIncoming a s))).Computes d v := by
    intro v d x hxs hd hv
    refine ⟨guards_congr hSuccs rfl (guards hg hl hd hxs), ?_⟩
    rw [computes_of_map (like_told a b s) hCode, computes_iff hg]
    exact hv
  refine ⟨lawful hg hf.toLawful, ?_, ?_⟩
  · intro x hx earlier i later hEq hPhi v hv
    rw [hCode, List.map_eq_append_iff] at hEq
    obtain ⟨l, back, hEq, rfl, hBack⟩ := hEq
    obtain ⟨j, rest, rfl, rfl, rfl⟩ := List.map_eq_cons_iff.mp hBack
    rw [(like_told a b s x j).isPhi_eq] at hPhi
    rw [operands_told] at hv
    have hReady : x ≠ s → f.Ready x l v →
        (g.rewrite b (·.map (·.moveIncoming a s))).Ready x (l.map (told a b s x)) v := by
      intro hxs hReady
      rcases hReady with ⟨k, hk, hId⟩ | ⟨d, hne, hd, hDef⟩
      · exact .inl ⟨_, List.mem_map_of_mem hk, (like_told a b s x k).id_eq.trans hId⟩
      · exact .inr ⟨d, hne, hCarry v d x hxs hd hDef⟩
    have hx' := live hg hl ((hLive x).mp hx)
    rcases code_cases hg hEq with ⟨later', hEq'⟩ | ⟨rfl, rfl, -, old, hOld, hTerm, hOps⟩ | ⟨-, -, hOps⟩
    · have hxs : x ≠ s := hEmpty j (by simp [hEq'])
      exact hReady hxs (hf.operand x (hx'.1 hxs) l j later' hEq' hPhi v hv)
    · have hxs := first_ne hg
      rw [hOps] at hv
      exact hReady hxs (hf.operand x (hx'.1 hxs) l old [] hOld
        (isPhi_eq_false_of_isTerminator hTerm) v hv)
    · rw [hOps] at hv
      exact absurd hv List.not_mem_nil
  · intro x hx i hi incoming hOp p hp hp'
    rw [hCode] at hi
    obtain ⟨j, hj, rfl⟩ := List.mem_map.mp hi
    have hPhi : j.isPhi = true := by
      rw [← (like_told a b s x j).isPhi_eq, Inst.isPhi, hOp]
      rfl
    have hj' : j ∈ f.code x := by
      rcases mem_code hg hj with hj | hTerm
      · exact hj
      · rw [isPhi_eq_false_of_isTerminator hTerm] at hPhi
        cases hPhi
    have hx' := (live hg hl ((hLive x).mp hx)).1 (hEmpty j hj')
    have hp'' := live hg hl ((hLive p.block).mp hp')
    -- A pair that is not renamed belongs to a predecessor, which is not the new block.
    have hKept : ∀ incoming', j.op = .phi incoming' → p ∈ incoming' →
        (g.rewrite b (·.map (·.moveIncoming a s))).Arrives p.block p.value := by
      intro incoming' hOp' hp
      have hRef : p.block ∈ j.op.blockRefs := by
        rw [hOp']
        exact List.mem_map_of_mem hp
      have edge := ((hf.pairs x j hj' hPhi).2.2 p.block).mp hRef
      obtain ⟨k, hk, -⟩ := (hf.mem_succs p.block x).mp edge
      have hps := hEmpty k hk
      obtain ⟨d, hd, hDef⟩ := hf.incoming x hx' j hj' incoming' hOp' p hp (hp''.1 hps)
      exact ⟨d, hCarry _ d _ hps hd hDef⟩
    rw [told] at hOp
    split at hOp
    · rcases j with ⟨id, ty, known, op⟩
      cases op with
      | phi incoming' =>
        obtain rfl : incoming'.map _ = incoming := Op.phi.inj hOp
        obtain ⟨q, hq, rfl⟩ := List.mem_map.mp hp
        by_cases hqa : q.block = a
        · simp only [hqa, if_true] at hp'' ⊢
          obtain ⟨d, hd, hDef⟩ :=
            hf.incoming x hx' _ hj' incoming' rfl q hq (hqa ▸ hp''.2 trivial)
          refine ⟨d, guards_congr hSuccs rfl (guards_new hg hl (hqa ▸ hd)), ?_⟩
          rw [computes_of_map (like_told a b s) hCode, computes_iff hg]
          exact hDef
        · simp only [hqa, if_false] at hKept ⊢
          exact hKept incoming' rfl hq
      | _ => cases hPhi
    · exact hKept incoming hOp hp

end

end Bridge

/-! ## Splitting -/

/-- An edge is led through an empty block that nothing leads to, unless the terminator reads a value
that is not there without it; then only the new block has changed. -/
theorem rewire_cases (hf : f.Sequenced) (hm : f.Mirrored) (hs : f.hasBlock s = true)
    (hEmpty : f.code s = []) (hUnled : ∀ q, ¬ s ∈ f.succs q) (hEntry : f.entry ≠ some s)
    (edge : b ∈ f.succs a) {old : Inst} (hCode : f.code a = front ++ [old])
    (hOld : old.isTerminator = true) :
    (∃ v g, f.rewire a b s old = .ok v g ∧ Bridge f a b s front g) ∨
      ∃ err jump mid, f.rewire a b s old = .fail err mid ∧ Exchanged f s [] jump mid ∧
        ∃ v ∈ old.op.operands, (mid.dropTerminator a old).hasValue v = false := by
  have has : a ≠ s := by
    rintro rfl
    rw [hEmpty] at hCode
    simp at hCode
  have hNone := hf.not_mem_succs_of_empty hEmpty
  obtain ⟨mid, hAppend, hMid⟩ := append_exchanged (f := f) (b := s) .void (.jump b) rfl hs
    (by simp [hEmpty]) hNone (fun v hv => absurd hv List.not_mem_nil)
    (fun c hc => List.mem_singleton.mp hc ▸ hm.hasBlock_target edge)
  rw [hEmpty] at hMid
  have hMidCode : mid.code a = front ++ [old] := by rw [hMid.code_of_ne a has, hCode]
  have hMidSeq := hMid.sequenced hf
  rcases replaceTerminator_cases old.ty (old.op.mapBlocks fun t => if t = b then s else t)
    (hMid.frame.mirrored hm) hMidCode hOld (hMidSeq.not_isTerminator_front hMidCode)
    (fun _ => hMidSeq.mem_succs_of_last hMidCode)
    (by rw [Op.isTerminator_mapBlocks]; exact hOld)
    (by
      intro c hc
      obtain ⟨t, ht, rfl⟩ := mem_targets_mapBlocks.mp hc
      rw [hMid.frame.hasBlock_eq]
      split
      · exact hs
      · exact hm.hasBlock_target ((hf.mem_succs_of_last hCode).mpr ht)) with
    ⟨g, hReplace, hEx⟩ | ⟨err, hReplace, v, hv, hMissing⟩
  · refine .inl ⟨⟨mid.ids.nextValue⟩, g, ?_, hEmpty, hUnled, hEntry, edge, mid, _, old, _, hMid, rfl,
      hCode, hOld, hEx, rfl⟩
    rw [rewire, hAppend, Outcome.andThen_ok, hReplace]
  · rw [Op.operands_mapBlocks] at hv
    refine .inr ⟨err, _, mid, ?_, hMid, v, hv, hMissing⟩
    rw [rewire, hAppend, Outcome.andThen_ok, hReplace]

theorem Sequenced.terminator?_of_mem_succs (hf : f.Sequenced) (edge : b ∈ f.succs a) :
    ∃ old, (f.block? a).bind (·.terminator?) = some old := by
  obtain ⟨i, hi, hb⟩ := (hf.mem_succs a b).mp edge
  have hTerm := isTerminator_of_mem_targets hb
  obtain ⟨blk, hBlk, -⟩ := mem_code_iff.mp hi
  obtain ⟨front, back, hCode⟩ := List.append_of_mem hi
  obtain rfl := hf.terminator_last hCode hTerm
  exact ⟨i, Option.bind_eq_some_iff.mpr ⟨blk, hBlk, terminator?_of_code hBlk hCode hTerm⟩⟩

theorem isCritical_iff : f.isCritical a b = true ↔
    b ∈ f.succs a ∧ 1 < (f.succs a).size ∧ 1 < (f.preds b).size := by
  rw [isCritical, succs, preds]
  cases f.block? a with
  | none => simp
  | some blkA =>
    cases f.block? b with
    | none => simp [SortedSet.size]
    | some blkB => exact decide_eq_true_iff

/-- A critical edge is led through a new block, or the new block is taken away again because the
terminator reads a value that is not there without it. Nothing happens to another edge. -/
theorem splitEdge_cases (hf : f.Sequenced) (ha : f.Arranged) (a b : BlockId) :
    (f.isCritical a b = false ∧ f.splitEdge a b = (none, f)) ∨
      f.isCritical a b = true ∧ ∃ s label mid front old, Grown f s label mid ∧ mid.Arranged ∧
        mid.entry = f.entry ∧ f.entry ≠ some s ∧ mid.code a = front ++ [old] ∧
        old.isTerminator = true ∧
        ((∃ g, Bridge mid a b s front g ∧
            f.splitEdge a b = (some s, g.rewrite b (·.map (·.moveIncoming a s)))) ∨
          ∃ jump g, Exchanged mid s [] jump g ∧ f.splitEdge a b = (none, (g.removeBlock s).2) ∧
            ∃ v ∈ old.op.operands, (g.dropTerminator a old).hasValue v = false) := by
  cases hCritical : f.isCritical a b with
  | false =>
    refine .inl ⟨rfl, ?_⟩
    rw [Func.splitEdge, hCritical]
    split
    · rename_i hTrue
      cases hTrue
    · rfl
  | true =>
    have edge := (isCritical_iff.mp hCritical).1
    obtain ⟨old, hOld⟩ := hf.terminator?_of_mem_succs edge
    obtain ⟨front, hCode, hTerm⟩ := code_of_terminator? hOld
    have hRefuse := f.refuseLabel?_splitLabel a b
    have hLabel := refuseLabel?_eq_none.mp hRefuse
    obtain ⟨e, hEntry⟩ := ha.exists_entry (hasBlock_of_mem_succs edge)
    have hNew := ha.not_hasBlock_next
    have hGrown := addBlock_grown f (f.splitLabel a b) hNew
    have hArranged := hGrown.arranged ha hLabel.1 (blockByLabel?_eq_none_iff.mp hLabel.2)
    have hSuccs := fun x c => hGrown.succs_eq ha (c := c) x
    have hMid : (f.addBlock (f.splitLabel a b)).Sequenced := by
      refine ⟨fun x => ?_, fun x c => ?_⟩
      · rw [hGrown.code_eq ha]
        exact hf.ordered x
      · rw [hGrown.code_eq ha, hSuccs, hf.mem_succs]
    have hEntry' : (f.addBlock (f.splitLabel a b)).entry = f.entry := by
      rw [hGrown.entry_eq, hEntry]
      rfl
    have hNotEntry : f.entry ≠ some ⟨f.ids.nextBlock⟩ := by
      intro hEq
      rw [ha.entry_mem _ hEq] at hNew
      cases hNew
    refine .inr ⟨rfl, ⟨f.ids.nextBlock⟩, f.splitLabel a b, f.addBlock (f.splitLabel a b), front, old,
      hGrown, hArranged, hEntry', hNotEntry, (hGrown.code_eq ha a).trans hCode, hTerm, ?_⟩
    have hCreate : f.createBlock (f.splitLabel a b) =
        ⟨.ok ⟨f.ids.nextBlock⟩, f.addBlock (f.splitLabel a b)⟩ := by
      rw [createBlock, hRefuse]
      rfl
    rw [Func.splitEdge, hCritical, hOld]
    simp only [hCreate]
    rcases rewire_cases hMid hArranged.mirrored ((hGrown.hasBlock_iff _).mpr (.inl rfl))
      hGrown.code_self
      (fun q edge => ha.mirrored.not_mem_succs_of_not_hasBlock hNew q ((hSuccs q _).mp edge))
      (hEntry' ▸ hNotEntry) ((hSuccs a b).mpr edge) ((hGrown.code_eq ha a).trans hCode) hTerm with
      ⟨v, g, hRewire, hBridge⟩ | ⟨err, jump, g, hRewire, hJump, v, hv, hMissing⟩
    · refine .inl ⟨g, hBridge, ?_⟩
      rw [Outcome.ok] at hRewire
      simp only [hRewire, retargetIncoming_eq]
    · refine .inr ⟨jump, g, hJump, ?_, v, hv, hMissing⟩
      rw [Outcome.fail] at hRewire
      simp only [hRewire]

/-- In a lawful function the new block is never taken away again, because what the old terminator
reads is there without it. -/
theorem Lawful.splitEdge_cases (hf : f.Lawful) (a b : BlockId) :
    (f.isCritical a b = false ∧ f.splitEdge a b = (none, f)) ∨
      f.isCritical a b = true ∧ ∃ s label mid front g, Grown f s label mid ∧ mid.Arranged ∧
        mid.entry = f.entry ∧ Bridge mid a b s front g ∧
        f.splitEdge a b = (some s, g.rewrite b (·.map (·.moveIncoming a s))) := by
  refine (Func.splitEdge_cases hf.toSequenced hf.toArranged a b).imp id ?_
  rintro ⟨hCritical, s, label, mid, front, old, hGrown, hArranged, hEntry, -, hCode, hOld,
    ⟨g, hBridge, hEq⟩ | ⟨jump, g, hJump, -, v, hv, hMissing⟩⟩
  · exact ⟨hCritical, s, label, mid, front, g, hGrown, hArranged, hEntry, hBridge, hEq⟩
  · have hMid := hGrown.lawful hf hArranged hEntry
    have hne : a ≠ s := by
      rintro rfl
      rw [hGrown.code_self] at hCode
      simp at hCode
    obtain ⟨ty, known, hHeld⟩ := (hMid.reads a old (by simp [hCode])).operand v hv
    rw [hasValue_dropTerminator (hJump.frame.framed hMid.toFramed) (hJump.code_of_ne a hne ▸ hCode)
      hOld (hJump.holds_iff.mp hHeld)] at hMissing
    cases hMissing

theorem RegularFrom.splitEdge (hf : f.RegularFrom e) (a b : BlockId) :
    (f.splitEdge a b).2.RegularFrom e := by
  rcases hf.toLawful.splitEdge_cases a b with
    ⟨-, hEq⟩ | ⟨-, s, label, mid, front, g, hGrown, hArranged, hEntry, hBridge, hEq⟩
  · rwa [hEq]
  · rw [hEq]
    refine ⟨hBridge.regular (hGrown.regular hf.toRegular hArranged hEntry), ?_⟩
    change g.entry = some e
    rw [hBridge.frame.entry_eq, hEntry, hf.entry_eq]

/-- What splitting any edge keeps, splitting all critical ones keeps. -/
theorem splitAll_induct {P : Func → Prop} (hStep : ∀ g a b, P g → P (g.splitEdge a b).2)
    (hf : P f) : P f.splitAll.2 := by
  have hFrom : ∀ g a, P g → P (g.splitFrom a).2 := by
    intro g a hg
    refine List.foldlRecOn _ _ (motive := fun s : Nat × Func => P s.2) hg fun s hs b _ => ?_
    have hNext := hStep s.2 a b hs
    rcases hSplit : s.2.splitEdge a b with ⟨done, h⟩
    rw [hSplit] at hNext
    cases done <;> simpa [hSplit] using hNext
  exact List.foldlRecOn _ _ (motive := fun s : Nat × Func => P s.2) hf fun s hs a _ => hFrom s.2 a hs

theorem RegularFrom.splitAll (hf : f.RegularFrom e) : f.splitAll.2.RegularFrom e :=
  splitAll_induct (P := (RegularFrom · e)) (fun _ a b hg => hg.splitEdge a b) hf

end Func

end Midend
