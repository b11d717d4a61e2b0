import Midend.Proofs.Flow.Bypass
import Midend.Proofs.Func.Lawful

/-!
# Restricting a function to some of its blocks

The blocks that are kept must be closed under edges and contain the entry, and what they read must
be computed in them. Then the restricted function is as lawful and as strict as the whole one.
Removing unreachable blocks restricts a function to the blocks in reach; removing a trampoline that
nothing leads to any more is the same with one block.
-/

namespace Midend

namespace Func

variable {f g : Func} {a b c d x : BlockId} {v : ValueId} {keep : BlockId → Bool}

/-- The second function is the first one with only the blocks of a kind, and phis have no pairs for
the others. -/
structure Restricts (f : Func) (keep : BlockId → Bool) (g : Func) : Prop where
  name_eq : g.name = f.name
  layout_eq : g.layout = f.layout.filter keep
  entry_eq : g.entry = f.entry
  ids_eq : g.ids = f.ids
  hasBlock_iff : ∀ x, g.hasBlock x = true ↔ keep x = true ∧ f.hasBlock x = true
  label?_eq : ∀ x, keep x = true → g.label? x = f.label? x
  code_eq : ∀ x, keep x = true → g.code x = (f.code x).map (·.keepIncoming keep)
  mem_succs : ∀ x c, c ∈ g.succs x ↔ c ∈ f.succs x ∧ keep x = true ∧ keep c = true
  named : g.Named
  mirrored : g.Mirrored

/-- The blocks of a kind can do without the others. -/
structure Sufficient (f : Func) (keep : BlockId → Bool) : Prop where
  entry : ∀ e, f.entry = some e → keep e = true
  closed : ∀ a b, keep a = true → b ∈ f.succs a → keep b = true
  defined : ∀ b, keep b = true → ∀ i ∈ f.code b, ∀ v ∈ (i.keepIncoming keep).op.operands,
    ∃ c, keep c = true ∧ f.DefinedIn v c
  entered : ∀ b, keep b = true → ∀ i ∈ f.code b, i.isPhi = true →
    ∃ a, b ∈ f.succs a ∧ keep a = true

/-- Blocks taken away after the pairs that phis have for them. -/
theorem Shrunk.restricts {mid : Func} (h : Shrunk mid keep g) (hSame : SameFrame f mid)
    (hIds : mid.ids = f.ids) (hSuccs : ∀ x, mid.succs x = f.succs x)
    (hCode : ∀ x, keep x = true → mid.code x = (f.code x).map (·.keepIncoming keep))
    (hf : f.Framed) : Restricts f keep g where
  name_eq := h.name_eq.trans hSame.name_eq
  layout_eq := by rw [h.layout_eq, hSame.layout_eq]
  entry_eq := h.entry_eq.trans hSame.entry_eq
  ids_eq := h.ids_eq.trans hIds
  hasBlock_iff x := by rw [h.hasBlock_iff, hSame.hasBlock_eq]
  label?_eq x hx := (h.label?_eq x hx).trans (hSame.label?_eq x)
  code_eq x hx := (h.code_eq x hx).trans (hCode x hx)
  mem_succs x c := by rw [h.mem_succs, hSuccs]
  named := h.named (hSame.named hf.named)
  mirrored := h.mirrored (hSame.mirrored hf.mirrored)

namespace Restricts

theorem code_of_not_keep (h : Restricts f keep g) (hx : keep x = false) : g.code x = [] := by
  refine code_of_not_hasBlock ?_
  by_contra hHas
  rw [Bool.not_eq_false, h.hasBlock_iff, hx] at hHas
  cases hHas.1

/-- Every instruction that is left comes from a block that is kept. -/
theorem mem_code (h : Restricts f keep g) {i : Inst} :
    i ∈ g.code x ↔ keep x = true ∧ ∃ j ∈ f.code x, i = j.keepIncoming keep := by
  cases hx : keep x with
  | false => simp [h.code_of_not_keep hx]
  | true =>
    rw [h.code_eq x hx, List.mem_map]
    simp only [true_and]
    exact exists_congr fun j => and_congr_right fun _ => eq_comm

theorem computes_iff (h : Restricts f keep g) :
    g.Computes x v ↔ keep x = true ∧ f.Computes x v := by
  constructor
  · intro hv
    have hx : keep x = true := by
      obtain ⟨i, hi, -⟩ := hv
      exact (h.mem_code.mp hi).1
    refine ⟨hx, hv.of_like fun i hi _ _ => ?_⟩
    obtain ⟨-, j, hj, rfl⟩ := h.mem_code.mp hi
    exact ⟨j, hj, (Inst.like_keepIncoming keep j).symm⟩
  · rintro ⟨hx, hv⟩
    exact hv.of_like fun i hi _ _ =>
      ⟨_, h.mem_code.mpr ⟨hx, i, hi, rfl⟩, Inst.like_keepIncoming keep i⟩

theorem holds_iff (h : Restricts f keep g) (hf : f.Numbered)
    (hv : ∃ c, keep c = true ∧ f.DefinedIn v c) (ty : Ty) (known : Bool) :
    f.Holds v ty known ↔ g.Holds v ty known := by
  constructor
  · refine fun hHeld => hHeld.of_like fun b i hi _ hId => ?_
    obtain ⟨c, hc, hv⟩ := hv
    obtain ⟨j, hj, hId'⟩ := definedIn_iff.mp hv
    obtain ⟨rfl, rfl⟩ := hf.eq_of_id_eq hi hj (hId.trans hId'.symm)
    exact ⟨b, _, h.mem_code.mpr ⟨hc, i, hi, rfl⟩, Inst.like_keepIncoming keep i⟩
  · refine fun hHeld => hHeld.of_like fun b i hi _ _ => ?_
    obtain ⟨-, j, hj, rfl⟩ := h.mem_code.mp hi
    exact ⟨b, j, hj, (Inst.like_keepIncoming keep j).symm⟩

theorem framed (h : Restricts f keep g) (hf : f.Framed) (hKeep : f.Sufficient keep) :
    g.Framed := by
  refine hf.of_subset h.name_eq ?_ ?_ h.entry_eq (by rw [h.ids_eq]) ?_ ?_ h.named h.mirrored
  · rw [h.layout_eq]
    exact hf.layout_nodup.filter _
  · intro x
    rw [h.layout_eq, List.mem_filter, hf.mem_layout, h.hasBlock_iff, and_comm]
  · intro x hx
    obtain ⟨hKept, hHas⟩ := (h.hasBlock_iff x).mp hx
    exact ⟨hHas, h.label?_eq x hKept⟩
  · exact fun e he => (h.hasBlock_iff e).mpr ⟨hKeep.entry e he, hf.entry_mem e he⟩

theorem numbered (h : Restricts f keep g) (hf : f.Numbered) : g.Numbered := by
  apply hf.of_sublist (by rw [h.ids_eq])
  intro b
  cases hb : keep b with
  | false => simp [h.code_of_not_keep hb]
  | true => simp [h.code_eq b hb, Function.comp_def]

theorem sequenced (h : Restricts f keep g) (hf : f.Sequenced) (hKeep : f.Sufficient keep) :
    g.Sequenced where
  ordered b := by
    cases hb : keep b with
    | false => simp [h.code_of_not_keep hb]
    | true =>
      rw [h.code_eq b hb]
      exact Inst.pairwise_precedes_map (fun _ => Inst.isPhi_keepIncoming)
        (fun _ => Inst.isTerminator_keepIncoming) (hf.ordered b)
  mem_succs a b := by
    rw [h.mem_succs, hf.mem_succs]
    constructor
    · rintro ⟨⟨i, hi, hb⟩, ha, -⟩
      exact ⟨_, h.mem_code.mpr ⟨ha, i, hi, rfl⟩, by simpa using hb⟩
    · rintro ⟨i, hi, hb⟩
      obtain ⟨ha, j, hj, rfl⟩ := h.mem_code.mp hi
      rw [Inst.targets_keepIncoming] at hb
      exact ⟨⟨j, hj, hb⟩, ha, hKeep.closed a b ha ((hf.mem_succs a b).mpr ⟨j, hj, hb⟩)⟩

theorem wired (h : Restricts f keep g) (hf : f.Wired) (hKeep : f.Sufficient keep) : g.Wired where
  toSequenced := h.sequenced hf.toSequenced hKeep
  pairs b i hi := by
    obtain ⟨hb, j, hj, rfl⟩ := h.mem_code.mp hi
    refine ((hf.pairs b j hj).keepIncoming (hKeep.entered b hb j hj)).congr fun a => ?_
    rw [h.mem_succs]
    exact ⟨fun ⟨hEdge, ha⟩ => ⟨hEdge, ha, hb⟩, fun ⟨hEdge, ha, _⟩ => ⟨hEdge, ha⟩⟩

theorem coded (h : Restricts f keep g) (hf : f.Coded) (hKeep : f.Sufficient keep) : g.Coded where
  toNumbered := h.numbered hf.toNumbered
  toSequenced := h.sequenced hf.toSequenced hKeep
  reads b i hi := by
    obtain ⟨hb, j, hj, rfl⟩ := h.mem_code.mp hi
    exact (hf.reads b j hj).keepIncoming.congr fun v hv =>
      h.holds_iff hf.toNumbered (hKeep.defined b hb j hj v hv)
  pairs := (h.wired hf.toWired hKeep).pairs
  entry_first e he a hEdge := by
    rw [h.entry_eq] at he
    exact hf.entry_first e he a ((h.mem_succs a e).mp hEdge).1

theorem lawful (h : Restricts f keep g) (hf : f.Lawful) (hKeep : f.Sufficient keep) : g.Lawful :=
  ⟨h.framed hf.toFramed hKeep, h.coded hf.toCoded hKeep⟩

theorem live (h : Restricts f keep g) (hKeep : f.Sufficient keep) (hb : g.Live b) :
    f.Live b ∧ keep b = true := by
  refine hb.induct (P := fun b => f.Live b ∧ keep b = true) ?_ ?_
  · intro e he
    rw [h.entry_eq] at he
    exact ⟨⟨e, he, .refl e⟩, hKeep.entry e he⟩
  · intro a b _ ha edge
    obtain ⟨edge, -, hb⟩ := (h.mem_succs a b).mp edge
    exact ⟨ha.1.step edge, hb⟩

theorem guards (h : Restricts f keep g) (hd : f.Guards d b) : g.Guards d b := by
  rw [guards_iff_not_bypasses] at hd ⊢
  refine fun hBy => hd (hBy.induct ?_ ?_)
  · intro e he hne
    exact .entry (h.entry_eq ▸ he) hne
  · intro a b _ ha edge hne
    exact ha.step ((h.mem_succs a b).mp edge).1 hne

/-- A block that guards another one in reach is in reach, and so it is kept. -/
theorem computes_of_guards (h : Restricts f keep g) (hKeep : f.Sufficient keep) (hb : g.Live b)
    (hd : f.Guards d b) (hv : f.Computes d v) : g.Computes d v :=
  h.computes_iff.mpr ⟨(h.live hKeep ((h.guards hd).live hb)).2, hv⟩

theorem scope (h : Restricts f keep g) (hKeep : f.Sufficient keep) (hf : f.Scoped) :
    g.Scoped where
  operand b hb earlier i later hCode hPhi v hv := by
    obtain ⟨hLive, hKept⟩ := h.live hKeep hb
    rw [h.code_eq b hKept, List.map_eq_append_iff] at hCode
    obtain ⟨front, back, hEq, rfl, hBack⟩ := hCode
    obtain ⟨j, rest, rfl, rfl, rfl⟩ := List.map_eq_cons_iff.mp hBack
    have hv' := Inst.mem_operands_keepIncoming hv
    rcases hf.operand b hLive front j rest hEq (by simpa using hPhi) v hv' with
      ⟨k, hk, hId⟩ | ⟨d, hne, hd, hDef⟩
    · exact .inl ⟨_, List.mem_map_of_mem hk, by simpa using hId⟩
    · exact .inr ⟨d, hne, h.guards hd, h.computes_of_guards hKeep hb hd hDef⟩
  incoming b hb i hi incoming hOp p hp hLive := by
    obtain ⟨-, j, hj, rfl⟩ := h.mem_code.mp hi
    have hp' : ∃ incoming', j.op = .phi incoming' ∧ p ∈ incoming' := by
      rcases j with ⟨id, ty, known, op⟩
      cases op with
      | phi incoming' =>
        obtain rfl : incoming'.filter (keep ·.block) = incoming := Op.phi.inj hOp
        exact ⟨incoming', rfl, (List.mem_filter.mp hp).1⟩
      | _ => cases hOp
    obtain ⟨incoming', hOp', hp'⟩ := hp'
    obtain ⟨d, hd, hDef⟩ := hf.incoming b (h.live hKeep hb).1 j hj incoming' hOp' p hp'
      (h.live hKeep hLive).1
    exact ⟨d, h.guards hd, h.computes_of_guards hKeep hLive hd hDef⟩

theorem regular (h : Restricts f keep g) (hf : f.Regular) (hKeep : f.Sufficient keep) : g.Regular :=
  ⟨h.lawful hf.toLawful hKeep, h.scope hKeep hf.toScoped⟩

end Restricts

end Func

end Midend
