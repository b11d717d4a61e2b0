import Midend.Proofs.Flow.Dominance
import Midend.Proofs.Func.Requests

/-!
# Lawful functions

A consistent function that passes the examination and whose operands name no terminators, said of
the code of its blocks and its edges. This is the form in which the passes are shown to keep it.

* `Func.Arranged`: the blocks, their labels and the entry; `Func.Framed`: moreover the name.
* `Func.Numbered`: the names of the instructions.
* `Func.Sequenced`: their order and the edges that they ask for.
* `Func.Wired`: moreover the pairs of phis, which a pass may have to put right after the edges.
* `Func.Listed`: numbered and sequenced, and what the instructions read.
* `Func.Coded`: listed and wired, and nothing leads to the entry.
* `Func.Lawful`: both.
* `Func.Scoped`: every value is computed before it is read, whichever way control takes.
* `Func.Regular`: lawful and scoped; `Func.RegularFrom`: moreover with the given entry.
-/

namespace Midend

namespace Func

variable {f g : Func} {a b c d e x : BlockId} {i j : Inst} {v : ValueId} {l : List Inst}

/-- The function holds a value, which is no terminator, of the given name, type and flag. -/
def Holds (f : Func) (v : ValueId) (ty : Ty) (known : Bool) : Prop :=
  ∃ b, ∃ i ∈ f.code b, i.isTerminator = false ∧ i.id = v ∧ i.ty = ty ∧ i.comptime = known

/-- The block computes a value of the given name that is no terminator. -/
def Computes (f : Func) (b : BlockId) (v : ValueId) : Prop :=
  ∃ i ∈ f.code b, i.isTerminator = false ∧ i.id = v

/-- The blocks of a function, their labels and the entry agree with each other. -/
structure Arranged (f : Func) : Prop where
  layout_nodup : f.layout.Nodup
  mem_layout : ∀ b, b ∈ f.layout ↔ f.hasBlock b = true
  named : f.Named
  label_ne : ∀ b, f.label? b ≠ some ""
  label_inj : ∀ a b l, f.label? a = some l → f.label? b = some l → a = b
  mirrored : f.Mirrored
  entry_mem : ∀ e, f.entry = some e → f.hasBlock e = true
  entry_none : f.entry = none → f.layout = []
  block_lt : ∀ b, f.hasBlock b = true → b.index < f.ids.nextBlock

/-- Moreover the function has a name. -/
structure Framed (f : Func) : Prop extends Arranged f where
  name_ne : f.name ≠ ""

/-- Names tell the instructions of a function apart, and have all been handed out. -/
structure Numbered (f : Func) : Prop where
  value_lt : ∀ b, ∀ i ∈ f.code b, i.id.index < f.ids.nextValue
  nodup : ∀ b, ((f.code b).map (·.id)).Nodup
  inj : ∀ a b, ∀ i ∈ f.code a, ∀ j ∈ f.code b, i.id = j.id → a = b

/-- The instructions are in order and have the edges that they ask for. -/
structure Sequenced (f : Func) : Prop where
  ordered : ∀ b, (f.code b).Pairwise Inst.Precedes
  mem_succs : ∀ a b, b ∈ f.succs a ↔ ∃ i ∈ f.code a, b ∈ i.op.targets

/-- Moreover phis have one pair for each predecessor. -/
structure Wired (f : Func) : Prop extends Sequenced f where
  pairs : ∀ b, ∀ i ∈ f.code b, i.PairsUp fun a => b ∈ f.succs a

/-- The instructions are in order, read what they should, and have the edges that they ask for. -/
structure Listed (f : Func) : Prop extends Numbered f, Sequenced f where
  reads : ∀ b, ∀ i ∈ f.code b, i.ReadsFrom f.Holds

/-- Moreover phis have one pair for each predecessor, and nothing leads to the entry. -/
structure Coded (f : Func) : Prop extends Listed f, Wired f where
  entry_first : ∀ e, f.entry = some e → ∀ a, ¬ e ∈ f.succs a

/-- A consistent function that passes the examination and whose operands name no terminators. -/
structure Lawful (f : Func) : Prop extends Framed f, Coded f

/-- The value comes earlier in its block or in another one on every way to it. -/
def Ready (f : Func) (b : BlockId) (earlier : List Inst) (v : ValueId) : Prop :=
  (∃ i ∈ earlier, i.id = v) ∨ ∃ d, d ≠ b ∧ f.Guards d b ∧ f.Computes d v

/-- The value comes on every way to the end of the block. -/
def Arrives (f : Func) (b : BlockId) (v : ValueId) : Prop := ∃ d, f.Guards d b ∧ f.Computes d v

/-- Every value that is read where control can be has been computed. -/
structure Scoped (f : Func) : Prop where
  operand : ∀ b, f.Live b → ∀ earlier i later, f.code b = earlier ++ i :: later →
    i.isPhi = false → ∀ v ∈ i.op.operands, f.Ready b earlier v
  incoming : ∀ b, f.Live b → ∀ i ∈ f.code b, ∀ incoming, i.op = .phi incoming →
    ∀ p ∈ incoming, f.Live p.block → f.Arrives p.block p.value

/-- Lawful, and every value is computed before it is read. -/
structure Regular (f : Func) : Prop extends Lawful f, Scoped f

/-- Regular, with a block where control enters: what every pass keeps. -/
structure RegularFrom (f : Func) (e : BlockId) : Prop extends Regular f where
  entry_eq : f.entry = some e

/-! ## First consequences -/

/-- A function with some of the blocks of another, and their labels. -/
theorem Arranged.of_subset (hf : f.Arranged) (hNodup : g.layout.Nodup)
    (hLayout : ∀ x, x ∈ g.layout ↔ g.hasBlock x = true)
    (hNext : g.ids.nextBlock = f.ids.nextBlock)
    (hSub : ∀ x, g.hasBlock x = true → f.hasBlock x = true ∧ g.label? x = f.label? x)
    (hEntry : ∀ e, g.entry = some e → g.hasBlock e = true)
    (hNone : g.entry = none → g.layout = []) (hNamed : g.Named) (hMirrored : g.Mirrored) :
    g.Arranged := by
  have hHas : ∀ x l, g.label? x = some l → g.hasBlock x = true := by
    intro x l hx
    rw [← label?_isSome, hx]
    rfl
  refine ⟨hNodup, hLayout, hNamed, ?_, ?_, hMirrored, hEntry, hNone, ?_⟩
  · intro b hb
    rw [(hSub b (hHas b _ hb)).2] at hb
    exact hf.label_ne b hb
  · intro a b l ha hb
    rw [(hSub a (hHas a l ha)).2] at ha
    rw [(hSub b (hHas b l hb)).2] at hb
    exact hf.label_inj a b l ha hb
  · intro b hb
    rw [hNext]
    exact hf.block_lt b (hSub b hb).1

theorem Framed.of_subset (hf : f.Framed) (hName : g.name = f.name) (hNodup : g.layout.Nodup)
    (hLayout : ∀ x, x ∈ g.layout ↔ g.hasBlock x = true) (hEntry : g.entry = f.entry)
    (hNext : g.ids.nextBlock = f.ids.nextBlock)
    (hSub : ∀ x, g.hasBlock x = true → f.hasBlock x = true ∧ g.label? x = f.label? x)
    (hKept : ∀ e, f.entry = some e → g.hasBlock e = true) (hNamed : g.Named)
    (hMirrored : g.Mirrored) : g.Framed := by
  refine ⟨hf.toArranged.of_subset hNodup hLayout hNext hSub (fun e he => hKept e (hEntry ▸ he)) ?_
    hNamed hMirrored, hName ▸ hf.name_ne⟩
  intro he
  refine List.eq_nil_iff_forall_not_mem.mpr fun x hx => ?_
  have hx' := (hf.mem_layout x).mpr (hSub x ((hLayout x).mp hx)).1
  rw [hf.entry_none (hEntry ▸ he)] at hx'
  exact List.not_mem_nil hx'

theorem SameFrame.arranged (hSame : SameFrame f g) (hf : f.Arranged) : g.Arranged := by
  refine hf.of_subset ?_ ?_ hSame.nextBlock_eq ?_ ?_ ?_ (hSame.named hf.named)
    (hSame.mirrored hf.mirrored)
  · rw [hSame.layout_eq]
    exact hf.layout_nodup
  · intro x
    rw [hSame.layout_eq, hSame.hasBlock_eq]
    exact hf.mem_layout x
  · intro x hx
    exact ⟨hSame.hasBlock_eq x ▸ hx, hSame.label?_eq x⟩
  · intro e he
    rw [hSame.hasBlock_eq]
    exact hf.entry_mem e (hSame.entry_eq ▸ he)
  · rw [hSame.entry_eq, hSame.layout_eq]
    exact hf.entry_none

theorem SameFrame.framed (hSame : SameFrame f g) (hf : f.Framed) : g.Framed :=
  ⟨hSame.arranged hf.toArranged, hSame.name_eq ▸ hf.name_ne⟩

theorem isTerminator_of_mem_targets (h : b ∈ i.op.targets) : i.isTerminator = true := by
  rcases i with ⟨id, ty, known, op⟩
  cases op <;> first | rfl | exact absurd h List.not_mem_nil

theorem isPhi_eq_false_of_isTerminator (h : i.isTerminator = true) : i.isPhi = false :=
  isPhi_of_isTerminator h

theorem isTerminator_eq_false_of_isPhi (h : i.isPhi = true) : i.isTerminator = false := by
  cases hTerm : i.isTerminator with
  | false => rfl
  | true =>
    rw [isPhi_eq_false_of_isTerminator hTerm] at h
    cases h

/-- A name belongs to one instruction. -/
theorem Numbered.eq_of_id_eq (hf : f.Numbered) (hi : i ∈ f.code a) (hj : j ∈ f.code b)
    (h : i.id = j.id) : a = b ∧ i = j := by
  obtain rfl := hf.inj a b i hi j hj h
  exact ⟨rfl, List.inj_on_of_nodup_map (hf.nodup a) hi hj h⟩

theorem Numbered.id_ne_next (hf : f.Numbered) (hi : i ∈ f.code b) : i.id ≠ ⟨f.ids.nextValue⟩ := by
  intro hEq
  have hLt := hf.value_lt b i hi
  rw [hEq] at hLt
  exact Nat.lt_irrefl _ hLt

/-- Every instruction has the name of one that was there, and instructions of one block have stayed
together. -/
theorem Numbered.of_origin (hf : f.Numbered) (hNext : g.ids.nextValue = f.ids.nextValue)
    (seat : BlockId → BlockId)
    (hOrigin : ∀ x, ∀ i ∈ g.code x, ∃ y, ∃ j ∈ f.code y, x = seat y ∧ i.id = j.id)
    (hNodup : ∀ x, ((g.code x).map (·.id)).Nodup) : g.Numbered := by
  refine ⟨?_, hNodup, ?_⟩
  · intro x i hi
    obtain ⟨y, j, hj, -, hId⟩ := hOrigin x i hi
    rw [hNext, hId]
    exact hf.value_lt y j hj
  · intro x x' i hi i' hi' hEq
    obtain ⟨y, j, hj, rfl, hId⟩ := hOrigin x i hi
    obtain ⟨y', j', hj', rfl, hId'⟩ := hOrigin x' i' hi'
    have hSame : j.id = j'.id := by rw [← hId, ← hId', hEq]
    rw [hf.inj y y' j hj j' hj' hSame]

theorem Numbered.of_sublist (hf : f.Numbered) (hNext : g.ids.nextValue = f.ids.nextValue)
    (hIds : ∀ x, ((g.code x).map (·.id)).Sublist ((f.code x).map (·.id))) : g.Numbered := by
  apply hf.of_origin hNext id
  · intro x i hi
    have hMem := (hIds x).subset (List.mem_map_of_mem hi)
    obtain ⟨j, hj, hId⟩ := List.mem_map.mp hMem
    exact ⟨x, j, hj, rfl, hId.symm⟩
  · intro x
    exact (hf.nodup x).sublist (hIds x)

/-- One instruction is new and bears the next name. -/
theorem Numbered.of_new (hf : f.Numbered) {new : Inst} (hId : new.id = ⟨f.ids.nextValue⟩)
    (hNext : g.ids.nextValue = f.ids.nextValue + 1)
    (hCode : ∀ x, ∀ i ∈ g.code x, i ∈ f.code x ∨ (x = b ∧ i = new))
    (hNodup : ∀ x, ((g.code x).map (·.id)).Nodup) : g.Numbered := by
  have hFresh : ∀ x, ∀ i ∈ f.code x, i.id ≠ new.id := by
    intro x i hi
    rw [hId]
    exact hf.id_ne_next hi
  refine ⟨?_, hNodup, ?_⟩
  · intro x i hi
    rw [hNext]
    rcases hCode x i hi with hi | ⟨-, rfl⟩
    · exact Nat.lt_succ_of_lt (hf.value_lt x i hi)
    · rw [hId]
      exact Nat.lt_succ_self _
  · intro x y i hi j hj hEq
    rcases hCode x i hi with hi | ⟨hx, rfl⟩ <;> rcases hCode y j hj with hj | ⟨hy, rfl⟩
    · exact hf.inj x y i hi j hj hEq
    · exact absurd hEq (hFresh x i hi)
    · exact absurd hEq.symm (hFresh y j hj)
    · exact hx.trans hy.symm

/-- The names in a block are still different after those of another one. -/
theorem Numbered.nodup_append (hf : f.Numbered) (hne : a ≠ b) {front : List Inst}
    (hFront : front.Sublist (f.code a)) : ((front ++ f.code b).map (·.id)).Nodup := by
  rw [List.map_append, List.nodup_append]
  refine ⟨(hf.nodup a).sublist (hFront.map _), hf.nodup b, ?_⟩
  intro v hv w hw hEq
  obtain ⟨i, hi, rfl⟩ := List.mem_map.mp hv
  obtain ⟨j, hj, rfl⟩ := List.mem_map.mp hw
  exact hne (hf.inj a b i (hFront.subset hi) j hj hEq)

theorem Listed.not_isTerminator_operand (hf : f.Listed) (hi : i ∈ f.code b) (hv : v ∈ i.op.operands)
    (hj : j ∈ f.code c) (hId : j.id = v) : j.isTerminator = false := by
  obtain ⟨ty, k, d, j', hj', hTerm, hId', -, -⟩ := (hf.reads b i hi).operand v hv
  obtain ⟨-, rfl⟩ := hf.eq_of_id_eq hj hj' (hId.trans hId'.symm)
  exact hTerm

/-- A terminator is the last instruction of its block. -/
theorem Sequenced.terminator_last (hf : f.Sequenced) {front back : List Inst}
    (hCode : f.code b = front ++ i :: back) (hi : i.isTerminator = true) : back = [] := by
  cases back with
  | nil => rfl
  | cons j back =>
    have hOrder := hf.ordered b
    rw [hCode, List.pairwise_append] at hOrder
    have hPrec := (List.pairwise_cons.mp hOrder.2.1).1 j List.mem_cons_self
    rw [Inst.Precedes, hi] at hPrec
    exact absurd hPrec.2 (by simp)

/-- Nothing before the last instruction is a terminator. -/
theorem Sequenced.not_isTerminator_front (hf : f.Sequenced) {front : List Inst}
    (hCode : f.code b = front ++ [i]) : ∀ j ∈ front, j.isTerminator = false := by
  intro j hj
  have hOrder := hf.ordered b
  rw [hCode, List.pairwise_append] at hOrder
  exact (hOrder.2.2 j hj i List.mem_cons_self).2

/-- The edges that leave a block are those of the terminator at its end. -/
theorem Sequenced.mem_succs_of_last (hf : f.Sequenced) {front : List Inst}
    (hCode : f.code b = front ++ [i]) : c ∈ f.succs b ↔ c ∈ i.op.targets := by
  rw [hf.mem_succs]
  constructor
  · rintro ⟨j, hj, hc⟩
    rw [hCode, List.mem_append, List.mem_singleton] at hj
    rcases hj with hj | rfl
    · have hTerm := isTerminator_of_mem_targets hc
      rw [hf.not_isTerminator_front hCode j hj] at hTerm
      cases hTerm
    · exact hc
  · intro hc
    exact ⟨i, by rw [hCode]; simp, hc⟩

/-- A block that nothing leads to has no phi. -/
theorem Wired.not_isPhi_of_unled (hf : f.Wired) (hUnled : ∀ a, ¬ b ∈ f.succs a) (hi : i ∈ f.code b) :
    i.isPhi = false := by
  by_contra hPhi
  rw [Bool.not_eq_false] at hPhi
  obtain ⟨hNe, -, hMem⟩ := hf.pairs b i hi hPhi
  obtain ⟨a, ha⟩ := List.exists_mem_of_ne_nil _ hNe
  exact hUnled a ((hMem a).mp ha)

theorem Ready.imp (h : f.Ready b l v)
    (hImp : ∀ d, f.Guards d b → f.Computes d v → g.Guards d b ∧ g.Computes d v) :
    g.Ready b l v := by
  rcases h with hEarlier | ⟨d, hne, hd, hDef⟩
  · exact .inl hEarlier
  · exact .inr ⟨d, hne, hImp d hd hDef⟩

theorem Arranged.not_hasBlock_next (hf : f.Arranged) : f.hasBlock ⟨f.ids.nextBlock⟩ = false := by
  by_contra h
  rw [Bool.not_eq_false] at h
  exact Nat.lt_irrefl _ (hf.block_lt _ h)

/-- A function with a block has an entry. -/
theorem Arranged.exists_entry (hf : f.Arranged) (hb : f.hasBlock b = true) : ∃ e, f.entry = some e := by
  refine Option.ne_none_iff_exists'.mp fun hNone => ?_
  have hMem := (hf.mem_layout b).mpr hb
  rw [hf.entry_none hNone] at hMem
  exact List.not_mem_nil hMem

theorem Framed.hasBlock_of_live (hf : f.Framed) (hb : f.Live b) : f.hasBlock b = true := by
  obtain hEntry | ⟨a, -, edge⟩ := hb.cases
  · exact hf.entry_mem _ hEntry
  · exact hf.mirrored.hasBlock_target edge

/-! ## Changed instructions -/

/-- A block computes a value if it has an instruction like the one that computed it. -/
theorem Computes.of_like {y : BlockId} (h : f.Computes y v)
    (hEach : ∀ i ∈ f.code y, i.isTerminator = false → i.id = v → ∃ j ∈ g.code x, j.Like i) :
    g.Computes x v := by
  obtain ⟨i, hi, hTerm, hId⟩ := h
  obtain ⟨j, hj, hLike⟩ := hEach i hi hTerm hId
  exact ⟨j, hj, hLike.isTerminator_eq.trans hTerm, hLike.id_eq.trans hId⟩

theorem Holds.of_like {ty : Ty} {known : Bool} (h : f.Holds v ty known)
    (hEach : ∀ y, ∀ i ∈ f.code y, i.isTerminator = false → i.id = v →
      ∃ x, ∃ j ∈ g.code x, j.Like i) : g.Holds v ty known := by
  obtain ⟨y, i, hi, hTerm, hId, hTy, hKnown⟩ := h
  obtain ⟨x, j, hj, hLike⟩ := hEach y i hi hTerm hId
  exact ⟨x, j, hj, hLike.isTerminator_eq.trans hTerm, hLike.id_eq.trans hId,
    hLike.ty_eq.trans hTy, hLike.comptime_eq.trans hKnown⟩

section Recoded

variable {r : BlockId → Inst → Inst}

/-- Changing the operands of instructions and the pairs of phis changes nothing that a block
computes. -/
theorem computes_of_map (hLike : ∀ x i, (r x i).Like i)
    (hCode : ∀ x, g.code x = (f.code x).map (r x)) : g.Computes x v ↔ f.Computes x v := by
  simp only [Computes, hCode, List.mem_map, exists_exists_and_eq_and, (hLike x _).isTerminator_eq,
    (hLike x _).id_eq]

theorem holds_of_map (hLike : ∀ x i, (r x i).Like i)
    (hCode : ∀ x, g.code x = (f.code x).map (r x)) {ty : Ty} {known : Bool} :
    g.Holds v ty known ↔ f.Holds v ty known := by
  refine exists_congr fun x => ?_
  simp only [hCode, List.mem_map, exists_exists_and_eq_and, (hLike x _).isTerminator_eq,
    (hLike x _).id_eq, (hLike x _).ty_eq, (hLike x _).comptime_eq]

theorem Sequenced.of_map (hf : f.Sequenced) (hLike : ∀ x i, (r x i).Like i)
    (hCode : ∀ x, g.code x = (f.code x).map (r x))
    (hSuccs : ∀ x c, c ∈ g.succs x ↔ c ∈ f.succs x) : g.Sequenced where
  ordered x := by
    rw [hCode]
    exact Inst.pairwise_precedes_map (fun i => (hLike x i).isPhi_eq)
      (fun i => (hLike x i).isTerminator_eq) (hf.ordered x)
  mem_succs x c := by
    rw [hSuccs, hf.mem_succs, hCode]
    simp only [List.mem_map, exists_exists_and_eq_and, (hLike x _).targets_eq]

theorem Listed.of_map (hf : f.Listed) (hLike : ∀ x i, (r x i).Like i)
    (hCode : ∀ x, g.code x = (f.code x).map (r x))
    (hSuccs : ∀ x c, c ∈ g.succs x ↔ c ∈ f.succs x) (hNext : g.ids.nextValue = f.ids.nextValue)
    (hReads : ∀ x, ∀ i ∈ f.code x, (r x i).ReadsFrom f.Holds) : g.Listed where
  toNumbered := by
    apply hf.toNumbered.of_sublist hNext
    intro x
    have hIds : ((f.code x).map (r x)).map (·.id) = (f.code x).map (·.id) := by
      rw [List.map_map]
      exact List.map_congr_left fun i _ => (hLike x i).id_eq
    rw [hCode, hIds]
  toSequenced := hf.toSequenced.of_map hLike hCode hSuccs
  reads x i hi := by
    rw [hCode] at hi
    obtain ⟨j, hj, rfl⟩ := List.mem_map.mp hi
    exact (hReads x j hj).congr fun v _ ty known => (holds_of_map hLike hCode).symm

end Recoded

end Func

end Midend
