import Midend.Proofs.Shape.History

/-!
# What is built is well structured

Building checks its arguments, and the examination checks the function that comes out; the two know
nothing of each other. Here they are compared: after any requests to build a function, granted or
refused, the examination finds no fault in its structure (`built_has_no_structural_fault`).

What is kept by every request is `Built`: instructions are in order, their edges are recorded, and
whatever they mention is there. Flags are kept right (`Flagged`) only as long as no phi gets a pair:
a pair can make a phi unknown at compile time after instructions that read it have been taken to be
known. A fault of a built function can then only be one of four kinds (`Built.violation_cases`).
-/

namespace Midend

/-- A fault in the structure of a function, as opposed to one of its name, of edges to its entry,
of the pairs of its phis or of its flags. -/
def Fault.isStructural : Fault → Bool
  | .missingEntry | .emptyLabel | .duplicateLabel _ | .duplicateValueId | .terminatorNotLast
  | .phiNotAtHead | .unknownOperand _ | .unknownBlockRef _ | .emptyCallee | .emptySlotName
  | .successorMismatch .. | .asymmetricEdge .. => true
  | _ => false

/-- A fault of the pairs of a phi. -/
def Fault.isOfPairs : Fault → Bool
  | .emptyPhi | .phiArity .. | .incomingNotPredecessor _ | .duplicateIncoming _
  | .missingIncoming _ | .incomingTypeMismatch .. => true
  | _ => false

theorem Fault.isStructural_of_isOfPairs {e : Fault} (h : e.isOfPairs = true) :
    e.isStructural = false := by
  cases e <;> first | rfl | cases h

/-- Whether a request is to complete a phi. -/
def BuildRequest.isAddIncoming : BuildRequest → Bool
  | .addIncoming .. => true
  | _ => false

namespace Func

variable {f g : Func} {a b c x : BlockId} {i j : Inst} {v : ValueId} {l : List Inst}

/-! ## Order -/

/-- A list in order whose last instruction is no terminator has none. -/
theorem not_isTerminator_of_last (hl : l.Pairwise Inst.Precedes)
    (hLast : ∀ i, l.getLast? = some i → i.isTerminator = false) :
    ∀ i ∈ l, i.isTerminator = false := by
  intro i hi
  obtain ⟨front, back, rfl⟩ := List.append_of_mem hi
  cases back with
  | nil => exact hLast i List.getLast?_concat
  | cons j back =>
    rw [List.pairwise_append, List.pairwise_cons] at hl
    exact (hl.2.1.1 j List.mem_cons_self).2

theorem pairwise_placed (hl : l.Pairwise Inst.Precedes)
    (hRoom : i.isPhi = true ∨ ∀ j, l.getLast? = some j → j.isTerminator = false) :
    (placed i l).Pairwise Inst.Precedes := by
  unfold placed
  split
  · -- a phi comes between the phis and the rest, and is no terminator itself
    rename_i hPhi
    have hTerm := isTerminator_eq_false_of_isPhi hPhi
    have hHead : ∀ j ∈ l.takeWhile (·.isPhi), j.isPhi = true := fun j hj =>
      List.all_eq_true.mp List.all_takeWhile j hj
    rw [← List.takeWhile_append_dropWhile (p := (·.isPhi)) (l := l), List.pairwise_append] at hl
    obtain ⟨hFront, hBack, hCross⟩ := hl
    rw [List.pairwise_append, List.pairwise_cons]
    refine ⟨hFront, ⟨fun j _ => ⟨fun _ => hPhi, hTerm⟩, hBack⟩, ?_⟩
    intro j hj k hk
    rcases List.mem_cons.mp hk with rfl | hk
    · exact ⟨fun _ => hHead j hj, isTerminator_eq_false_of_isPhi (hHead j hj)⟩
    · exact hCross j hj k hk
  · rename_i hPhi
    have hOpen := not_isTerminator_of_last hl (hRoom.resolve_left hPhi)
    rw [List.pairwise_append]
    refine ⟨hl, List.pairwise_singleton _ _, ?_⟩
    intro j hj k hk
    rw [List.mem_singleton.mp hk]
    exact ⟨fun h => absurd h hPhi, hOpen j hj⟩

theorem pairwise_updateFirst {r : Inst → Inst} (hPhi : ∀ i, (r i).isPhi = i.isPhi)
    (hTerm : ∀ i, (r i).isTerminator = i.isTerminator) (v : ValueId)
    (hl : l.Pairwise Inst.Precedes) : (Block.updateFirst v r l).Pairwise Inst.Precedes := by
  -- the order depends on two flags of each instruction, and these stay
  let kind : Inst → Bool × Bool := fun i => (i.isPhi, i.isTerminator)
  let before : Bool × Bool → Bool × Bool → Prop := fun p q =>
    (q.1 = true → p.1 = true) ∧ p.2 = false
  have hKind : (Block.updateFirst v r l).map kind = l.map kind :=
    map_updateFirst kind (fun i => by simp only [kind, hPhi, hTerm]) v l
  have hIff : ∀ l : List Inst, l.Pairwise Inst.Precedes ↔ (l.map kind).Pairwise before := by
    intro l
    rw [List.pairwise_map]
    exact Iff.rfl
  rw [hIff, hKind, ← hIff]
  exact hl

/-! ## What building keeps -/

/-- Everything that an instruction mentions is there. -/
structure Resolves (f : Func) (i : Inst) : Prop where
  operand : ∀ v ∈ i.op.operands, f.hasValue v = true
  blockRef : ∀ c ∈ i.op.blockRefs, f.hasBlock c = true
  named : i.op.missingName? = none

/-- Consistent, with blocks in order, edges as the instructions ask for them, and nothing mentioned
that is not there. -/
structure Built (f : Func) : Prop extends Consistent f where
  ordered : ∀ b, (f.code b).Pairwise Inst.Precedes
  mem_succs : ∀ a b, b ∈ f.succs a ↔ ∃ i ∈ f.code a, b ∈ i.op.targets
  resolves : ∀ b, ∀ i ∈ f.code b, f.Resolves i

/-- Every operand is a name that has been handed out. -/
def Allotted (f : Func) : Prop :=
  ∀ b, ∀ i ∈ f.code b, ∀ v ∈ i.op.operands, v.index < f.ids.nextValue

/-- The compile-time flag of every instruction agrees with its operands. -/
def Flagged (f : Func) : Prop := ∀ b, ∀ i ∈ f.code b, f.FlagRight i

theorem Resolves.mono (h : f.Resolves i) (hValue : ∀ v, f.hasValue v = true → g.hasValue v = true)
    (hBlock : ∀ c, f.hasBlock c = true → g.hasBlock c = true) : g.Resolves i :=
  ⟨fun v hv => hValue v (h.operand v hv), fun c hc => hBlock c (h.blockRef c hc), h.named⟩

theorem Consistent.hasValue_iff_code (hf : f.Consistent) :
    f.hasValue v = true ↔ ∃ b, ∃ i ∈ f.code b, i.id = v := by
  rw [hasValue_iff]
  constructor
  · rintro ⟨i, hi, hId⟩
    obtain ⟨b, hi⟩ := (mem_insts hf.mem_layout).mp hi
    exact ⟨b, i, hi, hId⟩
  · rintro ⟨b, i, hi, hId⟩
    exact ⟨i, (mem_insts hf.mem_layout).mpr ⟨b, hi⟩, hId⟩

theorem Consistent.isComptime_iff_code (hf : f.Consistent) :
    f.isComptime v = true ↔ ∃ b, ∃ i ∈ f.code b, i.id = v ∧ i.comptime = true := by
  rw [isComptime_iff hf.values_nodup]
  constructor
  · rintro ⟨i, hi, hRest⟩
    obtain ⟨b, hi⟩ := (mem_insts hf.mem_layout).mp hi
    exact ⟨b, i, hi, hRest⟩
  · rintro ⟨b, i, hi, hRest⟩
    exact ⟨i, (mem_insts hf.mem_layout).mpr ⟨b, hi⟩, hRest⟩

theorem Consistent.index_lt (hf : f.Consistent) (hv : f.hasValue v = true) :
    v.index < f.ids.nextValue := by
  obtain ⟨b, i, hi, rfl⟩ := hf.hasValue_iff_code.mp hv
  exact hf.numbered.value_lt b i hi

theorem Built.allotted (hf : f.Built) : f.Allotted := fun b i hi v hv =>
  hf.toConsistent.index_lt ((hf.resolves b i hi).operand v hv)

theorem Consistent.isComptime_eq (hf : f.Consistent) (hi : i ∈ f.code b) :
    f.isComptime i.id = i.comptime := by
  rw [Bool.eq_iff_iff, hf.isComptime_iff_code]
  constructor
  · rintro ⟨c, j, hj, hId, hKnown⟩
    rwa [← (hf.numbered.eq_of_id_eq hj hi hId).2]
  · exact fun hKnown => ⟨b, i, hi, rfl, hKnown⟩

theorem Built.empty (name : String) (returnTy : Ty) : (empty name returnTy).Built where
  toConsistent := .empty name returnTy
  ordered _ := .nil
  mem_succs a b := by
    refine iff_of_false (SortedSet.not_mem_empty b) ?_
    rintro ⟨i, hi, _⟩
    exact List.not_mem_nil hi
  resolves _ _ hi := absurd hi List.not_mem_nil

theorem Flagged.empty (name : String) (returnTy : Ty) : (Func.empty name returnTy).Flagged :=
  fun _ _ hi => absurd hi List.not_mem_nil

/-! ### Parameters and blocks -/

theorem Built.addParam (hf : f.Built) (name : String) (ty : Ty) :
    (f.addParam name ty).state.Built := by
  have hc := hf.toConsistent.addParam name ty
  unfold Func.addParam at hc ⊢
  split
  · exact hf
  · rename_i hNe
    rw [if_neg hNe] at hc
    exact ⟨hc, hf.ordered, hf.mem_succs, fun b i hi => (hf.resolves b i hi).mono (fun _ => id)
      fun _ => id⟩

theorem Flagged.addParam (hf : f.Flagged) (name : String) (ty : Ty) :
    (f.addParam name ty).state.Flagged := by
  unfold Func.addParam
  split
  · exact hf
  · exact hf

section Grown

variable {label : String} (hg : Grown f x label g) (hf : f.Consistent) (hg' : g.Consistent)
include hg hf hg'

theorem hasValue_grown : g.hasValue v = true ↔ f.hasValue v = true := by
  simp only [hf.hasValue_iff_code, hg'.hasValue_iff_code, hg.code_eq hf.arranged]

theorem isComptime_grown (v : ValueId) : g.isComptime v = true ↔ f.isComptime v = true := by
  simp only [hf.isComptime_iff_code, hg'.isComptime_iff_code, hg.code_eq hf.arranged]

end Grown

theorem createBlock_grown (hf : f.Consistent) (label : String) :
    (f.createBlock label).state = f ∨
      Grown f ⟨f.ids.nextBlock⟩ label (f.createBlock label).state := by
  rcases createBlock_cases f label with hEq | ⟨-, -, hEq⟩
  · exact .inl hEq
  · rw [hEq]
    exact .inr (addBlock_grown f label hf.arranged.not_hasBlock_next)

theorem Built.createBlock (hf : f.Built) (label : String) :
    (f.createBlock label).state.Built := by
  have hc := hf.toConsistent.createBlock label
  rcases createBlock_grown hf.toConsistent label with hEq | hg
  · rwa [hEq]
  generalize (f.createBlock label).state = g at *
  have hCode := hg.code_eq hf.arranged
  refine ⟨hc, ?_, ?_, ?_⟩
  · intro b
    rw [hCode]
    exact hf.ordered b
  · intro a b
    rw [hg.succs_eq hf.arranged, hCode]
    exact hf.mem_succs a b
  · intro b i hi
    rw [hCode] at hi
    exact (hf.resolves b i hi).mono (fun v => (hasValue_grown hg hf.toConsistent hc).mpr)
      fun c hc => (hg.hasBlock_iff c).mpr (.inr hc)

theorem Flagged.createBlock (hf : f.Flagged) (hc : f.Consistent) (label : String) :
    (f.createBlock label).state.Flagged := by
  have hc' := hc.createBlock label
  rcases createBlock_grown hc label with hEq | hg
  · rwa [hEq]
  generalize (f.createBlock label).state = g at *
  intro b i hi
  rw [hg.code_eq hc.arranged] at hi
  exact (flagAgrees_congr fun v _ => isComptime_grown hg hc hc' v).mpr (hf b i hi)

theorem Allotted.addParam (ha : f.Allotted) (name : String) (ty : Ty) :
    (f.addParam name ty).state.Allotted := by
  unfold Func.addParam
  split
  · exact ha
  · exact ha

theorem Allotted.createBlock (ha : f.Allotted) (hc : f.Consistent) (label : String) :
    (f.createBlock label).state.Allotted := by
  rcases createBlock_grown hc label with hEq | hg
  · rwa [hEq]
  intro b i hi
  rw [hg.code_eq hc.arranged] at hi
  rw [hg.nextValue_eq]
  exact ha b i hi

/-! ### Instructions -/

section Appended

variable (h : Appended f b i g) (hf : f.Consistent) (hg : g.Consistent)
include h hf hg

theorem hasValue_appended (hv : f.hasValue v = true) : g.hasValue v = true := by
  rw [hf.hasValue_iff_code] at hv
  obtain ⟨x, j, hj, hId⟩ := hv
  rw [hg.hasValue_iff_code]
  exact ⟨x, j, h.mem_code.mpr (.inr hj), hId⟩

/-- What is known of the values that are there stays. -/
theorem isComptime_appended (hOld : i.id ≠ v) :
    g.isComptime v = true ↔ f.isComptime v = true := by
  rw [hf.isComptime_iff_code, hg.isComptime_iff_code]
  constructor
  · rintro ⟨x, j, hj, hjv, hKnown⟩
    rcases h.mem_code.mp hj with ⟨-, rfl⟩ | hj
    · exact absurd hjv hOld
    · exact ⟨x, j, hj, hjv, hKnown⟩
  · rintro ⟨x, j, hj, hRest⟩
    exact ⟨x, j, h.mem_code.mpr (.inr hj), hRest⟩

end Appended

theorem mem_blockRefs_of_mem_targets {op : Op} (hc : c ∈ op.targets) : c ∈ op.blockRefs := by
  have hTerm : op.isTerminator = true :=
    isTerminator_of_mem_targets (i := ⟨⟨0⟩, .void, false, op⟩) hc
  rwa [blockRefs_of_isTerminator hTerm]

theorem Built.append (hf : f.Built) (b : BlockId) (ty : Ty) (op : Op) :
    (f.append b ty op).state.Built := by
  have hc := hf.toConsistent.append b ty op
  rcases append_cases f b ty op with hEq | ⟨hAccepts, h⟩
  · rwa [hEq]
  generalize (f.append b ty op).state = g at *
  have hTarget : ∀ c ∈ op.targets, f.hasBlock c = true := fun c hc =>
    hAccepts.blockRefs c (mem_blockRefs_of_mem_targets hc)
  refine ⟨hc, ?_, ?_, ?_⟩
  · intro x
    by_cases hx : x = b
    · rw [hx, h.code_self]
      exact pairwise_placed (hf.ordered b) hAccepts.room
    · rw [h.code_of_ne x hx]
      exact hf.ordered x
  · intro x c
    rw [h.mem_succs, hf.mem_succs]
    constructor
    · intro hEdge
      rcases hEdge with ⟨j, hj, hc⟩ | ⟨hx, hc, -⟩
      · exact ⟨j, h.mem_code.mpr (.inr hj), hc⟩
      · exact ⟨_, h.mem_code.mpr (.inl ⟨hx, rfl⟩), hc⟩
    · rintro ⟨j, hj, hc⟩
      rcases h.mem_code.mp hj with ⟨hx, rfl⟩ | hj
      · exact .inr ⟨hx, hc, hTarget c hc⟩
      · exact .inl ⟨j, hj, hc⟩
  · intro x j hj
    have hBlock : ∀ c, f.hasBlock c = true → g.hasBlock c = true := fun c hc => by
      rw [h.frame.hasBlock_eq, hc]
    have hResolves : f.Resolves j := by
      rcases h.mem_code.mp hj with ⟨-, rfl⟩ | hj
      · exact ⟨hAccepts.operands, hAccepts.blockRefs, hAccepts.named⟩
      · exact hf.resolves x j hj
    exact hResolves.mono (fun v => hasValue_appended h hf.toConsistent hc) hBlock

/-- A new instruction is taken to be known as its operands say. -/
theorem flagRight_newInst (f : Func) (ty : Ty) (op : Op) : f.FlagRight (f.newInst ty op) := by
  have hAll : ∀ l : List ValueId, l.all f.isComptime = true ↔ ∀ v ∈ l, f.isComptime v = true :=
    fun l => List.all_eq_true
  cases op with
  | const c => exact rfl
  | binary | unary | call | convert => exact hAll _
  | phi incoming => exact (hAll _).mp
  | _ => exact rfl

/-- An operand that is not there could be the name that the new instruction gets, and become known
with it; so operands have to be names that have been handed out. -/
theorem Flagged.append (hf : f.Flagged) (hc : f.Consistent) (ha : f.Allotted) (b : BlockId)
    (ty : Ty) (op : Op) : (f.append b ty op).state.Flagged := by
  have hc' := hc.append b ty op
  rcases append_cases f b ty op with hEq | ⟨hAccepts, h⟩
  · rwa [hEq]
  generalize (f.append b ty op).state = g at *
  intro x j hj
  have hOld : f.FlagRight j ∧ ∀ v ∈ j.op.operands, v.index < f.ids.nextValue := by
    rcases h.mem_code.mp hj with ⟨-, rfl⟩ | hj
    · exact ⟨flagRight_newInst f ty op, fun v hv => hc.index_lt (hAccepts.operands v hv)⟩
    · exact ⟨hf x j hj, ha x j hj⟩
  refine (flagAgrees_congr fun v hv => isComptime_appended h hc hc' ?_).mpr hOld.1
  rintro rfl
  exact Nat.lt_irrefl _ (hOld.2 _ hv)

theorem Allotted.append (ha : f.Allotted) (hc : f.Consistent) (b : BlockId) (ty : Ty) (op : Op) :
    (f.append b ty op).state.Allotted := by
  rcases append_cases f b ty op with hEq | ⟨hAccepts, h⟩
  · rwa [hEq]
  intro x j hj v hv
  rw [h.nextValue_eq]
  apply Nat.lt_succ_of_lt
  rcases h.mem_code.mp hj with ⟨-, rfl⟩ | hj
  · exact hc.index_lt (hAccepts.operands v hv)
  · exact ha x j hj v hv

/-! ### Pairs of a phi -/

theorem Resolves.addIncoming (hi : f.Resolves i) {pred : BlockId} (hPred : f.hasBlock pred = true)
    (hValue : f.hasValue v = true) {known : Bool} :
    f.Resolves (i.addIncoming ⟨pred, v⟩ known) := by
  refine ⟨?_, ?_, Inst.missingName?_addIncoming.trans hi.named⟩
  · intro u hu
    rcases Inst.mem_operands_addIncoming hu with hu | rfl
    · exact hi.operand u hu
    · exact hValue
  · intro c hc
    rcases Inst.mem_blockRefs_addIncoming hc with hc | rfl
    · exact hi.blockRef c hc
    · exact hPred

theorem Built.addIncoming (hf : f.Built) (phi : ValueId) (pred : BlockId) (v : ValueId) :
    (f.addIncoming phi pred v).state.Built := by
  have hc := hf.toConsistent.addIncoming phi pred v
  rcases addIncoming_cases f phi pred v with hEq | ⟨hPred, hValue, b, hEq⟩
  · rwa [hEq]
  rw [hEq] at hc ⊢
  generalize hMore : (fun i : Inst => i.addIncoming ⟨pred, v⟩ (f.isComptime v)) = more at *
  have hCode : ∀ x, (f.rewrite b (Block.updateFirst phi more)).code x =
      if x = b then Block.updateFirst phi more (f.code x) else f.code x := fun x => code_rewrite rfl
  -- whatever does not look at pairs and flags stays
  have hExists : ∀ {α : Type} (p : Inst → α), (∀ i, p (more i) = p i) → ∀ (q : α → Prop) x,
      (∃ i ∈ (f.rewrite b (Block.updateFirst phi more)).code x, q (p i)) ↔
        ∃ i ∈ f.code x, q (p i) := by
    intro α p hp q x
    rw [hCode]
    split
    · exact exists_mem_updateFirst p hp q
    · exact Iff.rfl
  refine ⟨hc, ?_, ?_, ?_⟩
  · intro x
    rw [hCode]
    split
    · apply pairwise_updateFirst _ _ phi (hf.ordered x) <;> rw [← hMore] <;> intro i
      · exact Inst.isPhi_addIncoming
      · exact Inst.isTerminator_addIncoming
    · exact hf.ordered x
  · intro x c
    rw [succs_rewrite, hf.mem_succs]
    apply (hExists (·.op.targets) _ (c ∈ ·) x).symm
    rw [← hMore]
    exact fun i => Inst.targets_addIncoming
  · intro x i hi
    have hResolves : f.Resolves i := by
      rw [hCode] at hi
      split at hi
      · rcases mem_updateFirst hi with hi | ⟨j, hj, -, rfl⟩
        · exact hf.resolves x i hi
        · rw [← hMore]
          exact (hf.resolves x j hj).addIncoming hPred hValue
      · exact hf.resolves x i hi
    apply hResolves.mono
    · intro u hu
      rw [hf.hasValue_iff_code] at hu
      rw [hc.hasValue_iff_code]
      obtain ⟨y, hy⟩ := hu
      refine ⟨y, (hExists (·.id) ?_ (· = u) y).mpr hy⟩
      rw [← hMore]
      exact fun i => Inst.id_addIncoming
    · intro c hc
      rwa [hasBlock_rewrite]

/-! ### Requests -/

theorem Built.build (hf : f.Built) (r : BuildRequest) : (f.build r).Built := by
  cases r with
  | addParam name ty => exact hf.addParam name ty
  | createBlock label => exact hf.createBlock label
  | append b ty op => exact hf.append b ty op
  | addIncoming phi pred v => exact hf.addIncoming phi pred v

theorem Flagged.build (hf : f.Flagged) (hc : f.Consistent) (ha : f.Allotted) {r : BuildRequest}
    (hr : r.isAddIncoming = false) : (f.build r).Flagged := by
  cases r with
  | addParam name ty => exact hf.addParam name ty
  | createBlock label => exact hf.createBlock hc label
  | append b ty op => exact hf.append hc ha b ty op
  | addIncoming phi pred v => cases hr

theorem Allotted.build (ha : f.Allotted) (hc : f.Consistent) {r : BuildRequest}
    (hr : r.isAddIncoming = false) : (f.build r).Allotted := by
  cases r with
  | addParam name ty => exact ha.addParam name ty
  | createBlock label => exact ha.createBlock hc label
  | append b ty op => exact ha.append hc b ty op
  | addIncoming phi pred v => cases hr

theorem built_of_history (name : String) (returnTy : Ty) (rs : List BuildRequest) :
    (rs.foldl build (empty name returnTy)).Built :=
  List.foldlRecOn rs build (Built.empty name returnTy) fun _ hf r _ => hf.build r

theorem flagged_of_history (name : String) (returnTy : Ty) (rs : List BuildRequest)
    (hrs : ∀ r ∈ rs, r.isAddIncoming = false) : (rs.foldl build (empty name returnTy)).Flagged := by
  have hBoth := List.foldlRecOn (motive := fun f : Func => f.Built ∧ f.Flagged) rs build
    ⟨Built.empty name returnTy, Flagged.empty name returnTy⟩
    fun f hf r hr => ⟨hf.1.build r, hf.2.build hf.1.toConsistent hf.1.allotted (hrs r hr)⟩
  exact hBoth.2

/-! ## What the examination finds -/

theorem isOfPairs_of_mem_pairFaults {blk : Block} {ty : Ty} {covered : List BlockId}
    {incoming : List Incoming} {e : Fault} (he : e ∈ f.pairFaults blk ty covered incoming) :
    e.isOfPairs = true := by
  induction incoming generalizing covered with
  | nil => exact absurd he List.not_mem_nil
  | cons p rest ih =>
    rw [pairFaults, List.mem_append, List.mem_append, List.mem_append] at he
    rcases he with ((he | he) | he) | he
    · split at he
      · exact absurd he List.not_mem_nil
      · rw [List.mem_singleton.mp he]
        rfl
    · split at he
      · rw [List.mem_singleton.mp he]
        rfl
      · exact absurd he List.not_mem_nil
    · split at he
      · split at he
        · exact absurd he List.not_mem_nil
        · rw [List.mem_singleton.mp he]
          rfl
      · exact absurd he List.not_mem_nil
    · exact ih he

theorem isOfPairs_of_mem_phiFaults {blk : Block} {ty : Ty} {incoming : List Incoming} {e : Fault}
    (he : e ∈ f.phiFaults blk ty incoming) : e.isOfPairs = true := by
  rw [phiFaults, List.mem_append, List.mem_append, List.mem_append] at he
  rcases he with ((he | he) | he) | he
  · split at he
    · rw [List.mem_singleton.mp he]
      rfl
    · exact absurd he List.not_mem_nil
  · split at he
    · exact absurd he List.not_mem_nil
    · rw [List.mem_singleton.mp he]
      rfl
  · exact isOfPairs_of_mem_pairFaults he
  · obtain ⟨p, -, rfl⟩ := List.mem_map.mp he
    rfl

/-- If all that an instruction mentions is there, only its pairs and its flag can be wrong. -/
theorem Resolves.instFaults_cases (hi : f.Resolves i) {blk : Block} {e : Fault}
    (he : e ∈ f.instFaults blk i) :
    e.isOfPairs = true ∨ (e = .comptimeMismatch ∧ ¬ f.FlagRight i) := by
  obtain ⟨hCallee, hSlot⟩ := missingName?_eq_none.mp hi.named
  rw [instFaults, List.mem_append, List.mem_append, List.mem_append] at he
  rcases he with ((he | he) | he) | he
  · obtain ⟨v, hv, -⟩ := List.mem_map.mp he
    obtain ⟨hv, hNot⟩ := List.mem_filter.mp hv
    rw [hi.operand v hv] at hNot
    cases hNot
  · obtain ⟨c, hc, -⟩ := List.mem_map.mp he
    obtain ⟨hc, hNot⟩ := List.mem_filter.mp hc
    rw [hi.blockRef c hc] at hNot
    cases hNot
  · split at he
    · rename_i callee args hOp
      split at he
      · rename_i hEmpty
        exact absurd (hEmpty ▸ hOp) (hCallee args)
      · exact absurd he List.not_mem_nil
    · rename_i name hOp
      split at he
      · rename_i hEmpty
        exact absurd (hEmpty ▸ hOp) hSlot
      · exact absurd he List.not_mem_nil
    · exact .inl (isOfPairs_of_mem_phiFaults he)
    · exact absurd he List.not_mem_nil
  · split at he
    · exact absurd he List.not_mem_nil
    · rename_i hFlag
      rw [comptimeAgrees_iff] at hFlag
      exact .inr ⟨List.mem_singleton.mp he, hFlag⟩

/-- If labels and names tell blocks and values apart, and every block is in order and has the edges
that it asks for, then only single instructions can be wrong. -/
theorem mem_blocksViolations {labels : List String} {names : List ValueId} {bs : List Block}
    (hLabels : (bs.map (·.label) ++ labels).Nodup)
    (hNames : ((bs.flatMap (·.insts)).map (·.id) ++ names).Nodup)
    (hBlocks : ∀ blk ∈ bs, blk.label ≠ "" ∧ blk.insts.Pairwise Inst.Precedes ∧
      f.edgeFaults blk = [])
    {w : Violation} (hw : w ∈ f.blocksViolations labels names bs) :
    ∃ blk ∈ bs, ∃ i ∈ blk.insts, w.fault ∈ f.instFaults blk i := by
  induction bs generalizing labels names with
  | nil => exact absurd hw List.not_mem_nil
  | cons blk bs ih =>
    obtain ⟨hNe, hOrdered, hEdges⟩ := hBlocks blk List.mem_cons_self
    rw [List.map_cons, List.cons_append] at hLabels
    rw [List.flatMap_cons, List.map_append, List.append_assoc] at hNames
    rw [blocksViolations, List.mem_append] at hw
    rcases hw with hw | hw
    · have hLabel : labelFaults labels blk = [] := by
        refine labelFaults_eq_nil.mpr ⟨hNe, fun hMem => ?_⟩
        exact (List.nodup_cons.mp hLabels).1 (List.mem_append_right _ hMem)
      have hName : nameFaults names blk.insts = [] := by
        obtain ⟨hIds, -, hApart⟩ := List.nodup_append.mp hNames
        refine nameFaults_eq_nil.mpr ⟨hIds, fun i hi hMem => ?_⟩
        exact hApart i.id (List.mem_map_of_mem hi) i.id (List.mem_append_right _ hMem) rfl
      have hOrder : orderFaults false blk.insts = [] :=
        orderFaults_eq_nil.mpr ⟨hOrdered, fun h => by cases h⟩
      rw [blockViolations, hLabel, hName, hOrder, hEdges] at hw
      obtain ⟨i, hi, hw⟩ := List.mem_flatMap.mp hw
      obtain ⟨e, he, rfl⟩ := List.mem_map.mp hw
      exact ⟨blk, List.mem_cons_self, i, hi, he⟩
    · -- what has been seen grows by the first block, so nothing is seen twice later on
      have hLabels' : (bs.map (·.label) ++ blk.label :: labels).Nodup :=
        List.perm_middle.nodup_iff.mpr hLabels
      have hNames' : ((bs.flatMap (·.insts)).map (·.id) ++
          (blk.insts.map (·.id) ++ names)).Nodup :=
        (List.perm_append_comm_assoc ..).nodup_iff.mpr hNames
      obtain ⟨blk', hBlk', hRest⟩ := ih hLabels' hNames'
        (fun blk' h => hBlocks blk' (List.mem_cons_of_mem _ h)) hw
      exact ⟨blk', List.mem_cons_of_mem _ hBlk', hRest⟩

namespace Built

theorem edgeFaults_eq_nil (hf : f.Built) {blk : Block} (hBlk : f.block? b = some blk) :
    f.edgeFaults blk = [] := by
  have hMem : blk ∈ f.blocks :=
    mem_blocks_iff.mpr ⟨b, (hf.mem_layout b).mpr (hasBlock_iff.mpr ⟨blk, hBlk⟩), hBlk⟩
  refine Func.edgeFaults_eq_nil.mpr ⟨fun s => ?_,
    (mirrored_iff_blocks hf.mem_layout hf.id_eq).mp hf.mirrored blk hMem⟩
  have hSuccs : s ∈ blk.succs ↔ s ∈ f.succs b := by
    rw [succs, hBlk]
    rfl
  have hOrdered := hf.ordered b
  rw [hSuccs, hf.mem_succs, mem_targets_iff, ← exists_target_iff hOrdered, code_of_block? hBlk]

theorem mem_entryFaults (hf : f.Built) (hLayout : f.layout ≠ []) {w : Violation}
    (hw : w ∈ f.entryFaults) : w.fault = .entryHasPredecessors := by
  obtain ⟨b, hb⟩ := List.exists_mem_of_ne_nil _ hLayout
  obtain ⟨e, he⟩ := hf.arranged.exists_entry ((hf.mem_layout b).mp hb)
  obtain ⟨blk, hBlk⟩ := hasBlock_iff.mp (hf.entry_mem e he)
  have hEntry : f.entryBlock? = some blk := by rw [entryBlock?, he, Option.bind_some, hBlk]
  rw [entryFaults, hEntry] at hw
  dsimp only at hw
  split at hw
  · exact absurd hw List.not_mem_nil
  · rw [List.mem_singleton.mp hw]

/-- All that can be wrong with a built function is its name, an edge to its entry, the pairs of its
phis and its flags. -/
theorem violation_cases (hf : f.Built) {w : Violation} (hw : w ∈ f.examine.violations) :
    w.fault = .emptyFunctionName ∨ w.fault = .entryHasPredecessors ∨ w.fault.isOfPairs = true ∨
      (w.fault = .comptimeMismatch ∧ ¬ f.Flagged) := by
  rw [examine, List.mem_append] at hw
  rcases hw with hw | hw
  · left
    split at hw
    · rw [List.mem_singleton.mp hw]
    · exact absurd hw List.not_mem_nil
  right
  split at hw
  · exact absurd hw List.not_mem_nil
  rename_i hLayout
  rw [List.isEmpty_iff] at hLayout
  rcases List.mem_append.mp hw with hw | hw
  · exact .inl (hf.mem_entryFaults hLayout hw)
  right
  have hLabels : (f.blocks.map Block.label ++ []).Nodup := by
    rw [List.append_nil, blocks, List.map_filterMap]
    exact hf.layout_nodup.filterMap fun a b l ha hb => hf.arranged.label_inj a b l ha hb
  have hNames : (f.insts.map Inst.id ++ []).Nodup := by
    rw [List.append_nil]
    exact hf.values_nodup
  obtain ⟨blk, hMem, i, hi, he⟩ := mem_blocksViolations hLabels hNames (fun blk hMem => by
    obtain ⟨b, -, hBlk⟩ := mem_blocks_iff.mp hMem
    exact ⟨hf.label_ne b blk hBlk, code_of_block? hBlk ▸ hf.ordered b, hf.edgeFaults_eq_nil hBlk⟩) hw
  obtain ⟨b, -, hBlk⟩ := mem_blocks_iff.mp hMem
  rw [← code_of_block? hBlk] at hi
  rcases (hf.resolves b i hi).instFaults_cases he with hPairs | ⟨hEq, hFlag⟩
  · exact .inl hPairs
  · exact .inr ⟨hEq, fun h => hFlag (h b i hi)⟩

end Built

/-- **Building makes no structural fault.** Whatever is asked for while a function is built, the
examination finds its structure sound, and its flags too unless a phi has been completed. -/
theorem built_has_no_structural_fault (name : String) (returnTy : Ty) (rs : List BuildRequest) :
    (rs.foldl build (empty name returnTy)).examine.has Fault.isStructural = false ∧
      ((∀ r ∈ rs, r.isAddIncoming = false) →
        (rs.foldl build (empty name returnTy)).examine.has (· = .comptimeMismatch) = false) := by
  have hBuilt := built_of_history name returnTy rs
  constructor
  · refine List.any_eq_false.mpr fun w hw => ?_
    rcases hBuilt.violation_cases hw with hEq | hEq | hPairs | ⟨hEq, -⟩
    · simp [hEq, Fault.isStructural]
    · simp [hEq, Fault.isStructural]
    · simp [Fault.isStructural_of_isOfPairs hPairs]
    · simp [hEq, Fault.isStructural]
  · intro hrs
    refine List.any_eq_false.mpr fun w hw => ?_
    rcases hBuilt.violation_cases hw with hEq | hEq | hPairs | ⟨-, hNot⟩
    · simp [hEq]
    · simp [hEq]
    · intro hEq
      rw [of_decide_eq_true hEq] at hPairs
      cases hPairs
    · exact absurd (flagged_of_history name returnTy rs hrs) hNot

/-- A block that leads to itself twice and gets a phi when it is finished, among requests that are
refused. -/
def turning : List BuildRequest :=
  [.addParam "n" (.scalar .i32), .addParam "" .bool, .createBlock "head", .createBlock "head",
    .createBlock "", .append ⟨0⟩ .bool (.const (.bool true)),
    .append ⟨0⟩ .void (.branch ⟨0⟩ ⟨0⟩ ⟨0⟩), .append ⟨0⟩ .bool (.phi [⟨⟨0⟩, ⟨0⟩⟩]),
    .append ⟨0⟩ .void (.jump ⟨0⟩), .append ⟨7⟩ .void (.ret none), .append ⟨0⟩ .bool (.phi [⟨⟨0⟩, ⟨9⟩⟩])]

theorem turning_has_no_structural_fault : (∀ r ∈ turning, r.isAddIncoming = false) ∧
    (turning.foldl build (empty "turning" .void)).examine.has Fault.isStructural = false ∧
      (turning.foldl build (empty "turning" .void)).examine.has (· = .comptimeMismatch) = false :=
  have hrs : ∀ r ∈ turning, r.isAddIncoming = false := by decide
  have h := built_has_no_structural_fault "turning" .void turning
  ⟨hrs, h.1, h.2 hrs⟩

/-- A pair can leave the flag of an instruction behind that read the phi before. -/
example : ([.createBlock "entry", .append ⟨0⟩ (.scalar .i32) (.phi []),
    .append ⟨0⟩ (.scalar .i32) (.unary .neg ⟨0⟩), .append ⟨0⟩ (.scalar .i32) (.slot "x"),
    .addIncoming ⟨0⟩ ⟨0⟩ ⟨2⟩].foldl build (empty "late" .void)).examine.has
      (· = .comptimeMismatch) = true := by
  decide +kernel

end Func

end Midend
