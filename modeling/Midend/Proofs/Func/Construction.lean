import Midend.Proofs.Func.Requests

/-!
# Building a function, request by request

Each request to build a function is refused and leaves the function as it was, or it is granted and
changes it in one way.

* `createBlock_cases`: an empty block with a new label is added.
* `append_cases`: an instruction that mentions only what is there takes its place in a block
  (`Appended`), a phi behind the phis at the head and any other at the end (`placed`).
* `addIncoming_cases`: a phi gets one more pair.
-/

namespace Midend

/-! ## Lists of instructions -/

/-- One more instruction: a phi comes after the phis at the head, any other at the end. -/
def placed (i : Inst) (l : List Inst) : List Inst :=
  if i.isPhi then l.takeWhile (·.isPhi) ++ i :: l.dropWhile (·.isPhi) else l ++ [i]

section Lists

variable {i j : Inst} {l : List Inst} {v : ValueId} {r : Inst → Inst}

theorem placed_perm (i : Inst) (l : List Inst) : (placed i l).Perm (i :: l) := by
  unfold placed
  split
  · refine List.perm_middle.trans (List.Perm.cons i ?_)
    rw [List.takeWhile_append_dropWhile]
  · exact List.perm_append_singleton i l

theorem mem_placed : j ∈ placed i l ↔ j = i ∨ j ∈ l := by
  rw [(placed_perm i l).mem_iff, List.mem_cons]

theorem map_updateFirst {α : Type} (p : Inst → α) (hr : ∀ i, p (r i) = p i) (v : ValueId)
    (l : List Inst) : (Block.updateFirst v r l).map p = l.map p := by
  induction l with
  | nil => rfl
  | cons i l ih =>
    unfold Block.updateFirst
    split
    · rw [List.map_cons, List.map_cons, hr]
    · rw [List.map_cons, List.map_cons, ih]

theorem exists_mem_updateFirst {α : Type} (p : Inst → α) (hr : ∀ i, p (r i) = p i) (q : α → Prop) :
    (∃ i ∈ Block.updateFirst v r l, q (p i)) ↔ ∃ i ∈ l, q (p i) := by
  have hIff : ∀ l : List Inst, (∃ i ∈ l, q (p i)) ↔ ∃ y ∈ l.map p, q y := by grind
  rw [hIff, hIff, map_updateFirst p hr]

theorem mem_updateFirst (hj : j ∈ Block.updateFirst v r l) :
    j ∈ l ∨ ∃ i ∈ l, i.id = v ∧ j = r i := by
  induction l with
  | nil => exact absurd hj List.not_mem_nil
  | cons i l ih =>
    unfold Block.updateFirst at hj
    split at hj
    · rename_i hId
      rcases List.mem_cons.mp hj with rfl | hj
      · exact .inr ⟨i, List.mem_cons_self, hId, rfl⟩
      · exact .inl (List.mem_cons_of_mem i hj)
    · rcases List.mem_cons.mp hj with rfl | hj
      · exact .inl List.mem_cons_self
      · rcases ih hj with hMem | ⟨k, hk, hEq⟩
        · exact .inl (List.mem_cons_of_mem i hMem)
        · exact .inr ⟨k, List.mem_cons_of_mem i hk, hEq⟩

/-- Where names are not repeated, only one instruction can have the name that is changed. -/
theorem updateFirst_eq_map (hl : (l.map (·.id)).Nodup) :
    Block.updateFirst v r l = l.map fun i => if i.id = v then r i else i := by
  induction l with
  | nil => rfl
  | cons i l ih =>
    obtain ⟨hi, hl⟩ := List.nodup_cons.mp hl
    unfold Block.updateFirst
    rw [List.map_cons]
    split
    · rename_i hId
      have hRest : ∀ j ∈ l, (if j.id = v then r j else j) = j := fun j hj =>
        if_neg fun hEq => hi (List.mem_map.mpr ⟨j, hj, hEq.trans hId.symm⟩)
      rw [List.map_congr_left hRest, List.map_id']
    · rw [ih hl]

end Lists

/-! ## One more pair -/

namespace Inst

variable {i : Inst} {p : Incoming} {known : Bool}

theorem id_addIncoming : (i.addIncoming p known).id = i.id := by
  unfold addIncoming
  split <;> rfl

theorem isPhi_addIncoming : (i.addIncoming p known).isPhi = i.isPhi := by
  rcases i with ⟨id, ty, c, op⟩
  cases op <;> rfl

theorem isTerminator_addIncoming : (i.addIncoming p known).isTerminator = i.isTerminator := by
  rcases i with ⟨id, ty, c, op⟩
  cases op <;> rfl

theorem targets_addIncoming : (i.addIncoming p known).op.targets = i.op.targets := by
  rcases i with ⟨id, ty, c, op⟩
  cases op <;> rfl

theorem missingName?_addIncoming : (i.addIncoming p known).op.missingName? = i.op.missingName? := by
  rcases i with ⟨id, ty, c, op⟩
  cases op <;> rfl

theorem mem_operands_addIncoming {v : ValueId} (hv : v ∈ (i.addIncoming p known).op.operands) :
    v ∈ i.op.operands ∨ v = p.value := by
  rcases i with ⟨id, ty, c, op⟩
  cases op
  case phi incoming =>
    change v ∈ (incoming ++ [p]).map (·.value) at hv
    rw [List.map_append, List.mem_append] at hv
    exact hv.imp_right List.mem_singleton.mp
  all_goals exact .inl hv

theorem comptime_addIncoming (hi : i.isPhi = true) :
    (i.addIncoming p known).comptime = (i.comptime && known) := by
  rcases i with ⟨id, ty, c, op⟩
  cases op <;> first | rfl | cases hi

theorem operands_addIncoming (hi : i.isPhi = true) :
    (i.addIncoming p known).op.operands = i.op.operands ++ [p.value] := by
  rcases i with ⟨id, ty, c, op⟩
  cases op
  case phi incoming => exact List.map_append
  all_goals cases hi

theorem mem_blockRefs_addIncoming {b : BlockId} (hb : b ∈ (i.addIncoming p known).op.blockRefs) :
    b ∈ i.op.blockRefs ∨ b = p.block := by
  rcases i with ⟨id, ty, c, op⟩
  cases op
  case phi incoming =>
    change b ∈ (incoming ++ [p]).map (·.block) at hb
    rw [List.map_append, List.mem_append] at hb
    exact hb.imp_right List.mem_singleton.mp
  all_goals exact .inl hb

end Inst

namespace Func

variable {f g : Func} {b x : BlockId} {i j : Inst} {v : ValueId} {op : Op}

/-! ## Blocks -/

theorem refuseLabel?_eq_none {label : String} :
    f.refuseLabel? label = none ↔ label ≠ "" ∧ f.blockByLabel? label = none := by
  unfold refuseLabel?
  by_cases hEmpty : label = ""
  · simp [hEmpty]
  · cases hFound : f.blockByLabel? label <;> simp [hEmpty]

theorem createBlock_cases (f : Func) (label : String) :
    (f.createBlock label).state = f ∨
      (label ≠ "" ∧ f.blockByLabel? label = none ∧
        (f.createBlock label).state = f.addBlock label) := by
  unfold createBlock
  cases hRefuse : f.refuseLabel? label with
  | some e => exact .inl rfl
  | none =>
    obtain ⟨hNe, hNone⟩ := refuseLabel?_eq_none.mp hRefuse
    exact .inr ⟨hNe, hNone, rfl⟩

/-! ## Instructions -/

/-- All that an operation mentions is there, and the block has room for it. -/
structure Accepts (f : Func) (b : BlockId) (op : Op) : Prop where
  hasBlock : f.hasBlock b = true
  room : op.isPhi = true ∨ ∀ i, (f.code b).getLast? = some i → i.isTerminator = false
  operands : ∀ v ∈ op.operands, f.hasValue v = true
  blockRefs : ∀ c ∈ op.blockRefs, f.hasBlock c = true
  named : op.missingName? = none

/-- An instruction has taken its place in a block, and the edges to its targets are recorded. -/
structure Appended (f : Func) (b : BlockId) (i : Inst) (g : Func) : Prop where
  frame : SameFrame f g
  nextValue_eq : g.ids.nextValue = f.ids.nextValue + 1
  code_self : g.code b = placed i (f.code b)
  code_of_ne : ∀ x, x ≠ b → g.code x = f.code x
  mem_succs : ∀ x c, c ∈ g.succs x ↔
    c ∈ f.succs x ∨ (x = b ∧ c ∈ i.op.targets ∧ f.hasBlock c = true)

theorem Appended.mem_code (h : Appended f b i g) :
    j ∈ g.code x ↔ (x = b ∧ j = i) ∨ j ∈ f.code x := by
  by_cases hx : x = b
  · rw [hx, h.code_self, mem_placed]
    simp
  · rw [h.code_of_ne x hx]
    simp [hx]

/-- The instruction that a request to append an operation adds. -/
def newInst (f : Func) (ty : Ty) (op : Op) : Inst :=
  ⟨⟨f.ids.nextValue⟩, ty, f.comptimeOf op, op⟩

theorem addInst_appended (hb : f.hasBlock b = true) (ty : Ty) (op : Op) :
    Appended f b (f.newInst ty op) (f.addInst b ty op) := by
  have hPlace : (fun blk : Block => blk.place (f.newInst ty op)) =
      fun blk => { blk with insts := placed (f.newInst ty op) blk.insts } := by
    funext blk
    unfold Block.place placed
    split <;> rfl
  have hEq : f.addInst b ty op =
      { f.rewrite b (placed (f.newInst ty op)) with ids := f.ids.takeValue.2 }.addEdges b
        op.targets := by
    rw [rewrite, ← hPlace]
    rfl
  rw [hEq]
  -- the new instruction first, without its edges
  generalize hMid : { f.rewrite b (placed (f.newInst ty op)) with ids := f.ids.takeValue.2 } = mid
  have hFrame : SameFrame f mid := by
    have h := SameFrame.rewrite f b (placed (f.newInst ty op))
    rw [← hMid]
    exact ⟨rfl, rfl, rfl, rfl, h.hasBlock_eq, h.label?_eq, h.named, h.mirrored⟩
  have hCode : ∀ x, mid.code x = (f.rewrite b (placed (f.newInst ty op))).code x := by
    rw [← hMid]
    exact fun _ => rfl
  have hSuccs : ∀ x, mid.succs x = f.succs x := by
    intro x
    rw [← hMid]
    exact (succs_rewrite : (f.rewrite b (placed (f.newInst ty op))).succs x = f.succs x)
  have hSame := SameCode.addEdges mid b op.targets
  constructor
  · exact hFrame.trans (.of_sameCode hSame fun h => h.addEdges b op.targets)
  · rw [hSame.ids_eq, ← hMid]
    rfl
  · rw [hSame.code_eq, hCode, code_rewrite_self hb]
  · intro x hx
    rw [hSame.code_eq, hCode, code_rewrite_of_ne hx]
  · intro x c
    rw [mem_succs_addEdges, hSuccs, hFrame.hasBlock_eq, hFrame.hasBlock_eq]
    simp only [hb, true_and]
    rfl

theorem accepts_of_refuseAppend? (h : f.refuseAppend? b op = none) : f.Accepts b op := by
  unfold refuseAppend? at h
  split at h
  · cases h
  rename_i blk hBlk
  split at h
  · cases h
  rename_i hRoom
  unfold refuseOp? at h
  split at h
  · cases h
  rename_i hOperands
  split at h
  · cases h
  rename_i hRefs
  refine ⟨hasBlock_iff.mpr ⟨blk, hBlk⟩, ?_, ?_, ?_, Option.map_eq_none_iff.mp h⟩
  · cases hPhi : op.isPhi with
    | true => exact .inl rfl
    | false =>
      right
      intro i hLast
      rw [code_of_block? hBlk] at hLast
      rw [hPhi, Block.hasTerminator, Block.terminator?, hLast] at hRoom
      cases hTerm : i.isTerminator with
      | false => rfl
      | true => simp [hTerm] at hRoom
  · simpa using hOperands
  · simpa using hRefs

theorem append_cases (f : Func) (b : BlockId) (ty : Ty) (op : Op) :
    (f.append b ty op).state = f ∨
      (f.Accepts b op ∧ Appended f b (f.newInst ty op) (f.append b ty op).state) := by
  unfold append
  cases hRefuse : f.refuseAppend? b op with
  | some e => exact .inl rfl
  | none =>
    have hAccepts := accepts_of_refuseAppend? hRefuse
    exact .inr ⟨hAccepts, addInst_appended hAccepts.hasBlock ty op⟩

/-! ## Pairs of a phi -/

theorem addIncoming_cases (f : Func) (phi : ValueId) (pred : BlockId) (value : ValueId) :
    (f.addIncoming phi pred value).state = f ∨
      (f.hasBlock pred = true ∧ f.hasValue value = true ∧ ∃ b, (f.addIncoming phi pred value).state =
        f.rewrite b (Block.updateFirst phi (·.addIncoming ⟨pred, value⟩ (f.isComptime value)))) := by
  unfold addIncoming
  split
  · exact .inl rfl
  rename_i hPred
  split
  · exact .inl rfl
  rename_i hValue
  rw [Bool.not_eq_true', Bool.not_eq_false] at hPred hValue
  cases f.phiAt phi with
  | error e => exact .inl rfl
  | ok b => exact .inr ⟨hPred, hValue, b, rfl⟩

theorem exists_phi_of_phiAt {phi : ValueId} (h : f.phiAt phi = .ok b) :
    ∃ i ∈ f.code b, i.id = phi ∧ i.isPhi = true := by
  unfold phiAt at h
  split at h
  · cases h
  split at h
  · cases h
  rename_i blk hBlk
  split at h
  · cases h
  rename_i i hValue
  split at h
  · rename_i hPhi
    obtain rfl := Except.ok.inj h
    rw [code_of_block? hBlk]
    exact ⟨i, List.mem_of_find?_eq_some hValue, by simpa using List.find?_some hValue, hPhi⟩
  · cases h

theorem addIncoming_of_isOk {phi value : ValueId} {pred : BlockId}
    (h : (f.addIncoming phi pred value).isOk = true) :
    f.hasValue value = true ∧ ∃ b, (∃ i ∈ f.code b, i.id = phi ∧ i.isPhi = true) ∧
      (f.addIncoming phi pred value).state =
        f.rewrite b (Block.updateFirst phi (·.addIncoming ⟨pred, value⟩ (f.isComptime value))) := by
  unfold addIncoming at h ⊢
  split at h
  · cases h
  rename_i hPred
  split at h
  · cases h
  rename_i hValue
  rw [if_neg hPred, if_neg hValue]
  rw [Bool.not_eq_true', Bool.not_eq_false] at hValue
  cases hAt : f.phiAt phi with
  | error e =>
    rw [hAt] at h
    cases h
  | ok b => exact ⟨hValue, b, exists_phi_of_phiAt hAt, rfl⟩

end Func

end Midend
