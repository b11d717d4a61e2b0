import Midend.Func.Basic

/-!
# Edges

Every edge is recorded twice, where it leaves and where it arrives. `Func.addEdge` and
`Func.removeEdge` are the only operations that change an existing block's record, and they change
both sides together. An edge at a block that the function does not have is not recorded.
-/

namespace Midend

namespace Func

/-- Changes the block of the given name, if there is one. -/
def modifyBlock (f : Func) (b : BlockId) (g : Block → Block) : Func :=
  { f with arena := f.arena.modify b g }

/-- Records an edge on both sides. -/
def addEdge (f : Func) (a b : BlockId) : Func :=
  if f.hasBlock a && f.hasBlock b then
    (f.modifyBlock a fun blk => { blk with succs := blk.succs.insert b }).modifyBlock b
      fun blk => { blk with preds := blk.preds.insert a }
  else f

/-- Strikes an edge from both sides, if it is recorded where it leaves. -/
def removeEdge (f : Func) (a b : BlockId) : Func :=
  if f.hasSucc a b then
    (f.modifyBlock a fun blk => { blk with succs := blk.succs.erase b }).modifyBlock b
      fun blk => { blk with preds := blk.preds.erase a }
  else f

/-- Records an edge from one block to each of a list. -/
def addEdges (f : Func) (a : BlockId) (targets : List BlockId) : Func :=
  targets.foldl (fun g b => g.addEdge a b) f

/-- Strikes the edges from one block to each of a list. -/
def removeEdges (f : Func) (a : BlockId) (targets : List BlockId) : Func :=
  targets.foldl (fun g b => g.removeEdge a b) f

/-- Strikes all edges at a block, first those that arrive, then those that leave. -/
def disconnect (f : Func) (b : BlockId) : Func :=
  let g := (f.preds b).toList.foldl (fun g a => g.removeEdge a b) f
  g.removeEdges b (g.succs b).toList

/-! ## What a change of one block leaves -/

theorem block?_modifyBlock (f : Func) (b : BlockId) (g : Block → Block) (x : BlockId) :
    (f.modifyBlock b g).block? x = if x = b then (f.block? x).map g else f.block? x :=
  SortedMap.get?_modify ..

@[simp] theorem block?_modifyBlock_self (f : Func) (b : BlockId) (g : Block → Block) :
    (f.modifyBlock b g).block? b = (f.block? b).map g :=
  SortedMap.get?_modify_self ..

theorem block?_modifyBlock_of_ne (f : Func) {a b : BlockId} (g : Block → Block) (h : a ≠ b) :
    (f.modifyBlock b g).block? a = f.block? a :=
  SortedMap.get?_modify_of_ne _ _ h

@[simp] theorem hasBlock_modifyBlock (f : Func) (b : BlockId) (g : Block → Block) (x : BlockId) :
    (f.modifyBlock b g).hasBlock x = f.hasBlock x := by
  have h := f.block?_modifyBlock b g x
  simp only [block?] at h
  simp only [hasBlock, SortedMap.contains, h]
  split <;> simp

@[simp] theorem layout_modifyBlock (f : Func) (b : BlockId) (g : Block → Block) :
    (f.modifyBlock b g).layout = f.layout := rfl

@[simp] theorem entry_modifyBlock (f : Func) (b : BlockId) (g : Block → Block) :
    (f.modifyBlock b g).entry = f.entry := rfl

@[simp] theorem ids_modifyBlock (f : Func) (b : BlockId) (g : Block → Block) :
    (f.modifyBlock b g).ids = f.ids := rfl

theorem hasBlock_eq_isSome (f : Func) (b : BlockId) : f.hasBlock b = (f.block? b).isSome := rfl

/-! ## What a change of one edge leaves -/

/-- An added edge is all that changes, and it changes the blocks at its ends. -/
theorem block?_addEdge (f : Func) (a b x : BlockId) :
    (f.addEdge a b).block? x = (f.block? x).map fun blk =>
      { blk with
        succs := if x = a ∧ f.hasBlock b then blk.succs.insert b else blk.succs
        preds := if x = b ∧ f.hasBlock a then blk.preds.insert a else blk.preds } := by
  cases hx : f.block? x with
  | none => by_cases h : f.hasBlock a && f.hasBlock b <;> simp [addEdge, h, block?_modifyBlock, hx]
  | some blk =>
    have hasX : f.hasBlock x = true := by simp [hasBlock_eq_isSome, hx]
    by_cases ha : f.hasBlock a <;> by_cases hb : f.hasBlock b <;> by_cases hxa : x = a <;>
      by_cases hxb : x = b <;> simp_all [addEdge, block?_modifyBlock]

/-- A struck edge is all that changes, and it changes the blocks at its ends. -/
theorem block?_removeEdge (f : Func) (a b x : BlockId) :
    (f.removeEdge a b).block? x = (f.block? x).map fun blk =>
      { blk with
        succs := if x = a ∧ f.hasSucc a b then blk.succs.erase b else blk.succs
        preds := if x = b ∧ f.hasSucc a b then blk.preds.erase a else blk.preds } := by
  cases hx : f.block? x with
  | none => by_cases h : f.hasSucc a b <;> simp [removeEdge, h, block?_modifyBlock, hx]
  | some blk =>
    by_cases h : f.hasSucc a b <;> by_cases hxa : x = a <;> by_cases hxb : x = b <;>
      simp_all [removeEdge, block?_modifyBlock]

@[simp] theorem hasBlock_addEdge (f : Func) (a b x : BlockId) :
    (f.addEdge a b).hasBlock x = f.hasBlock x := by
  simp [hasBlock_eq_isSome, block?_addEdge]

@[simp] theorem hasBlock_removeEdge (f : Func) (a b x : BlockId) :
    (f.removeEdge a b).hasBlock x = f.hasBlock x := by
  simp [hasBlock_eq_isSome, block?_removeEdge]

@[simp] theorem layout_addEdge (f : Func) (a b : BlockId) : (f.addEdge a b).layout = f.layout := by
  unfold addEdge; split <;> rfl

@[simp] theorem entry_addEdge (f : Func) (a b : BlockId) : (f.addEdge a b).entry = f.entry := by
  unfold addEdge; split <;> rfl

@[simp] theorem ids_addEdge (f : Func) (a b : BlockId) : (f.addEdge a b).ids = f.ids := by
  unfold addEdge; split <;> rfl

@[simp] theorem layout_removeEdge (f : Func) (a b : BlockId) :
    (f.removeEdge a b).layout = f.layout := by
  unfold removeEdge; split <;> rfl

@[simp] theorem entry_removeEdge (f : Func) (a b : BlockId) :
    (f.removeEdge a b).entry = f.entry := by
  unfold removeEdge; split <;> rfl

@[simp] theorem ids_removeEdge (f : Func) (a b : BlockId) : (f.removeEdge a b).ids = f.ids := by
  unfold removeEdge; split <;> rfl

theorem mem_succs_iff {f : Func} {a b : BlockId} :
    b ∈ f.succs a ↔ ∃ blk, f.block? a = some blk ∧ b ∈ blk.succs := by
  unfold succs; cases f.block? a <;> simp

theorem mem_preds_iff {f : Func} {a b : BlockId} :
    a ∈ f.preds b ↔ ∃ blk, f.block? b = some blk ∧ a ∈ blk.preds := by
  unfold preds; cases f.block? b <;> simp

@[simp] theorem hasSucc_iff {f : Func} {a b : BlockId} : f.hasSucc a b = true ↔ b ∈ f.succs a := by
  simp [hasSucc]

@[simp] theorem hasPred_iff {f : Func} {a b : BlockId} : f.hasPred b a = true ↔ a ∈ f.preds b := by
  simp [hasPred]

theorem mem_succs_addEdge {f : Func} {a b x c : BlockId} :
    c ∈ (f.addEdge a b).succs x ↔
      c ∈ f.succs x ∨ (x = a ∧ c = b ∧ f.hasBlock a ∧ f.hasBlock b) := by
  cases hx : f.block? x with
  | none =>
    have : x = a → f.hasBlock a = false := by rintro rfl; simp [hasBlock_eq_isSome, hx]
    simp only [mem_succs_iff, block?_addEdge, hx]
    grind
  | some blk =>
    have : x = a → f.hasBlock a = true := by rintro rfl; simp [hasBlock_eq_isSome, hx]
    simp only [mem_succs_iff, block?_addEdge, hx]
    grind [SortedSet.mem_insert]

theorem mem_preds_addEdge {f : Func} {a b x c : BlockId} :
    c ∈ (f.addEdge a b).preds x ↔
      c ∈ f.preds x ∨ (x = b ∧ c = a ∧ f.hasBlock a ∧ f.hasBlock b) := by
  cases hx : f.block? x with
  | none =>
    have : x = b → f.hasBlock b = false := by rintro rfl; simp [hasBlock_eq_isSome, hx]
    simp only [mem_preds_iff, block?_addEdge, hx]
    grind
  | some blk =>
    have : x = b → f.hasBlock b = true := by rintro rfl; simp [hasBlock_eq_isSome, hx]
    simp only [mem_preds_iff, block?_addEdge, hx]
    grind [SortedSet.mem_insert]

theorem mem_succs_removeEdge {f : Func} {a b x c : BlockId} :
    c ∈ (f.removeEdge a b).succs x ↔ c ∈ f.succs x ∧ ¬ (x = a ∧ c = b) := by
  have edge : f.hasSucc a b = true ↔ b ∈ f.succs a := hasSucc_iff
  cases hx : f.block? x with
  | none => simp [mem_succs_iff, block?_removeEdge, hx]
  | some blk =>
    have : x = a → (b ∈ f.succs a ↔ b ∈ blk.succs) := by rintro rfl; simp [mem_succs_iff, hx]
    simp only [mem_succs_iff (a := x), block?_removeEdge, hx]
    grind [SortedSet.mem_erase]

theorem mem_preds_removeEdge {f : Func} {a b x c : BlockId} :
    c ∈ (f.removeEdge a b).preds x ↔ c ∈ f.preds x ∧ ¬ (x = b ∧ c = a ∧ b ∈ f.succs a) := by
  have edge : f.hasSucc a b = true ↔ b ∈ f.succs a := hasSucc_iff
  cases hx : f.block? x with
  | none => simp [mem_preds_iff, block?_removeEdge, hx]
  | some blk =>
    simp only [mem_preds_iff (b := x), block?_removeEdge, hx]
    grind [SortedSet.mem_erase]

end Func

end Midend
