import Mathlib.Data.List.Forall2
import Midend.Func.Revision
import Midend.Shape.Request

/-!
# Operands replaced

An operation is its operands and its form: what kind of operation it is, the rest of what it holds and
the blocks that it mentions (`Op.form`). The two determine it (`Op.eq_of_form_of_operands`), so a
change of an operation is described completely by what it does to either. Renaming the operands
keeps the form and renames each operand in its place.

* `replaceUses_exact`: when one value is replaced by another, every instruction keeps its place, and
  its operands are replaced one by one; the instructions that had any are counted, none is left, and
  doing it again does nothing.
-/

namespace Midend

/-! ## Operands and form -/

/-- An operation without its operands. -/
inductive Op.Form where
  | const (c : Literal)
  | slot (name : String)
  | load
  | store
  | binary (op : BinaryOp)
  | unary (op : UnaryOp)
  | call (callee : String)
  | branch (onTrue onFalse : BlockId)
  | jump (target : BlockId)
  | ret
  | alloca (allocated : Ty)
  | convert
  | phi (blocks : List BlockId)

namespace Op

/-- What is left of an operation without its operands. -/
def form : Op → Form
  | .const c => .const c
  | .slot name => .slot name
  | .load _ => .load
  | .store _ _ => .store
  | .binary op _ _ => .binary op
  | .unary op _ => .unary op
  | .call callee _ => .call callee
  | .branch _ t e => .branch t e
  | .jump t => .jump t
  | .ret _ => .ret
  | .alloca t => .alloca t
  | .convert _ => .convert
  | .phi incoming => .phi (incoming.map (·.block))

/-- The operation of a form with the given operands, if there are as many as it needs. -/
def Form.fill : Form → List ValueId → Option Op
  | .const c, _ => some (.const c)
  | .slot name, _ => some (.slot name)
  | .load, [p] => some (.load p)
  | .store, [p, v] => some (.store p v)
  | .binary op, [a, b] => some (.binary op a b)
  | .unary op, [a] => some (.unary op a)
  | .call callee, args => some (.call callee args)
  | .branch t e, [c] => some (.branch c t e)
  | .jump t, _ => some (.jump t)
  | .ret, l => some (.ret l.head?)
  | .alloca t, _ => some (.alloca t)
  | .convert, [a] => some (.convert a)
  | .phi blocks, l => some (.phi (List.zipWith Incoming.mk blocks l))
  | _, _ => none

/-- The form and the operands give the operation back. -/
theorem fill_form (op : Op) : op.form.fill op.operands = some op := by
  cases op with
  | ret v => cases v <;> rfl
  | phi incoming =>
    simp only [form, operands, Form.fill]
    rw [List.zipWith_map, List.zipWith_self, List.map_id']
  | _ => rfl

/-- An operation is determined by its form and its operands. -/
theorem eq_of_form_of_operands {op op' : Op} (hForm : op.form = op'.form)
    (hOperands : op.operands = op'.operands) : op = op' := by
  apply Option.some.inj
  rw [← fill_form op, hForm, hOperands, fill_form]

theorem form_mapOperands (g : ValueId → ValueId) (op : Op) : (op.mapOperands g).form = op.form := by
  cases op <;> simp [mapOperands, form]

/-- Replacing an operand that an operation does not have. -/
theorem mapOperands_of_not_mem {op : Op} {old new : ValueId} (h : old ∉ op.operands) :
    op.mapOperands (fun v => if v = old then new else v) = op := by
  apply eq_of_form_of_operands (form_mapOperands _ op)
  rw [operands_mapOperands]
  conv => rhs; rw [← List.map_id op.operands]
  apply List.map_congr_left
  intro v hv
  have hne : v ≠ old := fun hEq => h (hEq ▸ hv)
  exact if_neg hne

end Op

/-! ## Instructions -/

namespace Inst

variable {old new : ValueId} {i j : Inst}

/-- The second instruction is the first one with a value for another in its operands. -/
structure Redirected (old new : ValueId) (i j : Inst) : Prop where
  id_eq : j.id = i.id
  ty_eq : j.ty = i.ty
  comptime_eq : j.comptime = i.comptime
  form_eq : j.op.form = i.op.form
  operands_eq : j.op.operands = i.op.operands.map fun v => if v = old then new else v

theorem mapOperands_redirected (old new : ValueId) (i : Inst) :
    Redirected old new i (i.mapOperands fun v => if v = old then new else v) :=
  ⟨rfl, rfl, rfl, Op.form_mapOperands _ i.op, Op.operands_mapOperands _ i.op⟩

theorem mapOperands_of_not_mem (h : old ∉ i.op.operands) :
    i.mapOperands (fun v => if v = old then new else v) = i := by
  rw [mapOperands, Op.mapOperands_of_not_mem h]

theorem not_mem_operands_mapOperands (hne : old ≠ new) (i : Inst) :
    old ∉ (i.mapOperands fun v => if v = old then new else v).op.operands := by
  rw [(mapOperands_redirected old new i).operands_eq, List.mem_map]
  rintro ⟨v, -, hEq⟩
  split at hEq
  · exact hne hEq.symm
  · rename_i hv
    exact hv hEq

end Inst

namespace Func

variable {f : Func} {old new : ValueId} {b : BlockId} {l : List Inst}

theorem fst_replaceUsesIn (old new : ValueId) (l : List Inst) :
    (replaceUsesIn old new l).1 = l.countP (old ∈ ·.op.operands) := by
  induction l with
  | nil => rfl
  | cons i l ih =>
    rw [replaceUsesIn, List.countP_cons, ← ih]
    by_cases h : old ∈ i.op.operands <;> simp [h]

theorem snd_replaceUsesIn (old new : ValueId) (l : List Inst) :
    (replaceUsesIn old new l).2 = l.map (·.mapOperands fun v => if v = old then new else v) := by
  induction l with
  | nil => rfl
  | cons i l ih =>
    rw [replaceUsesIn, List.map_cons, ← ih]
    by_cases h : old ∈ i.op.operands
    · simp [h]
    · rw [Inst.mapOperands_of_not_mem h]
      simp [h]

/-! ## Functions -/

/-- All instructions that a function holds, also in blocks that the layout does not list. -/
def held (f : Func) : List Inst := f.arena.values.flatMap (·.insts)

theorem mem_held {i : Inst} : i ∈ f.held ↔ ∃ b blk, f.block? b = some blk ∧ i ∈ blk.insts := by
  simp only [held, List.mem_flatMap, SortedMap.values, List.mem_map, block?,
    SortedMap.get?_eq_some_iff, Prod.exists]
  grind

/-- The second function is the first one with a value for another in the operands of its
instructions. -/
structure Redirected (f : Func) (old new : ValueId) (g : Func) : Prop where
  hasBlock_eq : ∀ b, g.hasBlock b = f.hasBlock b
  block : ∀ b blk, f.block? b = some blk → ∃ insts, g.block? b = some { blk with insts } ∧
    List.Forall₂ (Inst.Redirected old new) blk.insts insts
  rest_eq : g = { f with arena := g.arena }

theorem fst_replaceUses (f : Func) (old new : ValueId) :
    (f.replaceUses old new).1 = f.held.countP (old ∈ ·.op.operands) := by
  simp only [replaceUses, SortedMap.values, SortedMap.mapValues, SortedMap.mapEntries, held,
    List.map_map, Function.comp_def, fst_replaceUsesIn]
  induction f.arena.toList with
  | nil => rfl
  | cons e l ih =>
    rw [List.map_cons, List.map_cons, List.flatMap_cons, List.countP_append, ← ih]
    rfl

theorem block?_replaceUses (f : Func) (old new : ValueId) (b : BlockId) :
    (f.replaceUses old new).2.block? b = (f.block? b).map fun blk =>
      { blk with insts := blk.insts.map (·.mapOperands fun v => if v = old then new else v) } := by
  simp only [replaceUses, block?, SortedMap.get?_mapValues, Option.map_map]
  cases f.arena.get? b with
  | none => rfl
  | some blk =>
    rw [Option.map_some, Option.map_some, Function.comp_apply]
    exact congrArg (fun insts => some { blk with insts }) (snd_replaceUsesIn old new blk.insts)

theorem replaceUses_redirected (f : Func) (old new : ValueId) :
    f.Redirected old new (f.replaceUses old new).2 where
  hasBlock_eq b := by
    rw [hasBlock_eq_isSome, hasBlock_eq_isSome, block?_replaceUses, Option.isSome_map]
  block b blk hBlk := by
    refine ⟨_, by rw [block?_replaceUses, hBlk]; rfl, ?_⟩
    rw [List.forall₂_map_right_iff, List.forall₂_same]
    exact fun i _ => Inst.mapOperands_redirected old new i
  rest_eq := rfl

theorem not_mem_operands_replaceUses (hne : old ≠ new) :
    ∀ i ∈ (f.replaceUses old new).2.held, old ∉ i.op.operands := by
  intro i hi
  obtain ⟨b, blk, hBlk, hi⟩ := mem_held.mp hi
  rw [block?_replaceUses] at hBlk
  obtain ⟨blk', -, rfl⟩ := Option.map_eq_some_iff.mp hBlk
  obtain ⟨j, -, rfl⟩ := List.mem_map.mp hi
  exact Inst.not_mem_operands_mapOperands hne j

/-- There is nothing to replace where no instruction reads the value. -/
theorem replaceUses_of_not_mem (h : ∀ i ∈ f.held, old ∉ i.op.operands) :
    f.replaceUses old new = (0, f) := by
  have hCount : (f.replaceUses old new).1 = 0 := by
    rw [fst_replaceUses, List.countP_eq_zero]
    simpa using h
  have hArena : (f.replaceUses old new).2.arena = f.arena := by
    ext1 b
    change (f.replaceUses old new).2.block? b = f.block? b
    rw [block?_replaceUses]
    cases hBlk : f.block? b with
    | none => rfl
    | some blk =>
      have hInsts : blk.insts.map (·.mapOperands fun v => if v = old then new else v) = blk.insts := by
        conv => rhs; rw [← List.map_id blk.insts]
        apply List.map_congr_left
        intro i hi
        exact Inst.mapOperands_of_not_mem (h i (mem_held.mpr ⟨b, blk, hBlk, hi⟩))
      rw [Option.map_some, hInsts]
  exact Prod.ext hCount (congrArg (fun m => { f with arena := m }) hArena)

/-- **Replacing a value is complete and touches nothing else.** The number of instructions that read
the value is counted; none of them does afterwards. Every instruction is where it was, with its name,
its type, its flag and its form, and with its operands replaced one by one. Doing it again changes
nothing. -/
theorem replaceUses_exact (f : Func) (old new : ValueId) (hne : old ≠ new) :
    (f.replaceUses old new).1 = f.held.countP (old ∈ ·.op.operands) ∧
      (∀ i ∈ (f.replaceUses old new).2.held, old ∉ i.op.operands) ∧
      f.Redirected old new (f.replaceUses old new).2 ∧
      (f.replaceUses old new).2.replaceUses old new = (0, (f.replaceUses old new).2) :=
  ⟨fst_replaceUses f old new, not_mem_operands_replaceUses hne, replaceUses_redirected f old new,
    replaceUses_of_not_mem (not_mem_operands_replaceUses hne)⟩

/-- Its first value is read twice by a call and by a conjunction, once by a phi and by the return. -/
def rereading : Func :=
  [.createBlock "entry", .createBlock "exit", .append ⟨0⟩ .bool (.const (.bool true)),
    .append ⟨0⟩ .bool (.const (.bool false)), .append ⟨0⟩ .bool (.call "both" [⟨0⟩, ⟨1⟩, ⟨0⟩]),
    .append ⟨0⟩ .bool (.binary .and ⟨0⟩ ⟨0⟩), .append ⟨0⟩ .void (.branch ⟨1⟩ ⟨1⟩ ⟨1⟩),
    .append ⟨1⟩ .bool (.phi [⟨⟨0⟩, ⟨0⟩⟩]), .append ⟨1⟩ .void (.ret (some ⟨0⟩))].foldl build
      (.empty "rereading" .bool)

theorem rereading_replaceUses :
    (rereading.replaceUses ⟨0⟩ ⟨1⟩).1 = 4 ∧
      (rereading.replaceUses ⟨0⟩ ⟨1⟩).2.replaceUses ⟨0⟩ ⟨1⟩ =
        (0, (rereading.replaceUses ⟨0⟩ ⟨1⟩).2) := by
  obtain ⟨hCount, -, -, hAgain⟩ := replaceUses_exact rereading ⟨0⟩ ⟨1⟩ (by decide)
  refine ⟨?_, hAgain⟩
  rw [hCount]
  decide +kernel

end Func

end Midend
