import Midend.Proofs.Json.Decimals
import Midend.Proofs.Json.Digits

/-!
# Data read back

What is written as data is read back as it was. For each kind of thing a lemma says what reading makes
of what writing gives: types, whatever they nest, come back; so do names, as long as their numbers
fit in thirty-two bits (`Fits`). How floating-point numbers are written is left open; all that is
asked is that a finite one is read back and that any other is written as null, which is not read
(`FloatForm.Faithful`). So a literal that is not finite is the only thing that is lost, and whatever
holds one cannot be read at all: what reading gives is `Option.guard` of the test `isFinite`. A list
fails exactly if one of its items does (`list?_list`).

Nothing is asked of a program beyond that. Its blocks may be kept under other names than their own,
its layout may mention blocks that are not there and its edges may be recorded on one side only.

* `Program.data_read_back`: a program is read back from its data if its literals are finite, and
  nothing is read otherwise.
-/

namespace Midend

open Json

/-! ## Fields, numbers and lists -/

namespace Json

variable {α : Type} {write : α → Json} {read : Json → Option α} {l : List α}

/-- A field is looked for from the front of a record. -/
@[simp] theorem get?_obj_cons (k name : String) (j : Json) (rest : List (String × Json)) :
    (obj ((k, j) :: rest)).get? name read =
      if k = name then read j else (obj rest).get? name read := by
  rw [get?, field?, lookup?]
  split <;> rfl

@[simp] theorem getOption?_obj_cons (k name : String) (j : Json) (rest : List (String × Json)) :
    (obj ((k, j) :: rest)).getOption? name read =
      if k = name then option? read j else (obj rest).getOption? name read := by
  rw [getOption?, field?, lookup?]
  split <;> rfl

@[simp] theorem str?_str (s : String) : (str s).str? = some s := rfl

@[simp] theorem bool?_bool (b : Bool) : (bool b).bool? = some b := rfl

@[simp] theorem variant?_variant (tag : String) (j : Json) : (variant tag j).variant? = some (tag, j) :=
  rfl

@[simp] theorem int?_int (n : Int) : (int n).int? = some n := by
  simp only [int, int?, decide_eq_true_eq]
  congr 1
  split <;> omega

theorem natBelow?_nat {bound n : Nat} (h : n < bound) : natBelow? bound (nat n) = some n :=
  if_pos h

/-- The items of a list are read if each of them is. -/
theorem mapM_map_eq_guard {β : Type} {P : α → Bool} {write : α → β} {read : β → Option α}
    (h : ∀ a ∈ l, read (write a) = Option.guard P a) :
    (l.map write).mapM read = Option.guard (·.all P) l := by
  induction l with
  | nil => rfl
  | cons a l ih =>
    rw [List.map_cons, List.mapM_cons, h a List.mem_cons_self,
      ih fun b hb => h b (List.mem_cons_of_mem a hb)]
    cases ha : P a <;> cases hl : l.all P <;> simp [Option.guard, ha, hl]

theorem list?_list {P : α → Bool} (h : ∀ a ∈ l, read (write a) = Option.guard P a) :
    list? read (list write l) = Option.guard (·.all P) l :=
  mapM_map_eq_guard h

theorem list?_list_of_some (h : ∀ a ∈ l, read (write a) = some a) :
    list? read (list write l) = some l := by
  rw [list?_list (P := fun _ => true) h]
  simp [Option.guard]

theorem option?_option {o : Option α} (hNull : ∀ a, write a ≠ .null)
    (h : ∀ a, o = some a → read (write a) = some a) : option? read (option write o) = some o := by
  cases o with
  | none => rfl
  | some a =>
    rw [option, option?.eq_2 _ _ (hNull a), h a rfl]
    rfl

end Json

/-! ## What fits in data -/

/-- The number of a block fits in thirty-two bits. -/
def BlockId.Fits (b : BlockId) : Prop := b.index < 0x100000000

instance (b : BlockId) : Decidable b.Fits := inferInstanceAs (Decidable (b.index < _))

/-- The number of a value fits in thirty-two bits. -/
def ValueId.Fits (v : ValueId) : Prop := v.index < 0x100000000

instance (v : ValueId) : Decidable v.Fits := inferInstanceAs (Decidable (v.index < _))

/-- The names that an operation mentions fit. -/
def Op.Fits (op : Op) : Prop := (∀ v ∈ op.operands, v.Fits) ∧ ∀ b ∈ op.blockRefs, b.Fits

instance (op : Op) : Decidable op.Fits :=
  inferInstanceAs (Decidable ((∀ v ∈ op.operands, v.Fits) ∧ ∀ b ∈ op.blockRefs, b.Fits))

/-- The names in an instruction fit. -/
def Inst.Fits (i : Inst) : Prop := i.id.Fits ∧ i.op.Fits

instance (i : Inst) : Decidable i.Fits := inferInstanceAs (Decidable (i.id.Fits ∧ i.op.Fits))

/-- The names in a block fit. -/
def Block.Fits (blk : Block) : Prop :=
  blk.id.Fits ∧ (∀ i ∈ blk.insts, i.Fits) ∧ (∀ a ∈ blk.preds, a.Fits) ∧ ∀ c ∈ blk.succs, c.Fits

instance (blk : Block) : Decidable blk.Fits :=
  inferInstanceAs (Decidable (blk.id.Fits ∧ (∀ i ∈ blk.insts, i.Fits) ∧
    (∀ a ∈ blk.preds.toList, a.Fits) ∧ ∀ c ∈ blk.succs.toList, c.Fits))

/-- The numbers to be handed out next fit. -/
def IdSupply.Fits (s : IdSupply) : Prop := s.nextBlock < 0x100000000 ∧ s.nextValue < 0x100000000

instance (s : IdSupply) : Decidable s.Fits :=
  inferInstanceAs (Decidable (s.nextBlock < _ ∧ s.nextValue < _))

/-- The names in a function fit. -/
def Func.Fits (f : Func) : Prop :=
  (∀ e ∈ f.arena.toList, e.1.Fits ∧ e.2.Fits) ∧ (∀ b ∈ f.layout, b.Fits) ∧
    (∀ b ∈ f.entry, b.Fits) ∧ f.ids.Fits

instance (f : Func) : Decidable f.Fits :=
  inferInstanceAs (Decidable ((∀ e ∈ f.arena.toList, e.1.Fits ∧ e.2.Fits) ∧
    (∀ b ∈ f.layout, b.Fits) ∧ (∀ b ∈ f.entry, b.Fits) ∧ f.ids.Fits))

/-- The names in a program fit. -/
def Program.Fits (p : Program) : Prop := ∀ f ∈ p.funcs, f.Fits

instance (p : Program) : Decidable p.Fits := inferInstanceAs (Decidable (∀ f ∈ p.funcs, f.Fits))

/-- Whether a literal stands for a number, if it is a floating-point one. -/
def Literal.isFinite : Literal → Bool
  | .float x => x.isFinite
  | _ => true

/-- Whether an operation is no literal or a finite one. -/
def Op.isFinite : Op → Bool
  | .const c => c.isFinite
  | _ => true

/-- Whether the literals of a block are finite. -/
def Block.isFinite (blk : Block) : Bool := blk.insts.all (·.op.isFinite)

/-- Whether the literals of a function are finite. -/
def Func.isFinite (f : Func) : Bool := f.arena.values.all (·.isFinite)

/-- Whether the literals of a program are finite. -/
def Program.isFinite (p : Program) : Bool := p.funcs.all (·.isFinite)

/-! ## Names and types -/

theorem BlockId.ofJson?_toJson {b : BlockId} (h : b.Fits) : ofJson? b.toJson = some b := by
  rw [ofJson?, toJson, word32?, natBelow?_nat h]
  rfl

theorem ValueId.ofJson?_toJson {v : ValueId} (h : v.Fits) : ofJson? v.toJson = some v := by
  rw [ofJson?, toJson, word32?, natBelow?_nat h]
  rfl

theorem Scalar.ofDataName?_dataName (s : Scalar) : ofDataName? s.dataName = some s := by
  cases s <;> rfl

namespace Ty

theorem ofJson?_ptr (j : Json) : ofJson? (variant "Ptr" j) = (ofJson? j).map .ptr := by
  cases j <;> simp [variant, ofJson?]

mutual

theorem ofJson?_toJson (t : Ty) : ofJson? t.toJson = some t := by
  cases t with
  | scalar s =>
    rw [toJson, ofJson?, Scalar.ofDataName?_dataName]
    rfl
  | ptr t =>
    rw [toJson, ofJson?_ptr, ofJson?_toJson t]
    rfl
  | array n t =>
    have hSize : word64? (nat n.toNat) = some n.toNat := natBelow?_nat n.toNat_lt
    simp [toJson, variant, ofJson?, lookup?, elementOfJson?, hSize, ofJson?_toJson t]
  | struct name fields =>
    have hName : option? str? (option .str name) = some name :=
      option?_option (fun _ => Json.noConfusion) fun _ _ => rfl
    simp [toJson, variant, ofJson?, lookup?, fieldsOfJson?, hName, typesOfJson?_typesToJson fields]

theorem typesOfJson?_typesToJson (ts : List Ty) : typesOfJson? (typesToJson ts) = some ts := by
  cases ts with
  | nil => rfl
  | cons t ts => simp [typesToJson, typesOfJson?, ofJson?_toJson t, typesOfJson?_typesToJson ts]

end

end Ty

/-! ## Operations and instructions -/

theorem BinaryOp.ofJson?_toJson (op : BinaryOp) : ofJson? op.toJson = some op := by
  cases op <;> rfl

theorem UnaryOp.ofJson?_toJson (op : UnaryOp) : ofJson? op.toJson = some op := by
  cases op <;> rfl

variable {form : FloatForm}

theorem Literal.ofJson?_toJson (hForm : form.Faithful) (c : Literal) :
    ofJson? form (c.toJson form) = Option.guard isFinite c := by
  cases c with
  | int n =>
    have hRange : (-0x8000000000000000 : Int) ≤ n.toInt ∧ n.toInt < 0x8000000000000000 :=
      ⟨n.le_toInt, n.toInt_lt⟩
    simp [toJson, ofJson?, int64?, hRange, Option.guard, isFinite]
  | float x =>
    cases hx : x.isFinite with
    | false =>
      simp [toJson, ofJson?, hForm.write_of_not_finite x hx, hForm.read?_null, Option.guard,
        isFinite, hx]
    | true => simp [toJson, ofJson?, hForm.read?_write x hx, Option.guard, isFinite, hx]
  | bool b => rfl

theorem Incoming.ofJson?_toJson {p : Incoming} (hb : p.block.Fits) (hv : p.value.Fits) :
    ofJson? p.toJson = some p := by
  simp [toJson, ofJson?, BlockId.ofJson?_toJson hb, ValueId.ofJson?_toJson hv]

/-- An operation other than a literal is read from its record. -/
theorem Op.ofJson?_variant {tag : String} (h : tag ≠ "Const") (fields : List (String × Json)) :
    ofJson? form (variant tag (.obj fields)) = ofRecord? tag (.obj fields) := by
  simp [ofJson?, h]

theorem Op.ofJson?_toJson (hForm : form.Faithful) {op : Op} (h : op.Fits) :
    ofJson? form (op.toJson form) = Option.guard isFinite op := by
  have hValue : ∀ v ∈ op.operands, ValueId.ofJson? v.toJson = some v :=
    fun v hv => ValueId.ofJson?_toJson (h.1 v hv)
  have hBlock : ∀ b ∈ op.blockRefs, BlockId.ofJson? b.toJson = some b :=
    fun b hb => BlockId.ofJson?_toJson (h.2 b hb)
  cases op with
  | const c =>
    cases hc : c.isFinite <;>
      simp [toJson, ofJson?, Literal.ofJson?_toJson hForm, Option.guard, isFinite, hc]
  | call callee args =>
    have hArgs := list?_list_of_some hValue
    simp only [operands] at hArgs
    simp [toJson, ofJson?_variant, ofRecord?, hArgs, Option.guard, isFinite]
  | ret v =>
    have hResult : option? ValueId.ofJson? (option ValueId.toJson v) = some v :=
      option?_option (fun _ => Json.noConfusion) fun a ha => hValue a (by simp [operands, ha])
    simp [toJson, ofJson?_variant, ofRecord?, hResult, Option.guard, isFinite]
  | phi incoming =>
    have hPairs : list? Incoming.ofJson? (list Incoming.toJson incoming) = some incoming :=
      list?_list_of_some fun p hp =>
        Incoming.ofJson?_toJson (h.2 _ (List.mem_map_of_mem hp)) (h.1 _ (List.mem_map_of_mem hp))
    simp [toJson, ofJson?_variant, ofRecord?, hPairs, Option.guard, isFinite]
  | branch c t e =>
    have hCond := hValue c List.mem_cons_self
    have hThen := hBlock t (by simp only [blockRefs, targets]; split <;> simp)
    have hElse := hBlock e (by simp only [blockRefs, targets]; split <;> simp [*])
    simp [toJson, ofJson?_variant, ofRecord?, hCond, hThen, hElse, Option.guard, isFinite]
  | _ =>
    -- a fixed number of operands and targets, each a field of the record
    simp_all [toJson, ofJson?_variant, ofRecord?, operands, blockRefs, targets,
      BinaryOp.ofJson?_toJson, UnaryOp.ofJson?_toJson, Ty.ofJson?_toJson, Option.guard, isFinite]

theorem Inst.ofJson?_toJson (hForm : form.Faithful) {i : Inst} (h : i.Fits) :
    ofJson? form (i.toJson form) = Option.guard (·.op.isFinite) i := by
  cases hFinite : i.op.isFinite <;>
    simp [toJson, ofJson?, ValueId.ofJson?_toJson h.1, Ty.ofJson?_toJson, Op.ofJson?_toJson hForm h.2,
      Option.guard, hFinite]

/-! ## Blocks, functions and programs -/

theorem BlockSet.ofJson?_toJson {s : BlockSet} (h : ∀ b ∈ s, b.Fits) : ofJson? (toJson s) = some s := by
  have hItems : list? BlockId.ofJson? (list BlockId.toJson s.toList) = some s.toList :=
    list?_list_of_some fun b hb => BlockId.ofJson?_toJson (h b hb)
  rw [ofJson?, toJson, hItems, Option.map_some, SortedSet.ofList_toList]

theorem Block.ofJson?_toJson (hForm : form.Faithful) {blk : Block} (h : blk.Fits) :
    ofJson? form (blk.toJson form) = Option.guard isFinite blk := by
  obtain ⟨hId, hInsts, hPreds, hSuccs⟩ := h
  have hItems : list? (Inst.ofJson? form) (list (Inst.toJson form) blk.insts) =
      Option.guard (·.all (·.op.isFinite)) blk.insts :=
    list?_list fun i hi => Inst.ofJson?_toJson hForm (hInsts i hi)
  cases hFinite : blk.isFinite <;> rw [isFinite] at hFinite <;>
    simp [toJson, ofJson?, BlockId.ofJson?_toJson hId, hItems, BlockSet.ofJson?_toJson hPreds,
      BlockSet.ofJson?_toJson hSuccs, Option.guard, isFinite, hFinite]

theorem Param.ofJson?_toJson (p : Param) : ofJson? p.toJson = some p := by
  simp [toJson, ofJson?, Ty.ofJson?_toJson]

theorem IdSupply.ofJson?_toJson {s : IdSupply} (h : s.Fits) : ofJson? s.toJson = some s := by
  simp [toJson, ofJson?, word32?, natBelow?_nat h.1, natBelow?_nat h.2]

/-- The arena is read if the literals in its blocks are finite. -/
theorem Func.arenaOfJson?_arenaToJson (hForm : form.Faithful) {m : SortedMap BlockId Block}
    (h : ∀ e ∈ m.toList, e.1.Fits ∧ e.2.Fits) :
    arenaOfJson? form (arenaToJson form m) = Option.guard (·.values.all (·.isFinite)) m := by
  rw [arenaToJson, arenaOfJson?, mapM_map_eq_guard (P := (·.2.isFinite))]
  · -- reading puts the entries in one by one, which gives the arena again: its keys are ascending
    cases hFinite : m.toList.all (·.2.isFinite) <;>
      simp [Option.guard, SortedMap.values, List.all_map, Function.comp_def, hFinite]
  · rintro ⟨b, blk⟩ he
    have hKey := arenaKey?_toString (h _ he).1
    have hBlock := Block.ofJson?_toJson hForm (h _ he).2
    simp only [hKey, hBlock]
    cases hFinite : blk.isFinite <;> simp [Option.guard, hFinite]

theorem Func.ofJson?_toJson (hForm : form.Faithful) {f : Func} (h : f.Fits) :
    ofJson? form (f.toJson form) = Option.guard isFinite f := by
  obtain ⟨hArena, hLayout, hEntry, hIds⟩ := h
  have hParams : list? Param.ofJson? (list Param.toJson f.params) = some f.params :=
    list?_list_of_some fun p _ => Param.ofJson?_toJson p
  have hBlocks : list? BlockId.ofJson? (list BlockId.toJson f.layout) = some f.layout :=
    list?_list_of_some fun b hb => BlockId.ofJson?_toJson (hLayout b hb)
  have hStart : option? BlockId.ofJson? (option BlockId.toJson f.entry) = some f.entry :=
    option?_option (fun _ => Json.noConfusion) fun b hb => BlockId.ofJson?_toJson (hEntry b hb)
  cases hFinite : f.isFinite <;> rw [isFinite] at hFinite <;>
    simp [toJson, ofJson?, Ty.ofJson?_toJson, hParams, arenaOfJson?_arenaToJson hForm hArena,
      hBlocks,
      hStart, IdSupply.ofJson?_toJson hIds, Option.guard, isFinite, hFinite]

namespace Program

/-- **Data is read back.** In a format that is faithful to finite numbers, a program is read back from
its data as it was, if its literals are finite; with a literal that is not, it cannot be read. -/
theorem data_read_back (form : FloatForm) (hForm : form.Faithful) (p : Program) (hFits : p.Fits) :
    ofJson? form (p.toJson form) = if p.isFinite then some p else none := by
  have hFuncs : list? (Func.ofJson? form) (list (Func.toJson form) p.funcs) =
      Option.guard (·.all (·.isFinite)) p.funcs :=
    list?_list fun f hf => Func.ofJson?_toJson hForm (hFits f hf)
  cases hFinite : p.isFinite <;> rw [isFinite] at hFinite <;>
    simp [toJson, ofJson?, hFuncs, Option.guard, hFinite]

/-- A program whose data agree about little: one block is kept under another name than its own, the
edges go one way only, the entry is no block, and the next free names are taken. It holds a literal
of the given bits. -/
def disordered (x : Binary64) : Program where
  name := "disordered"
  funcs := [{
    name := "scale"
    returnTy := .ptr (.struct (some "pair") [.array 2 (.scalar .f64), .struct none []])
    params := [⟨"by", .ptr (.scalar .comptimeFloat)⟩]
    arena := .ofList [
      (⟨10⟩, { id := ⟨3⟩, label := "", succs := .ofList [⟨7⟩, ⟨10⟩], insts := [
        ⟨⟨0⟩, .scalar .f64, true, .const (.float x)⟩,
        ⟨⟨0⟩, .scalar .i64, false, .const (.int (-1))⟩,
        ⟨⟨4294967295⟩, .scalar .bool, false, .call "mix" [⟨0⟩, ⟨9⟩]⟩,
        ⟨⟨2⟩, .scalar .void, false, .branch ⟨5⟩ ⟨10⟩ ⟨7⟩⟩] }),
      (⟨2⟩, { id := ⟨2⟩, label := "", preds := .ofList [⟨2⟩], insts := [
        ⟨⟨1⟩, .scalar .f64, false, .phi [⟨⟨10⟩, ⟨0⟩⟩, ⟨⟨2⟩, ⟨1⟩⟩]⟩,
        ⟨⟨3⟩, .scalar .void, false, .ret (some ⟨1⟩)⟩] })]
    layout := [⟨7⟩, ⟨10⟩, ⟨7⟩]
    entry := some ⟨4294967295⟩
    ids := { nextBlock := 1, nextValue := 0 } }, {
    name := "scale", returnTy := .scalar .void }]

/-- The literal is minus two and a half, which is written as the number `-2.5`, and then an infinity. -/
theorem disordered_read_back :
    let x : Binary64 := ⟨0xc004000000000000⟩
    let infinity : Binary64 := ⟨0x7ff0000000000000⟩
    FloatForm.decimal.Faithful ∧ FloatForm.decimal.write x = .num true 25 1 ∧
      FloatForm.decimal.write infinity = .null ∧ (disordered x).Fits ∧ (disordered infinity).Fits ∧
      ofJson? .decimal ((disordered x).toJson .decimal) = some (disordered x) ∧
      ofJson? .decimal ((disordered infinity).toJson .decimal) = none := by
  intro x infinity
  have hForm := FloatForm.decimal_faithful
  have hNumber : (disordered x).Fits := by decide
  have hInfinity : (disordered infinity).Fits := by decide
  have hWritten : FloatForm.decimal.write x = .num true 25 1 := by
    rw [FloatForm.decimal_write]
    exact FloatForm.writeNumber_eq (by decide) (by decide +kernel)
  refine ⟨hForm, hWritten, hForm.write_of_not_finite _ (by decide), hNumber, hInfinity, ?_, ?_⟩
  · exact (data_read_back .decimal hForm _ hNumber).trans (if_pos (by decide))
  · exact (data_read_back .decimal hForm _ hInfinity).trans (if_neg (by decide))

end Program

end Midend
