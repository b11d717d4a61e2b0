import Midend.Flow.Strict
import Midend.Func.Consistent
import Midend.Func.Revision

/-!
# What the requests do to code and edges

A function is looked at through the code of its blocks (`Func.code`), their labels, and the blocks
that each leads to. Requests either change edges and leave the code (`SameCode`), or rewrite the
code of one block and leave the edges (`Func.rewrite`), or add or take away a block. For each of
them a lemma says what it does to the code and one what it does to the successors; the predecessors
follow, because every request keeps the edges recorded on both sides.
-/

namespace Midend

/-- An element of a list put together from two is in the first or in the second. -/
theorem append_eq_append_cons {α : Type} {a : α} {l m front back : List α}
    (h : l ++ m = front ++ a :: back) :
    (∃ rest, l = front ++ a :: rest ∧ back = rest ++ m) ∨
      ∃ rest, front = l ++ rest ∧ m = rest ++ a :: back := by
  rcases List.append_eq_append_iff.mp h with ⟨rest, hEq, hRest⟩ | ⟨rest, rfl, hRest⟩
  · exact .inr ⟨rest, hEq, hRest⟩
  · cases rest with
    | nil => exact .inr ⟨[], by simp, hRest.symm⟩
    | cons b rest =>
      obtain ⟨rfl, hBack⟩ := List.cons.inj hRest
      exact .inl ⟨rest, rfl, hBack⟩

/-- A block without its edges. -/
def Block.bare (blk : Block) : Block := { blk with preds := ∅, succs := ∅ }

namespace Func

variable {f g h : Func} {a b c x y : BlockId} {i : Inst} {v : ValueId}

/-- The instructions of a block; none if the function does not have it. -/
def code (f : Func) (b : BlockId) : List Inst := ((f.block? b).map (·.insts)).getD []

theorem code_of_block? {blk : Block} (h : f.block? b = some blk) : f.code b = blk.insts := by
  rw [code, h]
  rfl

theorem code_of_not_hasBlock (h : f.hasBlock b = false) : f.code b = [] := by
  rw [hasBlock_eq_isSome, Option.isSome_eq_false_iff, Option.isNone_iff_eq_none] at h
  rw [code, h]
  rfl

theorem hasBlock_iff : f.hasBlock b = true ↔ ∃ blk, f.block? b = some blk := by
  rw [hasBlock_eq_isSome, Option.isSome_iff_exists]

theorem mem_code_iff : i ∈ f.code b ↔ ∃ blk, f.block? b = some blk ∧ i ∈ blk.insts := by
  unfold code
  cases f.block? b <;> simp

theorem hasBlock_of_mem_code (h : i ∈ f.code b) : f.hasBlock b = true := by
  obtain ⟨blk, hBlk, -⟩ := mem_code_iff.mp h
  exact hasBlock_iff.mpr ⟨blk, hBlk⟩

theorem definedIn_iff : f.DefinedIn v b ↔ ∃ i ∈ f.code b, i.id = v := by
  constructor
  · rintro ⟨blk, hBlk, i, hi, hId⟩
    exact ⟨i, mem_code_iff.mpr ⟨blk, hBlk, hi⟩, hId⟩
  · rintro ⟨i, hi, hId⟩
    obtain ⟨blk, hBlk, hi⟩ := mem_code_iff.mp hi
    exact ⟨blk, hBlk, i, hi, hId⟩

theorem label?_isSome : (f.label? b).isSome = f.hasBlock b := by
  rw [label?, hasBlock_eq_isSome, Option.isSome_map]

theorem hasBlock_of_mem_succs (h : b ∈ f.succs a) : f.hasBlock a = true := by
  obtain ⟨blk, hBlk, -⟩ := mem_succs_iff.mp h
  exact hasBlock_iff.mpr ⟨blk, hBlk⟩

theorem Mirrored.hasBlock_target (h : f.Mirrored) (edge : b ∈ f.succs a) :
    f.hasBlock b = true := by
  obtain ⟨blk, hBlk, -⟩ := mem_preds_iff.mp ((h a b).mp edge)
  exact hasBlock_iff.mpr ⟨blk, hBlk⟩

theorem not_mem_succs_of_not_hasBlock (ha : f.hasBlock a = false) (b : BlockId) :
    ¬ b ∈ f.succs a := by
  intro edge
  rw [hasBlock_of_mem_succs edge] at ha
  cases ha

theorem Mirrored.not_mem_succs_of_not_hasBlock (h : f.Mirrored) (hb : f.hasBlock b = false)
    (a : BlockId) : ¬ b ∈ f.succs a := by
  intro edge
  rw [h.hasBlock_target edge] at hb
  cases hb

/-- Every block bears the name under which it is kept. -/
def Named (f : Func) : Prop := ∀ b blk, f.block? b = some blk → blk.id = b

/-! ## Changes of edges -/

/-- The second function differs from the first in its edges only. -/
structure SameCode (f g : Func) : Prop where
  bare_eq : ∀ x, (g.block? x).map Block.bare = (f.block? x).map Block.bare
  name_eq : g.name = f.name
  returnTy_eq : g.returnTy = f.returnTy
  params_eq : g.params = f.params
  layout_eq : g.layout = f.layout
  entry_eq : g.entry = f.entry
  ids_eq : g.ids = f.ids

namespace SameCode

theorem refl (f : Func) : SameCode f f := ⟨fun _ => rfl, rfl, rfl, rfl, rfl, rfl, rfl⟩

theorem trans (hfg : SameCode f g) (hgh : SameCode g h) : SameCode f h where
  bare_eq x := (hgh.bare_eq x).trans (hfg.bare_eq x)
  name_eq := hgh.name_eq.trans hfg.name_eq
  returnTy_eq := hgh.returnTy_eq.trans hfg.returnTy_eq
  params_eq := hgh.params_eq.trans hfg.params_eq
  layout_eq := hgh.layout_eq.trans hfg.layout_eq
  entry_eq := hgh.entry_eq.trans hfg.entry_eq
  ids_eq := hgh.ids_eq.trans hfg.ids_eq

theorem foldl {α : Type} {step : Func → α → Func} (hStep : ∀ g a, SameCode g (step g a))
    (l : List α) (f : Func) : SameCode f (l.foldl step f) := by
  induction l generalizing f with
  | nil => exact refl f
  | cons a l ih => exact (hStep f a).trans (ih (step f a))

/-- Whatever is read off a block without its edges stays. -/
theorem map_eq {α : Type} (hSame : SameCode f g) (p : Block → α) (hp : ∀ blk, p blk.bare = p blk)
    (x : BlockId) : (g.block? x).map p = (f.block? x).map p := by
  have hBare : ∀ o : Option Block, (o.map Block.bare).map p = o.map p := by
    intro o
    cases o with
    | none => rfl
    | some blk => exact congrArg some (hp blk)
  rw [← hBare (g.block? x), hSame.bare_eq, hBare]

theorem code_eq (hSame : SameCode f g) (x : BlockId) : g.code x = f.code x := by
  rw [code, code, hSame.map_eq _ (fun _ => rfl)]

theorem label?_eq (hSame : SameCode f g) (x : BlockId) : g.label? x = f.label? x :=
  hSame.map_eq _ (fun _ => rfl) x

theorem hasBlock_eq (hSame : SameCode f g) (x : BlockId) : g.hasBlock x = f.hasBlock x := by
  rw [← label?_isSome, ← label?_isSome, hSame.label?_eq]

theorem named (hSame : SameCode f g) (hf : f.Named) : g.Named := by
  intro b blk hBlk
  have hId := hSame.map_eq (·.id) (fun _ => rfl) b
  rw [hBlk] at hId
  obtain ⟨blk', hBlk', hEq⟩ := Option.map_eq_some_iff.mp hId.symm
  exact hEq.symm.trans (hf b blk' hBlk')

theorem addEdge (f : Func) (a b : BlockId) : SameCode f (f.addEdge a b) where
  bare_eq x := by rw [block?_addEdge]; cases f.block? x <;> rfl
  name_eq := by unfold Func.addEdge; split <;> rfl
  returnTy_eq := by unfold Func.addEdge; split <;> rfl
  params_eq := by unfold Func.addEdge; split <;> rfl
  layout_eq := layout_addEdge f a b
  entry_eq := entry_addEdge f a b
  ids_eq := ids_addEdge f a b

theorem removeEdge (f : Func) (a b : BlockId) : SameCode f (f.removeEdge a b) where
  bare_eq x := by rw [block?_removeEdge]; cases f.block? x <;> rfl
  name_eq := by unfold Func.removeEdge; split <;> rfl
  returnTy_eq := by unfold Func.removeEdge; split <;> rfl
  params_eq := by unfold Func.removeEdge; split <;> rfl
  layout_eq := layout_removeEdge f a b
  entry_eq := entry_removeEdge f a b
  ids_eq := ids_removeEdge f a b

theorem addEdges (f : Func) (a : BlockId) (l : List BlockId) : SameCode f (f.addEdges a l) :=
  foldl (fun g b => addEdge g a b) l f

theorem removeEdges (f : Func) (a : BlockId) (l : List BlockId) : SameCode f (f.removeEdges a l) :=
  foldl (fun g b => removeEdge g a b) l f

theorem disconnect (f : Func) (b : BlockId) : SameCode f (f.disconnect b) :=
  (foldl (fun g a => removeEdge g a b) _ f).trans (removeEdges _ b _)

/-- Nothing is left to differ if the edges do not. -/
theorem eq_of_mem_succs (hSame : SameCode f g) (hf : f.Mirrored) (hg : g.Mirrored)
    (hSuccs : ∀ x c, c ∈ g.succs x ↔ c ∈ f.succs x) : g = f := by
  have hArena : g.arena = f.arena := by
    ext1 x
    change g.block? x = f.block? x
    have hBare := hSame.bare_eq x
    have hS : g.succs x = f.succs x := SortedSet.ext (hSuccs x)
    have hP : g.preds x = f.preds x :=
      SortedSet.ext fun a => by rw [← hg a x, ← hf a x, hSuccs]
    unfold succs at hS
    unfold preds at hP
    cases hf' : f.block? x with
    | none =>
      rw [hf'] at hBare
      exact Option.map_eq_none_iff.mp hBare
    | some blk =>
      rw [hf'] at hBare hS hP
      obtain ⟨blk', hg', hEq⟩ := Option.map_eq_some_iff.mp hBare
      rw [hg'] at hS hP ⊢
      rcases blk with ⟨id, label, insts, preds, succs⟩
      rcases blk' with ⟨id', label', insts', preds', succs'⟩
      obtain ⟨rfl, rfl, rfl, -, -⟩ := Block.mk.inj hEq
      obtain rfl : succs' = succs := hS
      obtain rfl : preds' = preds := hP
      rfl
  rcases f with ⟨⟩
  rcases g with ⟨⟩
  exact Func.mk.injEq .. ▸ ⟨hSame.name_eq, hSame.returnTy_eq, hSame.params_eq, hArena,
    hSame.layout_eq, hSame.entry_eq, hSame.ids_eq⟩

end SameCode

theorem mem_succs_addEdges {l : List BlockId} :
    c ∈ (f.addEdges a l).succs x ↔
      c ∈ f.succs x ∨ (x = a ∧ c ∈ l ∧ f.hasBlock a = true ∧ f.hasBlock c = true) := by
  induction l generalizing f with
  | nil => simp [addEdges]
  | cons b l ih =>
    rw [addEdges, List.foldl_cons, ← addEdges, ih, mem_succs_addEdge]
    simp only [hasBlock_addEdge, List.mem_cons]
    grind

theorem mem_succs_removeEdges {l : List BlockId} :
    c ∈ (f.removeEdges a l).succs x ↔ c ∈ f.succs x ∧ ¬ (x = a ∧ c ∈ l) := by
  induction l generalizing f with
  | nil => simp [removeEdges]
  | cons b l ih =>
    rw [removeEdges, List.foldl_cons, ← removeEdges, ih, mem_succs_removeEdge]
    simp only [List.mem_cons]
    grind

theorem Mirrored.foldl {α : Type} {step : Func → α → Func}
    (hStep : ∀ g a, g.Mirrored → (step g a).Mirrored) (l : List α) (hf : f.Mirrored) :
    (l.foldl step f).Mirrored := by
  induction l generalizing f with
  | nil => exact hf
  | cons a l ih => exact ih (hStep f a hf)

theorem Mirrored.addEdges (hf : f.Mirrored) (a : BlockId) (l : List BlockId) :
    (f.addEdges a l).Mirrored :=
  Mirrored.foldl (fun _ b hg => hg.addEdge a b) l hf

theorem Mirrored.removeEdges (hf : f.Mirrored) (a : BlockId) (l : List BlockId) :
    (f.removeEdges a l).Mirrored :=
  Mirrored.foldl (fun _ b hg => hg.removeEdge a b) l hf

theorem Mirrored.disconnect (hf : f.Mirrored) (b : BlockId) : (f.disconnect b).Mirrored :=
  (Mirrored.foldl (fun _ a hg => hg.removeEdge a b) _ hf).removeEdges b _

/-- Disconnecting a block strikes every edge at it and no other. -/
theorem mem_succs_disconnect (hf : f.Mirrored) :
    c ∈ (f.disconnect b).succs x ↔ c ∈ f.succs x ∧ x ≠ b ∧ c ≠ b := by
  have arriving : ∀ (l : List BlockId) (f : Func),
      (c ∈ (l.foldl (fun g a => g.removeEdge a b) f).succs x ↔
        c ∈ f.succs x ∧ ¬ (x ∈ l ∧ c = b)) := by
    intro l
    induction l with
    | nil => simp
    | cons a l ih =>
      intro f
      rw [List.foldl_cons, ih, mem_succs_removeEdge]
      simp only [List.mem_cons]
      grind
  rw [disconnect, mem_succs_removeEdges, arriving, SortedSet.mem_toList, SortedSet.mem_toList]
  have hPred := hf x b
  constructor
  · rintro ⟨⟨hc, hArr⟩, hLeave⟩
    have hcb : c ≠ b := by
      rintro rfl
      exact hArr ⟨hPred.mp hc, rfl⟩
    refine ⟨hc, ?_, hcb⟩
    rintro rfl
    exact hLeave ⟨rfl, (arriving _ f).mpr ⟨hc, hArr⟩⟩
  · rintro ⟨hc, hxb, hcb⟩
    exact ⟨⟨hc, fun hArr => hcb hArr.2⟩, fun hLeave => hxb hLeave.1⟩

/-! ## Changes of code -/

/-- Rewrites the instructions of a block. -/
def rewrite (f : Func) (b : BlockId) (r : List Inst → List Inst) : Func :=
  f.modifyBlock b fun blk => { blk with insts := r blk.insts }

section Rewrite

variable {r : List Inst → List Inst}

theorem block?_rewrite (f : Func) (b : BlockId) (r : List Inst → List Inst) (x : BlockId) :
    (f.rewrite b r).block? x =
      (f.block? x).map fun blk => { blk with insts := if x = b then r blk.insts else blk.insts } := by
  rw [rewrite, block?_modifyBlock]
  split
  · rfl
  · exact Option.map_id'.symm

/-- Whatever is read off a block without its instructions stays. -/
theorem map_rewrite {α : Type} (p : Block → α) (hp : ∀ blk l, p { blk with insts := l } = p blk)
    (x : BlockId) : ((f.rewrite b r).block? x).map p = (f.block? x).map p := by
  rw [block?_rewrite, Option.map_map]
  cases f.block? x with
  | none => rfl
  | some blk => exact congrArg some (hp blk _)

@[simp] theorem hasBlock_rewrite : (f.rewrite b r).hasBlock x = f.hasBlock x :=
  hasBlock_modifyBlock ..

@[simp] theorem succs_rewrite : (f.rewrite b r).succs x = f.succs x := by
  rw [succs, succs, map_rewrite _ fun _ _ => rfl]

@[simp] theorem preds_rewrite : (f.rewrite b r).preds x = f.preds x := by
  rw [preds, preds, map_rewrite _ fun _ _ => rfl]

@[simp] theorem label?_rewrite : (f.rewrite b r).label? x = f.label? x :=
  map_rewrite _ (fun _ _ => rfl) x

theorem code_rewrite_self (hb : f.hasBlock b = true) : (f.rewrite b r).code b = r (f.code b) := by
  obtain ⟨blk, hBlk⟩ := hasBlock_iff.mp hb
  rw [code, code, block?_rewrite, hBlk]
  simp

theorem code_rewrite_of_ne (hne : x ≠ b) : (f.rewrite b r).code x = f.code x := by
  rw [code, code, block?_rewrite]
  cases f.block? x <;> simp [hne]

/-- A change that makes no code out of none can be asked for of any block. -/
theorem code_rewrite (hr : r [] = []) :
    (f.rewrite b r).code x = if x = b then r (f.code x) else f.code x := by
  rw [code, code, block?_rewrite]
  cases f.block? x <;> split <;> simp [hr]

theorem code_rewrite_map (r : Inst → Inst) :
    (f.rewrite b (·.map r)).code x = if x = b then (f.code x).map r else f.code x := by
  rw [code, code, block?_rewrite]
  cases f.block? x <;> split <;> simp

theorem Mirrored.rewrite (hf : f.Mirrored) (b : BlockId) (r : List Inst → List Inst) :
    (f.rewrite b r).Mirrored := by
  intro x y
  rw [succs_rewrite, preds_rewrite]
  exact hf x y

theorem Named.rewrite (hf : f.Named) (b : BlockId) (r : List Inst → List Inst) :
    (f.rewrite b r).Named := by
  intro x blk hBlk
  rw [block?_rewrite] at hBlk
  obtain ⟨blk', hBlk', rfl⟩ := Option.map_eq_some_iff.mp hBlk
  exact hf x blk' hBlk'

theorem rewrite_of_not_hasBlock (h : f.hasBlock b = false) : f.rewrite b r = f := by
  have hNone : f.block? b = none := by
    rwa [hasBlock_eq_isSome, Option.isSome_eq_false_iff, Option.isNone_iff_eq_none] at h
  have hArena : (f.rewrite b r).arena = f.arena := by
    ext1 x
    change (f.rewrite b r).block? x = f.block? x
    rw [block?_rewrite]
    by_cases hx : x = b
    · rw [hx, hNone]
      rfl
    · simp [hx]
  exact congrArg (fun m => { f with arena := m }) hArena

/-- A change of code that is undone. -/
theorem rewrite_rewrite_cancel {s : List Inst → List Inst} (h : s (r (f.code b)) = f.code b) :
    (f.rewrite b r).rewrite b s = f := by
  have hArena : ((f.rewrite b r).rewrite b s).arena = f.arena := by
    ext1 x
    change ((f.rewrite b r).rewrite b s).block? x = f.block? x
    rw [block?_rewrite, block?_rewrite]
    cases hBlk : f.block? x with
    | none => rfl
    | some blk =>
      by_cases hx : x = b
      · rw [hx] at hBlk
        rw [code_of_block? hBlk] at h
        simp [hx, h]
      · simp [hx]
  exact congrArg (fun m => { f with arena := m }) hArena

theorem SameCode.rewrite (hSame : SameCode f g) (b : BlockId) (r : List Inst → List Inst) :
    SameCode (f.rewrite b r) (g.rewrite b r) where
  bare_eq x := by
    rw [block?_rewrite, block?_rewrite, Option.map_map, Option.map_map]
    exact hSame.map_eq _ (fun _ => rfl) x
  name_eq := hSame.name_eq
  returnTy_eq := hSame.returnTy_eq
  params_eq := hSame.params_eq
  layout_eq := hSame.layout_eq
  entry_eq := hSame.entry_eq
  ids_eq := hSame.ids_eq

end Rewrite

/-! ## What stays -/

/-- The second function has the blocks of the first, with their labels and in their order. -/
structure SameFrame (f g : Func) : Prop where
  name_eq : g.name = f.name
  layout_eq : g.layout = f.layout
  entry_eq : g.entry = f.entry
  nextBlock_eq : g.ids.nextBlock = f.ids.nextBlock
  hasBlock_eq : ∀ x, g.hasBlock x = f.hasBlock x
  label?_eq : ∀ x, g.label? x = f.label? x
  named : f.Named → g.Named
  mirrored : f.Mirrored → g.Mirrored

namespace SameFrame

theorem refl (f : Func) : SameFrame f f :=
  ⟨rfl, rfl, rfl, rfl, fun _ => rfl, fun _ => rfl, id, id⟩

theorem trans (hfg : SameFrame f g) (hgh : SameFrame g h) : SameFrame f h where
  name_eq := hgh.name_eq.trans hfg.name_eq
  layout_eq := hgh.layout_eq.trans hfg.layout_eq
  entry_eq := hgh.entry_eq.trans hfg.entry_eq
  nextBlock_eq := hgh.nextBlock_eq.trans hfg.nextBlock_eq
  hasBlock_eq x := (hgh.hasBlock_eq x).trans (hfg.hasBlock_eq x)
  label?_eq x := (hgh.label?_eq x).trans (hfg.label?_eq x)
  named hf := hgh.named (hfg.named hf)
  mirrored hf := hgh.mirrored (hfg.mirrored hf)

theorem of_sameCode (hSame : SameCode f g) (hMirrored : f.Mirrored → g.Mirrored) :
    SameFrame f g where
  name_eq := hSame.name_eq
  layout_eq := hSame.layout_eq
  entry_eq := hSame.entry_eq
  nextBlock_eq := by rw [hSame.ids_eq]
  hasBlock_eq := hSame.hasBlock_eq
  label?_eq := hSame.label?_eq
  named := hSame.named
  mirrored := hMirrored

theorem rewrite (f : Func) (b : BlockId) (r : List Inst → List Inst) :
    SameFrame f (f.rewrite b r) where
  name_eq := rfl
  layout_eq := rfl
  entry_eq := rfl
  nextBlock_eq := rfl
  hasBlock_eq _ := hasBlock_rewrite
  label?_eq _ := label?_rewrite
  named hf := hf.rewrite b r
  mirrored hf := hf.rewrite b r

end SameFrame

end Func

end Midend
