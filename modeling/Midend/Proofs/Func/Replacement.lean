import Midend.Func.Revision
import Midend.Proofs.Func.Requests

/-!
# Blocks replaced by one

The code and the edges of a function after a block has been put into its arena (`mem_succs_install`)
and after blocks have been taken out of it (`mem_succs_without`). A replacement is the second
followed by the first; in the layout, the new name stands where the first of the old ones stood
(`perm_takeWhile_cons_filter`).
-/

namespace Midend

namespace Func

variable {f : Func} {a b c x : BlockId}

/-! ## A new block -/

theorem mem_succs_foldl_addEdge {l : List BlockId} :
    c ∈ (l.foldl (fun g p => g.addEdge p a) f).succs x ↔
      c ∈ f.succs x ∨ (x ∈ l ∧ c = a ∧ f.hasBlock x = true ∧ f.hasBlock a = true) := by
  induction l generalizing f with
  | nil => simp
  | cons p l ih =>
    rw [List.foldl_cons, ih, mem_succs_addEdge]
    simp only [hasBlock_addEdge, List.mem_cons]
    grind

section Install

variable {blk : Block}

/-- A block put into the arena before its edges are recorded. -/
def insertBare (f : Func) (blk : Block) : Func :=
  { f with arena := f.arena.insert blk.id { blk with preds := ∅, succs := ∅ } }

theorem block?_insertBare (f : Func) (blk : Block) (x : BlockId) :
    (f.insertBare blk).block? x =
      if x = blk.id then some { blk with preds := ∅, succs := ∅ } else f.block? x :=
  SortedMap.get?_insert ..

theorem name_insertBare (f : Func) (blk : Block) : (f.insertBare blk).name = f.name := rfl

theorem ids_insertBare (f : Func) (blk : Block) : (f.insertBare blk).ids = f.ids := rfl

theorem succs_insertBare (h : f.hasBlock blk.id = false) (x : BlockId) :
    (f.insertBare blk).succs x = f.succs x := by
  rw [hasBlock_eq_isSome, Option.isSome_eq_false_iff, Option.isNone_iff_eq_none] at h
  rw [succs, succs, block?_insertBare]
  by_cases hx : x = blk.id
  · rw [if_pos hx, hx, h]
    rfl
  · rw [if_neg hx]

theorem preds_insertBare (h : f.hasBlock blk.id = false) (x : BlockId) :
    (f.insertBare blk).preds x = f.preds x := by
  rw [hasBlock_eq_isSome, Option.isSome_eq_false_iff, Option.isNone_iff_eq_none] at h
  rw [preds, preds, block?_insertBare]
  by_cases hx : x = blk.id
  · rw [if_pos hx, hx, h]
    rfl
  · rw [if_neg hx]

theorem sameCode_install (f : Func) (blk : Block) : SameCode (f.insertBare blk) (f.install blk) :=
  (SameCode.foldl (fun g p => .addEdge g p blk.id) _ _).trans (.addEdges _ blk.id _)

theorem hasBlock_install :
    (f.install blk).hasBlock x = true ↔ x = blk.id ∨ f.hasBlock x = true := by
  rw [(sameCode_install f blk).hasBlock_eq, hasBlock_eq_isSome, block?_insertBare]
  by_cases hx : x = blk.id <;> simp [hx, hasBlock_eq_isSome]

theorem code_install_self : (f.install blk).code blk.id = blk.insts := by
  rw [(sameCode_install f blk).code_eq, code, block?_insertBare, if_pos rfl]
  rfl

theorem code_install_of_ne (hx : x ≠ blk.id) : (f.install blk).code x = f.code x := by
  rw [(sameCode_install f blk).code_eq, code, block?_insertBare, if_neg hx, code]

theorem label?_install_self : (f.install blk).label? blk.id = some blk.label := by
  rw [(sameCode_install f blk).label?_eq, label?, block?_insertBare, if_pos rfl]
  rfl

theorem label?_install_of_ne (hx : x ≠ blk.id) : (f.install blk).label? x = f.label? x := by
  rw [(sameCode_install f blk).label?_eq, label?, block?_insertBare, if_neg hx, label?]

theorem Named.install (hf : f.Named) : (f.install blk).Named := by
  refine (sameCode_install f blk).named fun x blk' hBlk => ?_
  rw [block?_insertBare] at hBlk
  split at hBlk
  · rename_i hx
    rw [← Option.some.inj hBlk, hx]
  · exact hf x blk' hBlk

theorem Mirrored.install (hf : f.Mirrored) (h : f.hasBlock blk.id = false) :
    (f.install blk).Mirrored := by
  have hBare : (f.insertBare blk).Mirrored := by
    intro x y
    rw [succs_insertBare h, preds_insertBare h]
    exact hf x y
  exact (Mirrored.foldl (fun _ p hg => hg.addEdge p blk.id) _ hBare).addEdges blk.id _

theorem mem_succs_install (h : f.hasBlock blk.id = false) :
    c ∈ (f.install blk).succs x ↔ c ∈ f.succs x ∨
      (x ∈ blk.preds ∧ c = blk.id ∧ (x = blk.id ∨ f.hasBlock x = true)) ∨
      (x = blk.id ∧ c ∈ blk.succs ∧ (c = blk.id ∨ f.hasBlock c = true)) := by
  have hHas : ∀ y, (f.insertBare blk).hasBlock y = true ↔ y = blk.id ∨ f.hasBlock y = true := by
    intro y
    rw [← hasBlock_install, (sameCode_install f blk).hasBlock_eq]
  have hArrive : SameCode (f.insertBare blk)
      (blk.preds.toList.foldl (fun g p => g.addEdge p blk.id) (f.insertBare blk)) :=
    SameCode.foldl (fun g p => .addEdge g p blk.id) _ _
  change c ∈ ((blk.preds.toList.foldl (fun g p => g.addEdge p blk.id)
    (f.insertBare blk)).addEdges blk.id blk.succs.toList).succs x ↔ _
  rw [mem_succs_addEdges, mem_succs_foldl_addEdge, succs_insertBare h, hArrive.hasBlock_eq,
    hArrive.hasBlock_eq, SortedSet.mem_toList, SortedSet.mem_toList]
  simp only [hHas, true_or, true_and, and_true, or_assoc]

end Install

/-! ## Some blocks less -/

section Without

variable {l : List BlockId}

/-- The function without some of its blocks. -/
def without (f : Func) (l : List BlockId) : Func := l.foldl detach f

theorem name_without (f : Func) (l : List BlockId) : (f.without l).name = f.name := by
  induction l generalizing f with
  | nil => rfl
  | cons b l ih => exact (ih (f.detach b)).trans name_detach

theorem ids_without (f : Func) (l : List BlockId) : (f.without l).ids = f.ids := by
  induction l generalizing f with
  | nil => rfl
  | cons b l ih => exact (ih (f.detach b)).trans ids_detach

theorem hasBlock_without :
    (f.without l).hasBlock x = true ↔ x ∉ l ∧ f.hasBlock x = true := by
  induction l generalizing f with
  | nil => simp [without]
  | cons b l ih =>
    rw [without, List.foldl_cons, ← without, ih, hasBlock_detach, List.mem_cons]
    grind

theorem code_without (hx : x ∉ l) : (f.without l).code x = f.code x := by
  induction l generalizing f with
  | nil => rfl
  | cons b l ih =>
    rw [without, List.foldl_cons, ← without, ih (List.not_mem_of_not_mem_cons hx),
      code_detach_of_ne (List.ne_of_not_mem_cons hx)]

theorem label?_without (hx : x ∉ l) : (f.without l).label? x = f.label? x := by
  induction l generalizing f with
  | nil => rfl
  | cons b l ih =>
    rw [without, List.foldl_cons, ← without, ih (List.not_mem_of_not_mem_cons hx),
      label?_detach_of_ne (List.ne_of_not_mem_cons hx)]

theorem mem_succs_without (hf : f.Mirrored) :
    c ∈ (f.without l).succs x ↔ c ∈ f.succs x ∧ x ∉ l ∧ c ∉ l := by
  induction l generalizing f with
  | nil => simp [without]
  | cons b l ih =>
    rw [without, List.foldl_cons, ← without, ih (hf.detach b), mem_succs_detach hf]
    grind

theorem Mirrored.without (hf : f.Mirrored) (l : List BlockId) : (f.without l).Mirrored :=
  Mirrored.foldl (fun _ b hg => hg.detach b) l hf

theorem Named.without (hf : f.Named) (l : List BlockId) : (f.without l).Named :=
  List.foldlRecOn l Func.detach hf fun _ hg b _ => hg.detach b

end Without

/-! ## The replacement -/

/-- One name stands in the place of several. -/
theorem perm_takeWhile_cons_filter (a : BlockId) (l : List BlockId) (p : BlockId → Bool) :
    (l.takeWhile p ++ a :: (l.dropWhile p).filter p).Perm (a :: l.filter p) := by
  have hTake : (l.takeWhile p).filter p = l.takeWhile p :=
    List.filter_eq_self.mpr fun x hx => List.all_eq_true.mp List.all_takeWhile x hx
  have hSplit : l.filter p = l.takeWhile p ++ (l.dropWhile p).filter p := by
    conv => lhs; rw [← List.takeWhile_append_dropWhile (p := p) (l := l)]
    rw [List.filter_append, hTake]
  rw [hSplit]
  exact List.perm_middle

section Substitute

variable {blk : Block} {l : List BlockId}

/-- The blocks after a replacement are those of a function without some blocks and with a new one. -/
theorem hasBlock_substitute :
    (f.substitute l blk).hasBlock x = ((f.without l).install blk).hasBlock x := rfl

theorem code_substitute :
    (f.substitute l blk).code x = ((f.without l).install blk).code x := rfl

theorem label?_substitute :
    (f.substitute l blk).label? x = ((f.without l).install blk).label? x := rfl

theorem succs_substitute :
    (f.substitute l blk).succs x = ((f.without l).install blk).succs x := rfl

theorem name_substitute (f : Func) (l : List BlockId) (blk : Block) :
    (f.substitute l blk).name = f.name := by
  change ((f.without l).install blk).name = f.name
  rw [(sameCode_install _ blk).name_eq, name_insertBare, name_without]

theorem ids_substitute (f : Func) (l : List BlockId) (blk : Block) :
    (f.substitute l blk).ids = f.ids := by
  change ((f.without l).install blk).ids = f.ids
  rw [(sameCode_install _ blk).ids_eq, ids_insertBare, ids_without]

theorem layout_substitute_perm (f : Func) (l : List BlockId) (blk : Block) :
    (f.substitute l blk).layout.Perm (blk.id :: f.layout.filter (· ∉ l)) :=
  perm_takeWhile_cons_filter ..

theorem mem_layout_substitute : x ∈ (f.substitute l blk).layout ↔
    x = blk.id ∨ (x ∈ f.layout ∧ x ∉ l) := by
  rw [(layout_substitute_perm f l blk).mem_iff, List.mem_cons, List.mem_filter, decide_eq_true_iff]

theorem layout_nodup_substitute (hf : f.layout.Nodup) (hId : blk.id ∈ f.layout → blk.id ∈ l) :
    (f.substitute l blk).layout.Nodup := by
  rw [(layout_substitute_perm f l blk).nodup_iff, List.nodup_cons, List.mem_filter,
    decide_eq_true_iff]
  exact ⟨fun h => h.2 (hId h.1), hf.filter _⟩

theorem hasBlock_substitute_or :
    (f.substitute l blk).hasBlock x = true ↔ x = blk.id ∨ (x ∉ l ∧ f.hasBlock x = true) := by
  rw [hasBlock_substitute, hasBlock_install, hasBlock_without]

/-- A block that takes the name of the first of two: the other blocks and this one are left. -/
theorem hasBlock_substitute_iff (hId : blk.id = a) (hne : a ≠ b) (ha : f.hasBlock a = true) :
    (f.substitute [a, b] blk).hasBlock x = true ↔ x ≠ b ∧ f.hasBlock x = true := by
  rw [hasBlock_substitute_or, hId]
  grind

theorem label?_substitute_eq (hId : blk.id = a) (hLabel : some blk.label = f.label? a)
    (hx : x ≠ b) : (f.substitute [a, b] blk).label? x = f.label? x := by
  rw [label?_substitute]
  by_cases hxa : x = a
  · rw [hxa, ← hId, label?_install_self, hLabel, hId]
  · rw [label?_install_of_ne (hId ▸ hxa), label?_without (by simp [hxa, hx])]

theorem code_substitute_self (hId : blk.id = a) : (f.substitute l blk).code a = blk.insts := by
  rw [code_substitute, ← hId, code_install_self]

theorem code_substitute_of_not_mem (hId : x ≠ blk.id) (hx : x ∉ l) :
    (f.substitute l blk).code x = f.code x := by
  rw [code_substitute, code_install_of_ne hId, code_without hx]

theorem code_substitute_of_ne (hId : blk.id = a) (hxa : x ≠ a) (hxb : x ≠ b) :
    (f.substitute [a, b] blk).code x = f.code x :=
  code_substitute_of_not_mem (hId ▸ hxa) (by simp [hxa, hxb])

theorem Named.substitute (hf : f.Named) : (f.substitute l blk).Named :=
  Named.install (hf.without l)

theorem not_hasBlock_without (hId : f.hasBlock blk.id = true → blk.id ∈ l) :
    (f.without l).hasBlock blk.id = false := by
  rw [Bool.eq_false_iff, Ne, hasBlock_without]
  exact fun h => h.1 (hId h.2)

theorem Mirrored.substitute (hf : f.Mirrored) (hId : f.hasBlock blk.id = true → blk.id ∈ l) :
    (f.substitute l blk).Mirrored :=
  Mirrored.install (hf.without l) (not_hasBlock_without hId)

theorem entry_substitute {e : BlockId} (hEntry : f.entry = some e) :
    (f.substitute l blk).entry = if e ∈ l then some blk.id else some e := by
  simp only [substitute, hEntry]

end Substitute

end Func

end Midend
