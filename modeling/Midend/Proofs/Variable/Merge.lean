import Mathlib.Data.List.Forall2
import Mathlib.Data.List.TakeWhile
import Midend.Proofs.Variable.Loop

/-!
# What a merge makes of the variables

Where arms come together, every variable that some arm mentions is settled once, one after the other
in the order of their names. `Settles` says what becomes of one of them. Each variable is read as
the table was at the start, since settling another one does not touch it (`SameAt`); so what holds
of one holds of all (`mergeVariables_settled`), and the phis that are made stand one behind the
other (`mergeVariables_withPhis`).

* `mergeVersions_makes_needed_phis`: what the phis are, where they stand, and what is current.
* `defined_after_merge_iff`: which variables are defined after the merge. Those that no arm
  mentions keep what they had.
-/

namespace Midend

/-! ## Phis behind phis -/

section Lists

variable {l new more : List Inst}

/-- Instructions put behind the phis at the head of a list. -/
def afterPhis (new l : List Inst) : List Inst :=
  l.takeWhile (·.isPhi) ++ new ++ l.dropWhile (·.isPhi)

theorem afterPhis_nil (l : List Inst) : afterPhis [] l = l := by
  rw [afterPhis, List.append_nil, List.takeWhile_append_dropWhile]

theorem afterPhis_cons_of_isPhi {i : Inst} (hi : i.isPhi = true) :
    afterPhis new (i :: l) = i :: afterPhis new l := by
  simp [afterPhis, hi]

theorem afterPhis_cons_of_not_isPhi {i : Inst} (hi : i.isPhi = false) :
    afterPhis new (i :: l) = new ++ i :: l := by
  simp [afterPhis, hi]

/-- Phis that are put in later come behind those that were put in before. -/
theorem afterPhis_afterPhis (hNew : ∀ i ∈ new, i.isPhi = true) (l : List Inst) :
    afterPhis more (afterPhis new l) = afterPhis (new ++ more) l := by
  induction l with
  | nil => simp [afterPhis, List.takeWhile_eq_self_iff.mpr hNew, List.dropWhile_eq_nil_iff.mpr hNew]
  | cons i l ih =>
    cases hi : i.isPhi with
    | true =>
      rw [afterPhis_cons_of_isPhi hi, afterPhis_cons_of_isPhi hi, afterPhis_cons_of_isPhi hi, ih]
    | false =>
      rw [afterPhis_cons_of_not_isPhi hi, afterPhis_cons_of_not_isPhi hi, afterPhis,
        List.takeWhile_append_of_pos hNew, List.dropWhile_append_of_pos hNew]
      simp [hi]

end Lists

namespace Func

variable {f : Func} {b : BlockId} {ty : Ty} {incoming : List Incoming} {phi : ValueId}
  {new more : List Inst}

theorem rewrite_rewrite (f : Func) (b : BlockId) (r s : List Inst → List Inst) :
    (f.rewrite b r).rewrite b s = f.rewrite b (s ∘ r) := by
  have hArena : ((f.rewrite b r).rewrite b s).arena = (f.rewrite b (s ∘ r)).arena := by
    ext1 x
    change ((f.rewrite b r).rewrite b s).block? x = (f.rewrite b (s ∘ r)).block? x
    simp only [block?_rewrite, Option.map_map]
    congr 1
    funext blk
    by_cases hx : x = b <;> simp [hx]
  exact congrArg (fun m => { f with arena := m }) hArena

theorem rewrite_eq_self {r : List Inst → List Inst} (h : r (f.code b) = f.code b) :
    f.rewrite b r = f := by
  have hCancel := rewrite_rewrite_cancel (f := f) (b := b) (r := id) (s := r) h
  rw [rewrite_rewrite, Function.comp_id] at hCancel
  exact hCancel

/-- The function with new phis behind those at the head of a block. Nothing else changes, but that
their names are taken. -/
def withPhis (f : Func) (b : BlockId) (new : List Inst) : Func :=
  { f.rewrite b (afterPhis new) with
    ids := { f.ids with nextValue := f.ids.nextValue + new.length } }

theorem withPhis_nil (f : Func) (b : BlockId) : f.withPhis b [] = f := by
  have hSame : f.rewrite b (afterPhis []) = f := rewrite_eq_self (afterPhis_nil _)
  rw [withPhis, hSame]
  rfl

theorem withPhis_withPhis (hNew : ∀ i ∈ new, i.isPhi = true) :
    (f.withPhis b new).withPhis b more = f.withPhis b (new ++ more) := by
  have hTwice := f.rewrite_rewrite b (afterPhis new) (afterPhis more)
  have hBoth : afterPhis more ∘ afterPhis new = afterPhis (new ++ more) :=
    funext (afterPhis_afterPhis hNew)
  rw [hBoth] at hTwice
  have hIds : f.ids.nextValue + new.length + more.length =
      f.ids.nextValue + (new ++ more).length := by
    rw [List.length_append]
    omega
  change { (f.rewrite b (afterPhis new)).rewrite b (afterPhis more) with
    ids := { f.ids with nextValue := f.ids.nextValue + new.length + more.length } } = _
  rw [hTwice, hIds]
  rfl

/-- A phi that is appended stands behind the phis at the head, under the next free name. -/
theorem append_phi (h : (f.append b ty (.phi incoming)).answer = .ok phi) :
    phi = ⟨f.ids.nextValue⟩ ∧ (f.append b ty (.phi incoming)).state =
      f.withPhis b [f.newInst ty (.phi incoming)] := by
  refine ⟨(append_of_answer h).1, ?_⟩
  unfold append at h ⊢
  cases hRefuse : f.refuseAppend? b (.phi incoming) with
  | some e =>
    rw [hRefuse] at h
    cases h
  | none =>
    have hPlace : (fun blk : Block => blk.place (f.newInst ty (.phi incoming))) =
        fun blk => { blk with insts := afterPhis [f.newInst ty (.phi incoming)] blk.insts } := by
      funext blk
      simp [Block.place, afterPhis, newInst, Inst.isPhi, Op.isPhi]
    rw [withPhis, rewrite, ← hPlace]
    rfl

theorem mem_code_withPhis {x : BlockId} {i : Inst} (hi : i ∈ f.code x) :
    i ∈ (f.withPhis b new).code x := by
  change i ∈ (f.rewrite b (afterPhis new)).code x
  by_cases hx : x = b
  · subst hx
    rw [code_rewrite_self (hasBlock_of_mem_code hi), afterPhis, List.append_assoc]
    rw [← List.takeWhile_append_dropWhile (p := Inst.isPhi) (l := f.code x)] at hi
    apply (List.mem_append.mp hi).elim
    · exact List.mem_append_left _
    · exact fun hDrop => List.mem_append_right _ (List.mem_append_right _ hDrop)
  · rwa [code_rewrite_of_ne hx]

/-- What has a type keeps it. -/
theorem tyOf?_withPhis {v : ValueId} (hf : f.Consistent) (hg : (f.withPhis b new).Consistent)
    (h : f.tyOf? v = some ty) : (f.withPhis b new).tyOf? v = some ty := by
  rw [tyOf?_eq_some_iff hf.values_nodup] at h
  rw [tyOf?_eq_some_iff hg.values_nodup]
  obtain ⟨i, hi, hRest⟩ := h
  obtain ⟨x, hCode⟩ := (mem_insts hf.mem_layout).mp hi
  exact ⟨i, (mem_insts hg.mem_layout).mpr ⟨x, mem_code_withPhis hCode⟩, hRest⟩

end Func

/-! ## One variable apart from the others -/

namespace VarTable

variable {t t' t'' : VarTable} {name x : String}

/-- Two tables agree on a variable. -/
structure SameAt (t t' : VarTable) (name : String) : Prop where
  versions : t'.versions name = t.versions name
  current : t'.currentVersion? name = t.currentVersion? name

theorem SameAt.refl (t : VarTable) (name : String) : SameAt t t name := ⟨rfl, rfl⟩

theorem SameAt.trans (h : SameAt t t' name) (h' : SameAt t' t'' name) : SameAt t t'' name :=
  ⟨h'.versions.trans h.versions, h'.current.trans h.current⟩

theorem SameAt.definition?_eq (h : SameAt t t' name) (version : Nat) :
    t'.definition? name version = t.definition? name version := by
  rw [definition?, definition?, h.versions]

theorem SameAt.definitionAt?_eq (h : SameAt t t' name) (s : Snapshot) :
    t'.definitionAt? s name = t.definitionAt? s name :=
  congrArg (s.get? name).bind (funext h.definition?_eq)

theorem SameAt.currentDefinition?_eq (h : SameAt t t' name) :
    t'.currentDefinition? name = t.currentDefinition? name := by
  rw [currentDefinition?, currentDefinition?, h.current]
  exact congrArg (t.currentVersion? name).bind (funext h.definition?_eq)

theorem sameAt_forget (t : VarTable) (h : x ≠ name) : SameAt t (t.forget name) x :=
  ⟨rfl, by rw [currentVersion?_forget, if_neg h]⟩

theorem sameAt_setCurrent (t : VarTable) (version : Nat) (h : x ≠ name) :
    SameAt t (t.setCurrent name version) x :=
  ⟨rfl, currentVersion?_setCurrent_of_ne t version h⟩

theorem sameAt_define (t : VarTable) (value : ValueId) (h : x ≠ name) :
    SameAt t (t.define name value) x :=
  ⟨by rw [versions_define, if_neg h], currentVersion?_define_of_ne t value h⟩

end VarTable

namespace Scope

open Func VarTable

variable {s t : Scope} {merge : BlockId} {arms : List Arm} {name x : String} {made : Option ValueId}
  {vars after : VarTable}

/-! ## Settling one variable -/

theorem mapM_eq_some_iff {α β : Type} {g : α → Option β} {l : List α} {m : List β} :
    l.mapM g = some m ↔ List.Forall₂ (fun a b => g a = some b) l m := by
  induction l generalizing m with
  | nil =>
    rw [List.mapM_nil, List.forall₂_nil_left_iff]
    exact ⟨fun h => (Option.some.inj h).symm, fun h => congrArg some h.symm⟩
  | cons a l ih =>
    rw [List.mapM_cons, List.forall₂_cons_left_iff]
    constructor
    · intro h
      obtain ⟨b, hb, h⟩ := Option.bind_eq_some_iff.mp h
      obtain ⟨m', hm, h⟩ := Option.bind_eq_some_iff.mp h
      exact ⟨b, m', hb, ih.mp hm, (Option.some.inj h).symm⟩
    · rintro ⟨b, m', hb, hm, rfl⟩
      rw [hb, ih.mpr hm]
      rfl

theorem exists_of_mapM_eq_none {α β : Type} {g : α → Option β} {l : List α}
    (h : l.mapM g = none) : ∃ a ∈ l, g a = none := by
  induction l with
  | nil => cases h
  | cons a l ih =>
    cases ha : g a with
    | none => exact ⟨a, List.mem_cons_self, ha⟩
    | some b =>
      rw [List.mapM_cons, ha] at h
      cases hl : l.mapM g with
      | none =>
        obtain ⟨c, hc, hNone⟩ := ih hl
        exact ⟨c, List.mem_cons_of_mem a hc, hNone⟩
      | some m =>
        rw [hl] at h
        cases h

/-- The pairs of a phi: the block of each arm with the definition of the variable there. -/
def Paired (vars : VarTable) (arms : List Arm) (name : String) (incoming : List Incoming) : Prop :=
  List.Forall₂ (fun arm p => p.block = arm.1 ∧ vars.definitionAt? arm.2 name = some p.value) arms
    incoming

/-- The variable has a definition on every arm, and they are not all the same. -/
def NeedsPhi (vars : VarTable) (arms : List Arm) (name : String) : Prop :=
  (∀ arm ∈ arms, (vars.definitionAt? arm.2 name).isSome) ∧
    ∃ arm ∈ arms, ∃ other ∈ arms, vars.definitionAt? arm.2 name ≠ vars.definitionAt? other.2 name

theorem not_forall_defined_of_missing
    (h : ∃ arm ∈ arms, vars.definitionAt? arm.2 name = none) :
    ¬ ∀ arm ∈ arms, (vars.definitionAt? arm.2 name).isSome := by
  obtain ⟨arm, hArm, hNone⟩ := h
  intro hAll
  have hSome := hAll arm hArm
  rw [hNone] at hSome
  cases hSome

theorem not_needsPhi_of_shared {d : ValueId}
    (h : ∀ arm ∈ arms, vars.definitionAt? arm.2 name = some d) : ¬ NeedsPhi vars arms name := by
  rintro ⟨-, arm, hArm, other, hOther, hNe⟩
  exact hNe ((h arm hArm).trans (h other hOther).symm)

/-- What a variable becomes where arms come together, and the phi that is made for it. -/
inductive Settles (merge : BlockId) (arms : List Arm) (name : String) (s : Scope) :
    Option ValueId → Scope → Prop
  | missing (h : ∃ arm ∈ arms, s.vars.definitionAt? arm.2 name = none) :
      Settles merge arms name s none { s with vars := s.vars.forget name }
  | shared {version : Nat} {d : ValueId}
      (h : ∀ arm ∈ arms, s.vars.definitionAt? arm.2 name = some d)
      (hVersion : s.vars.definition? name version = some d) :
      Settles merge arms name s none { s with vars := s.vars.setCurrent name version }
  | differing {first : Arm} {d phi : ValueId} {ty : Ty} {incoming : List Incoming}
      (h : NeedsPhi s.vars arms name) (hPairs : Paired s.vars arms name incoming)
      (hFirst : arms.head? = some first) (hDef : s.vars.definitionAt? first.2 name = some d)
      (hTy : s.func.tyOf? d = some ty)
      (hPhi : (s.func.append merge ty (.phi incoming)).answer = .ok phi) :
      Settles merge arms name s (some phi)
        ⟨(s.func.append merge ty (.phi incoming)).state, s.vars.define name phi⟩

section Defined

variable {ds : List ValueId}
  (h : List.Forall₂ (fun arm d => vars.definitionAt? arm.2 name = some d) arms ds)
include h

theorem paired_zipWith :
    Paired vars arms name (arms.zipWith (fun arm v => ⟨arm.1, v⟩) ds) := by
  induction h with
  | nil => exact .nil
  | cons hd _ ih => exact .cons ⟨rfl, hd⟩ ih

theorem isSome_of_defined : ∀ arm ∈ arms, (vars.definitionAt? arm.2 name).isSome := by
  induction h with
  | nil => exact fun arm hArm => absurd hArm List.not_mem_nil
  | cons hd _ ih => exact List.forall_mem_cons.mpr ⟨Option.isSome_of_eq_some hd, ih⟩

/-- Definitions that are all the same are the definition on every arm. -/
theorem forall_defined_iff {d : ValueId} :
    (∀ d' ∈ ds, d' = d) ↔ ∀ arm ∈ arms, vars.definitionAt? arm.2 name = some d := by
  induction h with
  | nil => simp
  | cons hd _ ih => rw [List.forall_mem_cons, List.forall_mem_cons, ih, hd, Option.some.injEq]

end Defined

/-- A variable is settled in one of three ways. -/
theorem settles_of_mergeVariable (hArms : arms ≠ [])
    (h : mergeVariable merge arms name s = .ok made t) : Settles merge arms name s made t := by
  obtain ⟨first, rest, rfl⟩ := List.exists_cons_of_ne_nil hArms
  unfold mergeVariable at h
  split at h
  · rename_i hNone
    cases h
    exact .missing (exists_of_mapM_eq_none hNone)
  · rename_i hNil
    cases mapM_eq_some_iff.mp hNil
  rename_i d ds hDefined
  rw [mapM_eq_some_iff] at hDefined
  have hd := (List.forall₂_cons.mp hDefined).1
  split at h
  · rename_i hAll
    have hSame : ∀ d' ∈ d :: ds, d' = d := by
      simpa using hAll
    have hShared := (forall_defined_iff hDefined).mp hSame
    -- the version is that of the first arm
    obtain ⟨version, hGet, hVersion⟩ := Option.bind_eq_some_iff.mp hd
    have hHead : ((first :: rest).head?.bind fun arm => arm.2.get? name) = some version := hGet
    rw [hHead] at h
    cases h
    exact .shared hShared hVersion
  · rename_i hAll
    split at h
    · cases h
    rename_i phi t' hDefine
    cases h
    obtain ⟨ty, hTy, hPhi, rfl⟩ := definePhi_eq_ok hDefine
    refine .differing ⟨isSome_of_defined hDefined, ?_⟩ (paired_zipWith hDefined) rfl hd hTy hPhi
    by_contra hNone
    apply hAll
    have hSame : ∀ d' ∈ d :: ds, d' = d := by
      apply (forall_defined_iff hDefined).mpr
      intro arm hArm
      by_contra hNe
      exact hNone ⟨arm, hArm, first, List.mem_cons_self, fun hEq => hNe (hEq.trans hd)⟩
    simpa using hSame

/-- Settling a variable leaves the others alone. -/
theorem Settles.sameAt (h : Settles merge arms name s made t) (hx : x ≠ name) :
    SameAt s.vars t.vars x := by
  cases h with
  | missing => exact sameAt_forget _ hx
  | shared => exact sameAt_setCurrent _ _ hx
  | differing => exact sameAt_define _ _ hx

theorem Settles.sameAt_rest {names : List String} (h : Settles merge arms name s made t)
    (hNot : name ∉ names) (hSame : ∀ x ∈ name :: names, SameAt vars s.vars x) :
    ∀ x ∈ names, SameAt vars t.vars x := by
  intro x hx
  refine (hSame x (List.mem_cons_of_mem name hx)).trans (h.sameAt ?_)
  rintro rfl
  exact hNot hx

theorem Settles.consistent (h : Settles merge arms name s made t) (hs : s.func.Consistent) :
    t.func.Consistent := by
  cases h with
  | missing => exact hs
  | shared => exact hs
  | differing => exact hs.append _ _ _

/-! ## What becomes of the variables -/

/-- What a variable is after the merge, told from the table before it. -/
inductive Settled (vars : VarTable) (arms : List Arm) (name : String) (after : VarTable) :
    Option ValueId → Prop
  | missing (h : ∃ arm ∈ arms, vars.definitionAt? arm.2 name = none)
      (hAfter : after.currentVersion? name = none) : Settled vars arms name after none
  | shared {d : ValueId} (h : ∀ arm ∈ arms, vars.definitionAt? arm.2 name = some d)
      (hAfter : after.currentDefinition? name = some d) : Settled vars arms name after none
  | differing {phi : ValueId} (h : NeedsPhi vars arms name)
      (hAfter : after.currentDefinition? name = some phi) : Settled vars arms name after (some phi)

theorem needsPhi_congr (h : SameAt vars after name) :
    NeedsPhi after arms name ↔ NeedsPhi vars arms name := by
  unfold NeedsPhi
  simp only [h.definitionAt?_eq]

theorem paired_congr (h : SameAt vars after name) {incoming : List Incoming} :
    Paired after arms name incoming ↔ Paired vars arms name incoming := by
  unfold Paired
  simp only [h.definitionAt?_eq]

theorem Settles.settled (h : Settles merge arms name s made t) (hSame : SameAt vars s.vars name)
    (hRest : SameAt t.vars after name) : Settled vars arms name after made := by
  have hAt := hSame.definitionAt?_eq
  cases h with
  | missing h =>
    simp only [hAt] at h
    refine .missing h (hRest.current.trans ?_)
    rw [currentVersion?_forget, if_pos rfl]
  | shared h hVersion =>
    simp only [hAt] at h
    refine .shared h (hRest.currentDefinition?_eq.trans ?_)
    rw [currentDefinition?, currentVersion?_setCurrent_self]
    exact hVersion
  | differing h =>
    refine .differing ((needsPhi_congr hSame).mp h) (hRest.currentDefinition?_eq.trans ?_)
    exact currentDefinition?_define_self _ _ _

theorem Settled.needsPhi_iff (h : Settled vars arms name after made) :
    made ≠ none ↔ NeedsPhi vars arms name := by
  cases h with
  | missing h =>
    exact ⟨fun hNe => absurd rfl hNe,
      fun hNeeds => absurd hNeeds.1 (not_forall_defined_of_missing h)⟩
  | shared h =>
    exact ⟨fun hNe => absurd rfl hNe, fun hNeeds => absurd hNeeds (not_needsPhi_of_shared h)⟩
  | differing h => exact ⟨fun _ => h, fun _ => Option.some_ne_none _⟩

theorem Settled.isSome_iff (h : Settled vars arms name after made) :
    (after.currentVersion? name).isSome ↔ ∀ arm ∈ arms, (vars.definitionAt? arm.2 name).isSome := by
  have hCurrent : ∀ d, after.currentDefinition? name = some d →
      (after.currentVersion? name).isSome := by
    intro d hd
    obtain ⟨version, hVersion, -⟩ := Option.bind_eq_some_iff.mp hd
    exact Option.isSome_of_eq_some hVersion
  cases h with
  | missing h hAfter =>
    rw [hAfter]
    exact ⟨fun hSome => absurd hSome Bool.false_ne_true,
      fun hAll => absurd hAll (not_forall_defined_of_missing h)⟩
  | shared h hAfter =>
    exact ⟨fun _ arm hArm => Option.isSome_of_eq_some (h arm hArm), fun _ => hCurrent _ hAfter⟩
  | differing h hAfter => exact ⟨fun _ => h.1, fun _ => hCurrent _ hAfter⟩

theorem mergeVariables_cons_eq_ok {names : List String} {phis : List (String × ValueId)}
    (h : mergeVariables merge arms (name :: names) s = .ok phis t) :
    ∃ made mid rest, mergeVariable merge arms name s = .ok made mid ∧
      mergeVariables merge arms names mid = .ok rest t ∧
      phis = made.toList.map (name, ·) ++ rest := by
  rw [mergeVariables] at h
  split at h
  · cases h
  rename_i made mid hFirst
  split at h
  · cases h
  rename_i rest last hRest
  cases h
  exact ⟨made, mid, rest, hFirst, hRest, rfl⟩

section Run

variable {names : List String} {phis : List (String × ValueId)}

theorem mergeVariables_listed (h : mergeVariables merge arms names s = .ok phis t) :
    (phis.map (·.1)).Sublist names := by
  induction names generalizing s phis with
  | nil =>
    cases h
    exact List.Sublist.refl []
  | cons name names ih =>
    obtain ⟨made, mid, rest, -, hRest, rfl⟩ := mergeVariables_cons_eq_ok h
    rw [List.map_append, List.map_map]
    cases made with
    | none => exact (ih hRest).cons name
    | some phi => exact (ih hRest).cons_cons name

variable (hArms : arms ≠ [])
include hArms

theorem mergeVariables_sameAt (h : mergeVariables merge arms names s = .ok phis t)
    (hx : x ∉ names) : SameAt s.vars t.vars x := by
  induction names generalizing s phis with
  | nil =>
    cases h
    exact .refl _ x
  | cons name names ih =>
    obtain ⟨made, mid, rest, hFirst, hRest, -⟩ := mergeVariables_cons_eq_ok h
    rw [List.mem_cons, not_or] at hx
    exact ((settles_of_mergeVariable hArms hFirst).sameAt hx.1).trans (ih hRest hx.2)

/-- Every variable is settled from what the table was like at the start: the ones before it leave it
alone, and so do the ones after it. -/
theorem mergeVariables_settled (hNodup : names.Nodup)
    (h : mergeVariables merge arms names s = .ok phis t)
    (hSame : ∀ x ∈ names, SameAt vars s.vars x) (hx : x ∈ names) :
    ∃ made, Settled vars arms x t.vars made ∧ ∀ phi, (x, phi) ∈ phis ↔ made = some phi := by
  induction names generalizing s phis with
  | nil => exact absurd hx List.not_mem_nil
  | cons name names ih =>
    obtain ⟨made, mid, rest, hFirst, hRest, rfl⟩ := mergeVariables_cons_eq_ok h
    have hSettles := settles_of_mergeVariable hArms hFirst
    obtain ⟨hNot, hNodup⟩ := List.nodup_cons.mp hNodup
    by_cases hEq : x = name
    · subst hEq
      refine ⟨made, hSettles.settled (hSame x hx) (mergeVariables_sameAt hArms hRest hNot), ?_⟩
      intro phi
      have hAbsent : (x, phi) ∉ rest := fun hMem =>
        hNot ((mergeVariables_listed hRest).subset (List.mem_map_of_mem hMem))
      simp [hAbsent]
    · obtain ⟨made', hSettled, hListed⟩ := ih hNodup hRest (hSettles.sameAt_rest hNot hSame)
        ((List.mem_cons.mp hx).resolve_left hEq)
      refine ⟨made', hSettled, fun phi => ?_⟩
      rw [← hListed phi]
      simp [Ne.symm hEq]

end Run

/-! ## What becomes of the function -/

/-- A phi that joins the definitions of a variable: it has a pair for each arm, in their order, and
the type of the definition on the first. That definition may be a phi that was made for another
variable just before, so its type is found in the function that is left. -/
structure Joins (vars : VarTable) (arms : List Arm) (f : Func) (name : String) (i : Inst) :
    Prop where
  pairs : ∃ incoming, i.op = .phi incoming ∧ Paired vars arms name incoming
  ty : ∃ first d, arms.head? = some first ∧ vars.definitionAt? first.2 name = some d ∧
    f.tyOf? d = some i.ty

theorem Joins.isPhi {f : Func} {i : Inst} (h : Joins vars arms f name i) : i.isPhi = true := by
  obtain ⟨incoming, hOp, -⟩ := h.pairs
  rw [Inst.isPhi, hOp]
  rfl

theorem Joins.withPhis {f : Func} {b : BlockId} {i : Inst} {new : List Inst}
    (h : Joins vars arms f name i) (hf : f.Consistent) (hg : (f.withPhis b new).Consistent) :
    Joins vars arms (f.withPhis b new) name i := by
  obtain ⟨first, d, hFirst, hDef, hTy⟩ := h.ty
  exact ⟨h.pairs, first, d, hFirst, hDef, tyOf?_withPhis hf hg hTy⟩

theorem Settles.func_cases (h : Settles merge arms name s made t)
    (hSame : SameAt vars s.vars name) :
    made = none ∧ t.func = s.func ∨
      ∃ i, made = some i.id ∧ i.id = ⟨s.func.ids.nextValue⟩ ∧ Joins vars arms s.func name i ∧
        t.func = s.func.withPhis merge [i] := by
  cases h with
  | missing => exact .inl ⟨rfl, rfl⟩
  | shared => exact .inl ⟨rfl, rfl⟩
  | @differing first d phi ty incoming _ hPairs hFirst hDef hTy hPhi =>
    obtain ⟨rfl, hFunc⟩ := append_phi hPhi
    refine .inr ⟨s.func.newInst ty (.phi incoming), rfl, rfl, ⟨?_, ?_⟩, hFunc⟩
    · exact ⟨incoming, rfl, (paired_congr hSame).mp hPairs⟩
    · exact ⟨first, d, hFirst, (hSame.definitionAt?_eq _).symm.trans hDef, hTy⟩

/-- The phis stand one behind the other, under the names that were free. -/
theorem mergeVariables_withPhis {names : List String} {phis : List (String × ValueId)}
    (hArms : arms ≠ []) (hNodup : names.Nodup) (hSame : ∀ x ∈ names, SameAt vars s.vars x)
    (hs : s.func.Consistent) (h : mergeVariables merge arms names s = .ok phis t) :
    t.func.Consistent ∧ ∃ new, t.func = s.func.withPhis merge new ∧
      List.Forall₂ (fun p i => i.id = p.2 ∧ Joins vars arms t.func p.1 i) phis new ∧
      phis.map (·.2.index) = List.range' s.func.ids.nextValue phis.length := by
  induction names generalizing s phis with
  | nil =>
    cases h
    exact ⟨hs, [], (withPhis_nil _ _).symm, .nil, rfl⟩
  | cons name names ih =>
    obtain ⟨made, mid, rest, hFirst, hRest, rfl⟩ := mergeVariables_cons_eq_ok h
    have hSettles := settles_of_mergeVariable hArms hFirst
    obtain ⟨hNot, hNodup⟩ := List.nodup_cons.mp hNodup
    have hRun := ih hNodup (hSettles.sameAt_rest hNot hSame) (hSettles.consistent hs) hRest
    rcases hSettles.func_cases (hSame name List.mem_cons_self) with
      ⟨rfl, hFunc⟩ | ⟨i, rfl, hId, hJoins, hFunc⟩
    · rw [hFunc] at hRun
      exact hRun
    · obtain ⟨hLast, more, hMore, hPairs, hIds⟩ := hRun
      have hAll : t.func = s.func.withPhis merge (i :: more) := by
        rw [hMore, hFunc, withPhis_withPhis (List.forall_mem_singleton.mpr hJoins.isPhi)]
        rfl
      refine ⟨hLast, i :: more, hAll, .cons ⟨rfl, ?_⟩ hPairs, ?_⟩
      · rw [hAll] at hLast ⊢
        exact hJoins.withPhis hs hLast
      · rw [hFunc] at hIds
        change i.id.index :: rest.map (·.2.index) =
          s.func.ids.nextValue :: List.range' _ rest.length
        rw [hIds, hId]
        rfl

/-! ## The whole merge -/

theorem mem_armVariables : name ∈ armVariables arms ↔ ∃ arm ∈ arms, arm.2.get? name ≠ none := by
  rw [armVariables, SortedSet.mem_toList, SortedSet.mem_ofList, List.mem_flatMap]
  simp only [SortedMap.mem_keys_iff, Option.ne_none_iff_exists']

theorem mem_armVariables_of_defined {arm : Arm} {d : ValueId} (hArm : arm ∈ arms)
    (h : vars.definitionAt? arm.2 name = some d) : name ∈ armVariables arms := by
  obtain ⟨version, hGet, -⟩ := Option.bind_eq_some_iff.mp h
  exact mem_armVariables.mpr ⟨arm, hArm, Option.ne_none_iff_exists'.mpr ⟨version, hGet⟩⟩

theorem mergeVersions_eq_ok {phis : List (String × ValueId)}
    (h : (s.mergeVersions merge arms).answer? = some phis) :
    mergeVariables merge arms (armVariables arms) s =
      .ok phis (s.mergeVersions merge arms).state := by
  unfold mergeVersions at h ⊢
  split at h
  · cases h
  split at h
  · cases h
  rename_i hBlock _ _
  rw [if_neg hBlock]
  rcases hEq : mergeVariables merge arms (armVariables arms) s with ⟨answer, last⟩
  rw [hEq] at h
  cases answer with
  | error e => cases h
  | ok made =>
    cases h
    rfl

section Whole

variable {phis : List (String × ValueId)} (hArms : arms ≠ [])
  (h : (s.mergeVersions merge arms).answer? = some phis)
include hArms h

theorem mergeVersions_settled (hName : name ∈ armVariables arms) :
    ∃ made, Settled s.vars arms name (s.mergeVersions merge arms).state.vars made ∧
      ∀ phi, (name, phi) ∈ phis ↔ made = some phi :=
  mergeVariables_settled hArms (SortedSet.nodup_toList _) (mergeVersions_eq_ok h)
    (fun x _ => .refl _ x) hName

theorem mergeVersions_listed_iff : name ∈ phis.map (·.1) ↔ NeedsPhi s.vars arms name := by
  have hListed := mergeVariables_listed (mergeVersions_eq_ok h)
  by_cases hName : name ∈ armVariables arms
  · obtain ⟨made, hSettled, hMade⟩ := mergeVersions_settled hArms h hName
    rw [← hSettled.needsPhi_iff, Option.ne_none_iff_exists']
    simp [← hMade]
  · refine ⟨fun hMem => absurd (hListed.subset hMem) hName, fun hNeeds => ?_⟩
    obtain ⟨arm, hArm⟩ := List.exists_mem_of_ne_nil arms hArms
    obtain ⟨d, hd⟩ := Option.isSome_iff_exists.mp (hNeeds.1 arm hArm)
    exact absurd (mem_armVariables_of_defined hArm hd) hName

theorem mergeVersions_shared {d : ValueId}
    (hShared : ∀ arm ∈ arms, s.vars.definitionAt? arm.2 name = some d) :
    (s.mergeVersions merge arms).state.vars.currentDefinition? name = some d := by
  obtain ⟨arm, hArm⟩ := List.exists_mem_of_ne_nil arms hArms
  have hName := mem_armVariables_of_defined hArm (hShared arm hArm)
  obtain ⟨made, hSettled, -⟩ := mergeVersions_settled hArms h hName
  cases hSettled with
  | missing hNone =>
    obtain ⟨other, hOther, hNone⟩ := hNone
    rw [hShared other hOther] at hNone
    cases hNone
  | shared hAll hAfter => rw [hAfter, ← hAll arm hArm, hShared arm hArm]
  | differing hNeeds => exact absurd hNeeds (not_needsPhi_of_shared hShared)

theorem mergeVersions_current {p : String × ValueId} (hp : p ∈ phis) :
    (s.mergeVersions merge arms).state.vars.currentDefinition? p.1 = some p.2 := by
  have hName := (mergeVariables_listed (mergeVersions_eq_ok h)).subset (List.mem_map_of_mem hp)
  obtain ⟨made, hSettled, hMade⟩ := mergeVersions_settled hArms h hName
  obtain rfl := (hMade p.2).mp hp
  cases hSettled with
  | differing _ hAfter => exact hAfter

theorem mergeVersions_withPhis (hs : s.func.Consistent) :
    ∃ new, (s.mergeVersions merge arms).state.func = s.func.withPhis merge new ∧
      List.Forall₂ (fun p i => i.id = p.2 ∧
        Joins s.vars arms (s.mergeVersions merge arms).state.func p.1 i) phis new ∧
      phis.map (·.2.index) = List.range' s.func.ids.nextValue phis.length :=
  (mergeVariables_withPhis hArms (SortedSet.nodup_toList _) (fun x _ => .refl _ x) hs
    (mergeVersions_eq_ok h)).2

end Whole

/-- **A merge makes the phis that are needed, and nothing else.** They are listed in the order of
the variables, one for each variable that has a definition on every arm and not the same on all of
them. They take the next free names and stand behind the phis that were at the head of the block,
each with the definitions of the arms and the type of the first; nothing else in the function
changes. Each is the current definition of its variable afterwards. A definition that all arms share
is current, and there is no phi for it. -/
theorem mergeVersions_makes_needed_phis (s : Scope) (merge : BlockId) (arms : List Arm)
    (phis : List (String × ValueId)) (hs : s.func.Consistent) (hArms : arms ≠ [])
    (h : (s.mergeVersions merge arms).answer? = some phis) :
    (phis.map (·.1)).Pairwise (· < ·) ∧
    (∀ name, name ∈ phis.map (·.1) ↔ NeedsPhi s.vars arms name) ∧
    (∀ p ∈ phis, s.func.hasValue p.2 = false ∧
      (s.mergeVersions merge arms).state.vars.currentDefinition? p.1 = some p.2) ∧
    (∃ new, (s.mergeVersions merge arms).state.func = s.func.withPhis merge new ∧
      List.Forall₂ (fun p i => i.id = p.2 ∧
        Joins s.vars arms (s.mergeVersions merge arms).state.func p.1 i) phis new ∧
      phis.map (·.2.index) = List.range' s.func.ids.nextValue phis.length) ∧
    ∀ name d, (∀ arm ∈ arms, s.vars.definitionAt? arm.2 name = some d) →
      (s.mergeVersions merge arms).state.vars.currentDefinition? name = some d ∧
        name ∉ phis.map (·.1) := by
  have hWith := mergeVersions_withPhis hArms h hs
  refine ⟨?_, fun name => mergeVersions_listed_iff hArms h, ?_, hWith, ?_⟩
  · exact (SortedSet.ascending _).sublist (mergeVariables_listed (mergeVersions_eq_ok h))
  · intro p hp
    refine ⟨?_, mergeVersions_current hArms h hp⟩
    obtain ⟨new, -, -, hIds⟩ := hWith
    have hFresh : p.2.index ∈ List.range' s.func.ids.nextValue phis.length :=
      hIds ▸ List.mem_map_of_mem hp
    rw [List.mem_range'_1] at hFresh
    rw [Bool.eq_false_iff]
    intro hThere
    have hLt := hs.index_lt hThere
    omega
  · intro name d hShared
    refine ⟨mergeVersions_shared hArms h hShared, ?_⟩
    rw [mergeVersions_listed_iff hArms h]
    exact not_needsPhi_of_shared hShared

/-- The versions at the end of the first of two arms: `z` is set before them, `x` and `y` there. -/
def forkingThen : VarTable := ((VarTable.define {} "z" ⟨1⟩).define "x" ⟨3⟩).define "y" ⟨3⟩

/-- The other arm sets `x` only. Then they come together. -/
def forking : Scope where
  func := [.createBlock "entry", .createBlock "then", .createBlock "else", .createBlock "merge",
    .append ⟨0⟩ .bool (.const (.bool true)), .append ⟨0⟩ (.scalar .i32) (.const (.int 1)),
    .append ⟨0⟩ .void (.branch ⟨0⟩ ⟨1⟩ ⟨2⟩), .append ⟨1⟩ (.scalar .i32) (.const (.int 2)),
    .append ⟨1⟩ .void (.jump ⟨3⟩), .append ⟨2⟩ (.scalar .i32) (.const (.int 3)),
    .append ⟨2⟩ .void (.jump ⟨3⟩), .append ⟨3⟩ .void (.ret (some ⟨1⟩))].foldl build
      (.empty "forking" (.scalar .i32))
  vars := (forkingThen.restore (VarTable.define {} "z" ⟨1⟩).snapshot).define "x" ⟨5⟩

/-- The two arms. -/
def forkingArms : List Arm := [(⟨1⟩, forkingThen.snapshot), (⟨2⟩, forking.vars.snapshot)]

theorem forking_makes_needed_phis :
    (forking.mergeVersions ⟨3⟩ forkingArms).answer? = some [("x", ⟨8⟩)] ∧
    NeedsPhi forking.vars forkingArms "x" ∧ ¬ NeedsPhi forking.vars forkingArms "y" ∧
    (forking.mergeVersions ⟨3⟩ forkingArms).state.vars.currentDefinition? "x" = some ⟨8⟩ ∧
    (forking.mergeVersions ⟨3⟩ forkingArms).state.vars.currentDefinition? "z" = some ⟨1⟩ := by
  have hAnswer : (forking.mergeVersions ⟨3⟩ forkingArms).answer? = some [("x", ⟨8⟩)] := by
    decide +kernel
  obtain ⟨-, hListed, hCurrent, -, hShared⟩ := mergeVersions_makes_needed_phis forking ⟨3⟩
    forkingArms [("x", ⟨8⟩)] (by decide +kernel) (by decide) hAnswer
  refine ⟨hAnswer, (hListed "x").mp (by decide), fun hNeeds => ?_,
    (hCurrent ("x", ⟨8⟩) (by decide)).2, (hShared "z" ⟨1⟩ (by decide +kernel)).1⟩
  exact absurd ((hListed "y").mpr hNeeds) (by decide)

/-! ## Which variables are defined -/

/-- **What is defined after a merge.** A variable is defined exactly if it was on every arm, or no arm
mentions it and it was defined where the merge was asked for. -/
theorem defined_after_merge_iff (s : Scope) (merge : BlockId) (arms : List Arm)
    (phis : List (String × ValueId)) (name : String) (hArms : arms ≠ [])
    (h : (s.mergeVersions merge arms).answer? = some phis) :
    ((s.mergeVersions merge arms).state.vars.currentVersion? name).isSome ↔
      (∀ arm ∈ arms, (s.vars.definitionAt? arm.2 name).isSome) ∨
        (∀ arm ∈ arms, arm.2.get? name = none) ∧ (s.vars.currentVersion? name).isSome := by
  by_cases hName : name ∈ armVariables arms
  · obtain ⟨made, hSettled, -⟩ := mergeVersions_settled hArms h hName
    obtain ⟨arm, hArm, hGet⟩ := mem_armVariables.mp hName
    have hMentioned : ¬ ∀ arm ∈ arms, arm.2.get? name = none := fun hNone => hGet (hNone arm hArm)
    rw [hSettled.isSome_iff]
    simp only [hMentioned, false_and, or_false]
  · have hSame := mergeVariables_sameAt hArms (mergeVersions_eq_ok h) hName
    have hNone : ∀ arm ∈ arms, arm.2.get? name = none := by
      intro arm hArm
      by_contra hGet
      exact hName (mem_armVariables.mpr ⟨arm, hArm, hGet⟩)
    obtain ⟨arm, hArm⟩ := List.exists_mem_of_ne_nil arms hArms
    have hUndefined : ¬ ∀ arm ∈ arms, (s.vars.definitionAt? arm.2 name).isSome := by
      intro hAll
      obtain ⟨d, hd⟩ := Option.isSome_iff_exists.mp (hAll arm hArm)
      exact hName (mem_armVariables_of_defined hArm hd)
    rw [hSame.current]
    simp only [hUndefined, false_or, and_iff_right hNone]

/-- One arm goes on to the merge; the other sets `y` and returns. The table is as it was at the end
of that arm. -/
def leaving : Scope where
  func := [.createBlock "entry", .createBlock "then", .createBlock "else", .createBlock "merge",
    .append ⟨0⟩ .bool (.const (.bool true)), .append ⟨0⟩ .void (.branch ⟨0⟩ ⟨1⟩ ⟨2⟩),
    .append ⟨1⟩ .void (.jump ⟨3⟩), .append ⟨2⟩ (.scalar .i32) (.const (.int 5)),
    .append ⟨2⟩ .void (.ret (some ⟨3⟩))].foldl build (.empty "leaving" (.scalar .i32))
  vars := (VarTable.define {} "x" ⟨0⟩).define "y" ⟨3⟩

/-- The arm that goes on, where only `x` is defined. -/
def leavingArms : List Arm := [(⟨1⟩, (VarTable.define {} "x" ⟨0⟩).snapshot)]

theorem leaving_defined_after_merge :
    ((leaving.mergeVersions ⟨3⟩ leavingArms).state.vars.currentVersion? "x").isSome ∧
      ((leaving.mergeVersions ⟨3⟩ leavingArms).state.vars.currentVersion? "y").isSome ∧
      ¬ ((forking.mergeVersions ⟨3⟩ forkingArms).state.vars.currentVersion? "y").isSome := by
  have hLeave : (leaving.mergeVersions ⟨3⟩ leavingArms).answer? = some [] := by decide +kernel
  have hFork : (forking.mergeVersions ⟨3⟩ forkingArms).answer? = some [("x", ⟨8⟩)] := by
    decide +kernel
  refine ⟨?_, ?_, ?_⟩
  · apply (defined_after_merge_iff leaving ⟨3⟩ leavingArms [] "x" (by decide) hLeave).mpr
    decide +kernel
  · apply (defined_after_merge_iff leaving ⟨3⟩ leavingArms [] "y" (by decide) hLeave).mpr
    decide +kernel
  · rw [defined_after_merge_iff forking ⟨3⟩ forkingArms _ "y" (by decide) hFork]
    decide +kernel

/-- The arm that comes to the merge does not define `y`, and yet it is defined there. -/
theorem leaving_keeps_unmentioned :
    leaving.func.Consistent ∧ (leaving.mergeVersions ⟨3⟩ leavingArms).answer? = some [] ∧
      leavingArms ≠ [] ∧ (∀ arm ∈ leavingArms, leaving.vars.definitionAt? arm.2 "y" = none) ∧
      (leaving.mergeVersions ⟨3⟩ leavingArms).state.vars.currentVersion? "y" = some 0 := by
  decide +kernel

end Scope

end Midend
