import Midend.Proofs.Func.Refusal
import Midend.Proofs.Variable.History
import Midend.Proofs.Variable.Merge

/-!
# Requests for variables that are refused half-way

Merging versions, opening a loop and sealing one go through a list, and give up at the first item
that is refused (`Outcome.Walks`). One item that is refused changes nothing, but the ones before it
have been dealt with, and that is not undone (`Outcome.Stops`). So the phis, pairs and versions made
for them stay.

* `merged_unchanged_iff`: settling variables changes nothing only if each of them needs no
  phi and is current already as the arms have it (`Steady`).
* `refused_half_way`: what a refused request leaves, and when that is the state it began with.
-/

namespace Midend

namespace Outcome

variable {σ α β γ : Type} {step : α → σ → Outcome σ β} {loop : List α → σ → Outcome σ γ}
  {l done : List α} {a : α} {b : β} {s mid t : σ} {e : Error}

/-! ## Going through a list -/

/-- Each step of a list is granted, one after the other. -/
inductive Grants (step : α → σ → Outcome σ β) : List α → σ → σ → Prop
  | nil (s : σ) : Grants step [] s s
  | cons {a : α} {b : β} {l : List α} {s mid t : σ} (hStep : step a s = .ok b mid)
      (hRest : Grants step l mid t) : Grants step (a :: l) s t

theorem Grants.eq_of_nil (h : Grants step [] s t) : t = s := by
  cases h
  rfl

/-- The steps of a list are granted up to one that is refused. -/
structure Stops (step : α → σ → Outcome σ β) (l done : List α) (s t : σ) (e : Error) : Prop where
  granted : Grants step done s t
  refused : ∃ bad rest, l = done ++ bad :: rest ∧ (step bad t).answer = .error e

theorem Stops.cons (hStep : step a s = .ok b mid) (h : Stops step l done mid t e) :
    Stops step (a :: l) (a :: done) s t e := by
  obtain ⟨bad, rest, rfl, hBad⟩ := h.refused
  exact ⟨.cons hStep h.granted, bad, rest, rfl, hBad⟩

/-- A request that takes a step for each item of a list and gives up when one is refused. What it
answers may be put together from the answers of the steps. -/
structure Walks (step : α → σ → Outcome σ β) (loop : List α → σ → Outcome σ γ) : Prop where
  nil : ∀ s, (loop [] s).isOk = true
  refused : ∀ {a l s e t}, step a s = .fail e t → loop (a :: l) s = .fail e t
  granted : ∀ {a l s b mid}, step a s = .ok b mid → ∃ combine : γ → γ,
    (loop (a :: l) s).answer = (loop l mid).answer.map combine ∧
      (loop (a :: l) s).state = (loop l mid).state

/-- If no step that is refused changes anything, then a request that gives up leaves what the steps
before have made. -/
theorem Walks.stops (h : Walks step loop) (hAtomic : ∀ a s, (step a s).Atomic s)
    (hFail : (loop l s).answer = .error e) : ∃ done, Stops step l done s (loop l s).state e := by
  induction l generalizing s with
  | nil =>
    have hOk := h.nil s
    rw [isOk, hFail] at hOk
    cases hOk
  | cons a l ih =>
    rcases hStep : step a s with ⟨answer, mid⟩
    cases answer with
    | error e' =>
      rw [h.refused hStep] at hFail ⊢
      cases hFail
      have hSame : mid = s := by
        have hState := hAtomic a s e
        rw [hStep] at hState
        exact hState rfl
      rw [state_fail, hSame]
      exact ⟨[], .nil s, a, l, rfl, congrArg answer hStep⟩
    | ok b =>
      obtain ⟨combine, hAnswer, hState⟩ := h.granted (l := l) hStep
      rw [hAnswer] at hFail
      rw [hState]
      cases hRest : (loop l mid).answer with
      | ok c =>
        rw [hRest] at hFail
        cases hFail
      | error e' =>
        rw [hRest] at hFail
        cases hFail
        obtain ⟨done, hStops⟩ := ih hRest
        exact ⟨a :: done, hStops.cons hStep⟩

end Outcome

theorem Func.nextValue_append_phi {f : Func} {b : BlockId} {ty : Ty} {incoming : List Incoming}
    {phi : ValueId} (h : (f.append b ty (.phi incoming)).answer = .ok phi) :
    (f.append b ty (.phi incoming)).state.ids.nextValue = f.ids.nextValue + 1 := by
  rw [(append_phi h).2]
  rfl

namespace Scope

open Func VarTable Outcome

variable {s t : Scope} {merge header preheader latch : BlockId} {arms : List Arm}
  {name x : String} {made : Option ValueId} {vars : VarTable} {e : Error}

/-! ## One item -/

theorem definePhi_atomic (s : Scope) (b : BlockId) (name : String) (like : ValueId)
    (incoming : List Incoming) : (s.definePhi b name like incoming).Atomic s := by
  unfold definePhi
  split
  · exact atomic_fail _ s
  rename_i ty _
  split
  · rename_i e f hAppend
    have hSame : f = s.func := by
      have hAtomic := append_atomic s.func b ty (.phi incoming) e
      rw [hAppend] at hAtomic
      exact hAtomic rfl
    rw [hSame]
    exact atomic_fail _ s
  · exact atomic_ok _ s _

theorem mergeVariable_atomic (merge : BlockId) (arms : List Arm) (name : String) (s : Scope) :
    (mergeVariable merge arms name s).Atomic s := by
  unfold mergeVariable
  split
  · exact atomic_ok _ s _
  · exact atomic_ok _ s _
  split
  · split
    · exact atomic_ok _ s _
    · exact atomic_ok _ s _
  rename_i d ds _ _
  have hAtomic := s.definePhi_atomic merge name d
    (arms.zipWith (fun arm v => ⟨arm.1, v⟩) (d :: ds))
  split
  · rename_i e t hDefine
    rw [hDefine] at hAtomic
    rw [show t = s from hAtomic e rfl]
    exact atomic_fail _ s
  · exact atomic_ok _ s _

/-- Makes the phi of one variable of a loop. -/
def openPhi (header preheader : BlockId) (d : String × ValueId) (s : Scope) :
    Outcome Scope ValueId :=
  s.definePhi header d.1 d.2 [⟨preheader, d.2⟩]

/-- Completes the phi of one variable of a loop. -/
def completePhi (latch : BlockId) (p : String × ValueId) (s : Scope) : Outcome Scope Unit :=
  (s.func.addIncoming p.2 latch ((s.vars.currentDefinition? p.1).getD p.2)).mapState
    fun f => { s with func := f }

theorem completePhi_atomic (latch : BlockId) (p : String × ValueId) (s : Scope) :
    (completePhi latch p s).Atomic s := by
  intro e h
  exact congrArg (fun f => { s with func := f }) (addIncoming_atomic s.func _ _ _ e h)

/-! ## The lists -/

theorem mergeVariables_walks (merge : BlockId) (arms : List Arm) :
    Walks (mergeVariable merge arms) (mergeVariables merge arms) where
  nil s := rfl
  refused h := by rw [mergeVariables, h]; rfl
  granted {name names s made mid} h := by
    refine ⟨(made.toList.map (name, ·) ++ ·), ?_⟩
    rw [mergeVariables, h]
    dsimp only [Outcome.ok]
    rcases mergeVariables merge arms names mid with ⟨⟨⟩ | ⟨⟩, last⟩ <;> exact ⟨rfl, rfl⟩

theorem openPhis_walks (header preheader : BlockId) :
    Walks (openPhi header preheader) (openPhis header preheader) where
  nil s := rfl
  refused h := by
    rw [openPhi] at h
    rw [openPhis, h]
    rfl
  granted {d rest s phi mid} h := by
    rw [openPhi] at h
    refine ⟨((d.1, phi) :: ·), ?_⟩
    rw [openPhis, h]
    dsimp only [Outcome.ok]
    rcases openPhis header preheader rest mid with ⟨⟨⟩ | ⟨⟩, last⟩ <;> exact ⟨rfl, rfl⟩

theorem completePhis_cons (latch : BlockId) (p : String × ValueId) (rest : List (String × ValueId))
    (s : Scope) : completePhis latch (p :: rest) s =
      (completePhi latch p s).andThen fun _ t => completePhis latch rest t := by
  rw [completePhis, completePhi]
  rcases s.func.addIncoming p.2 latch ((s.vars.currentDefinition? p.1).getD p.2) with ⟨⟨⟩ | ⟨⟩, f⟩ <;>
    rfl

theorem completePhis_walks (latch : BlockId) :
    Walks (completePhi latch) (completePhis latch) where
  nil s := rfl
  refused h := by
    rw [completePhis_cons, h]
    rfl
  granted h := by
    rw [completePhis_cons, h]
    exact ⟨id, (congrFun Except.map_id _).symm, rfl⟩

/-! ## When nothing has been done

A phi takes a name, and a phi that is completed has one more pair, which nothing takes back. A
variable that needs no phi only becomes current, and may have been so before.
-/

/-- The version that a merge makes current of a variable that needs no phi: that of the first arm,
if the variable is defined on all of them. -/
def agreedVersion? (vars : VarTable) (arms : List Arm) (name : String) : Option Nat :=
  if ∀ arm ∈ arms, (vars.definitionAt? arm.2 name).isSome then
    arms.head?.bind (·.2.get? name)
  else none

/-- The variable is current as a merge makes it, and needs no phi. -/
def Steady (vars : VarTable) (arms : List Arm) (name : String) : Prop :=
  ¬ NeedsPhi vars arms name ∧ vars.currentVersion? name = agreedVersion? vars arms name

theorem agreedVersion?_of_missing (h : ∃ arm ∈ arms, vars.definitionAt? arm.2 name = none) :
    agreedVersion? vars arms name = none :=
  if_neg (not_forall_defined_of_missing h)

/-- A definition that all arms share is made current under the version of the first. -/
theorem mergeVariable_of_shared {d : ValueId} (merge : BlockId) (hArms : arms ≠ [])
    (h : ∀ arm ∈ arms, s.vars.definitionAt? arm.2 name = some d) :
    ∃ version, agreedVersion? s.vars arms name = some version ∧
      mergeVariable merge arms name s =
        .ok none { s with vars := s.vars.setCurrent name version } := by
  obtain ⟨first, rest, rfl⟩ := List.exists_cons_of_ne_nil hArms
  obtain ⟨version, hGet, -⟩ := Option.bind_eq_some_iff.mp (h first List.mem_cons_self)
  have hAll : ∀ arm ∈ first :: rest, (s.vars.definitionAt? arm.2 name).isSome :=
    fun arm hArm => Option.isSome_of_eq_some (h arm hArm)
  have hDefined : ((first :: rest).mapM fun arm => s.vars.definitionAt? arm.2 name) =
      some (d :: rest.map fun _ => d) :=
    mapM_eq_some_iff.mpr (List.forall₂_map_right_iff (l := first :: rest) (f := fun _ => d)
      |>.mpr (List.forall₂_same.mpr h))
  refine ⟨version, (if_pos hAll).trans hGet, ?_⟩
  rw [mergeVariable, hDefined]
  simp [hGet]

/-- What settling one variable comes to. -/
theorem mergeVariable_cases (hArms : arms ≠ []) (h : mergeVariable merge arms name s = .ok made t) :
    NeedsPhi s.vars arms name ∧ s.func.ids.nextValue < t.func.ids.nextValue ∨
      ¬ NeedsPhi s.vars arms name ∧ t.func = s.func ∧ t.vars.history = s.vars.history ∧
        t.vars.currentVersion? name = agreedVersion? s.vars arms name := by
  have hSettles := settles_of_mergeVariable hArms h
  cases hSettles with
  | missing hMissing =>
    refine .inr ⟨fun hNeeds => not_forall_defined_of_missing hMissing hNeeds.1, rfl, rfl, ?_⟩
    rw [currentVersion?_forget, if_pos rfl, agreedVersion?_of_missing hMissing]
  | shared hShared =>
    obtain ⟨version, hAgreed, hEq⟩ := mergeVariable_of_shared merge hArms hShared
    refine .inr ⟨not_needsPhi_of_shared hShared, rfl, rfl, ?_⟩
    rw [hAgreed, ← currentVersion?_setCurrent_self s.vars name version]
    exact congrArg (fun o => o.state.vars.currentVersion? name) (h.symm.trans hEq)
  | differing hNeeds _ _ _ _ hPhi =>
    refine .inl ⟨hNeeds, ?_⟩
    rw [nextValue_append_phi hPhi]
    exact Nat.lt_succ_self _

theorem mergeVariable_of_steady (hArms : arms ≠ []) (hSteady : Steady s.vars arms name)
    (h : mergeVariable merge arms name s = .ok made t) : t = s := by
  rcases mergeVariable_cases hArms h with ⟨hNeeds, -⟩ | ⟨-, hFunc, hHistory, hCurrent⟩
  · exact absurd hNeeds hSteady.1
  have hSame : t.vars.current = s.vars.current := by
    ext1 x
    by_cases hx : x = name
    · subst hx
      exact hCurrent.trans hSteady.2.symm
    · exact ((settles_of_mergeVariable hArms h).sameAt hx).current
  obtain ⟨func, history, current⟩ := s
  obtain ⟨func', history', current'⟩ := t
  cases hFunc
  cases hHistory
  cases hSame
  rfl

section Merge

variable {done : List String} (hArms : arms ≠ [])
  (h : Grants (mergeVariable merge arms) done s t)
include hArms h

theorem nextValue_le_of_merged : s.func.ids.nextValue ≤ t.func.ids.nextValue := by
  induction h with
  | nil => exact Nat.le_refl _
  | cons hStep _ ih =>
    refine Nat.le_trans ?_ ih
    rcases mergeVariable_cases hArms hStep with ⟨-, hLt⟩ | ⟨-, hFunc, -⟩
    · exact Nat.le_of_lt hLt
    · rw [hFunc]

theorem sameAt_of_merged (hx : x ∉ done) : SameAt s.vars t.vars x := by
  induction h with
  | nil => exact .refl _ x
  | cons hStep _ ih =>
    rw [List.mem_cons, not_or] at hx
    exact ((settles_of_mergeVariable hArms hStep).sameAt hx.1).trans (ih hx.2)

/-- What settling a variable has changed is not changed back by the ones after it. -/
theorem merged_unchanged_iff (hNodup : done.Nodup) :
    t = s ↔ ∀ name ∈ done, Steady s.vars arms name := by
  induction h with
  | nil => simp
  | @cons name made names s mid t hStep hRest ih =>
    obtain ⟨hNot, hNodup⟩ := List.nodup_cons.mp hNodup
    have hSteady : t = s → Steady s.vars arms name := by
      rintro rfl
      have hLe := nextValue_le_of_merged hArms hRest
      rcases mergeVariable_cases hArms hStep with ⟨-, hLt⟩ | ⟨hNeeds, -, -, hCurrent⟩
      · exact absurd hLt (Nat.not_lt.mpr hLe)
      · exact ⟨hNeeds, (sameAt_of_merged hArms hRest hNot).current.trans hCurrent⟩
    rw [List.forall_mem_cons]
    constructor
    · intro hSame
      have hMid := mergeVariable_of_steady hArms (hSteady hSame) hStep
      rw [hMid] at ih
      exact ⟨hSteady hSame, (ih hNodup).mp hSame⟩
    · rintro ⟨hFirst, hOthers⟩
      rw [mergeVariable_of_steady hArms hFirst hStep] at ih
      exact (ih hNodup).mpr hOthers

end Merge

section Loop

variable {done : List (String × ValueId)}

theorem nextValue_of_opened (h : Grants (openPhi header preheader) done s t) :
    t.func.ids.nextValue = s.func.ids.nextValue + done.length := by
  induction h with
  | nil => rfl
  | cons hStep _ ih =>
    obtain ⟨ty, -, hPhi, rfl⟩ := definePhi_eq_ok hStep
    rw [ih, nextValue_append_phi hPhi, List.length_cons]
    omega

theorem opened_unchanged_iff (h : Grants (openPhi header preheader) done s t) :
    t = s ↔ done = [] := by
  constructor
  · rintro rfl
    have hLength := nextValue_of_opened h
    exact List.length_eq_zero_iff.mp (by omega)
  · rintro rfl
    exact h.eq_of_nil

/-- Every instruction is still there, and has not lost an operand; the phi has one more. -/
theorem completePhi_grows {p : String × ValueId} (hs : s.func.Consistent)
    (h : completePhi latch p s = .ok () t) :
    t.func.Consistent ∧ (∃ x, ∃ i ∈ s.func.code x, i.id = p.2) ∧
      ∀ x, ∀ i ∈ s.func.code x, ∃ j ∈ t.func.code x, j.id = i.id ∧
        i.op.operands.length ≤ j.op.operands.length ∧
        (i.id = p.2 → i.op.operands.length < j.op.operands.length) := by
  have hOk : (s.func.addIncoming p.2 latch ((s.vars.currentDefinition? p.1).getD p.2)).isOk =
      true := by
    have hAnswer := congrArg Outcome.isOk h
    exact hAnswer
  obtain rfl : _ = t := congrArg Outcome.state h
  have hDone := hs.completed hOk
  obtain ⟨-, x, ⟨i, hi, hId, -⟩, -⟩ := addIncoming_of_isOk hOk
  refine ⟨hs.addIncoming _ _ _, ⟨x, i, hi, hId⟩, ?_⟩
  intro x i hi
  by_cases hId : i.id = p.2
  · refine ⟨_, hDone.mem_code_phi hi hId, Inst.id_addIncoming, ?_⟩
    rw [Inst.operands_addIncoming (hDone.isPhi x i hi hId), List.length_append]
    simp
  · exact ⟨i, hDone.mem_code_of_ne hi hId, rfl, Nat.le_refl _, fun h => absurd h hId⟩

theorem operands_of_completed (hs : s.func.Consistent) (h : Grants (completePhi latch) done s t) :
    ∀ x, ∀ i ∈ s.func.code x, ∃ j ∈ t.func.code x, j.id = i.id ∧
      i.op.operands.length ≤ j.op.operands.length := by
  induction h with
  | nil => exact fun x i hi => ⟨i, hi, rfl, Nat.le_refl _⟩
  | cons hStep _ ih =>
    intro x i hi
    obtain ⟨hMid, -, hGrows⟩ := completePhi_grows hs hStep
    obtain ⟨j, hj, hId, hLe, -⟩ := hGrows x i hi
    obtain ⟨k, hk, hId', hLe'⟩ := ih hMid x j hj
    exact ⟨k, hk, hId'.trans hId, Nat.le_trans hLe hLe'⟩

theorem completed_unchanged_iff (hs : s.func.Consistent)
    (h : Grants (completePhi latch) done s t) : t = s ↔ done = [] := by
  constructor
  · rintro rfl
    cases h with
    | nil => rfl
    | cons hStep hRest =>
      -- the first phi has more operands now than it had, in one and the same function
      obtain ⟨hMid, ⟨x, i, hi, hPhi⟩, hGrows⟩ := completePhi_grows hs hStep
      obtain ⟨j, hj, hId, -, hLt⟩ := hGrows x i hi
      obtain ⟨k, hk, hId', hLe⟩ := operands_of_completed hMid hRest x j hj
      rw [(hs.numbered.eq_of_id_eq hk hi (hId'.trans hId)).2] at hLe
      exact absurd (hLt hPhi) (Nat.not_lt.mpr hLe)
  · rintro rfl
    exact h.eq_of_nil

end Loop

/-! ## The requests -/

theorem mergeVersions_stops (h : (s.mergeVersions merge arms).answer = .error e) :
    (s.func.hasBlock merge = true ∧ ∀ arm ∈ arms, s.func.hasPred merge arm.1 = true) ∧
        (∃ done, Stops (mergeVariable merge arms) (armVariables arms) done s
          (s.mergeVersions merge arms).state e) ∨
      ¬ (s.func.hasBlock merge = true ∧ ∀ arm ∈ arms, s.func.hasPred merge arm.1 = true) ∧
        (s.mergeVersions merge arms).state = s := by
  unfold mergeVersions at h ⊢
  split
  · rename_i hBlock
    refine .inr ⟨fun hBoth => ?_, rfl⟩
    rw [hBoth.1] at hBlock
    cases hBlock
  rename_i hBlock
  rw [if_neg hBlock] at h
  split
  · rename_i arm hArm
    refine .inr ⟨fun hBoth => ?_, rfl⟩
    have hNot := List.find?_some hArm
    rw [hBoth.2 arm (List.mem_of_find?_eq_some hArm)] at hNot
    cases hNot
  · rename_i hPreds
    rw [hPreds] at h
    refine .inl ⟨⟨by simpa using hBlock, by simpa using hPreds⟩, ?_⟩
    exact (mergeVariables_walks merge arms).stops (mergeVariable_atomic merge arms) h

theorem arms_ne_nil_of_stops {done : List String}
    (h : Stops (mergeVariable merge arms) (armVariables arms) done s t e) : arms ≠ [] := by
  rintro rfl
  obtain ⟨bad, rest, hEq, -⟩ := h.refused
  exact List.append_ne_nil_of_right_ne_nil done (List.cons_ne_nil bad rest) hEq.symm

theorem mergeVersions_unchanged_iff {done : List String}
    (h : Stops (mergeVariable merge arms) (armVariables arms) done s t e) :
    t = s ↔ ∀ name ∈ done, Steady s.vars arms name := by
  apply merged_unchanged_iff (arms_ne_nil_of_stops h) h.granted
  obtain ⟨bad, rest, hEq, -⟩ := h.refused
  have hNodup : (armVariables arms).Nodup := SortedSet.nodup_toList _
  rw [hEq] at hNodup
  exact hNodup.of_append_left

theorem openLoop_stops (h : (s.openLoop header preheader).answer = .error e) :
    ∃ done, Stops (openPhi header preheader) s.defined done s
      (s.openLoop header preheader).state e := by
  have hWalk := (openPhis_walks header preheader).stops (l := s.defined) (s := s) (e := e)
    fun d s => s.definePhi_atomic header d.1 d.2 _
  unfold openLoop at h ⊢
  dsimp only at h ⊢
  split at h
  · rename_i e' t hEq
    cases h
    have hState : (openPhis header preheader s.defined s).state = t := congrArg Outcome.state hEq
    rw [hState] at hWalk
    exact hWalk (congrArg Outcome.answer hEq)
  · cases h

theorem sealLoop_stops {l : LoopPhis} (h : (s.sealLoop l latch).answer = .error e) :
    (∃ done, Stops (completePhi latch) l.phis done s (s.sealLoop l latch).state e) ∧
      (s.sealLoop l latch).state.vars = s.vars := by
  have hWalk := (completePhis_walks latch).stops (l := l.phis) (s := s) (e := e)
    (completePhi_atomic latch)
  have hVars := vars_completePhis latch l.phis s
  unfold sealLoop at h ⊢
  split at h
  · rename_i e' t hEq
    cases h
    rw [hEq] at hWalk hVars
    exact ⟨hWalk rfl, hVars⟩
  · cases h

/-- **Requests for variables are refused half-way.** One that is refused at an item of its list leaves
what the items before it have made, and nothing else. So the function and the table are as they were
exactly if there were no such items; at a merge, also if those variables were already current as the
arms have them. Only a merge that is refused before the first variable changes nothing in any
case. -/
theorem refused_half_way (s : Scope) (hs : s.func.Consistent)
    (merge header preheader latch : BlockId) (arms : List Arm) (l : LoopPhis) (e : Error) :
    ((s.mergeVersions merge arms).answer = .error e →
      (s.func.hasBlock merge = true ∧ ∀ arm ∈ arms, s.func.hasPred merge arm.1 = true) ∧
          (∃ done, Stops (mergeVariable merge arms) (armVariables arms) done s
              (s.mergeVersions merge arms).state e ∧
            ((s.mergeVersions merge arms).state = s ↔
              ∀ name ∈ done, Steady s.vars arms name)) ∨
        ¬ (s.func.hasBlock merge = true ∧ ∀ arm ∈ arms, s.func.hasPred merge arm.1 = true) ∧
          (s.mergeVersions merge arms).state = s) ∧
    ((s.openLoop header preheader).answer = .error e →
      ∃ done, Stops (openPhi header preheader) s.defined done s
          (s.openLoop header preheader).state e ∧
        ((s.openLoop header preheader).state = s ↔ done = [])) ∧
    ((s.sealLoop l latch).answer = .error e →
      (s.sealLoop l latch).state.vars = s.vars ∧
        ∃ done, Stops (completePhi latch) l.phis done s (s.sealLoop l latch).state e ∧
          ((s.sealLoop l latch).state = s ↔ done = [])) := by
  refine ⟨fun h => ?_, fun h => ?_, fun h => ?_⟩
  · rcases mergeVersions_stops h with ⟨hMeet, done, hStops⟩ | hAtOnce
    · exact .inl ⟨hMeet, done, hStops, mergeVersions_unchanged_iff hStops⟩
    · exact .inr hAtOnce
  · obtain ⟨done, hStops⟩ := openLoop_stops h
    exact ⟨done, hStops, opened_unchanged_iff hStops.granted⟩
  · obtain ⟨⟨done, hStops⟩, hVars⟩ := sealLoop_stops h
    exact ⟨hVars, done, hStops, completed_unchanged_iff hs hStops.granted⟩

/-- Two arms that set `x` and `y` go to a block. The versions are those of the first arm. -/
def dividingThen : Scope where
  func := [.createBlock "entry", .createBlock "then", .createBlock "else", .createBlock "merge",
    .append ⟨0⟩ .bool (.const (.bool true)), .append ⟨0⟩ .void (.branch ⟨0⟩ ⟨1⟩ ⟨2⟩),
    .append ⟨1⟩ (.scalar .i32) (.const (.int 1)), .append ⟨1⟩ (.scalar .i32) (.const (.int 2)),
    .append ⟨1⟩ .void (.jump ⟨3⟩), .append ⟨2⟩ (.scalar .i32) (.const (.int 3)),
    .append ⟨2⟩ (.scalar .i32) (.const (.int 4)), .append ⟨2⟩ .void (.jump ⟨3⟩)].foldl build
      (.empty "dividing" (.scalar .i32))
  vars := (VarTable.define {} "x" ⟨2⟩).define "y" ⟨3⟩

/-- The phis of a loop that is opened from the first arm. -/
def dividingPhis : LoopPhis := ⟨⟨3⟩, [("x", ⟨8⟩), ("y", ⟨9⟩)]⟩

/-- Then the definitions of `y` are removed. The versions are those of the second arm. -/
def dividing : Scope where
  func := (((dividingThen.openLoop ⟨3⟩ ⟨1⟩).state.func.removeValue ⟨3⟩).2.removeValue ⟨6⟩).2
  vars := (((dividingThen.openLoop ⟨3⟩ ⟨1⟩).state.vars.restore {}).define "x" ⟨5⟩).define "y" ⟨6⟩

/-- The two arms. -/
def dividingArms : List Arm := [(⟨1⟩, dividingThen.vars.snapshot), (⟨2⟩, dividing.vars.snapshot)]

theorem dividing_refused_half_way :
    (dividingThen.openLoop ⟨3⟩ ⟨1⟩).answer? = some dividingPhis ∧ dividing.func.Consistent ∧
    (∃ done, Stops (mergeVariable ⟨3⟩ dividingArms) (armVariables dividingArms) done dividing
        (dividing.mergeVersions ⟨3⟩ dividingArms).state (.unknownValue ⟨3⟩) ∧
      ¬ ∀ name ∈ done, Steady dividing.vars dividingArms name) ∧
    (∃ done, Stops (openPhi ⟨3⟩ ⟨2⟩) dividing.defined done dividing
        (dividing.openLoop ⟨3⟩ ⟨2⟩).state (.unknownValue ⟨6⟩) ∧ done ≠ []) ∧
    ∃ done, Stops (completePhi ⟨2⟩) dividingPhis.phis done dividing
        (dividing.sealLoop dividingPhis ⟨2⟩).state (.unknownValue ⟨6⟩) ∧ done ≠ [] := by
  have hs : dividing.func.Consistent := by decide +kernel
  have hMerge := (refused_half_way dividing hs ⟨3⟩ ⟨3⟩ ⟨2⟩ ⟨2⟩ dividingArms dividingPhis
    (.unknownValue ⟨3⟩)).1 (by decide +kernel)
  have hLoop := (refused_half_way dividing hs ⟨3⟩ ⟨3⟩ ⟨2⟩ ⟨2⟩ dividingArms dividingPhis
    (.unknownValue ⟨6⟩)).2
  refine ⟨by decide +kernel, hs, ?_, ?_, ?_⟩
  · rcases hMerge with ⟨-, done, hStops, hIff⟩ | ⟨-, hSame⟩
    · exact ⟨done, hStops, (not_congr hIff).mp (by decide +kernel)⟩
    · exact absurd hSame (by decide +kernel)
  · obtain ⟨done, hStops, hIff⟩ := hLoop.1 (by decide +kernel)
    exact ⟨done, hStops, (not_congr hIff).mp (by decide +kernel)⟩
  · obtain ⟨-, done, hStops, hIff⟩ := hLoop.2 (by decide +kernel)
    exact ⟨done, hStops, (not_congr hIff).mp (by decide +kernel)⟩

/-- A merge, a loop that is opened and a loop that is sealed are refused, and each of them has
changed the function. -/
theorem dividing_keeps_half :
    dividing.func.Consistent ∧
    (dividing.mergeVersions ⟨3⟩ dividingArms).answer = .error (.unknownValue ⟨3⟩) ∧
    (dividing.mergeVersions ⟨3⟩ dividingArms).state.vars.currentDefinition? "x" = some ⟨10⟩ ∧
    (dividing.mergeVersions ⟨3⟩ dividingArms).state ≠ dividing ∧
    (dividing.openLoop ⟨3⟩ ⟨2⟩).answer = .error (.unknownValue ⟨6⟩) ∧
    (dividing.openLoop ⟨3⟩ ⟨2⟩).state ≠ dividing ∧
    (dividing.sealLoop dividingPhis ⟨2⟩).answer = .error (.unknownValue ⟨6⟩) ∧
    (dividing.sealLoop dividingPhis ⟨2⟩).state ≠ dividing := by
  decide +kernel

end Scope

end Midend
