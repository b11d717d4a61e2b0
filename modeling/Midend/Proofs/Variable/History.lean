import Midend.Variable.Loop

/-!
# Histories of a table of versions

A table of versions is asked for one thing after the other: new versions, snapshots, the return to
a snapshot, and the helpers that settle all variables where arms come together and around a loop. The
helpers work on whatever function they are given, may be refused half-way and keep what they have done.

Current versions move back and forth; the versions themselves only grow in number. `Advances` says
so of two tables, and that the second one has its current versions if the first has. It is proved once
for every change of a table, carried through the helpers along their recursion, and from there to
whole histories (`Ledger.Sound.perform`, `Ledger.sound_run`).

* `Ledger.definitions_last`: the definition of a version stays, so a snapshot keeps its meaning.
-/

namespace Midend

namespace VarTable

variable {t t' t'' : VarTable} {s : Snapshot} {name : String} {i : Nat} {d : ValueId}

/-! ## Tables that advance -/

/-- The table has the versions that the snapshot names. -/
def Knows (t : VarTable) (s : Snapshot) : Prop :=
  ∀ name i, s.get? name = some i → i < t.versionCount name

/-- The second table has the versions of the first and maybe later ones, and it has those that are
current in it if the first has those that are current there. -/
structure Advances (t t' : VarTable) : Prop where
  versions : ∀ name, t.versions name <+: t'.versions name
  current : t.Knows t.current → t'.Knows t'.current

theorem Advances.refl (t : VarTable) : Advances t t where
  versions _ := List.prefix_rfl
  current := id

theorem Advances.trans (h : Advances t t') (h' : Advances t' t'') : Advances t t'' where
  versions name := (h.versions name).trans (h'.versions name)
  current hKnows := h'.current (h.current hKnows)

theorem Advances.foldl {α : Type} {step : VarTable → α → VarTable}
    (hStep : ∀ t a, Advances t (step t a)) (l : List α) : Advances t (l.foldl step t) := by
  induction l generalizing t with
  | nil => exact .refl t
  | cons a l ih => exact (hStep t a).trans ih

theorem Advances.knows (h : Advances t t') (hs : t.Knows s) : t'.Knows s := by
  intro name i hGet
  have hLt : i < (t.versions name).length := hs name i hGet
  have hLe := (h.versions name).length_le
  show i < (t'.versions name).length
  omega

theorem Advances.definition?_eq (h : Advances t t') (hi : i < t.versionCount name) :
    t'.definition? name i = t.definition? name i := by
  obtain ⟨later, hEq⟩ := h.versions name
  unfold definition?
  rw [← hEq, List.getElem?_append_left hi]

theorem Advances.definition?_of_eq_some (h : Advances t t') (hd : t.definition? name i = some d) :
    t'.definition? name i = some d := by
  rw [h.definition?_eq (List.getElem?_eq_some_iff.mp hd).1, hd]

/-- A snapshot means the same later on. -/
theorem Advances.definitionAt?_eq (h : Advances t t') (hs : t.Knows s) (name : String) :
    t'.definitionAt? s name = t.definitionAt? s name := by
  unfold definitionAt?
  cases hGet : s.get? name with
  | none => rfl
  | some i => exact h.definition?_eq (hs name i hGet)

/-! ## Changes of a table -/

theorem advances_restore (hs : t.Knows s) : Advances t (t.restore s) where
  versions _ := List.prefix_rfl
  current _ := hs

theorem advances_setCurrent (hi : i < t.versionCount name) : Advances t (t.setCurrent name i) where
  versions _ := List.prefix_rfl
  current hKnows := by
    intro x j hGet
    by_cases hEq : x = name
    · subst hEq
      have hNew := (currentVersion?_setCurrent_self t x i).symm.trans hGet
      cases hNew
      exact hi
    · exact hKnows x j ((currentVersion?_setCurrent_of_ne t i hEq).symm.trans hGet)

theorem advances_forget (t : VarTable) (name : String) : Advances t (t.forget name) where
  versions _ := List.prefix_rfl
  current hKnows := by
    intro x j hGet
    have hForget : (if x = name then none else t.currentVersion? x) = some j :=
      (currentVersion?_forget t name x).symm.trans hGet
    split at hForget
    · cases hForget
    · exact hKnows x j hForget

theorem versionCount_define_self (t : VarTable) (name : String) (value : ValueId) :
    (t.define name value).versionCount name = t.versionCount name + 1 := by
  unfold versionCount
  rw [versions_define, if_pos rfl, List.length_append, List.length_singleton]

theorem advances_define (t : VarTable) (name : String) (value : ValueId) :
    Advances t (t.define name value) where
  versions x := by
    rw [versions_define]
    split
    · rename_i hEq
      subst hEq
      exact List.prefix_append ..
    · exact List.prefix_rfl
  current hKnows := by
    intro x j hGet
    by_cases hEq : x = name
    · subst hEq
      have hNew := (currentVersion?_define_self t x value).symm.trans hGet
      cases hNew
      rw [versionCount_define_self]
      omega
    · have hOld : j < t.versionCount x :=
        hKnows x j ((currentVersion?_define_of_ne t value hEq).symm.trans hGet)
      show j < ((t.define name value).versions x).length
      rw [versions_define, if_neg hEq]
      exact hOld

theorem advances_redirect (t : VarTable) (old new : ValueId) : Advances t (t.redirect old new) :=
  Advances.foldl (fun t name => advances_define t name new) _

end VarTable

namespace Scope

open VarTable

variable {s : Scope} {arms : List Arm} {b : BlockId}

/-! ## Helpers -/

theorem definePhi_advances (s : Scope) (b : BlockId) (name : String) (like : ValueId)
    (incoming : List Incoming) : Advances s.vars (s.definePhi b name like incoming).state.vars := by
  unfold definePhi
  split
  · exact .refl _
  split
  · exact .refl _
  · exact advances_define _ _ _

theorem mergeVariable_advances (hArms : ∀ arm ∈ arms, s.vars.Knows arm.2) (name : String) :
    Advances s.vars (mergeVariable b arms name s).state.vars := by
  unfold mergeVariable
  split
  · exact advances_forget _ _
  · exact .refl _
  split
  · split
    · exact .refl _
    · rename_i version hFirst
      -- the version comes from the first arm, and the table has it
      obtain ⟨arm, hHead, hGet⟩ := Option.bind_eq_some_iff.mp hFirst
      exact advances_setCurrent (hArms arm (List.mem_of_head? hHead) name version hGet)
  · rename_i d ds _ _
    generalize arms.zipWith (fun arm v => (⟨arm.1, v⟩ : Incoming)) (d :: ds) = incoming
    have hPhi := s.definePhi_advances b name d incoming
    rcases hEq : s.definePhi b name d incoming with ⟨answer, last⟩
    rw [hEq] at hPhi
    cases answer <;> exact hPhi

theorem mergeVariables_advances (hArms : ∀ arm ∈ arms, s.vars.Knows arm.2) (names : List String) :
    Advances s.vars (mergeVariables b arms names s).state.vars := by
  induction names generalizing s with
  | nil => exact .refl _
  | cons name names ih =>
    have hFirst := mergeVariable_advances (b := b) hArms name
    rw [mergeVariables]
    rcases hEq : mergeVariable b arms name s with ⟨answer, mid⟩
    rw [hEq] at hFirst
    cases answer with
    | error e => exact hFirst
    | ok made =>
      have hRest := ih (s := mid) fun arm hArm => hFirst.knows (hArms arm hArm)
      dsimp only
      rcases hEq' : mergeVariables b arms names mid with ⟨answer, last⟩
      rw [hEq'] at hRest
      cases answer <;> exact hFirst.trans hRest

theorem mergeVersions_advances (hArms : ∀ arm ∈ arms, s.vars.Knows arm.2) :
    Advances s.vars (s.mergeVersions b arms).state.vars := by
  unfold mergeVersions
  split
  · exact .refl _
  split
  · exact .refl _
  · exact mergeVariables_advances hArms _

theorem openPhis_advances (header preheader : BlockId) (defined : List (String × ValueId))
    (s : Scope) : Advances s.vars (openPhis header preheader defined s).state.vars := by
  induction defined generalizing s with
  | nil => exact .refl _
  | cons d rest ih =>
    have hFirst := s.definePhi_advances header d.1 d.2 [⟨preheader, d.2⟩]
    rw [openPhis]
    rcases hEq : s.definePhi header d.1 d.2 [⟨preheader, d.2⟩] with ⟨answer, mid⟩
    rw [hEq] at hFirst
    cases answer with
    | error e => exact hFirst
    | ok phi =>
      have hRest := ih mid
      dsimp only
      rcases hEq' : openPhis header preheader rest mid with ⟨answer, last⟩
      rw [hEq'] at hRest
      cases answer <;> exact hFirst.trans hRest

theorem openLoop_advances (s : Scope) (header preheader : BlockId) :
    Advances s.vars (s.openLoop header preheader).state.vars := by
  unfold openLoop
  dsimp only
  generalize s.vars.current.keys.filterMap _ = defined
  have hOpen := openPhis_advances header preheader defined s
  rcases hEq : openPhis header preheader defined s with ⟨answer, last⟩
  rw [hEq] at hOpen
  cases answer <;> exact hOpen

/-- Completing phis does not touch the table. -/
theorem vars_completePhis (latch : BlockId) (rest : List (String × ValueId)) (s : Scope) :
    (completePhis latch rest s).state.vars = s.vars := by
  induction rest generalizing s with
  | nil => rfl
  | cons p rest ih =>
    rw [completePhis]
    split
    · rfl
    · exact ih _

theorem dropTrivial_advances (fuel : Nat) (live : List ValueId)
    (forwarded : SortedMap ValueId ValueId) (s : Scope) :
    Advances s.vars (dropTrivial fuel live forwarded s).2.vars := by
  induction fuel generalizing live forwarded s with
  | zero => exact .refl _
  | succ fuel ih =>
    rw [dropTrivial]
    split
    · exact .refl _
    · rename_i phi value _
      exact (advances_redirect s.vars phi value).trans (ih _ _ (s.forward phi value))

theorem sealLoop_advances (s : Scope) (l : LoopPhis) (latch : BlockId) :
    Advances s.vars (s.sealLoop l latch).state.vars := by
  have hDone := vars_completePhis latch l.phis s
  unfold sealLoop
  rcases hEq : completePhis latch l.phis s with ⟨answer, mid⟩
  rw [hEq] at hDone
  rw [← hDone]
  cases answer with
  | error e => exact .refl _
  | ok done =>
    have hDrop := dropTrivial_advances l.phis.length (l.phis.map (·.2)) ∅ mid
    exact hDrop.trans (Advances.foldl (fun t p => advances_define t p.1 _) l.phis)

end Scope

/-! ## Histories -/

/-- A request to a table of versions. Snapshots are named by the order in which they were taken. The
function at a merge or a loop is whatever it is by then. -/
inductive VarRequest where
  | define (name : String) (value : ValueId)
  | snapshot
  | restore (nth : Nat)
  | mergeVersions (f : Func) (merge : BlockId) (arms : List (BlockId × Nat))
  | openLoop (f : Func) (header preheader : BlockId)
  | sealLoop (f : Func) (phis : LoopPhis) (latch : BlockId)

/-- A table of versions and the snapshots that have been taken of it, the first one first. -/
structure Ledger where
  /-- The table. -/
  vars : VarTable := {}
  /-- The snapshots in order. -/
  taken : List Snapshot := []

namespace Ledger

/-- The arms that are meant, if their snapshots have been taken. -/
def arms? (l : Ledger) (arms : List (BlockId × Nat)) : Option (List Arm) :=
  arms.mapM fun arm => (l.taken[arm.2]?).map (arm.1, ·)

/-- The table and its snapshots after a request, granted or refused. A snapshot that has not been
taken cannot be used. -/
def perform (l : Ledger) : VarRequest → Ledger
  | .define name value => { l with vars := l.vars.define name value }
  | .snapshot => { l with taken := l.taken ++ [l.vars.snapshot] }
  | .restore nth => { l with vars := (l.taken[nth]?).elim l.vars l.vars.restore }
  | .mergeVersions f merge arms =>
    { l with vars := (l.arms? arms).elim l.vars fun arms =>
        ((⟨f, l.vars⟩ : Scope).mergeVersions merge arms).state.vars }
  | .openLoop f header preheader =>
    { l with vars := ((⟨f, l.vars⟩ : Scope).openLoop header preheader).state.vars }
  | .sealLoop f phis latch =>
    { l with vars := ((⟨f, l.vars⟩ : Scope).sealLoop phis latch).state.vars }

/-- The table and its snapshots after requests to a new table. -/
def run (rs : List VarRequest) : Ledger := rs.foldl perform {}

variable {l : Ledger}

/-- The table has its current versions and those of the snapshots taken of it. -/
structure Sound (l : Ledger) : Prop where
  current : l.vars.Knows l.vars.current
  taken : ∀ s ∈ l.taken, l.vars.Knows s

theorem mem_taken_of_arms? {arms : List (BlockId × Nat)} {meant : List Arm}
    (h : l.arms? arms = some meant) : ∀ arm ∈ meant, arm.2 ∈ l.taken := by
  induction arms generalizing meant with
  | nil =>
    cases h
    exact fun arm hArm => absurd hArm List.not_mem_nil
  | cons named arms ih =>
    rw [arms?, List.mapM_cons] at h
    obtain ⟨first, hFirst, h⟩ := Option.bind_eq_some_iff.mp h
    obtain ⟨rest, hRest, h⟩ := Option.bind_eq_some_iff.mp h
    cases h
    obtain ⟨s, hs, rfl⟩ := Option.map_eq_some_iff.mp hFirst
    exact List.forall_mem_cons.mpr ⟨List.mem_of_getElem? hs, ih hRest⟩

theorem Sound.advances_perform (h : l.Sound) (r : VarRequest) :
    VarTable.Advances l.vars (l.perform r).vars := by
  cases r with
  | define name value => exact VarTable.advances_define _ _ _
  | snapshot => exact .refl _
  | restore nth =>
    rw [Ledger.perform]
    cases hTaken : l.taken[nth]? with
    | none => exact .refl _
    | some s => exact VarTable.advances_restore (h.taken s (List.mem_of_getElem? hTaken))
  | mergeVersions f merge arms =>
    rw [Ledger.perform]
    cases hArms : l.arms? arms with
    | none => exact .refl _
    | some meant =>
      exact Scope.mergeVersions_advances (s := ⟨f, l.vars⟩) fun arm hArm =>
        h.taken arm.2 (mem_taken_of_arms? hArms arm hArm)
  | openLoop f header preheader => exact Scope.openLoop_advances ⟨f, l.vars⟩ header preheader
  | sealLoop f phis latch => exact Scope.sealLoop_advances ⟨f, l.vars⟩ phis latch

/-- Snapshots are only added, and taking one leaves the table alone. -/
theorem taken_perform_cases (l : Ledger) (r : VarRequest) :
    (l.perform r).taken = l.taken ∨
      (l.perform r).taken = l.taken ++ [l.vars.snapshot] ∧ (l.perform r).vars = l.vars := by
  cases r with
  | snapshot => exact .inr ⟨rfl, rfl⟩
  | _ => exact .inl rfl

theorem Sound.perform (h : l.Sound) (r : VarRequest) : (l.perform r).Sound := by
  have hAdvances := h.advances_perform r
  refine ⟨hAdvances.current h.current, ?_⟩
  intro s hs
  rcases l.taken_perform_cases r with hSame | ⟨hNew, hVars⟩
  · rw [hSame] at hs
    exact hAdvances.knows (h.taken s hs)
  · rw [hNew] at hs
    rcases List.mem_append.mp hs with hs | hs
    · exact hAdvances.knows (h.taken s hs)
    · -- a new snapshot names what is current
      rw [List.mem_singleton.mp hs, hVars]
      exact h.current

/-- What every request keeps, all of them together keep. -/
theorem Sound.foldl (h : l.Sound) (rs : List VarRequest) :
    (rs.foldl Ledger.perform l).Sound ∧ l.vars.Advances (rs.foldl Ledger.perform l).vars ∧
      l.taken <+: (rs.foldl Ledger.perform l).taken := by
  induction rs generalizing l with
  | nil => exact ⟨h, .refl _, List.prefix_rfl⟩
  | cons r rs ih =>
    obtain ⟨hSound, hAdvances, hTaken⟩ := ih (h.perform r)
    have hFirst : l.taken <+: (l.perform r).taken := by
      rcases l.taken_perform_cases r with hSame | ⟨hNew, -⟩
      · exact hSame ▸ List.prefix_rfl
      · exact hNew ▸ List.prefix_append ..
    exact ⟨hSound, (h.advances_perform r).trans hAdvances, hFirst.trans hTaken⟩

theorem sound_run (rs : List VarRequest) : (run rs).Sound := by
  have hNew : Sound {} := by
    constructor
    · intro name i hGet
      cases hGet
    · exact fun s hs => absurd hs List.not_mem_nil
  exact (hNew.foldl rs).1

theorem run_append (earlier later : List VarRequest) :
    run (earlier ++ later) = later.foldl perform (run earlier) := List.foldl_append

theorem advances_run (earlier later : List VarRequest) :
    (run earlier).vars.Advances (run (earlier ++ later)).vars := by
  rw [run_append]
  exact ((sound_run earlier).foldl later).2.1

/-- The snapshot that is taken after some requests is found in its place ever after. -/
theorem getElem?_taken_run (earlier later : List VarRequest) :
    (run (earlier ++ .snapshot :: later)).taken[(run earlier).taken.length]? =
      some (run earlier).vars.snapshot := by
  obtain ⟨more, hTaken⟩ := (((sound_run earlier).perform .snapshot).foldl later).2.2
  rw [run_append, List.foldl_cons, ← hTaken]
  simp [perform]

/-- **Versions are kept for good, and snapshots with them.** Whatever has been asked of a new table, a
version that is current is one of the versions of its variable. The definition of a version stays the
same, whatever is asked later on. A snapshot that is taken at some point gives for every variable
what its definition was at that point, however much later it is read, and so does the table once the
snapshot is restored. -/
theorem definitions_last (earlier later : List VarRequest) (name : String) :
    (∀ i, (run earlier).vars.currentVersion? name = some i →
      i < (run earlier).vars.versionCount name) ∧
    (∀ i d, (run earlier).vars.definition? name i = some d →
      (run (earlier ++ later)).vars.definition? name i = some d) ∧
    ∃ s, (run (earlier ++ .snapshot :: later)).taken[(run earlier).taken.length]? = some s ∧
      s = (run earlier).vars.snapshot ∧
      (run (earlier ++ .snapshot :: later)).vars.definitionAt? s name =
        (run earlier).vars.currentDefinition? name ∧
      (run (earlier ++ .snapshot :: later ++
          [.restore (run earlier).taken.length])).vars.currentDefinition? name =
        (run earlier).vars.currentDefinition? name := by
  have hCurrent := (sound_run earlier).current
  have hTaken := getElem?_taken_run earlier later
  have hMeaning := (advances_run earlier (.snapshot :: later)).definitionAt?_eq hCurrent name
  refine ⟨fun i => hCurrent name i, ?_, _, hTaken, rfl, hMeaning, ?_⟩
  · exact fun i d => (advances_run earlier later).definition?_of_eq_some
  · rw [run_append, List.foldl_cons, List.foldl_nil, perform, hTaken]
    exact hMeaning

/-- A variable that is assigned again after the snapshot is what it was, one that is assigned first
after it is undefined, and neither loses a version. -/
example : let l := run [.define "x" ⟨1⟩, .snapshot, .define "x" ⟨2⟩, .define "y" ⟨3⟩, .restore 0]
    l.vars.currentDefinition? "x" = some ⟨1⟩ ∧ l.vars.currentDefinition? "y" = none ∧
      l.vars.versionCount "x" = 2 ∧ l.vars.versionCount "y" = 1 := by
  decide +kernel

end Ledger

end Midend
