import Midend.Proofs.Variable.History
import Midend.Proofs.Variable.Seal

/-!
# Which variables are visible after a loop

When a loop is sealed, every variable that has a phi in its header gets a new version, so it is
current. Nothing is asked of the other variables: completing the phis leaves the table alone, and a
phi that is dropped is exchanged for its value in the variables that are current, whichever they
are (`isSome_dropTrivial`). So a variable that the body is the first to define stays current, and
behind the loop it names a value that control need not have come by.

* `current_after_seal_iff`: what is current is the variables of the loop and those that the body
  has left current.
-/

namespace Midend

namespace VarTable

variable {t : VarTable} {name : String} {l : List (String × ValueId)}

theorem isSome_define (t : VarTable) (x : String) (value : ValueId) :
    ((t.define x value).currentVersion? name).isSome ↔
      name = x ∨ (t.currentVersion? name).isSome := by
  by_cases hEq : name = x
  · rw [hEq, currentVersion?_define_self]
    simp
  · rw [currentVersion?_define_of_ne t value hEq]
    simp [hEq]

theorem isSome_defineAll : ((t.defineAll l).currentVersion? name).isSome ↔
    name ∈ l.map (·.1) ∨ (t.currentVersion? name).isSome := by
  induction l generalizing t with
  | nil => simp [defineAll]
  | cons p l ih =>
    have hRest : ((t.defineAll (p :: l)).currentVersion? name).isSome ↔
        name ∈ l.map (·.1) ∨ ((t.define p.1 p.2).currentVersion? name).isSome := ih
    rw [hRest, isSome_define, List.map_cons, List.mem_cons, or_left_comm, or_assoc]

/-- Redirecting makes new versions of variables that are current. -/
theorem isSome_redirect (t : VarTable) (old new : ValueId) :
    ((t.redirect old new).currentVersion? name).isSome ↔ (t.currentVersion? name).isSome := by
  rw [redirect_eq, isSome_defineAll, List.map_map]
  apply or_iff_right_of_imp
  intro hMem
  obtain ⟨x, hx, rfl⟩ := List.mem_map.mp hMem
  exact Option.isSome_iff_exists.mpr (SortedMap.mem_keys_iff.mp (List.mem_of_mem_filter hx))

end VarTable

namespace Scope

open VarTable

variable {s t : Scope} {header preheader latch : BlockId} {l : LoopPhis} {name : String}

theorem mem_defined : name ∈ s.defined.map (·.1) ↔ (s.vars.currentDefinition? name).isSome := by
  rw [Option.isSome_iff_exists, List.mem_map]
  unfold defined
  constructor
  · rintro ⟨p, hp, rfl⟩
    obtain ⟨x, -, hx⟩ := List.mem_filterMap.mp hp
    obtain ⟨d, hd, rfl⟩ := Option.map_eq_some_iff.mp hx
    exact ⟨d, hd⟩
  · rintro ⟨d, hd⟩
    refine ⟨(name, d), List.mem_filterMap.mpr ⟨name, mem_keys_of_currentDefinition? hd, ?_⟩, rfl⟩
    rw [hd, Option.map_some]

/-- The variables of a loop are those that have a definition where it is opened. -/
theorem mem_names_openLoop (h : (s.openLoop header preheader).answer? = some l) :
    name ∈ l.phis.map (·.1) ↔ (s.vars.currentDefinition? name).isSome := by
  rw [names_openPhis (openLoop_eq_ok h), mem_defined]

theorem isSome_dropTrivial (fuel : Nat) (live : List ValueId)
    (forwarded : SortedMap ValueId ValueId) (s : Scope) :
    ((dropTrivial fuel live forwarded s).2.vars.currentVersion? name).isSome ↔
      (s.vars.currentVersion? name).isSome := by
  induction fuel generalizing live forwarded s with
  | zero => rfl
  | succ fuel ih =>
    rw [dropTrivial]
    split
    · rfl
    · rename_i phi value _
      exact (ih _ _ (s.forward phi value)).trans (isSome_redirect s.vars phi value)

theorem isSome_sealLoop {k : Nat} (h : (t.sealLoop l latch).answer? = some k) :
    ((t.sealLoop l latch).state.vars.currentVersion? name).isSome ↔
      name ∈ l.phis.map (·.1) ∨ (t.vars.currentVersion? name).isSome := by
  obtain ⟨mid, hComplete, -, -, -, hVars⟩ := sealLoop_eq_ok h
  have hMid : mid.vars = t.vars := by
    rw [← vars_completePhis latch l.phis t, hComplete]
    rfl
  rw [hVars, isSome_defineAll, isSome_dropTrivial, hMid, List.map_map]
  rfl

/-- **What is visible after a loop.** A variable is visible exactly if it was defined when the loop
was opened, and so has a phi, or if it is current at the end of the body, whatever function and table
the body has made. -/
theorem current_after_seal_iff (s t : Scope) (header preheader latch : BlockId) (l : LoopPhis)
    (k : Nat) (name : String) (hOpen : (s.openLoop header preheader).answer? = some l)
    (hSeal : (t.sealLoop l latch).answer? = some k) :
    (name ∈ l.phis.map (·.1) ↔ (s.vars.currentDefinition? name).isSome) ∧
    (((t.sealLoop l latch).state.vars.currentVersion? name).isSome ↔
      name ∈ l.phis.map (·.1) ∨ (t.vars.currentVersion? name).isSome) :=
  ⟨mem_names_openLoop hOpen, isSome_sealLoop hSeal⟩

/-- A loop counts with `x`, which is defined before it. -/
def trailing : Scope where
  func := [.createBlock "entry", .createBlock "head", .createBlock "body", .createBlock "exit",
    .append ⟨0⟩ (.scalar .i32) (.const (.int 0)), .append ⟨0⟩ .void (.jump ⟨1⟩)].foldl Func.build
      (.empty "trailing" (.scalar .i32))
  vars := VarTable.define {} "x" ⟨0⟩

/-- Its one phi. -/
def trailingPhis : LoopPhis := ⟨⟨1⟩, [("x", ⟨2⟩)]⟩

/-- The loop before it is sealed. The body defines `z` and goes back to where that was not defined,
then it defines `y`, and adds it to `x`. -/
def trailed : Scope where
  func := [.append ⟨1⟩ .bool (.const (.bool true)), .append ⟨1⟩ .void (.branch ⟨3⟩ ⟨2⟩ ⟨3⟩),
    .append ⟨2⟩ (.scalar .i32) (.const (.int 5)),
    .append ⟨2⟩ (.scalar .i32) (.binary .add ⟨2⟩ ⟨5⟩), .append ⟨2⟩ .void (.jump ⟨1⟩)].foldl Func.build
      (trailing.openLoop ⟨1⟩ ⟨0⟩).state.func
  vars := (([.snapshot, .define "z" ⟨5⟩, .restore 0, .define "y" ⟨5⟩,
    .define "x" ⟨6⟩] : List VarRequest).foldl Ledger.perform
      ⟨(trailing.openLoop ⟨1⟩ ⟨0⟩).state.vars, []⟩).vars

theorem trailed_current_after_seal :
    ((trailed.sealLoop trailingPhis ⟨2⟩).state.vars.currentVersion? "x").isSome ∧
      ((trailed.sealLoop trailingPhis ⟨2⟩).state.vars.currentVersion? "y").isSome ∧
      ¬ ((trailed.sealLoop trailingPhis ⟨2⟩).state.vars.currentVersion? "z").isSome := by
  have hOpen : (trailing.openLoop ⟨1⟩ ⟨0⟩).answer? = some trailingPhis := by decide +kernel
  have hSeal : (trailed.sealLoop trailingPhis ⟨2⟩).answer? = some 0 := by decide +kernel
  have hIff := fun name =>
    current_after_seal_iff trailing trailed ⟨1⟩ ⟨0⟩ ⟨2⟩ trailingPhis 0 name hOpen hSeal
  refine ⟨(hIff "x").2.mpr (.inl (by decide)), (hIff "y").2.mpr (.inr (by decide +kernel)), ?_⟩
  rw [(hIff "z").2]
  decide +kernel

/-- The variable `y` has no phi, since it has no value before the loop, and yet it is current after
it: the exit sees a value of the body. -/
theorem trailed_keeps_body_variable :
    trailing.func.Consistent ∧ (trailing.openLoop ⟨1⟩ ⟨0⟩).answer? = some trailingPhis ∧
      (trailed.sealLoop trailingPhis ⟨2⟩).answer? = some 0 ∧
      "y" ∉ trailingPhis.phis.map (·.1) ∧ trailing.vars.currentVersion? "y" = none ∧
      (trailed.sealLoop trailingPhis ⟨2⟩).state.vars.currentVersion? "y" = some 0 ∧
      (trailed.sealLoop trailingPhis ⟨2⟩).state.vars.currentDefinition? "y" = some ⟨5⟩ ∧
      ¬ (trailed.sealLoop trailingPhis ⟨2⟩).state.func.Guards ⟨2⟩ ⟨3⟩ := by
  decide +kernel

end Scope

end Midend
