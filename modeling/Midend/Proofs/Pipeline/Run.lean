import Midend.Pipeline.Run
import Midend.Proofs.Flow.Strict
import Midend.Proofs.Redundancy.Dominated
import Midend.Proofs.Shape.Merge
import Midend.Proofs.Shape.Prune
import Midend.Proofs.Shape.Split
import Midend.Proofs.Shape.Thread
import Midend.Proofs.Validity.Regular
import Midend.Shape.Request

/-!
# What the pipeline does to a good function

The passes that may change the shape of a function come first, and each keeps it regular; what they
leave is `Func.reshaped`. Then redundant values are eliminated, with the sets of dominators of that
function within the limit of rounds.

* `Func.optimize_finishes_valid`: the run always ends well, and the function is still valid.
* `Func.optimize_strict_iff`: it is still strict if and only if the elimination put nothing in the
  place of a value that is not on every way to what reads it; in any case if the dominators were
  right.
-/

namespace Midend

/-! ## The function that the passes leave -/

/-- The passes that run before the elimination of redundant values. -/
def Config.shapePasses (c : Config) : List Pass := c.passes.filter (·.changesShape)

theorem Config.passes_eq (c : Config) : c.passes =
    c.shapePasses ++ if c.eliminateRedundancies then [.eliminateRedundancies] else [] := by
  rw [shapePasses, passes]
  cases c.removeUnreachable <;> cases c.threadJumps <;> cases c.mergeBlocks <;>
    cases c.splitCriticalEdges <;> cases c.eliminateRedundancies <;> rfl

namespace Func

variable {f : Func} {e : BlockId} {c : Config}

/-- What a pass that may change the shape of a function makes of it. -/
def reshape (c : Config) (f : Func) : Pass → Func
  | .removeUnreachable => f.removeUnreachable.2
  | .threadJumps => (f.threadJumps (c.threadingRounds.getD f.layout.length)).2
  | .mergeBlocks => f.mergeAll.2
  | .splitCriticalEdges => f.splitAll.2
  | .eliminateRedundancies => f

/-- What the passes before the elimination of redundant values make of a function. -/
def reshaped (f : Func) (c : Config) : Func :=
  if f.layout.isEmpty then f else c.shapePasses.foldl (reshape c) f

theorem RegularFrom.reshape (hf : f.RegularFrom e) (c : Config) (pass : Pass) :
    (f.reshape c pass).RegularFrom e := by
  cases pass with
  | removeUnreachable => exact hf.removeUnreachable
  | threadJumps => exact hf.threadJumps _
  | mergeBlocks => exact hf.mergeAll
  | splitCriticalEdges => exact hf.splitAll
  | eliminateRedundancies => exact hf

end Func

namespace Run

variable {c : Config} {e : BlockId} {r : Run} {pass : Pass}

/-- The function is regular, and the dominance that is kept is that of the function. -/
structure Sound (c : Config) (e : BlockId) (r : Run) : Prop where
  regular : r.func.RegularFrom e
  dom_eq : ∀ dom, r.dom = some dom → ∃ result, r.func.dominance c.roundCap = .ok result ∧
    dom = result.value ∧ r.summary.converged = some result.isConverged

theorem exists_computeDominance (hf : r.func.RegularFrom e) : ∃ result r',
    r.computeDominance c = .ok result.value r' ∧ r.func.dominance c.roundCap = .ok result ∧
      r'.func = r.func ∧ r'.dom = some result.value ∧
        r'.summary.converged = some result.isConverged := by
  have hDom := Func.dominance_eq hf.entry_eq c.roundCap
  simp only [computeDominance, hDom]
  exact ⟨_, _, rfl, rfl, rfl, rfl, rfl⟩

/-- A lawful function passes the examination after each pass. -/
theorem examine_eq (hf : r.func.Lawful) (pass : Pass) : r.examine c pass = .ok () r := by
  have hValid : r.func.examine.violations.length = 0 := by
    simpa [Func.isValid, Report.isValid] using hf.isValid
  rw [examine]
  simp [hValid]

/-- A pass that may change the shape of the function leaves it regular, and its dominators are
known. -/
theorem Sound.step (hr : r.Sound c e) (hPass : pass.changesShape = true) :
    ∃ r', r.step c pass = .ok () r' ∧ r'.Sound c e ∧ r'.func = r.func.reshape c pass := by
  have hTransform : ∃ mid, r.transform c pass = .ok () mid ∧ mid.func = r.func.reshape c pass := by
    cases pass with
    | eliminateRedundancies => cases hPass
    | _ => exact ⟨_, rfl, rfl⟩
  obtain ⟨mid, hMid, hFunc⟩ := hTransform
  have hRegular : mid.func.RegularFrom e := hFunc ▸ hr.regular.reshape c pass
  obtain ⟨result, r', hCompute, hDom, hSame, hKept, hConv⟩ := exists_computeDominance hRegular
  refine ⟨r', ?_, ⟨hSame ▸ hRegular, fun dom hEq => ⟨result, hSame ▸ hDom, ?_, hConv⟩⟩,
    hSame.trans hFunc⟩
  · rw [Run.step, hMid, Outcome.andThen_ok, refresh, if_pos hPass, hCompute, Outcome.andThen_ok,
      Outcome.andThen_ok]
    exact examine_eq (hSame ▸ hRegular.toLawful) pass
  · rw [hKept] at hEq
    exact (Option.some.inj hEq).symm

theorem Sound.steps (hr : r.Sound c e) {l : List Pass} (hl : ∀ pass ∈ l, pass.changesShape = true) :
    ∃ r', r.steps c l = .ok () r' ∧ r'.Sound c e ∧ r'.func = l.foldl (Func.reshape c) r.func := by
  induction l generalizing r with
  | nil => exact ⟨r, rfl, hr, rfl⟩
  | cons pass l ih =>
    obtain ⟨r₁, hStep, hr₁, hFunc⟩ := hr.step (hl pass List.mem_cons_self)
    obtain ⟨r₂, hSteps, hr₂, hFunc₂⟩ := ih hr₁ fun p hp => hl p (List.mem_cons_of_mem _ hp)
    refine ⟨r₂, ?_, hr₂, ?_⟩
    · rw [Run.steps, hStep, Outcome.andThen_ok, hSteps]
    · rw [hFunc₂, hFunc, List.foldl_cons]

/-- The elimination of redundant values uses the dominance of the function, within the limit. -/
theorem Sound.eliminate (hr : r.Sound c e) : ∃ result r', r.func.dominance c.roundCap = .ok result ∧
    r.step c .eliminateRedundancies = .ok () r' ∧
      r'.func = (r.func.eliminateDominated result.value).2 ∧
        r'.summary.converged = some result.isConverged := by
  -- the dominance that is kept, or a new one
  have hKnown : ∃ (result : Fixpoint Dominance) (mid : Run), r.transform c .eliminateRedundancies =
      .ok () (mid.apply .eliminateRedundancies (mid.func.eliminateDominated result.value)) ∧
        r.func.dominance c.roundCap = .ok result ∧ mid.func = r.func ∧
          mid.summary.converged = some result.isConverged := by
    cases hKept : r.dom with
    | some dom =>
      obtain ⟨result, hDom, rfl, hConv⟩ := hr.dom_eq dom hKept
      exact ⟨result, r, by simp only [transform, hKept, Outcome.andThen_ok], hDom, rfl, hConv⟩
    | none =>
      obtain ⟨result, mid, hCompute, hDom, hSame, -, hConv⟩ := exists_computeDominance hr.regular
      exact ⟨result, mid, by simp only [transform, hKept, hCompute, Outcome.andThen_ok], hDom, hSame,
        hConv⟩
  obtain ⟨result, mid, hTransform, hDom, hSame, hConv⟩ := hKnown
  refine ⟨result, mid.apply .eliminateRedundancies (mid.func.eliminateDominated result.value), hDom,
    ?_, by rw [← hSame]; rfl, hConv⟩
  rw [Run.step, hTransform, Outcome.andThen_ok, refresh, if_neg (by decide), Outcome.andThen_ok]
  refine examine_eq ?_ _
  change (mid.func.eliminateDominated result.value).2.Lawful
  rw [hSame]
  exact hr.regular.toLawful.eliminateDominated (Func.nodes_of_dominance hDom)

theorem steps_append (l l' : List Pass) (r : Run) :
    r.steps c (l ++ l') = (r.steps c l).andThen fun _ r => r.steps c l' := by
  induction l generalizing r with
  | nil => rfl
  | cons pass l ih =>
    rw [List.cons_append, steps, steps]
    rcases r.step c pass with ⟨_ | _, r'⟩
    · rfl
    · exact ih r'

end Run

namespace Func

variable {f : Func} {e : BlockId} {c : Config}

theorem layout_ne_nil_of_entry (hf : f.RegularFrom e) : f.layout.isEmpty = false := by
  have hMem := (hf.mem_layout e).mpr (hf.entry_mem e hf.entry_eq)
  cases hLayout : f.layout with
  | nil =>
    rw [hLayout] at hMem
    exact absurd hMem List.not_mem_nil
  | cons b l => rfl

/-- What a run makes of a regular function. -/
theorem RegularFrom.optimize (hf : f.RegularFrom e) (c : Config) :
    (f.reshaped c).RegularFrom e ∧ ∃ r, f.optimize c = .ok r.summary r ∧
      (c.eliminateRedundancies = false ∧ r.func = f.reshaped c ∨
        ∃ result, c.eliminateRedundancies = true ∧
          (f.reshaped c).dominance c.roundCap = .ok result ∧
            r.func = ((f.reshaped c).eliminateDominated result.value).2 ∧
              r.summary.converged = some result.isConverged) := by
  have hLayout := layout_ne_nil_of_entry hf
  have hStart : Run.Sound c e { func := f, summary := { function := f.name } } := by
    refine ⟨hf, fun dom h => ?_⟩
    cases h
  obtain ⟨r, hSteps, hr, hFunc⟩ := hStart.steps (l := c.shapePasses) fun pass hPass =>
    (List.mem_filter.mp hPass).2
  have hReshaped : r.func = f.reshaped c := by
    rw [hFunc, reshaped, hLayout]
    rfl
  refine ⟨hReshaped ▸ hr.regular, ?_⟩
  simp only [Func.optimize, hLayout, Bool.false_eq_true, if_false, c.passes_eq, Run.steps_append, hSteps,
    Outcome.andThen_ok]
  cases hElim : c.eliminateRedundancies with
  | false => exact ⟨r, rfl, .inl ⟨rfl, hReshaped⟩⟩
  | true =>
    obtain ⟨result, r', hDom, hStep, hFunc', hConv⟩ := hr.eliminate
    rw [hReshaped] at hDom hFunc'
    refine ⟨r', ?_, .inr ⟨result, rfl, hDom, hFunc', hConv⟩⟩
    rw [if_pos rfl, Run.steps, hStep, Outcome.andThen_ok]
    rfl

/-- What a run makes of a consistent, valid and strict function: the answer, the function without
redundant values if they are eliminated, and whether the dominators were right. -/
theorem Regular.optimize (hf : f.Regular) (c : Config) :
    (f.reshaped c).Regular ∧ ∃ r, f.optimize c = .ok r.summary r ∧
      ((c.eliminateRedundancies = false ∨ (f.reshaped c).entry = none) ∧ r.func = f.reshaped c ∨
        ∃ result, c.eliminateRedundancies = true ∧
          (f.reshaped c).dominance c.roundCap = .ok result ∧
            r.func = ((f.reshaped c).eliminateDominated result.value).2 ∧
              r.summary.converged = some result.isConverged) := by
  cases hEntry : f.entry with
  | some e =>
    have hFrom : f.RegularFrom e := ⟨hf, hEntry⟩
    obtain ⟨hReg, r, hEq, hCases⟩ := hFrom.optimize c
    refine ⟨hReg.toRegular, r, hEq, hCases.imp_left fun h => ⟨.inl h.1, h.2⟩⟩
  | none =>
    have hEmpty : f.layout.isEmpty = true := by rw [hf.entry_none hEntry]; rfl
    have hSame : f.reshaped c = f := by rw [reshaped, if_pos hEmpty]
    refine ⟨hSame.symm ▸ hf, { func := f, summary := { function := f.name } }, ?_,
      .inl ⟨.inr (hSame.symm ▸ hEntry), hSame.symm⟩⟩
    rw [Func.optimize, if_pos hEmpty]

/-- **The pipeline never breaks a good function.** Whatever is configured, on a consistent, valid
and strict function the run ends well, and the function that it leaves is valid. -/
theorem optimize_finishes_valid (f : Func) (hConsistent : f.Consistent) (hValid : f.isValid = true)
    (hStrict : f.Strict) (c : Config) :
    ∃ summary, (f.optimize c).answer = .ok summary ∧ (f.optimize c).state.func.isValid = true := by
  obtain ⟨hReg, r, hEq, hCases⟩ :=
    (regular_iff.mpr ⟨hConsistent, hValid, hStrict⟩).optimize c
  refine ⟨r.summary, by rw [hEq]; rfl, ?_⟩
  rw [hEq]
  change r.func.isValid = true
  rcases hCases with ⟨-, hFunc⟩ | ⟨result, -, hDom, hFunc, -⟩
  · rw [hFunc]
    exact hReg.isValid
  · rw [hFunc]
    exact (hReg.toLawful.eliminateDominated (nodes_of_dominance hDom)).isValid

/-- A loop with work for every pass: a block out of reach, a block that only jumps, two blocks that
merge, two critical edges and a value that is computed twice. -/
def busy : Func :=
  [.createBlock "entry", .createBlock "via", .createBlock "head", .createBlock "body",
    .createBlock "exit", .createBlock "tail", .createBlock "lost",
    .append ⟨0⟩ .bool (.const (.bool true)), .append ⟨0⟩ (.scalar .i32) (.const (.int 9)),
    .append ⟨0⟩ .void (.branch ⟨0⟩ ⟨1⟩ ⟨4⟩), .append ⟨1⟩ .void (.jump ⟨2⟩),
    .append ⟨2⟩ (.scalar .i32) (.binary .add ⟨1⟩ ⟨1⟩), .append ⟨2⟩ .void (.branch ⟨0⟩ ⟨3⟩ ⟨4⟩),
    .append ⟨3⟩ (.scalar .i32) (.binary .add ⟨1⟩ ⟨1⟩), .append ⟨3⟩ .void (.jump ⟨1⟩),
    .append ⟨4⟩ .void (.jump ⟨5⟩), .append ⟨5⟩ .void (.ret (some ⟨1⟩)),
    .append ⟨6⟩ .void (.jump ⟨4⟩)].foldl build (.empty "busy" (.scalar .i32))

theorem busy_finishes_valid :
    busy.Consistent ∧ busy.isValid = true ∧ busy.Strict ∧
      ∃ summary, (busy.optimize {}).answer = .ok summary ∧
        (busy.optimize {}).state.func.isValid = true := by
  have hConsistent : busy.Consistent := by decide +kernel
  have hValid : busy.isValid = true := by decide +kernel
  have hStrict : busy.Strict := by decide +kernel
  exact ⟨hConsistent, hValid, hStrict, optimize_finishes_valid busy hConsistent hValid hStrict {}⟩

/-- **When the pipeline leaves a strict function.** On a consistent, valid and strict function the
run ends well. The function that it leaves is strict if and only if the elimination of redundant
values, if it is configured, has only put values in the place of others that are computed on every
way to what read these. In any case it is if the run does not say that dominance was cut short. -/
theorem optimize_strict_iff (f : Func) (hConsistent : f.Consistent) (hValid : f.isValid = true)
    (hStrict : f.Strict) (c : Config) :
    ∃ summary, (f.optimize c).answer = .ok summary ∧
      ((f.optimize c).state.func.Strict ↔
        (c.eliminateRedundancies = true → ∀ result,
          (f.reshaped c).dominance c.roundCap = .ok result →
            (f.reshaped c).ReplacementsReach
              ((f.reshaped c).dominatedRedundancies result.value))) ∧
      (summary.converged ≠ some false → (f.optimize c).state.func.Strict) := by
  obtain ⟨hReg, r, hEq, hCases⟩ :=
    (regular_iff.mpr ⟨hConsistent, hValid, hStrict⟩).optimize c
  refine ⟨r.summary, by rw [hEq]; rfl, ?_⟩
  rw [hEq]
  change (r.func.Strict ↔ _) ∧ (_ → r.func.Strict)
  rcases hCases with ⟨hOff, hFunc⟩ | ⟨result, hElim, hDom, hFunc, hConv⟩
  · have hStrict' : r.func.Strict := hFunc ▸ hReg.strict
    refine ⟨iff_of_true hStrict' fun hElim result hDom => ?_, fun _ => hStrict'⟩
    rcases hOff with hOff | hNone
    · rw [hOff] at hElim
      cases hElim
    · obtain ⟨e, hEntry, -⟩ := entry_of_dominance hDom
      rw [hNone] at hEntry
      cases hEntry
  · have hNodes := nodes_of_dominance hDom
    have hIff : r.func.Strict ↔
        (f.reshaped c).ReplacementsReach ((f.reshaped c).dominatedRedundancies result.value) := by
      rw [hFunc, (hReg.toLawful.eliminateDominated hNodes).strict_iff_scoped]
      exact hReg.scoped_eliminateDominated_iff hNodes
    refine ⟨hIff.trans ⟨fun h _ result' hDom' => ?_, fun h => h hElim result hDom⟩, fun hNot => ?_⟩
    · obtain rfl := Except.ok.inj (hDom.symm.trans hDom')
      exact h
    · have hConverged : result.isConverged = true := by
        rw [hConv] at hNot
        simpa using hNot
      exact hIff.mpr (hReg.replacementsReach hNodes fun d b =>
        guards_of_dominates hReg.mirrored hDom hConverged)

/-- Both arms of a branch compute the same constant. -/
def arms : Func :=
  [.createBlock "entry", .createBlock "left", .createBlock "right",
    .append ⟨0⟩ .bool (.const (.bool true)), .append ⟨0⟩ .void (.branch ⟨0⟩ ⟨1⟩ ⟨2⟩),
    .append ⟨1⟩ (.scalar .i32) (.const (.int 5)), .append ⟨1⟩ .void (.ret (some ⟨2⟩)),
    .append ⟨2⟩ (.scalar .i32) (.const (.int 5)), .append ⟨2⟩ .void (.ret (some ⟨4⟩))].foldl build
      (.empty "arms" (.scalar .i32))

/-- No rounds for dominance, and no pass but the elimination of redundant values. -/
def cutShort : Config :=
  { roundCap := 0, removeUnreachable := false, threadJumps := false, mergeBlocks := false,
    splitCriticalEdges := false }

theorem arms_strict_iff :
    arms.Consistent ∧ arms.isValid = true ∧ arms.Strict ∧
      ∃ summary, (arms.optimize cutShort).answer = .ok summary ∧
        ((arms.optimize cutShort).state.func.Strict ↔
          (cutShort.eliminateRedundancies = true → ∀ result,
            (arms.reshaped cutShort).dominance cutShort.roundCap = .ok result →
              (arms.reshaped cutShort).ReplacementsReach
                ((arms.reshaped cutShort).dominatedRedundancies result.value))) ∧
        (summary.converged ≠ some false → (arms.optimize cutShort).state.func.Strict) := by
  have hConsistent : arms.Consistent := by decide +kernel
  have hValid : arms.isValid = true := by decide +kernel
  have hStrict : arms.Strict := by decide +kernel
  exact ⟨hConsistent, hValid, hStrict, optimize_strict_iff arms hConsistent hValid hStrict cutShort⟩

/-- Before its first round, dominance lets each block dominate every other. Then the value of one
arm is put in the place of that of the other, although control never goes through both. -/
theorem arms_not_strict_after_cutShort :
    arms.Consistent ∧ arms.isValid = true ∧ arms.Strict ∧ (arms.optimize cutShort).isOk = true ∧
      ¬ (arms.optimize cutShort).state.func.Strict := by
  decide +kernel

end Func

end Midend
