import Midend.Pipeline.Config
import Midend.Redundancy.Elimination
import Midend.Shape.Merge
import Midend.Shape.Prune
import Midend.Shape.Split
import Midend.Shape.Thread
import Midend.Validity.Examination

/-!
# Running the pipeline

The passes run in a fixed order. Dominance is computed again after each pass that may change the
shape of the function, so that the elimination of redundant values never works with an outdated
one. After each pass the function can be examined, and the run stops at the first pass that leaves
something wrong.
-/

namespace Midend

/-- A report of progress. -/
inductive Event where
  | passFinished (function : String) (pass : Pass) (changes : Nat)
  | dominanceComputed (function : String) (rounds : Nat) (converged : Bool)
  | validationFailed (function : String) (pass : Pass) (violations : Nat)
deriving DecidableEq, Repr

/-- What a run did to a function. -/
structure Summary where
  /-- The name of the function. -/
  function : String
  /-- The passes that ran and the number of changes each made. -/
  passes : List (Pass × Nat) := []
  /-- Whether the last computation of dominance converged, if there was one. -/
  converged : Option Bool := none
deriving DecidableEq, Repr

namespace Summary

/-- The number of changes that a pass made. -/
def changes (s : Summary) (pass : Pass) : Nat :=
  total ((s.passes.filter (·.1 = pass)).map (·.2))

/-- The number of all changes. -/
def totalChanges (s : Summary) : Nat := total (s.passes.map (·.2))

end Summary

/-- The state of a run. -/
structure Run where
  /-- The function as it is now. -/
  func : Func
  /-- What was done so far. -/
  summary : Summary
  /-- The last computed dominance. -/
  dom : Option Dominance := none
  /-- The reports so far, the first one first. -/
  events : List Event := []

namespace Run

/-- Adds a report. -/
def report (r : Run) (e : Event) : Run := { r with events := r.events ++ [e] }

/-- Computes dominance and reports it. -/
def computeDominance (c : Config) (r : Run) : Outcome Run Dominance :=
  match r.func.dominance c.roundCap with
  | .error e => .fail e r
  | .ok result =>
    let dom := result.value
    let summary := { r.summary with converged := some result.isConverged }
    .ok dom ({ r with summary, dom := some dom }.report
      (.dominanceComputed r.func.name dom.rounds result.isConverged))

/-- Lets a pass change the function and reports the number of changes. -/
def apply (pass : Pass) (r : Run) (changed : Nat × Func) : Run :=
  let summary := { r.summary with passes := r.summary.passes ++ [(pass, changed.1)] }
  { r with func := changed.2, summary }.report (.passFinished changed.2.name pass changed.1)

/-- Runs the transformation of a pass. The elimination of redundant values uses the last computed
dominance, and computes it if there is none. -/
def transform (c : Config) (pass : Pass) (r : Run) : Outcome Run Unit :=
  match pass with
  | .removeUnreachable => .ok () (r.apply pass r.func.removeUnreachable)
  | .threadJumps =>
    .ok () (r.apply pass (Func.threadJumps (c.threadingRounds.getD r.func.layout.length) r.func))
  | .mergeBlocks => .ok () (r.apply pass r.func.mergeAll)
  | .splitCriticalEdges => .ok () (r.apply pass r.func.splitAll)
  | .eliminateRedundancies =>
    let dominance : Outcome Run Dominance := match r.dom with
      | some dom => .ok dom r
      | none => r.computeDominance c
    dominance.andThen fun dom r => .ok () (r.apply pass (r.func.eliminateDominated dom))

/-- Computes dominance again if a pass may have changed the shape of the function. -/
def refresh (c : Config) (pass : Pass) (r : Run) : Outcome Run Unit :=
  if pass.changesShape then (r.computeDominance c).andThen fun _ r => .ok () r else .ok () r

/-- Examines the function after a pass, if the configuration says so. -/
def examine (c : Config) (pass : Pass) (r : Run) : Outcome Run Unit :=
  if c.examineEachPass then
    let found := r.func.examine.violations.length
    if found = 0 then .ok () r
    else .fail (.invalidAfter pass found) (r.report (.validationFailed r.func.name pass found))
  else .ok () r

/-- Runs one pass with what belongs to it. -/
def step (c : Config) (pass : Pass) (r : Run) : Outcome Run Unit :=
  (r.transform c pass).andThen fun _ r =>
    (r.refresh c pass).andThen fun _ r => r.examine c pass

/-- Runs a list of passes. -/
def steps (c : Config) : List Pass → Run → Outcome Run Unit
  | [], r => .ok () r
  | pass :: rest, r => (r.step c pass).andThen fun _ r => steps c rest r

end Run

/-- Runs the pipeline on a function. A function without blocks is left alone. -/
def Func.optimize (f : Func) (c : Config) : Outcome Run Summary :=
  let start : Run := { func := f, summary := { function := f.name } }
  if f.layout.isEmpty then .ok start.summary start
  else (start.steps c c.passes).andThen fun _ r => .ok r.summary r

/-- Runs the pipeline on the functions of a list, one after the other, up to the first error. Gives
the functions and the reports. -/
def optimizeAll (c : Config) : List Func → Outcome (List Func × List Event) (List Summary)
  | [] => .ok [] ([], [])
  | f :: rest =>
    match f.optimize c with
    | ⟨.error e, r⟩ => .fail e (r.func :: rest, r.events)
    | ⟨.ok summary, r⟩ =>
      match optimizeAll c rest with
      | ⟨.error e, (fs, events)⟩ => .fail e (r.func :: fs, r.events ++ events)
      | ⟨.ok summaries, (fs, events)⟩ =>
        .ok (summary :: summaries) (r.func :: fs, r.events ++ events)

/-- Runs the pipeline on the functions of a program, up to the first error. Gives the program and
the reports. -/
def Program.optimize (p : Program) (c : Config) : Outcome (Program × List Event) (List Summary) :=
  (optimizeAll c p.funcs).mapState fun (fs, events) => ({ p with funcs := fs }, events)

end Midend
