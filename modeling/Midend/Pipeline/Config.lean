import Midend.Flow.Dominance

/-!
# Configuration of the pipeline

Which passes run, and with which limits.
-/

namespace Midend

/-- What the pipeline is to do. -/
structure Config where
  /-- The limit of rounds for dominance. -/
  roundCap : Nat := defaultRoundCap
  /-- The limit of rounds for threading; one round for each block if none is given. -/
  threadingRounds : Option Nat := none
  removeUnreachable : Bool := true
  threadJumps : Bool := true
  mergeBlocks : Bool := true
  splitCriticalEdges : Bool := true
  eliminateRedundancies : Bool := true
  /-- Whether the function is examined after every pass. -/
  examineEachPass : Bool := true
deriving DecidableEq, Repr, Inhabited

namespace Config

/-- The passes that run, in order. -/
def passes (c : Config) : List Pass :=
  [(c.removeUnreachable, .removeUnreachable), (c.threadJumps, .threadJumps),
    (c.mergeBlocks, .mergeBlocks), (c.splitCriticalEdges, .splitCriticalEdges),
    (c.eliminateRedundancies, .eliminateRedundancies)].filterMap fun (enabled, pass) =>
      if enabled then some pass else none

/-- The written form of a pipeline with this configuration. -/
def text (c : Config) : String :=
  let rounds := match c.threadingRounds with
    | none => "None"
    | some n => s!"Some({n})"
  let fields : List String :=
    [s!"dominance_round_cap: {c.roundCap}",
      s!"max_threading_rounds: {rounds}",
      s!"remove_unreachable: {c.removeUnreachable}",
      s!"thread_jumps: {c.threadJumps}",
      s!"merge_blocks: {c.mergeBlocks}",
      s!"split_critical_edges: {c.splitCriticalEdges}",
      s!"eliminate_redundancies: {c.eliminateRedundancies}",
      s!"validate_after_each_pass: {c.examineEachPass}"]
  "PassPipeline \x7b config: OptConfig \x7b " ++ ", ".intercalate fields
    ++ " \x7d, observer: false \x7d"

end Config

end Midend
