import Midend.Json.Basic
import Midend.Pipeline.Config

/-!
# Configurations as data

A record with a field for each setting. A setting whose field is missing has its default.
-/

namespace Midend

namespace Config

open Json

/-- A configuration as data. -/
def toJson (c : Config) : Json :=
  .obj [("dominance_round_cap", .nat c.roundCap),
    ("max_threading_rounds", option .nat c.threadingRounds),
    ("remove_unreachable", .bool c.removeUnreachable),
    ("thread_jumps", .bool c.threadJumps),
    ("merge_blocks", .bool c.mergeBlocks),
    ("split_critical_edges", .bool c.splitCriticalEdges),
    ("eliminate_redundancies", .bool c.eliminateRedundancies),
    ("validate_after_each_pass", .bool c.examineEachPass)]

/-- Reads a field of a record that may be missing. -/
def getOr? {α : Type} (fields : List (String × Json)) (name : String) (read : Json → Option α)
    (default : α) : Option α :=
  match lookup? name fields with
  | none => some default
  | some j => read j

/-- Reads a configuration. -/
def ofJson? : Json → Option Config
  | .obj fields => do
    let d : Config := {}
    return {
      roundCap := ← getOr? fields "dominance_round_cap" word64? d.roundCap
      threadingRounds := ←
        getOr? fields "max_threading_rounds" (option? word64?) d.threadingRounds
      removeUnreachable := ← getOr? fields "remove_unreachable" bool? d.removeUnreachable
      threadJumps := ← getOr? fields "thread_jumps" bool? d.threadJumps
      mergeBlocks := ← getOr? fields "merge_blocks" bool? d.mergeBlocks
      splitCriticalEdges := ← getOr? fields "split_critical_edges" bool? d.splitCriticalEdges
      eliminateRedundancies := ←
        getOr? fields "eliminate_redundancies" bool? d.eliminateRedundancies
      examineEachPass := ← getOr? fields "validate_after_each_pass" bool? d.examineEachPass }
  | _ => none

end Config

end Midend
