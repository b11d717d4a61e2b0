import Midend.Binary64
import Midend.Block
import Midend.Builder
import Midend.Decimal.Basic
import Midend.Decimal.Shortest
import Midend.Error
import Midend.Flow.Dominance
import Midend.Flow.Meaning
import Midend.Flow.Order
import Midend.Flow.Strict
import Midend.Flow.Trace
import Midend.Func.Basic
import Midend.Func.Consistent
import Midend.Func.Construction
import Midend.Func.Edges
import Midend.Func.Revision
import Midend.Graph.Basic
import Midend.Graph.Breadth
import Midend.Graph.Depth
import Midend.Graph.Dominators
import Midend.Ident
import Midend.Inst
import Midend.Json.Basic
import Midend.Json.Config
import Midend.Json.Inst
import Midend.Json.Program
import Midend.Listing
import Midend.Literal
import Midend.Operator
import Midend.Pass
import Midend.Pipeline.Config
import Midend.Pipeline.Run
import Midend.Program
import Midend.Proofs.Flow.Bypass
import Midend.Proofs.Flow.Dominance
import Midend.Proofs.Flow.Order
import Midend.Proofs.Flow.PostDominance
import Midend.Proofs.Flow.Rounds
import Midend.Proofs.Flow.Strict
import Midend.Proofs.Flow.Tree
import Midend.Proofs.Func.Checking
import Midend.Proofs.Func.Code
import Midend.Proofs.Func.Construction
import Midend.Proofs.Func.Lawful
import Midend.Proofs.Func.Refusal
import Midend.Proofs.Func.Replacement
import Midend.Proofs.Func.Requests
import Midend.Proofs.Func.Terminators
import Midend.Proofs.Func.Uses
import Midend.Proofs.Graph.BreadthFirst
import Midend.Proofs.Graph.Closing
import Midend.Proofs.Graph.DepthFirst
import Midend.Proofs.Graph.Dominators
import Midend.Proofs.Graph.Frontier
import Midend.Proofs.Graph.Iterated
import Midend.Proofs.Graph.Rounds
import Midend.Proofs.Graph.Stack
import Midend.Proofs.Graph.Tree
import Midend.Proofs.Graph.Walk
import Midend.Proofs.Inst
import Midend.Proofs.Json.Decimals
import Midend.Proofs.Json.Digits
import Midend.Proofs.Json.ReadBack
import Midend.Proofs.Pipeline.Run
import Midend.Proofs.Redundancy.Dominated
import Midend.Proofs.Redundancy.Elimination
import Midend.Proofs.Redundancy.Exact
import Midend.Proofs.Redundancy.Expansion
import Midend.Proofs.Redundancy.Meaning
import Midend.Proofs.Redundancy.Numbering
import Midend.Proofs.Redundancy.Representative
import Midend.Proofs.Redundancy.Residue
import Midend.Proofs.Shape.Chain
import Midend.Proofs.Shape.Circle
import Midend.Proofs.Shape.Critical
import Midend.Proofs.Shape.Declined
import Midend.Proofs.Shape.Freshness
import Midend.Proofs.Shape.History
import Midend.Proofs.Shape.Label
import Midend.Proofs.Shape.Merge
import Midend.Proofs.Shape.Prune
import Midend.Proofs.Shape.Remainder
import Midend.Proofs.Shape.Restriction
import Midend.Proofs.Shape.Settled
import Midend.Proofs.Shape.Split
import Midend.Proofs.Shape.Thread
import Midend.Proofs.Trace.Basic
import Midend.Proofs.Trace.Merge
import Midend.Proofs.Trace.Split
import Midend.Proofs.Trace.Thread
import Midend.Proofs.Validity.Construction
import Midend.Proofs.Validity.Examination
import Midend.Proofs.Validity.Flags
import Midend.Proofs.Validity.Regular
import Midend.Proofs.Variable.History
import Midend.Proofs.Variable.Loop
import Midend.Proofs.Variable.Merge
import Midend.Proofs.Variable.Placement
import Midend.Proofs.Variable.Refusal
import Midend.Proofs.Variable.Seal
import Midend.Proofs.Variable.Visible
import Midend.Redundancy.Elimination
import Midend.Redundancy.Expansion
import Midend.Redundancy.Numbering
import Midend.Shape.Merge
import Midend.Shape.Prune
import Midend.Shape.Request
import Midend.Shape.Split
import Midend.Shape.Thread
import Midend.Sorted.Key
import Midend.Sorted.Map
import Midend.Sorted.Set
import Midend.Total
import Midend.Ty
import Midend.Validity.Examination
import Midend.Validity.Fault
import Midend.Validity.WellFormed
import Midend.Variable.Loop
import Midend.Variable.Merge
import Midend.Variable.Placement
import Midend.Variable.Table
