import Midend.Func.Revision
import Midend.Variable.Merge

/-!
# Variables of a loop

The body of a loop is built before it is known which variables it changes. So every variable gets
a phi in the header first (`Scope.openLoop`), with the definition from before the loop as its only
pair. When the body is built the phis get their second pair, and those that turn out to have one
value only are removed again (`Scope.sealLoop`), which can leave others with one value only.
-/

namespace Midend

/-- The phis of a loop that is being built. -/
structure LoopPhis where
  /-- The block where the loop begins. -/
  header : BlockId
  /-- The phi of each variable. -/
  phis : List (String × ValueId)
deriving DecidableEq

/-- The phi of a variable. -/
def LoopPhis.phiFor? (l : LoopPhis) (name : String) : Option ValueId :=
  (l.phis.find? (·.1 = name)).map (·.2)

/-- The one value that a phi takes, apart from itself. -/
def Func.trivialValue? (f : Func) (phi : ValueId) : Option ValueId :=
  (f.value? phi).bind fun i =>
    match i.op with
    | .phi incoming =>
      match (incoming.map (·.value)).filter (· ≠ phi) with
      | [] => none
      | v :: vs => if vs.all (· = v) then some v else none
    | _ => none

namespace Scope

/-! ## Before the body -/

/-- Makes a phi with one pair for each of the listed definitions. -/
def openPhis (header preheader : BlockId) :
    List (String × ValueId) → Scope → Outcome Scope (List (String × ValueId))
  | [], s => .ok [] s
  | (name, d) :: rest, s =>
    match s.definePhi header name d [⟨preheader, d⟩] with
    | ⟨.error e, s⟩ => .fail e s
    | ⟨.ok phi, s⟩ =>
      match openPhis header preheader rest s with
      | ⟨.error e, s⟩ => .fail e s
      | ⟨.ok phis, s⟩ => .ok ((name, phi) :: phis) s

/-- Gives every variable that is defined here a phi in the header of a loop, with its definition
from the block before the loop. The phis are current afterwards. -/
def openLoop (s : Scope) (header preheader : BlockId) : Outcome Scope LoopPhis :=
  let defined := s.vars.current.keys.filterMap fun name =>
    (s.vars.currentDefinition? name).map (name, ·)
  match openPhis header preheader defined s with
  | ⟨.error e, s⟩ => .fail e s
  | ⟨.ok phis, s⟩ => .ok ⟨header, phis⟩ s

/-! ## After the body -/

/-- Completes the phis with the definitions that are current at the end of the body; a variable
that is not defined there keeps its phi. -/
def completePhis (latch : BlockId) : List (String × ValueId) → Scope → Outcome Scope Unit
  | [], s => .ok () s
  | (name, phi) :: rest, s =>
    let value := (s.vars.currentDefinition? name).getD phi
    match s.func.addIncoming phi latch value with
    | ⟨.error e, f⟩ => .fail e { s with func := f }
    | ⟨.ok (), f⟩ => completePhis latch rest { s with func := f }

/-- Removes a phi and puts its one value in its place. -/
def forward (s : Scope) (phi value : ValueId) : Scope :=
  { func := ((s.func.removeValue phi).2.replaceUses phi value).2
    vars := s.vars.redirect phi value }

/-- Removes phis that have one value only until there are none among the live ones. Records what
stands in the place of each. Every step removes one of the live ones. -/
def dropTrivial : Nat → List ValueId → SortedMap ValueId ValueId → Scope →
    SortedMap ValueId ValueId × Scope
  | 0, _, forwarded, s => (forwarded, s)
  | fuel + 1, live, forwarded, s =>
    match live.findSome? fun phi => (s.func.trivialValue? phi).map (phi, ·) with
    | none => (forwarded, s)
    | some (phi, value) =>
      dropTrivial fuel (live.erase phi) (forwarded.insert phi value) (s.forward phi value)

/-- Follows the record of what stands in the place of a value to its end. -/
def follow (forwarded : SortedMap ValueId ValueId) : Nat → ValueId → ValueId
  | 0, v => v
  | fuel + 1, v =>
    match forwarded.get? v with
    | none => v
    | some w => follow forwarded fuel w

/-- Completes the phis of a loop at the end of its body and removes those that have one value
only. The values at the header are current afterwards, since the loop is left from there. Gives
the number of phis removed. -/
def sealLoop (s : Scope) (l : LoopPhis) (latch : BlockId) : Outcome Scope Nat :=
  match completePhis latch l.phis s with
  | ⟨.error e, s⟩ => .fail e s
  | ⟨.ok (), s⟩ =>
    let (forwarded, s) := dropTrivial l.phis.length (l.phis.map (·.2)) ∅ s
    let vars := l.phis.foldl
      (fun t (name, phi) => t.define name (follow forwarded forwarded.size phi)) s.vars
    .ok forwarded.size { s with vars }

end Scope

end Midend
