import Midend.Func.Construction
import Midend.Variable.Table

/-!
# Merging versions

Where control comes together from several arms, a variable has one value if it is defined on every
arm: the definition that all arms share, or a new phi of their definitions.

A request that is rejected half-way keeps the phis and versions made so far.
-/

namespace Midend

/-- A function under construction with the versions of its variables. -/
structure Scope where
  /-- The function. -/
  func : Func
  /-- The versions of its variables. -/
  vars : VarTable
deriving DecidableEq

/-- A block that control comes from, and the versions that were current at its end. -/
abbrev Arm := BlockId × Snapshot

namespace Scope

/-- Appends a phi for a variable to a block and makes it the current version. Its type is that of
the given definition. -/
def definePhi (s : Scope) (b : BlockId) (name : String) (like : ValueId)
    (incoming : List Incoming) : Outcome Scope ValueId :=
  match s.func.tyOf? like with
  | none => .fail (.unknownValue like) s
  | some ty =>
    match s.func.append b ty (.phi incoming) with
    | ⟨.error e, f⟩ => .fail e { s with func := f }
    | ⟨.ok phi, f⟩ => .ok phi ⟨f, s.vars.define name phi⟩

/-- Settles one variable at a merge. Gives the phi if one was made. -/
def mergeVariable (merge : BlockId) (arms : List Arm) (name : String) (s : Scope) :
    Outcome Scope (Option ValueId) :=
  match arms.mapM fun arm => s.vars.definitionAt? arm.2 name with
  | none => .ok none { s with vars := s.vars.forget name }
  | some [] => .ok none s
  | some (d :: ds) =>
    if ds.all (· = d) then
      match arms.head?.bind fun arm => arm.2.get? name with
      | none => .ok none s
      | some version => .ok none { s with vars := s.vars.setCurrent name version }
    else
      match s.definePhi merge name d (arms.zipWith (fun arm v => ⟨arm.1, v⟩) (d :: ds)) with
      | ⟨.error e, s⟩ => .fail e s
      | ⟨.ok phi, s⟩ => .ok (some phi) s

/-- Settles the variables of a list, one after the other. -/
def mergeVariables (merge : BlockId) (arms : List Arm) :
    List String → Scope → Outcome Scope (List (String × ValueId))
  | [], s => .ok [] s
  | name :: names, s =>
    match mergeVariable merge arms name s with
    | ⟨.error e, s⟩ => .fail e s
    | ⟨.ok made, s⟩ =>
      match mergeVariables merge arms names s with
      | ⟨.error e, s⟩ => .fail e s
      | ⟨.ok phis, s⟩ => .ok (made.toList.map (name, ·) ++ phis) s

/-- The variables that are defined on some arm. -/
def armVariables (arms : List Arm) : List String :=
  (SortedSet.ofList (arms.flatMap (·.2.keys))).toList

/-- Settles every variable at a block where arms come together. Each arm must come from
a predecessor of the block. Gives the phis made, in the order of the variables. -/
def mergeVersions (s : Scope) (merge : BlockId) (arms : List Arm) :
    Outcome Scope (List (String × ValueId)) :=
  if !s.func.hasBlock merge then .fail (.unknownBlock merge) s
  else
    match arms.find? fun arm => !s.func.hasPred merge arm.1 with
    | some arm => .fail (.unknownBlock arm.1) s
    | none => mergeVariables merge arms (armVariables arms) s

end Scope

end Midend
