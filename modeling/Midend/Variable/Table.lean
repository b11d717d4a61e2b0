import Midend.Ident
import Midend.Sorted.Map

/-!
# Versions of variables

Each assignment to a source variable is a new version of it. A table keeps the definitions of all
versions, which only grow, and says which version is current. A snapshot is the record of current
versions at some point; restoring it makes those versions current again.
-/

namespace Midend

/-- The current version of each variable that has one, at some point of the program. -/
abbrev Snapshot := SortedMap String Nat

/-- The versions of the variables of a function. -/
structure VarTable where
  /-- The definitions of the versions of each variable, the first one first. -/
  history : SortedMap String (List ValueId) := ∅
  /-- The current version of each variable that is defined here. -/
  current : Snapshot := ∅
deriving DecidableEq, Inhabited

namespace VarTable

/-- The definitions of all versions of a variable. -/
def versions (t : VarTable) (name : String) : List ValueId := (t.history.get? name).getD []

/-- The current version of a variable. -/
def currentVersion? (t : VarTable) (name : String) : Option Nat := t.current.get? name

/-- The definition of a version. -/
def definition? (t : VarTable) (name : String) (version : Nat) : Option ValueId :=
  (t.versions name)[version]?

/-- The definition of the current version. -/
def currentDefinition? (t : VarTable) (name : String) : Option ValueId :=
  (t.currentVersion? name).bind (t.definition? name)

/-- The definition of the version that was current in a snapshot. -/
def definitionAt? (t : VarTable) (s : Snapshot) (name : String) : Option ValueId :=
  (s.get? name).bind (t.definition? name)

/-- Whether the variable has any version. -/
def hasVariable (t : VarTable) (name : String) : Bool := t.history.contains name

/-- The number of versions of a variable. -/
def versionCount (t : VarTable) (name : String) : Nat := (t.versions name).length

/-- The variables that have a version. -/
def names (t : VarTable) : List String := t.history.keys

/-- The record of current versions. -/
def snapshot (t : VarTable) : Snapshot := t.current

/-- Makes the versions of a snapshot current. Variables that it does not mention become undefined
and keep their history. -/
def restore (t : VarTable) (s : Snapshot) : VarTable := { t with current := s }

/-- Makes a version current. -/
def setCurrent (t : VarTable) (name : String) (version : Nat) : VarTable :=
  { t with current := t.current.insert name version }

/-- Makes a variable undefined here. -/
def forget (t : VarTable) (name : String) : VarTable := { t with current := t.current.erase name }

/-- Adds a version and makes it current. -/
def define (t : VarTable) (name : String) (value : ValueId) : VarTable :=
  { t with history := t.history.insert name (t.versions name ++ [value]) }.setCurrent name
    (t.versionCount name)

/-- Makes the second value the current definition of the variables whose current definition is
the first. -/
def redirect (t : VarTable) (old new : ValueId) : VarTable :=
  (t.current.keys.filter fun name => t.currentDefinition? name = some old).foldl
    (fun t name => t.define name new) t

/-! ## What each change leaves -/

@[simp] theorem versions_setCurrent (t : VarTable) (name : String) (version : Nat) (x : String) :
    (t.setCurrent name version).versions x = t.versions x := rfl

@[simp] theorem versions_forget (t : VarTable) (name x : String) :
    (t.forget name).versions x = t.versions x := rfl

@[simp] theorem versions_restore (t : VarTable) (s : Snapshot) (x : String) :
    (t.restore s).versions x = t.versions x := rfl

/-- A new version comes after those that the variable has, and no other variable changes. -/
theorem versions_define (t : VarTable) (name : String) (value : ValueId) (x : String) :
    (t.define name value).versions x =
      if x = name then t.versions name ++ [value] else t.versions x := by
  unfold versions define setCurrent
  rw [SortedMap.get?_insert]
  split <;> rfl

@[simp] theorem currentVersion?_setCurrent_self (t : VarTable) (name : String) (version : Nat) :
    (t.setCurrent name version).currentVersion? name = some version :=
  SortedMap.get?_insert_self ..

theorem currentVersion?_setCurrent_of_ne (t : VarTable) {name x : String} (version : Nat)
    (h : x ≠ name) : (t.setCurrent name version).currentVersion? x = t.currentVersion? x :=
  SortedMap.get?_insert_of_ne _ _ h

theorem currentVersion?_forget (t : VarTable) (name x : String) :
    (t.forget name).currentVersion? x = if x = name then none else t.currentVersion? x :=
  SortedMap.get?_erase ..

@[simp] theorem currentVersion?_restore (t : VarTable) (s : Snapshot) (x : String) :
    (t.restore s).currentVersion? x = s.get? x := rfl

@[simp] theorem currentVersion?_define_self (t : VarTable) (name : String) (value : ValueId) :
    (t.define name value).currentVersion? name = some (t.versionCount name) :=
  SortedMap.get?_insert_self ..

theorem currentVersion?_define_of_ne (t : VarTable) {name x : String} (value : ValueId)
    (h : x ≠ name) : (t.define name value).currentVersion? x = t.currentVersion? x :=
  SortedMap.get?_insert_of_ne _ _ h

@[simp] theorem currentDefinition?_define_self (t : VarTable) (name : String) (value : ValueId) :
    (t.define name value).currentDefinition? name = some value := by
  simp [currentDefinition?, definition?, versions_define, versionCount]

/-- The definition of a version never changes. -/
theorem definition?_define (t : VarTable) (name : String) (value : ValueId) {x : String}
    {version : Nat} {d : ValueId} (h : t.definition? x version = some d) :
    (t.define name value).definition? x version = some d := by
  unfold definition? at h ⊢
  rw [versions_define]
  split
  case isTrue eq =>
    subst eq
    rw [List.getElem?_append_left (List.getElem?_eq_some_iff.1 h).1]
    exact h
  case isFalse => exact h

@[simp] theorem currentDefinition?_restore (t : VarTable) (s : Snapshot) (x : String) :
    (t.restore s).currentDefinition? x = t.definitionAt? s x := rfl

end VarTable

end Midend
