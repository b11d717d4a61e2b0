import Midend.Func.Construction

/-!
# Programs

A program is a named list of functions. Functions are added under names that are not taken yet
and found by name.
-/

namespace Midend

/-- A unit of compilation. -/
structure Program where
  /-- The name of the program. -/
  name : String
  /-- The functions in the order in which they were added. -/
  funcs : List Func := []
deriving DecidableEq, Inhabited

namespace Program

/-- The first function of the given name. -/
def find? (p : Program) (name : String) : Option Func := p.funcs.find? (·.name = name)

/-- Adds a function under its name. -/
def add (p : Program) (f : Func) : Outcome Program Unit :=
  if f.name = "" then .fail (.emptyName .function) p
  else if (p.find? f.name).isSome then .fail (.duplicateFunction f.name) p
  else .ok () { p with funcs := p.funcs ++ [f] }

/-- Takes the first function of the given name out. -/
def remove (p : Program) (name : String) : Option Func × Program :=
  (p.find? name, { p with funcs := p.funcs.eraseP (·.name = name) })

/-- Puts a function in place of the first of the listed functions that has the given name. -/
def putFirst (name : String) (f : Func) : List Func → List Func
  | [] => []
  | g :: gs => if g.name = name then f :: gs else g :: putFirst name f gs

/-- Makes a request to the first function of the given name, if there is one. -/
def request (p : Program) (name : String) {α : Type} (r : Func → Outcome Func α) :
    Option (Outcome Program α) :=
  (p.find? name).map fun f =>
    (r f).mapState fun g => { p with funcs := putFirst name g p.funcs }

end Program

end Midend
