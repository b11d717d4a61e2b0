/-!
# Data

The data form in which types, instructions, functions and programs are stored and exchanged:
truth values, decimal numbers, text, lists and records.

Reading is total: a reader gives nothing when the data does not have the form it needs. Records
are read by field name, and fields that nobody asks for are ignored.
-/

namespace Midend

/-- A piece of data. -/
inductive Json where
  | null
  | bool (b : Bool)
  /-- The number `digits / 10 ^ places` with its sign, which zero has as well. It is written as a
  whole number when there are no places. -/
  | num (negative : Bool) (digits places : Nat)
  | str (s : String)
  | arr (items : List Json)
  | obj (fields : List (String × Json))
deriving Inhabited, Repr

namespace Json

/-! ## Writing -/

/-- A whole number from zero up. -/
def nat (n : Nat) : Json := .num false n 0

/-- A whole number. -/
def int (n : Int) : Json := .num (n < 0) n.natAbs 0

/-- A value or nothing. -/
def option {α : Type} (write : α → Json) : Option α → Json
  | none => .null
  | some a => write a

/-- A variant with its payload. -/
def variant (tag : String) (payload : Json) : Json := .obj [(tag, payload)]

/-- A list. -/
def list {α : Type} (write : α → Json) (l : List α) : Json := .arr (l.map write)

/-! ## Reading -/

/-- The value of a field in a list of fields. -/
def lookup? (name : String) : List (String × Json) → Option Json
  | [] => none
  | (k, j) :: rest => if k = name then some j else lookup? name rest

/-- The value of a field of a record. -/
def field? (name : String) : Json → Option Json
  | .obj fields => lookup? name fields
  | _ => none

/-- A truth value. -/
def bool? : Json → Option Bool
  | .bool b => some b
  | _ => none

/-- Text. -/
def str? : Json → Option String
  | .str s => some s
  | _ => none

/-- A whole number. -/
def int? : Json → Option Int
  | .num negative n 0 => some (if negative then -n else n)
  | _ => none

/-- A whole number from zero up to below a bound. -/
def natBelow? (bound : Nat) : Json → Option Nat
  | .num false n 0 => if n < bound then some n else none
  | _ => none

/-- A number that fits in thirty-two bits. -/
def word32? : Json → Option Nat := natBelow? 0x100000000

/-- A number that fits in sixty-four bits. -/
def word64? : Json → Option Nat := natBelow? 0x10000000000000000

/-- Reads every item of a list. -/
def list? {α : Type} (read : Json → Option α) : Json → Option (List α)
  | .arr items => items.mapM read
  | _ => none

/-- A value, or nothing where the data is null. -/
def option? {α : Type} (read : Json → Option α) : Json → Option (Option α)
  | .null => some none
  | j => (read j).map some

/-- Reads a field of a record. -/
def get? {α : Type} (j : Json) (name : String) (read : Json → Option α) : Option α :=
  (j.field? name).bind read

/-- Reads a field of a record that may be missing or null. -/
def getOption? {α : Type} (j : Json) (name : String) (read : Json → Option α) :
    Option (Option α) :=
  option? read ((j.field? name).getD .null)

/-- The tag and the payload of a variant. -/
def variant? : Json → Option (String × Json)
  | .obj [(tag, payload)] => some (tag, payload)
  | _ => none

end Json

end Midend
