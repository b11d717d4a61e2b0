/-!
# Types

Types are tags that instructions carry. The library compares them for equality and prints them;
it computes nothing with them beyond pointing to a type and following a pointer.
-/

namespace Midend

/-- The types that have no parts. -/
inductive Scalar where
  /-- No value: stores, terminators and calls without a result. -/
  | void
  | bool
  | i8 | i16 | i32 | i64
  | u8 | u16 | u32 | u64
  | f32 | f64
  /-- An integer literal whose width is not chosen yet. -/
  | comptimeInt
  /-- A floating-point literal whose width is not chosen yet. -/
  | comptimeFloat
deriving DecidableEq, Repr, Inhabited

namespace Scalar

/-- Whether the type is an integer type, the type of undecided integer literals included. -/
def isInteger : Scalar → Bool
  | .i8 | .i16 | .i32 | .i64 | .u8 | .u16 | .u32 | .u64 | .comptimeInt => true
  | _ => false

/-- Whether the type is a floating-point type, the type of undecided literals included. -/
def isFloat : Scalar → Bool
  | .f32 | .f64 | .comptimeFloat => true
  | _ => false

/-- The written form of a type without parts. -/
def text : Scalar → String
  | .void => "void"
  | .bool => "bool"
  | .i8 => "i8"
  | .i16 => "i16"
  | .i32 => "i32"
  | .i64 => "i64"
  | .u8 => "u8"
  | .u16 => "u16"
  | .u32 => "u32"
  | .u64 => "u64"
  | .f32 => "f32"
  | .f64 => "f64"
  | .comptimeInt => "comptime_int"
  | .comptimeFloat => "comptime_float"

end Scalar

/-- The type of a value. -/
inductive Ty where
  /-- A type without parts. -/
  | scalar (s : Scalar)
  /-- A pointer to a value of the given type. -/
  | ptr (target : Ty)
  /-- A fixed number of elements of one type. -/
  | array (size : UInt64) (element : Ty)
  /-- Fields in order, with or without a name for the whole. -/
  | struct (name : Option String) (fields : List Ty)
deriving Inhabited, Repr

namespace Ty

/-- The type of what has no value. -/
@[match_pattern] abbrev void : Ty := .scalar .void

/-- The type of truth values. -/
@[match_pattern] abbrev bool : Ty := .scalar .bool

mutual

/-- Decides whether two types are the same. -/
def decEq : (s t : Ty) → Decidable (s = t)
  | .scalar a, .scalar b =>
    if h : a = b then isTrue (h ▸ rfl) else isFalse fun hEq => h (Ty.scalar.inj hEq)
  | .ptr s, .ptr t =>
    match decEq s t with
    | isTrue h => isTrue (h ▸ rfl)
    | isFalse h => isFalse fun hEq => h (Ty.ptr.inj hEq)
  | .array n s, .array m t =>
    if hn : n = m then
      match decEq s t with
      | isTrue h => isTrue (hn ▸ h ▸ rfl)
      | isFalse h => isFalse fun hEq => h (Ty.array.inj hEq).2
    else isFalse fun hEq => hn (Ty.array.inj hEq).1
  | .struct a fs, .struct b gs =>
    if hn : a = b then
      match decEqFields fs gs with
      | isTrue h => isTrue (hn ▸ h ▸ rfl)
      | isFalse h => isFalse fun hEq => h (Ty.struct.inj hEq).2
    else isFalse fun hEq => hn (Ty.struct.inj hEq).1
  | .scalar _, .ptr _ | .scalar _, .array .. | .scalar _, .struct ..
  | .ptr _, .scalar _ | .ptr _, .array .. | .ptr _, .struct ..
  | .array .., .scalar _ | .array .., .ptr _ | .array .., .struct ..
  | .struct .., .scalar _ | .struct .., .ptr _ | .struct .., .array .. => isFalse nofun

/-- Decides whether two lists of types are the same. -/
def decEqFields : (s t : List Ty) → Decidable (s = t)
  | [], [] => isTrue rfl
  | [], _ :: _ => isFalse nofun
  | _ :: _, [] => isFalse nofun
  | a :: s, b :: t =>
    match decEq a b, decEqFields s t with
    | isTrue h, isTrue h' => isTrue (h ▸ h' ▸ rfl)
    | isFalse h, _ => isFalse fun hEq => h (List.cons.inj hEq).1
    | _, isFalse h => isFalse fun hEq => h (List.cons.inj hEq).2

end

instance : DecidableEq Ty := decEq

/-- Whether the type is an integer type. -/
def isInteger : Ty → Bool
  | .scalar s => s.isInteger
  | _ => false

/-- Whether the type is a floating-point type. -/
def isFloat : Ty → Bool
  | .scalar s => s.isFloat
  | _ => false

/-- The type that a pointer points to. -/
def pointee : Ty → Option Ty
  | .ptr t => some t
  | _ => none

/-- Whether the type is a pointer. -/
def isPointer (t : Ty) : Bool := t.pointee.isSome

mutual

/-- The written form of a type. A struct with a name is written by its name alone. -/
def text : Ty → String
  | .scalar s => s.text
  | .ptr t => "*" ++ t.text
  | .array n t => "[" ++ toString n.toNat ++ " x " ++ t.text ++ "]"
  | .struct (some name) _ => "%" ++ name
  | .struct none fields => "\x7b" ++ ", ".intercalate (fieldTexts fields) ++ "\x7d"

/-- The written forms of the fields of a struct. -/
def fieldTexts : List Ty → List String
  | [] => []
  | t :: ts => t.text :: fieldTexts ts

end

end Ty

end Midend
