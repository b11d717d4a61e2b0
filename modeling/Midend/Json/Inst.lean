import Midend.Inst
import Midend.Json.Basic

/-!
# Types and instructions as data

A type without parts, and an operator, is its name. Everything with parts is a variant: a record
with the name of the variant as its only field.

How a floating-point number looks in data is a matter of the format in which the data is stored, and
whoever writes or reads says how (`FloatForm`). `FloatForm.Faithful` is what a format has to do for
finite numbers to be read back as they were.
-/

namespace Midend

open Json

/-! ## Identifiers -/

/-- A block as data is its number. -/
def BlockId.toJson (b : BlockId) : Json := .nat b.index

/-- Reads the number of a block. -/
def BlockId.ofJson? (j : Json) : Option BlockId := j.word32?.map .mk

/-- A value as data is its number. -/
def ValueId.toJson (v : ValueId) : Json := .nat v.index

/-- Reads the number of a value. -/
def ValueId.ofJson? (j : Json) : Option ValueId := j.word32?.map .mk

/-! ## Types -/

/-- The name of a type without parts. -/
def Scalar.dataName : Scalar → String
  | .void => "Void"
  | .bool => "Bool"
  | .i8 => "I8"
  | .i16 => "I16"
  | .i32 => "I32"
  | .i64 => "I64"
  | .u8 => "U8"
  | .u16 => "U16"
  | .u32 => "U32"
  | .u64 => "U64"
  | .f32 => "F32"
  | .f64 => "F64"
  | .comptimeInt => "ComptimeInt"
  | .comptimeFloat => "ComptimeFloat"

/-- The types without parts. -/
def Scalar.all : List Scalar :=
  [.void, .bool, .i8, .i16, .i32, .i64, .u8, .u16, .u32, .u64, .f32, .f64, .comptimeInt,
    .comptimeFloat]

/-- The type without parts that has the given name. -/
def Scalar.ofDataName? (s : String) : Option Scalar := Scalar.all.find? (·.dataName = s)

namespace Ty

mutual

/-- A type as data. -/
def toJson : Ty → Json
  | .scalar s => .str s.dataName
  | .ptr t => variant "Ptr" t.toJson
  | .array n t => variant "Array" (.obj [("size", .nat n.toNat), ("element_type", t.toJson)])
  | .struct name fields =>
    variant "Struct" (.obj [("name", option .str name), ("fields", .arr (typesToJson fields))])

/-- The items of a list of types. -/
def typesToJson : List Ty → List Json
  | [] => []
  | t :: ts => t.toJson :: typesToJson ts

end

mutual

/-- Reads a type. -/
def ofJson? : Json → Option Ty
  | .str s => (Scalar.ofDataName? s).map .scalar
  | .obj [(tag, payload)] =>
    if tag = "Ptr" then (ofJson? payload).map .ptr
    else
      match payload with
      | .obj fields =>
        if tag = "Array" then do
          let size ← lookup? "size" fields >>= word64?
          return .array size.toUInt64 (← elementOfJson? fields)
        else if tag = "Struct" then do
          let name ← option? str? ((lookup? "name" fields).getD .null)
          return .struct name (← fieldsOfJson? fields)
        else none
      | _ => none
  | _ => none

/-- Reads the field that holds the type of the elements of an array. -/
def elementOfJson? : List (String × Json) → Option Ty
  | [] => none
  | (k, j) :: rest => if k = "element_type" then ofJson? j else elementOfJson? rest

/-- Reads the field that holds the fields of a struct. -/
def fieldsOfJson? : List (String × Json) → Option (List Ty)
  | [] => none
  | (k, j) :: rest =>
    if k = "fields" then
      match j with
      | .arr items => typesOfJson? items
      | _ => none
    else fieldsOfJson? rest

/-- Reads the items of a list of types. -/
def typesOfJson? : List Json → Option (List Ty)
  | [] => some []
  | j :: js => do return (← ofJson? j) :: (← typesOfJson? js)

end

end Ty

/-! ## Operators and literals -/

/-- The name of an operation on two values. -/
def BinaryOp.dataName : BinaryOp → String
  | .add => "Add"
  | .sub => "Sub"
  | .mul => "Mul"
  | .div => "Div"
  | .rem => "Rem"
  | .and => "And"
  | .or => "Or"
  | .xor => "Xor"
  | .shl => "Shl"
  | .shr => "Shr"
  | .eq => "Eq"
  | .ne => "Ne"
  | .lt => "Lt"
  | .le => "Le"
  | .gt => "Gt"
  | .ge => "Ge"

/-- The operations on two values. -/
def BinaryOp.all : List BinaryOp :=
  [.add, .sub, .mul, .div, .rem, .and, .or, .xor, .shl, .shr, .eq, .ne, .lt, .le, .gt, .ge]

/-- An operation on two values as data. -/
def BinaryOp.toJson (op : BinaryOp) : Json := .str op.dataName

/-- Reads an operation on two values. -/
def BinaryOp.ofJson? (j : Json) : Option BinaryOp :=
  j.str?.bind fun s => BinaryOp.all.find? (·.dataName = s)

/-- The name of an operation on one value. -/
def UnaryOp.dataName : UnaryOp → String
  | .neg => "Neg"
  | .not => "Not"
  | .bitNot => "BitNot"

/-- The operations on one value. -/
def UnaryOp.all : List UnaryOp := [.neg, .not, .bitNot]

/-- An operation on one value as data. -/
def UnaryOp.toJson (op : UnaryOp) : Json := .str op.dataName

/-- Reads an operation on one value. -/
def UnaryOp.ofJson? (j : Json) : Option UnaryOp :=
  j.str?.bind fun s => UnaryOp.all.find? (·.dataName = s)

/-- How a format writes and reads floating-point numbers. -/
structure FloatForm where
  /-- A number as data. -/
  write : Binary64 → Json
  /-- Reads a number. -/
  read? : Json → Option Binary64

/-- What is asked of a format: a finite number is read back as it was, and any other is written as
null, which is not read as a number. -/
structure FloatForm.Faithful (form : FloatForm) : Prop where
  read?_write : ∀ x : Binary64, x.isFinite = true → form.read? (form.write x) = some x
  write_of_not_finite : ∀ x : Binary64, x.isFinite = false → form.write x = .null
  read?_null : form.read? .null = none

namespace Literal

/-- A literal as data. -/
def toJson (form : FloatForm) : Literal → Json
  | .int n => variant "Int" (.int n.toInt)
  | .float x => variant "Float" (form.write x)
  | .bool b => variant "Bool" (.bool b)

/-- Reads an integer of sixty-four bits. -/
def int64? (j : Json) : Option Int64 :=
  j.int?.bind fun n => if -0x8000000000000000 ≤ n ∧ n < 0x8000000000000000 then some (Int64.ofInt n) else none

/-- Reads a literal. -/
def ofJson? (form : FloatForm) (j : Json) : Option Literal :=
  j.variant?.bind fun (tag, payload) =>
    match tag with
    | "Int" => (int64? payload).map .int
    | "Float" => (form.read? payload).map .float
    | "Bool" => payload.bool?.map .bool
    | _ => none

end Literal

/-! ## Operations and instructions -/

/-- A pair of a phi as data. -/
def Incoming.toJson (p : Incoming) : Json :=
  .obj [("block", p.block.toJson), ("value", p.value.toJson)]

/-- Reads a pair of a phi. -/
def Incoming.ofJson? (j : Json) : Option Incoming := do
  return ⟨← j.get? "block" BlockId.ofJson?, ← j.get? "value" ValueId.ofJson?⟩

namespace Op

/-- An operation as data. -/
def toJson (form : FloatForm) : Op → Json
  | .const c => variant "Const" (c.toJson form)
  | .slot name => variant "Local" (.obj [("name", .str name)])
  | .load p => variant "Load" (.obj [("ptr", p.toJson)])
  | .store p v => variant "Store" (.obj [("ptr", p.toJson), ("value", v.toJson)])
  | .binary op a b =>
    variant "Binary" (.obj [("op", op.toJson), ("lhs", a.toJson), ("rhs", b.toJson)])
  | .unary op a => variant "Unary" (.obj [("op", op.toJson), ("operand", a.toJson)])
  | .call callee args =>
    variant "Call" (.obj [("callee", .str callee), ("args", list ValueId.toJson args)])
  | .branch c t e =>
    variant "Branch"
      (.obj [("condition", c.toJson), ("then_block", t.toJson), ("else_block", e.toJson)])
  | .jump t => variant "Jump" (.obj [("target", t.toJson)])
  | .ret v => variant "Return" (.obj [("value", option ValueId.toJson v)])
  | .alloca t => variant "Alloca" (.obj [("allocated", t.toJson)])
  | .convert a => variant "Convert" (.obj [("operand", a.toJson)])
  | .phi incoming => variant "Phi" (.obj [("incoming", list Incoming.toJson incoming)])

/-- Reads an operation whose parts are the fields of a record. -/
def ofRecord? (tag : String) (r : Json) : Option Op :=
  match tag with
  | "Local" => do return .slot (← r.get? "name" str?)
  | "Load" => do return .load (← r.get? "ptr" ValueId.ofJson?)
  | "Store" => do
    return .store (← r.get? "ptr" ValueId.ofJson?) (← r.get? "value" ValueId.ofJson?)
  | "Binary" => do
    return .binary (← r.get? "op" BinaryOp.ofJson?) (← r.get? "lhs" ValueId.ofJson?)
      (← r.get? "rhs" ValueId.ofJson?)
  | "Unary" => do
    return .unary (← r.get? "op" UnaryOp.ofJson?) (← r.get? "operand" ValueId.ofJson?)
  | "Call" => do
    return .call (← r.get? "callee" str?) (← r.get? "args" (list? ValueId.ofJson?))
  | "Branch" => do
    return .branch (← r.get? "condition" ValueId.ofJson?) (← r.get? "then_block" BlockId.ofJson?)
      (← r.get? "else_block" BlockId.ofJson?)
  | "Jump" => do return .jump (← r.get? "target" BlockId.ofJson?)
  | "Return" => do return .ret (← r.getOption? "value" ValueId.ofJson?)
  | "Alloca" => do return .alloca (← r.get? "allocated" Ty.ofJson?)
  | "Convert" => do return .convert (← r.get? "operand" ValueId.ofJson?)
  | "Phi" => do return .phi (← r.get? "incoming" (list? Incoming.ofJson?))
  | _ => none

/-- Reads an operation. -/
def ofJson? (form : FloatForm) (j : Json) : Option Op :=
  j.variant?.bind fun (tag, payload) =>
    if tag = "Const" then (Literal.ofJson? form payload).map .const
    else
      match payload with
      | .obj _ => ofRecord? tag payload
      | _ => none

end Op

/-- An instruction as data. -/
def Inst.toJson (form : FloatForm) (i : Inst) : Json :=
  .obj [("id", i.id.toJson), ("ty", i.ty.toJson), ("is_comptime", .bool i.comptime),
    ("kind", i.op.toJson form)]

/-- Reads an instruction. -/
def Inst.ofJson? (form : FloatForm) (j : Json) : Option Inst := do
  return {
    id := ← j.get? "id" ValueId.ofJson?
    ty := ← j.get? "ty" Ty.ofJson?
    comptime := ← j.get? "is_comptime" bool?
    op := ← j.get? "kind" (Op.ofJson? form) }

end Midend
