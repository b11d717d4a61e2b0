import Midend.Program

/-!
# Listings

The written form of instructions, blocks, functions and programs, for people to read. An
instruction without a result is written without its name, as are calls of type void.
-/

namespace Midend

/-- Items separated by commas. -/
def commaList (items : List String) : String := ", ".intercalate items

/-- A pair of a phi: the value first. -/
def Incoming.text (p : Incoming) : String := "[" ++ p.value.text ++ ", " ++ p.block.text ++ "]"

/-- The line of an instruction. -/
def Inst.text (i : Inst) : String :=
  let result := i.id.text ++ " = "
  let ty := i.ty.text
  let known := if i.comptime then "comptime " else ""
  match i.op with
  | .const c => s!"{result}{known}const {ty} {c.text}"
  | .slot name => s!"{result}local {ty} {name}"
  | .load p => s!"{result}load {ty}, {p.text}"
  | .store p v => s!"store {v.text}, {p.text}"
  | .binary op a b => s!"{result}{known}{op.text} {ty} {a.text}, {b.text}"
  | .unary op a => s!"{result}{known}{op.text} {ty} {a.text}"
  | .call callee args =>
    let shown := if i.ty = .void then "" else result
    s!"{shown}{known}call {ty} @{callee}({commaList (args.map ValueId.text)})"
  | .branch c t e => s!"br {c.text}, {t.text}, {e.text}"
  | .jump t => s!"jmp {t.text}"
  | .ret (some v) => s!"ret {v.text}"
  | .ret none => "ret void"
  | .alloca t => s!"{result}alloca {t.text}"
  | .convert a => s!"{result}{known}convert {a.text} to {ty}"
  | .phi incoming => s!"{result}{known}phi {ty} {commaList (incoming.map Incoming.text)}"

/-- A heading with the label, the name and the blocks that control can come from, then one
indented line for each instruction. -/
def Block.text (b : Block) : String :=
  let preds :=
    if b.preds.isEmpty then ""
    else "  ; preds:" ++ String.join (b.preds.toList.map fun p => " " ++ p.text)
  s!"{b.label} ({b.id.text}):{preds}\n" ++ String.join (b.insts.map fun i => "  " ++ i.text ++ "\n")

/-- A parameter with its type. -/
def Param.text (p : Param) : String := s!"{p.name}: {p.ty.text}"

/-- The signature of a function and its blocks in the order of the layout. -/
def Func.text (f : Func) : String :=
  "fn " ++ f.name ++ "(" ++ commaList (f.params.map Param.text) ++ ") -> " ++ f.returnTy.text
    ++ " \x7b\n" ++ String.join (f.blocks.map Block.text) ++ "\x7d\n"

/-- The name of a program and its functions with a blank line between them. -/
def Program.text (p : Program) : String :=
  "; module " ++ p.name ++ "\n" ++ "\n".intercalate (p.funcs.map Func.text)

end Midend
