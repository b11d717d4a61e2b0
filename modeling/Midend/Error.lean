import Midend.Ident
import Midend.Pass

/-!
# Errors

The reasons for which a request is rejected, and their wording. `Outcome` pairs the answer of
a request with the state it leaves behind, so that a rejected request can be compared with the
state before it.
-/

namespace Midend

/-- What a name is the name of. -/
inductive NameRole where
  | function
  | parameter
  | label
  | callee
  | slot
deriving DecidableEq, Repr

/-- The word for what a name names. -/
def NameRole.text : NameRole → String
  | .function => "function"
  | .parameter => "parameter"
  | .label => "label"
  | .callee => "callee"
  | .slot => "local"

/-- Why a request is rejected. -/
inductive Error where
  /-- There is no function to work on. -/
  | noCurrentFunction
  /-- There is no block to append to. -/
  | noCurrentBlock
  /-- The function has no such block. -/
  | unknownBlock (block : BlockId)
  /-- The function has no such value. -/
  | unknownValue (value : ValueId)
  /-- A phi is needed. -/
  | notAPhi (value : ValueId)
  /-- A value of a pointer type is needed. -/
  | notAPointer (value : ValueId)
  /-- The block is finished. -/
  | terminatorPresent (block : BlockId)
  /-- The block is not finished. -/
  | missingTerminator (block : BlockId)
  /-- The blocks and the values of a phi do not pair up. -/
  | phiArity (blocks values : Nat)
  /-- Another block has the label. -/
  | duplicateLabel (label : String)
  /-- Another function has the name. -/
  | duplicateFunction (name : String)
  /-- A name is missing. -/
  | emptyName (role : NameRole)
  /-- The function has no blocks to analyse. -/
  | emptyFunction (name : String)
  /-- A pass has left the function ill-formed. -/
  | invalidAfter (pass : Pass) (violations : Nat)
  /-- A block to install has the name of a block that stays. -/
  | blockExists (block : BlockId)
  /-- A terminator is needed. -/
  | notATerminator (opcode : String)
  /-- Any other failure, by its description. -/
  | other (message : String)
deriving DecidableEq, Repr

/-- The wording of an error. -/
def Error.message : Error → String
  | .noCurrentFunction => "No current function"
  | .noCurrentBlock => "No current block"
  | .unknownBlock b => s!"Unknown block {b.text}"
  | .unknownValue v => s!"Unknown value {v.text}"
  | .notAPhi v => s!"Value {v.text} is not a phi"
  | .notAPointer v => s!"Value {v.text} does not have a pointer type"
  | .terminatorPresent b => s!"Block {b.text} already ends with a terminator"
  | .missingTerminator b => s!"Block {b.text} has no terminator"
  | .phiArity bs vs => s!"Phi arity mismatch: {bs} incoming blocks, {vs} incoming values"
  | .duplicateLabel l => s!"Duplicate block label '{l}'"
  | .duplicateFunction n => s!"Duplicate function '{n}'"
  | .emptyName r => s!"Empty {r.text} name"
  | .emptyFunction n => s!"Function '{n}' has no blocks"
  | .invalidAfter p n => s!"Validation failed after {p.text}: {n} violation(s)"
  | .blockExists b => s!"Internal error: block {b.text} already exists"
  | .notATerminator o => s!"Internal error: {o} is not a terminator"
  | .other m => s!"Internal error: {m}"

/-- The answer of a request, or the reason for its rejection, and the state that it leaves. -/
structure Outcome (σ α : Type) where
  /-- The answer or the reason. -/
  answer : Except Error α
  /-- The state afterwards. -/
  state : σ

namespace Outcome

variable {σ τ α β : Type}

/-- A request that is granted. -/
def ok (a : α) (s : σ) : Outcome σ α := ⟨.ok a, s⟩

/-- A request that is rejected. -/
def fail (e : Error) (s : σ) : Outcome σ α := ⟨.error e, s⟩

/-- Whether the request was granted. -/
def isOk (o : Outcome σ α) : Bool := o.answer matches .ok _

/-- The answer of a granted request. -/
def answer? (o : Outcome σ α) : Option α :=
  match o.answer with
  | .ok a => some a
  | .error _ => none

/-- Goes on with the answer and the state if the request is granted. -/
def andThen (o : Outcome σ α) (next : α → σ → Outcome σ β) : Outcome σ β :=
  match o.answer with
  | .ok a => next a o.state
  | .error e => fail e o.state

/-- Embeds the state into a larger one. -/
def mapState (g : σ → τ) (o : Outcome σ α) : Outcome τ α := ⟨o.answer, g o.state⟩

@[simp] theorem answer_ok (a : α) (s : σ) : (ok a s).answer = .ok a := rfl

@[simp] theorem state_ok (a : α) (s : σ) : (ok a s).state = s := rfl

@[simp] theorem answer_fail (e : Error) (s : σ) : (fail e s : Outcome σ α).answer = .error e := rfl

@[simp] theorem state_fail (e : Error) (s : σ) : (fail e s : Outcome σ α).state = s := rfl

@[simp] theorem andThen_ok (a : α) (s : σ) (next : α → σ → Outcome σ β) :
    (ok a s).andThen next = next a s := rfl

@[simp] theorem andThen_fail (e : Error) (s : σ) (next : α → σ → Outcome σ β) :
    (fail e s).andThen next = fail e s := rfl

end Outcome

end Midend
