import ScriptMachine.Journal
import ScriptMachine.Value.Entries

set_option autoImplicit false

namespace ScriptMachine

/-- What is written to the error stream: plain text, or the mirror of an entry in the journal kept at
a path. -/
inductive Message where
  | plain (t : Text)
  | logged (path : Text) (e : LogEntry)

structure Console where
  out : List Text
  err : List Message

namespace Console

def empty : Console := ⟨[], []⟩

def write (c : Console) (t : Text) : Console := { c with out := t :: c.out }
def complain (c : Console) (t : Text) : Console := { c with err := .plain t :: c.err }

def mirror (c : Console) (path : Text) : Option LogEntry → Console
  | some e => { c with err := .logged path e :: c.err }
  | none => c

def outText (c : Console) : Text := c.out.reverse.flatten

def errText (c : Console) (time : Text) : Text :=
  (c.err.reverse.map fun
    | .plain t => t
    | .logged _ e => e.render time).flatten

end Console

structure SharedValues where
  entries : List (Text × Value)

namespace SharedValues

def empty : SharedValues := ⟨[]⟩

def get? (s : SharedValues) (key : Text) : Option Value := s.entries.lookup key

def has (s : SharedValues) (key : Text) : Bool := (s.get? key).isSome

def setEntry (key : Text) (v : Value) : List (Text × Value) → List (Text × Value)
  | [] => [(key, v)]
  | (k, w) :: rest => if k == key then (k, v) :: rest else (k, w) :: setEntry key v rest

def put (s : SharedValues) (key : Text) (v : Value) : SharedValues := ⟨setEntry key v s.entries⟩

def erase (s : SharedValues) (key : Text) : SharedValues :=
  ⟨s.entries.filter fun e => e.1 != key⟩

def keys (s : SharedValues) : List Text :=
  (s.entries.map Prod.fst).mergeSort fun a b => Text.compare a b != .gt

def size (s : SharedValues) : Nat := s.entries.length

end SharedValues

structure Host where
  console : Console
  journal : Journal
  /-- None when the machine runs without shared values. -/
  shared : Option SharedValues
  /-- A counter for the use of embedding functions. -/
  ticks : Nat
  /-- The next identity to give to an object or a run. -/
  nextId : Nat

namespace Host

def write (h : Host) (t : Text) : Host := { h with console := h.console.write t }
def complain (h : Host) (t : Text) : Host := { h with console := h.console.complain t }

def quiet (h : Host) : Host := { h with console := .empty }

def log (h : Host) (level : LogLevel) (t : Text) : Host :=
  { h with console := h.console.mirror h.journal.path (h.journal.message level t) }

def freshId (h : Host) : Nat × Host := (h.nextId, { h with nextId := h.nextId + 1 })

end Host

end ScriptMachine
