import ScriptMachine.Text

set_option autoImplicit false

namespace ScriptMachine

structure Tasks (α : Type) where
  next : Int
  pending : List (Int × α)

inductive TaskError where
  | unknownHandle (handle : Int)

def TaskError.message : TaskError → Text
  | .unknownHandle handle => "Task handle not found: " ++ Text.ofInt handle

namespace Tasks

variable {α : Type}

def empty : Tasks α := ⟨1, []⟩

def size (t : Tasks α) : Nat := t.pending.length

def enqueue (t : Tasks α) (outcome : α) : Int × Tasks α :=
  (t.next, ⟨t.next + 1, t.pending ++ [(t.next, outcome)]⟩)

def outcome (t : Tasks α) (handle : Int) : Except TaskError α :=
  match t.pending.lookup handle with
  | some a => .ok a
  | none => .error (.unknownHandle handle)

def take (t : Tasks α) (handle : Int) : Except TaskError (α × Tasks α) := do
  let a ← t.outcome handle
  return (a, { t with pending := t.pending.filter fun e => e.1 != handle })

/-- How many workers serve a wish for some number of them: at least two, and as many as there are
processors for a wish of none. -/
def workerCount (processors wished : Nat) : Nat := max 2 (if wished = 0 then processors else wished)

end Tasks

end ScriptMachine
