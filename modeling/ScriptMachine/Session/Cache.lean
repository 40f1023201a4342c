import ScriptMachine.Text

set_option autoImplicit false

namespace ScriptMachine

structure Cache (α : Type) where
  capacity : Nat
  kept : List (Text × α)
  /-- The keys of what is kept, in the order of storing. -/
  order : List Text

namespace Cache

variable {α : Type}

def standardCapacity : Nat := 256

def create (capacity : Nat) : Cache α := ⟨max capacity 1, [], []⟩

def find? (c : Cache α) (key : Text) : Option α := c.kept.lookup key

def size (c : Cache α) : Nat := c.kept.length

def evict (capacity : Nat) (kept : List (Text × α)) : (order : List Text) → Cache α
  | [] => ⟨capacity, kept, []⟩
  | oldest :: order =>
    if capacity < (oldest :: order).length then
      evict capacity (kept.filter fun e => e.1 != oldest) order
    else ⟨capacity, kept, oldest :: order⟩

/-- Stores a value unless there is one already, and gives the one that is kept. -/
def store (c : Cache α) (key : Text) (a : α) : α × Cache α :=
  match c.find? key with
  | some kept => (kept, c)
  | none => (a, evict c.capacity ((key, a) :: c.kept) (c.order ++ [key]))

end Cache

end ScriptMachine
