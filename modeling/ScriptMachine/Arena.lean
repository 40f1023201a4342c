import ScriptMachine.Value.Basic

set_option autoImplicit false

/-!
# The arena of mutable variables

Every mutable variable lives in a cell, and is reached by a handle. A released slot is used again
with the next generation, so that a handle never reaches a later variable. A cell can be borrowed
exclusively; until that borrow ends it can be neither read, written nor released. A pinned cell
belongs to the whole run and not to a frame.
-/
namespace ScriptMachine

structure Cell where
  value : Value
  generation : UInt32
  occupied : Bool
  exclusive : Bool
  pinned : Bool

structure Arena where
  cells : Array Cell
  /-- The released slots, the latest first. -/
  free : List UInt32
  live : Nat

def CellHandle.describe (h : CellHandle) : Text :=
  "cell " ++ Text.ofNat h.index.toNat ++ "#" ++ Text.ofNat h.generation.toNat

namespace Arena

def empty : Arena := ⟨#[], [], 0⟩

def setCell (a : Arena) (i : Nat) (c : Cell) : Arena := { a with cells := a.cells.setIfInBounds i c }

def cell (a : Arena) (h : CellHandle) : Except Fault Cell :=
  match a.cells[h.index.toNat]? with
  | none => .error (.runtimeError ("Invalid " ++ h.describe))
  | some c =>
    if c.occupied && c.generation == h.generation then .ok c
    else .error (.runtimeError ("Stale " ++ h.describe))

def alive (a : Arena) (h : CellHandle) : Bool :=
  match a.cells[h.index.toNat]? with
  | none => false
  | some c => c.occupied && c.generation == h.generation

/-- The slot that is used next, and the list and the cells then: the one released last, or else a new one. The
number of a new slot is cut to 32 bits. -/
def nextSlot (a : Arena) : UInt32 × List UInt32 × Array Cell :=
  match a.free with
  | i :: free => (i, free, a.cells)
  | [] => (a.cells.size.toUInt32, [], a.cells.push ⟨.none, 0, false, false, false⟩)

def allocate (a : Arena) (v : Value) : CellHandle × Arena :=
  let (i, free, cells) := a.nextSlot
  let generation := ((cells[i.toNat]?).map (·.generation)).getD 0
  (⟨i, generation⟩,
    ⟨cells.setIfInBounds i.toNat ⟨v, generation, true, false, false⟩, free, a.live + 1⟩)

def borrowFault {α : Type} : Except Fault α :=
  .error (.borrowConflict "Value is already mutably borrowed")

def release (a : Arena) (h : CellHandle) : Except Fault Arena := do
  let c ← a.cell h
  if c.exclusive then
    .error (.borrowConflict ("Cannot release " ++ h.describe ++ " while it is borrowed"))
  else
    return { a.setCell h.index.toNat ⟨.none, c.generation + 1, false, false, false⟩ with
      free := h.index :: a.free, live := a.live - 1 }

def read (a : Arena) (h : CellHandle) : Except Fault Value := do
  let c ← a.cell h
  if c.exclusive then borrowFault else return c.value

def write (a : Arena) (h : CellHandle) (v : Value) : Except Fault Arena := do
  let c ← a.cell h
  if c.exclusive then borrowFault else return a.setCell h.index.toNat { c with value := v }

def beginExclusive (a : Arena) (h : CellHandle) : Except Fault (Value × Arena) := do
  let c ← a.cell h
  if c.exclusive then borrowFault
  else return (c.value, a.setCell h.index.toNat { c with exclusive := true })

def endExclusive (a : Arena) (h : CellHandle) : Except Fault Arena := do
  let c ← a.cell h
  return a.setCell h.index.toNat { c with exclusive := false }

def isBorrowed (a : Arena) (h : CellHandle) : Except Fault Bool := do return (← a.cell h).exclusive

def notBorrowed {α : Type} (h : CellHandle) : Except Fault α :=
  .error (.runtimeError (h.describe ++ " is not borrowed"))

def borrowed (a : Arena) (h : CellHandle) : Except Fault Value := do
  let c ← a.cell h
  if c.exclusive then return c.value else notBorrowed h

def setBorrowed (a : Arena) (h : CellHandle) (v : Value) : Except Fault Arena := do
  let c ← a.cell h
  if c.exclusive then return a.setCell h.index.toNat { c with value := v } else notBorrowed h

def pin (a : Arena) (h : CellHandle) : Except Fault Arena := do
  let c ← a.cell h
  return a.setCell h.index.toNat { c with pinned := true }

def isPinned (a : Arena) (h : CellHandle) : Except Fault Bool := do return (← a.cell h).pinned

def holds (a : Arena) (h : CellHandle) (test : Cell → Bool) : Bool :=
  match a.cell h with
  | .ok c => test c
  | .error _ => false

def endBorrow (a : Arena) (h : CellHandle) : Arena := (a.endExclusive h).toOption.getD a

/-- Releases a cell that is alive and not borrowed, and leaves any other alone. -/
def releaseIfFree (a : Arena) (h : CellHandle) : Arena := (a.release h).toOption.getD a

/-- Releases a cell, unless it is borrowed or belongs to the whole run. -/
def discard (a : Arena) (h : CellHandle) : Arena :=
  if a.holds h (fun c => c.pinned) then a else a.releaseIfFree h

end Arena

end ScriptMachine
