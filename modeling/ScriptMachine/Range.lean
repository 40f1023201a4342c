import ScriptMachine.Text
import ScriptMachine.Number.Basic

set_option autoImplicit false

namespace ScriptMachine

structure Range where
  start : Int64
  stop : Int64
  inclusive : Bool
  deriving DecidableEq, Inhabited

namespace Range

/-- How many words lie in the range; the range of all words counts one less than it holds. -/
def size (r : Range) : Nat :=
  if r.stop < r.start ∨ (r.stop = r.start ∧ r.inclusive = false) then 0
  else
    let span := (r.stop.toInt - r.start.toInt).toNat
    if r.inclusive then Nat.min Number.uintMax (span + 1) else span

def element (r : Range) (i : Nat) : Int64 := r.start + Int64.ofNat i

def includes (r : Range) (n : Int64) : Bool :=
  r.start ≤ n && (if r.inclusive then n ≤ r.stop else n < r.stop)

def last (r : Range) : Int64 := if r.inclusive then r.stop else r.stop - 1

def display (r : Range) : Text :=
  Text.ofInt r.start.toInt ++ (if r.inclusive then Text.ofString "..=" else "..") ++
    Text.ofInt r.stop.toInt

/-- The longest range that can be made a list. -/
def listLimit : Nat := 0x1000000

end Range

end ScriptMachine
