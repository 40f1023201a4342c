set_option autoImplicit false

/-!
# Double precision numbers by exact arithmetic

A finite double is an integer multiple of 2^-1074. All operations here are computed on these
multiples with unbounded integers and rounded once, to nearest with ties to even, so they are the
operations of the IEEE 754 binary64 format and every one of them can be evaluated in a proof.
-/
namespace ScriptMachine

structure Binary64 where
  bits : UInt64
  deriving DecidableEq, Inhabited

namespace Binary64

def signMask : UInt64 := 0x8000000000000000
def infinityBits : UInt64 := 0x7ff0000000000000

def invalid : Binary64 := ⟨0xfff8000000000000⟩

def zero : Binary64 := ⟨0⟩

def magnitude (x : Binary64) : UInt64 := x.bits &&& ~~~signMask
def signed (x : Binary64) : Bool := x.bits &&& signMask != 0

def isNaN (x : Binary64) : Bool := infinityBits < x.magnitude
def isInfinite (x : Binary64) : Bool := x.magnitude == infinityBits
def isFinite (x : Binary64) : Bool := x.magnitude < infinityBits
def isZero (x : Binary64) : Bool := x.magnitude == 0
def isNegative (x : Binary64) : Bool := x.signed && !x.isZero && !x.isNaN

def withSign (negative : Bool) (magnitude : UInt64) : Binary64 :=
  ⟨if negative then magnitude ||| signMask else magnitude⟩

def infinity (negative : Bool) : Binary64 := withSign negative infinityBits
def zeroOf (negative : Bool) : Binary64 := withSign negative 0

def neg (x : Binary64) : Binary64 := ⟨x.bits ^^^ signMask⟩

def unit : Nat := 1 <<< 1074

def leadingBit : Nat := 0x0010000000000000

def absUnits (x : Binary64) : Nat :=
  let m := x.magnitude.toNat
  let e := m / leadingBit
  let fraction := m % leadingBit
  if e = 0 then fraction else (leadingBit + fraction) <<< (e - 1)

def units (x : Binary64) : Int := if x.signed then -(x.absUnits : Int) else x.absUnits

/-- The integer nearest to `num / den`, an exact half going to the even one. -/
def nearestEven (num den : Nat) : Nat :=
  let q := num / den
  let r := num % den
  if 2 * r < den then q else if den < 2 * r then q + 1 else q + q % 2

/-- The magnitude bits of the double nearest to `num / den` units. The quotient is cut to 53
significant bits; a carry out of them moves into the exponent field by itself. -/
def roundBits (num den : Nat) : Nat :=
  let q := num / den
  let shift := if q < 2 * leadingBit then 0 else q.log2 - 52
  Nat.min infinityBits.toNat (shift * leadingBit + nearestEven num (den <<< shift))

def round (negative : Bool) (num den : Nat) : Binary64 :=
  withSign negative (roundBits num den).toUInt64

def ofInt (n : Int) : Binary64 := round (n < 0) (n.natAbs * unit) 1

/-- A NaN operand is passed on, the left one first, with its quiet bit set. -/
def quiet (x : Binary64) : Binary64 := ⟨x.bits ||| 0x0008000000000000⟩

def withoutNaN (x y : Binary64) (op : Unit → Binary64) : Binary64 :=
  if x.isNaN then quiet x else if y.isNaN then quiet y else op ()

def addOrdered (x y : Binary64) : Binary64 :=
  if x.isInfinite then
    if y.isInfinite && x.signed != y.signed then invalid else x
  else if y.isInfinite then y
  else
    let sum := x.units + y.units
    if sum = 0 then zeroOf (x.signed && y.signed) else round (sum < 0) sum.natAbs 1

def add (x y : Binary64) : Binary64 := withoutNaN x y fun _ => addOrdered x y

def sub (x y : Binary64) : Binary64 := withoutNaN x y fun _ => addOrdered x (neg y)

def mul (x y : Binary64) : Binary64 :=
  withoutNaN x y fun _ =>
    let negative := x.signed != y.signed
    if x.isInfinite || y.isInfinite then
      if x.isZero || y.isZero then invalid else infinity negative
    else round negative (x.absUnits * y.absUnits) unit

def div (x y : Binary64) : Binary64 :=
  withoutNaN x y fun _ =>
    let negative := x.signed != y.signed
    if x.isInfinite then
      if y.isInfinite then invalid else infinity negative
    else if y.isInfinite then zeroOf negative
    else if y.isZero then
      if x.isZero then invalid else infinity negative
    else round negative (x.absUnits * unit) y.absUnits

def rem (x y : Binary64) : Binary64 :=
  withoutNaN x y fun _ =>
    if x.isInfinite || y.isZero then invalid
    else if y.isInfinite then x
    else round x.signed (x.absUnits % y.absUnits) 1

def compareOrdered (x y : Binary64) : Ordering :=
  let rank (z : Binary64) : Int :=
    if z.signed then -(z.magnitude.toNat : Int) else z.magnitude.toNat
  compare (rank x) (rank y)

def absTrunc (x : Binary64) : Nat := x.absUnits / unit

def trunc (x : Binary64) : Int := if x.signed then -(x.absTrunc : Int) else x.absTrunc

def floor (x : Binary64) : Int := Int.fdiv x.units unit

end Binary64

end ScriptMachine
