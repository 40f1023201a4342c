import ScriptMachine.Number.Binary64

set_option autoImplicit false

namespace ScriptMachine

inductive Number where
  | int (v : Int64)
  | uint (v : UInt64)
  | float (x : Binary64)
  deriving DecidableEq, Inhabited

namespace Number

def intMin : Int := -0x8000000000000000
def intMax : Int := 0x7fffffffffffffff
def uintMax : Nat := 0xffffffffffffffff

def fitsInt (n : Int) : Bool := intMin ≤ n && n ≤ intMax

def ofInt (n : Int) : Number := .int (Int64.ofInt n)
def ofNat (n : Nat) : Number := .uint (UInt64.ofNat n)

def isInt : Number → Bool
  | .int _ => true
  | _ => false

def isUInt : Number → Bool
  | .uint _ => true
  | _ => false

def isFloat : Number → Bool
  | .float _ => true
  | _ => false

def isZero : Number → Bool
  | .int v => v == 0
  | .uint v => v == 0
  | .float x => x.isZero

def isNegative : Number → Bool
  | .int v => v < 0
  | .uint _ => false
  | .float x => x.isNegative

def isNaN : Number → Bool
  | .float x => x.isNaN
  | _ => false

def integer? : Number → Option Int
  | .int v => some v.toInt
  | .uint v => some v.toNat
  | .float _ => none

/-- The integer part of a double, held within the signed words; NaN counts as 0. -/
def clampToInt (x : Binary64) : Int64 :=
  if x.isNaN then 0
  else if x.isInfinite then if x.signed then Int64.ofInt intMin else Int64.ofInt intMax
  else Int64.ofInt (max intMin (min intMax x.trunc))

/-- As a signed word: an unsigned word keeps its bits, a double is cut toward zero and clamped. -/
def toInt : Number → Int64
  | .int v => v
  | .uint v => v.toInt64
  | .float x => clampToInt x

def toFloat : Number → Binary64
  | .int v => .ofInt v.toInt
  | .uint v => .ofInt v.toNat
  | .float x => x

/-- Two numbers in the representation in which they are combined. -/
inductive Pair where
  | ints (x y : Int)
  | uints (x y : Nat)
  | floats (x y : Binary64)

/-- A double makes both doubles; two unsigned words stay so; otherwise both are taken as signed
words if both fit, and as doubles if not. -/
def pair : Number → Number → Pair
  | .int x, .int y => .ints x.toInt y.toInt
  | .uint x, .uint y => .uints x.toNat y.toNat
  | .int x, .uint y =>
    if fitsInt y.toNat then .ints x.toInt y.toNat else .floats (toFloat (.int x)) (toFloat (.uint y))
  | .uint x, .int y =>
    if fitsInt x.toNat then .ints x.toNat y.toInt else .floats (toFloat (.uint x)) (toFloat (.int y))
  | a, b => .floats a.toFloat b.toFloat

/-- The exact sum, difference or product as a signed word, or else the double computed instead. -/
def intOr (n : Int) (wide : Binary64) : Number := if fitsInt n then ofInt n else .float wide

def uintOr (n : Nat) (wide : Binary64) : Number := if n ≤ uintMax then ofNat n else .float wide

def add (a b : Number) : Number :=
  match pair a b with
  | .ints x y => intOr (x + y) (.add a.toFloat b.toFloat)
  | .uints x y => uintOr (x + y) (.add a.toFloat b.toFloat)
  | .floats x y => .float (.add x y)

/-- Of two unsigned words the smaller minus the larger is a signed word if both operands fit one. -/
def sub (a b : Number) : Number :=
  match pair a b with
  | .ints x y => intOr (x - y) (.sub a.toFloat b.toFloat)
  | .uints x y =>
    if y ≤ x then ofNat (x - y)
    else if fitsInt x && fitsInt y then ofInt (x - y)
    else .float (.sub a.toFloat b.toFloat)
  | .floats x y => .float (.sub x y)

def mul (a b : Number) : Number :=
  match pair a b with
  | .ints x y => intOr (x * y) (.mul a.toFloat b.toFloat)
  | .uints x y => uintOr (x * y) (.mul a.toFloat b.toFloat)
  | .floats x y => .float (.mul x y)

/-- An integer quotient where the division is exact and the quotient a word, else a double. -/
def div (a b : Number) : Number :=
  match pair a b with
  | .ints x y =>
    if y ≠ 0 ∧ ¬(x = intMin ∧ y = -1) ∧ x.tmod y = 0 then ofInt (x.tdiv y)
    else .float (.div a.toFloat b.toFloat)
  | .uints x y =>
    if y ≠ 0 ∧ x % y = 0 then ofNat (x / y) else .float (.div a.toFloat b.toFloat)
  | .floats x y => .float (.div x y)

def rem (a b : Number) : Number :=
  match pair a b with
  | .ints x y => if y = -1 then ofInt 0 else ofInt (x.tmod y)
  | .uints x y => ofNat (x % y)
  | .floats x y => .float (.rem x y)

/-- Two unsigned words give an unsigned word, all else a signed one. -/
def bitwise (op : UInt64 → UInt64 → UInt64) : Number → Number → Number
  | .uint x, .uint y => .uint (op x y)
  | a, b => .int (op a.toInt.toUInt64 b.toInt.toUInt64).toInt64

def bitAnd : Number → Number → Number := bitwise (· &&& ·)
def bitOr : Number → Number → Number := bitwise (· ||| ·)
def bitXor : Number → Number → Number := bitwise (· ^^^ ·)

/-- A shift distance within -64 to 64; every wider one has the same effect. -/
def shiftDistance : Number → Int
  | .uint v => min 64 v.toNat
  | a => max (-64) (min 64 a.toInt.toInt)

def shift (a : Number) (k : Int) : Number :=
  match a with
  | .uint v =>
    if 0 ≤ k then ofNat (v.toNat <<< k.toNat) else ofNat (v.toNat >>> (-k).toNat)
  | _ =>
    let v := a.toInt.toInt
    if 0 ≤ k then ofInt (v <<< k.toNat) else ofInt (v >>> (-k).toNat)

def shiftLeft (a b : Number) : Number := shift a (shiftDistance b)
def shiftRight (a b : Number) : Number := shift a (-shiftDistance b)

/-- The most negative signed word widens; an unsigned word takes its two's complement. -/
def neg : Number → Number
  | .int v => if v.toInt = intMin then .float (.neg (.ofInt intMin)) else .int (-v)
  | .uint v => .uint (-v)
  | .float x => .float (.neg x)

def reverseWord (v : UInt64) : UInt64 := ⟨v.toBitVec.reverse⟩

def reverseBits : Number → Number
  | .int v => .int (reverseWord v.toUInt64).toInt64
  | .uint v => .uint (reverseWord v)
  | .float x => .float ⟨reverseWord x.bits⟩

/-- The order of two numbers, none when one of them is NaN. A negative number is below every
unsigned word; otherwise numbers of different kinds are compared as doubles. -/
def compare? (a b : Number) : Option Ordering :=
  match pair a b with
  | .ints x y => some (compare x y)
  | .uints x y => some (compare x y)
  | .floats x y =>
    if a.isNaN || b.isNaN then none
    else if a.isNegative && b.isUInt then some .lt
    else if a.isUInt && b.isNegative then some .gt
    else some (x.compareOrdered y)

/-- A NaN equals nothing, itself included. -/
def equals (a b : Number) : Bool := compare? a b == some .eq

end Number

end ScriptMachine
