import ScriptMachine.Text
import ScriptMachine.Number.Basic

set_option autoImplicit false

namespace ScriptMachine

/-- How a double is written: the number of significant digits, and the least decimal exponent that
is still written positionally. The greatest such exponent is one less than the number of digits. -/
structure DecimalStyle where
  digits : Nat
  leastPositional : Int

namespace DecimalStyle

def standard : DecimalStyle := ⟨15, -4⟩

def leadingExponent (num den : Nat) : Int :=
  if den ≤ num then (Text.ofNat (num / den)).length - 1
  else -((Text.ofNat ((den + num - 1) / num - 1)).length : Int)

def significand (style : DecimalStyle) (num den : Nat) : Nat × Int :=
  let e := leadingExponent num den
  let k := (style.digits : Int) - 1 - e
  let m :=
    if 0 ≤ k then Binary64.nearestEven (num * Nat.pow 10 k.toNat) den
    else Binary64.nearestEven num (den * Nat.pow 10 (-k).toNat)
  if m = Nat.pow 10 style.digits then (Nat.pow 10 (style.digits - 1), e + 1) else (m, e)

def dropTrailingZeros (t : Text) : Text :=
  (t.reverse.dropWhile (· == Text.byte '0')).reverse

def withPoint (whole fraction : Text) : Text :=
  let fraction := dropTrailingZeros fraction
  if fraction.isEmpty then whole else whole ++ Text.byte '.' :: fraction

def exponentText (e : Int) : Text :=
  Text.byte 'e' :: (if e < 0 then Text.byte '-' else Text.byte '+') ::
    Text.padLeft 2 (Text.byte '0') (Text.ofNat e.natAbs)

def positive (style : DecimalStyle) (num den : Nat) : Text :=
  let (m, e) := style.significand num den
  let ds := Text.ofNat m
  if e < style.leastPositional ∨ (style.digits : Int) ≤ e then
    withPoint (ds.take 1) (ds.drop 1) ++ exponentText e
  else if e < 0 then withPoint "0" (Text.fill ((-e).toNat - 1) (Text.byte '0') ++ ds)
  else withPoint (ds.take (e.toNat + 1)) (ds.drop (e.toNat + 1))

/-- A double as text. NaN has a sign too. -/
def write (style : DecimalStyle) (x : Binary64) : Text :=
  let body : Text :=
    if x.isNaN then "nan"
    else if x.isInfinite then "inf"
    else if x.isZero then "0"
    else style.positive x.absUnits Binary64.unit
  if x.signed then Text.byte '-' :: body else body

end DecimalStyle

def Number.display : Number → Text
  | .int v => Text.ofInt v.toInt
  | .uint v => Text.ofNat v.toNat
  | .float x => DecimalStyle.standard.write x

end ScriptMachine
