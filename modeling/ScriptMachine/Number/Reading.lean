import ScriptMachine.Number.Decimal

set_option autoImplicit false

namespace ScriptMachine

namespace Number

inductive Suffix where
  | none
  | unsigned
  | signed
  | double
  deriving DecidableEq

def isSign (b : UInt8) : Bool := b == Text.byte '+' || b == Text.byte '-'
def isExponentMark (b : UInt8) : Bool := b == Text.byte 'e' || b == Text.byte 'E'
def isPoint (b : UInt8) : Bool := b == Text.byte '.'

def suffixOf (b : UInt8) : Suffix :=
  if b == Text.byte 'u' then .unsigned
  else if b == Text.byte 'i' then .signed
  else if b == Text.byte 'f' then .double
  else .none

def splitSuffix (t : Text) : Text × Suffix :=
  match t.getLast? with
  | some b => if suffixOf b ≠ .none ∧ 1 < t.length then (t.dropLast, suffixOf b) else (t, .none)
  | none => (t, .none)

/-- Whether only digits, points, exponent marks, and signs at the start or right after an exponent
mark occur. The first argument says whether a sign may stand here. -/
def hasNumberShape : Bool → Text → Bool
  | _, [] => true
  | signAllowed, b :: rest =>
    (Text.isDigit b || isPoint b || isExponentMark b || (signAllowed && isSign b)) &&
      hasNumberShape (isExponentMark b) rest

def splitSign : Text → Bool × Text
  | [] => (false, [])
  | b :: rest => if isSign b then (b == Text.byte '-', rest) else (false, b :: rest)

/-- A decimal is plus or minus `digits` times a power of ten. -/
structure Scientific where
  negative : Bool
  digits : Nat
  exponent : Int

def readExponent : Text → Option Int
  | [] => some 0
  | b :: rest =>
    let (negative, ds) := splitSign rest
    if isExponentMark b && !ds.isEmpty && ds.all Text.isDigit then
      let n : Int := Text.natValue ds
      some (if negative then -n else n)
    else none

/-- Reads a whole decimal: digits with at most one point among, before or after them, then an
optional exponent. -/
def readScientific (t : Text) : Option Scientific := do
  let (negative, body) := splitSign t
  let whole := body.takeWhile Text.isDigit
  let rest := body.dropWhile Text.isDigit
  let (fraction, rest) :=
    match rest with
    | b :: more => if isPoint b then (more.takeWhile Text.isDigit, more.dropWhile Text.isDigit)
      else ([], rest)
    | [] => ([], [])
  if whole.isEmpty && fraction.isEmpty then none
  else
    let e ← readExponent rest
    some ⟨negative, Text.natValue (whole ++ fraction), e - fraction.length⟩

/-- The double nearest to a decimal. Beyond the bounds tested first every decimal is infinite or
zero, so no huge power is computed. -/
def Scientific.toFloat (s : Scientific) : Binary64 :=
  if s.digits = 0 then Binary64.zeroOf s.negative
  else if 400 < s.exponent then Binary64.infinity s.negative
  else if s.exponent + (Text.ofNat s.digits).length < -400 then Binary64.zeroOf s.negative
  else if 0 ≤ s.exponent then
    Binary64.round s.negative (s.digits * Nat.pow 10 s.exponent.toNat * Binary64.unit) 1
  else Binary64.round s.negative (s.digits * Binary64.unit) (Nat.pow 10 (-s.exponent).toNat)

def ofScientific (suffix : Suffix) (s : Scientific) : Option Number :=
  let x := s.toFloat
  match suffix with
  | .signed => some (.int (clampToInt x))
  | .unsigned => if x.isNegative then none else some (ofNat x.absTrunc)
  | _ => some (.float x)

/-- Reads digits without point and exponent: a signed word if it fits one and is not asked to be
unsigned, an unsigned word if it fits only that, else none of the two. -/
def readWord (suffix : Suffix) (negative : Bool) (digits : Text) : Option Number :=
  let n := Text.natValue digits
  let v : Int := if negative then -(n : Int) else n
  if suffix = .unsigned then if !negative && n ≤ uintMax then some (ofNat n) else none
  else if fitsInt v then some (ofInt v)
  else if suffix = .none && !negative && n ≤ uintMax then some (ofNat n)
  else none

def parse (text : Text) : Option Number :=
  let (body, suffix) := splitSuffix (text.filter (· != Text.byte '_'))
  if !hasNumberShape true body || !body.any Text.isDigit then none
  else
    let wide := (readScientific body).bind (ofScientific suffix)
    if body.any (fun b => isPoint b || isExponentMark b) || suffix = .double then wide
    else
      let (negative, digits) := splitSign body
      match readWord suffix negative digits with
      | some n => some n
      | none => if suffix = .unsigned then none else wide

end Number

end ScriptMachine
