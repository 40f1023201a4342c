import ScriptMachine.Value.Display

set_option autoImplicit false

namespace ScriptMachine

namespace Value

mutual

def equals : Value → Value → Bool
  | .none, .none => true
  | .bool a, .bool b => a == b
  | .num a, .num b => a.equals b
  | .str a, .str b => a == b
  | .list a, .list b => equalItems a b
  | .map a, .map b => equalEntries a b
  | .error f, .error g => f.kind == g.kind && f.message == g.message
  | .object a, .object b => equalObjects a b
  | _, _ => false
termination_by structural v => v

def equalItems : List Value → List Value → Bool
  | [], [] => true
  | a :: as, b :: bs => equals a b && equalItems as bs
  | _, _ => false
termination_by structural items => items

def equalEntries : List (Value × Value) → List (Value × Value) → Bool
  | [], [] => true
  | (j, a) :: as, (k, b) :: bs => equals j k && equals a b && equalEntries as bs
  | _, _ => false
termination_by structural entries => entries

def equalObjects : ObjectOf Value → ObjectOf Value → Bool
  | .range r, .range s => r == s
  | .record i shape as, .record j other bs => i == j || (shape.id == other.id && equalItems as bs)
  | .closure i _ _, .closure j _ _ => i == j
  | .host i _, .host j _ => i == j
  | _, _ => false
termination_by structural o => o

end

/-- The values that none equals loosely. -/
def isEmptyish : Value → Bool
  | .none => true
  | .bool b => !b
  | .num n => n.isZero
  | .str t => t.isEmpty
  | .list items => items.isEmpty
  | .map entries => entries.isEmpty
  | .error _ => false
  | .object _ => false

def boolEquals (b : Bool) : Value → Bool
  | .str t =>
    if t.isEmpty then !b else if t == "true" then b else if t == "false" then !b else false
  | .error _ => false
  | v => b == v.truthy

def numberEqualsText (n : Number) (t : Text) : Bool :=
  match Number.parse t with
  | some m => n.equals m
  | .none => false

def looseEquals (a b : Value) : Bool :=
  if a.kind = b.kind then a.equals b
  else match a, b with
    | .none, _ => b.isEmptyish
    | _, .none => a.isEmptyish
    | .bool x, _ => boolEquals x b
    | _, .bool y => boolEquals y a
    | .num n, .str t => numberEqualsText n t
    | .str t, .num n => numberEqualsText n t
    | _, _ => false

end Value

end ScriptMachine
