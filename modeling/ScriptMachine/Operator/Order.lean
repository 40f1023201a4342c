import ScriptMachine.Value.Entries

set_option autoImplicit false

namespace ScriptMachine

namespace Value

/-- A number against a text: by value if the text reads as a number, else by text. -/
def compareNumberText (n : Number) (t : Text) : Option Ordering :=
  match Number.parse t with
  | some m => n.compare? m
  | .none => some (Text.compare n.display t)

def compareTextNumber (t : Text) (n : Number) : Option Ordering :=
  match Number.parse t with
  | some m => m.compare? n
  | .none => some (Text.compare t n.display)

mutual

def compare? : Value → Value → Option Ordering
  | .num m, .num n => m.compare? n
  | .num n, .str t => compareNumberText n t
  | .str t, .num n => compareTextNumber t n
  | .bool a, .bool b => some (Ord.compare a.toNat b.toNat)
  | .str s, .str t => some (Text.compare s t)
  | .list a, .list b => compareItems a b
  | .map a, .map b => compareEntries a b
  | a, b => some (Ord.compare a.kind.rank b.kind.rank)
termination_by structural v => v

def compareItems : List Value → List Value → Option Ordering
  | [], [] => some .eq
  | [], _ :: _ => some .lt
  | _ :: _, [] => some .gt
  | a :: as, b :: bs =>
    match compare? a b with
    | some .eq => compareItems as bs
    | other => other
termination_by structural items => items

def compareEntries : List (Value × Value) → List (Value × Value) → Option Ordering
  | [], [] => some .eq
  | [], _ :: _ => some .lt
  | _ :: _, [] => some .gt
  | (j, a) :: as, (k, b) :: bs =>
    match compare? j k with
    | some .eq =>
      match compare? a b with
      | some .eq => compareEntries as bs
      | other => other
    | other => other
termination_by structural entries => entries

end

end Value

end ScriptMachine
