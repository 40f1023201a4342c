import ScriptMachine.Value.Entries

set_option autoImplicit false

namespace ScriptMachine

namespace DeclaredType

def castFault (t : DeclaredType) (v : Value) : Except Fault Value :=
  .error (.castError
    ("Cannot convert " ++ v.typeName ++ " " ++ v.display ++ " to " ++ t.name))

def toNumber? : Value → Option Number
  | .num n => some n
  | .none => some (.ofInt 0)
  | .bool b => some (.ofInt (if b then 1 else 0))
  | .str t => Number.parse t
  | _ => .none

/-- A map gives its key and value pairs, a text its single bytes, any other value one item. -/
def toItems : Value → List Value
  | .list items => items
  | .none => []
  | .map entries => entries.map fun (k, v) => .list [k, v]
  | .str t => t.map fun b => .str [b]
  | v => [v]

def toEntry : Value → Value × Value
  | .list [k, v] => (k, v)
  | v => (v, v)

def toEntries? : Value → Option Entries
  | .map entries => some entries
  | .none => some []
  | .list items => some (Entries.ofPairs (items.map toEntry))
  | _ => .none

def toUInt (n : Number) : UInt64 :=
  match n with
  | .uint v => v
  | _ => n.toInt.toUInt64

def cast (t : DeclaredType) (v : Value) : Except Fault Value :=
  match t with
  | .any => .ok v
  | .none => .ok .none
  | .bool => if v.isError then t.castFault v else .ok (.bool v.truthy)
  | .string => .ok (.str v.display)
  | .number =>
    match toNumber? v with
    | some n => .ok (.num n)
    | .none => t.castFault v
  | .int =>
    match toNumber? v with
    | some n => .ok (.num (.int n.toInt))
    | .none => t.castFault v
  | .uint =>
    match toNumber? v with
    | some n => if n.isNegative then t.castFault v else .ok (.num (.uint (toUInt n)))
    | .none => t.castFault v
  | .float =>
    match toNumber? v with
    | some n => .ok (.num (.float n.toFloat))
    | .none => t.castFault v
  | .list => if v.isError || v.isObject then t.castFault v else .ok (.list (toItems v))
  | .map =>
    match toEntries? v with
    | some entries => .ok (.map entries)
    | .none => t.castFault v
  | .error =>
    match v with
    | .error _ => .ok v
    | .str message => .ok (.error (.runtimeError message))
    | _ => t.castFault v
  | .custom _ => if t.matches v then .ok v else t.castFault v

end DeclaredType

end ScriptMachine
