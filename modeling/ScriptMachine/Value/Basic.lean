import ScriptMachine.Fault
import ScriptMachine.DeclaredType
import ScriptMachine.Operator.Basic
import ScriptMachine.Range
import ScriptMachine.Number.Reading

set_option autoImplicit false

namespace ScriptMachine

/-- A place in the arena of mutable variables. The generation tells a slot's successive uses apart. -/
structure CellHandle where
  index : UInt32
  generation : UInt32
  deriving DecidableEq, Inhabited

structure TypeId where
  program : Nat
  index : Nat
  deriving DecidableEq, Inhabited

structure RecordShape where
  id : TypeId
  name : Text
  fields : List (Text × DeclaredType)
  deriving DecidableEq, Inhabited

/-- The name of a type as texts cite it, up to a NUL byte. -/
def RecordShape.label (s : RecordShape) : Text := s.name.untilNul

/-- A variable seen by a closure: an immutable one is copied, a mutable one shares its cell. -/
inductive Captured (α : Type) where
  | copy (value : α)
  | cell (handle : CellHandle)

/-- What a closure knows of its code: the program and the number of the function there, the
function's name, arity and signature, and the run that made the closure. -/
structure ClosureCode where
  program : Nat
  function : Nat
  name : Text
  arity : Nat
  signature : Text
  run : Nat
  deriving DecidableEq, Inhabited

/-- A class of objects that the embedding program supplies. Its hook may answer a binary operator:
it is given the other operand's text and whether the object stands on the left. -/
structure HostClass where
  name : Text
  truthy : Bool
  hook : BinaryOp → Text → Bool → Option Text

inductive ObjectOf (α : Type) where
  | range (r : Range)
  | record (id : Nat) (shape : RecordShape) (values : List α)
  | closure (id : Nat) (code : ClosureCode) (captures : List (Text × Captured α))
  | host (id : Nat) (cls : HostClass)

inductive Value where
  | none
  | bool (b : Bool)
  | num (n : Number)
  | str (t : Text)
  | list (items : List Value)
  | map (entries : List (Value × Value))
  | error (fault : FaultOf Value)
  | object (o : ObjectOf Value)

abbrev Fault := FaultOf Value
abbrev Object := ObjectOf Value
abbrev Entries := List (Value × Value)

instance : Inhabited Value := ⟨.none⟩

/-- The kinds of values, in the order in which values of different kinds compare. -/
inductive ValueKind where
  | none
  | bool
  | number
  | string
  | list
  | map
  | error
  | object
  deriving DecidableEq, Inhabited

namespace ValueKind

def name : ValueKind → Text
  | .none => "None"
  | .bool => "Bool"
  | .number => "Number"
  | .string => "String"
  | .list => "List"
  | .map => "Map"
  | .error => "Error"
  | .object => "Object"

def rank : ValueKind → Nat
  | .none => 0
  | .bool => 1
  | .number => 2
  | .string => 3
  | .list => 4
  | .map => 5
  | .error => 6
  | .object => 7

end ValueKind

def ObjectOf.typeName {α : Type} : ObjectOf α → Text
  | .range _ => "Range"
  | .record _ shape _ => shape.label
  | .closure .. => "Fn"
  | .host _ cls => cls.name

def ObjectOf.truthy {α : Type} : ObjectOf α → Bool
  | .range r => r.size != 0
  | .record .. => true
  | .closure .. => true
  | .host _ cls => cls.truthy

namespace Value

def int (n : Int) : Value := .num (.ofInt n)

def kind : Value → ValueKind
  | .none => .none
  | .bool _ => .bool
  | .num _ => .number
  | .str _ => .string
  | .list _ => .list
  | .map _ => .map
  | .error _ => .error
  | .object _ => .object

def typeName : Value → Text
  | .object o => o.typeName
  | v => v.kind.name

def isNone : Value → Bool
  | .none => true
  | _ => false

def isError : Value → Bool
  | .error _ => true
  | _ => false

def isObject : Value → Bool
  | .object _ => true
  | _ => false

/-- A text counts as false when it is empty, `false`, or reads as the number zero. -/
def textTruthy (t : Text) : Bool :=
  if t.isEmpty || t == "false" then false
  else match Number.parse t with
    | some n => !n.isZero
    | .none => true

def truthy : Value → Bool
  | .none => false
  | .bool b => b
  | .num n => !n.isZero
  | .str t => textTruthy t
  | .list items => !items.isEmpty
  | .map entries => !entries.isEmpty
  | .error _ => false
  | .object o => o.truthy

def wrongKind {α : Type} (expected : Text) (v : Value) : Except Fault α :=
  .error (.typeError ("Expected " ++ expected ++ ", got " ++ v.typeName))

def asBool : Value → Except Fault Bool
  | .bool b => .ok b
  | v => wrongKind "Bool" v

def asNumber : Value → Except Fault Number
  | .num n => .ok n
  | v => wrongKind "Number" v

def asText : Value → Except Fault Text
  | .str t => .ok t
  | v => wrongKind "String" v

def asList : Value → Except Fault (List Value)
  | .list items => .ok items
  | v => wrongKind "List" v

def asMap : Value → Except Fault Entries
  | .map entries => .ok entries
  | v => wrongKind "Map" v

def asError : Value → Except Fault Fault
  | .error f => .ok f
  | v => wrongKind "Error" v

def asObject : Value → Except Fault Object
  | .object o => .ok o
  | v => wrongKind "Object" v

end Value

/-- Whether a value is of a declared type. An object is of the type that has its type's name. -/
def DeclaredType.matches : DeclaredType → Value → Bool
  | .any, _ => true
  | .none, .none => true
  | .bool, .bool _ => true
  | .number, .num _ => true
  | .int, .num (.int _) => true
  | .uint, .num (.uint _) => true
  | .float, .num (.float _) => true
  | .string, .str _ => true
  | .list, .list _ => true
  | .map, .map _ => true
  | .error, .error _ => true
  | .custom name, .object o => name == o.typeName
  | _, _ => false

end ScriptMachine
