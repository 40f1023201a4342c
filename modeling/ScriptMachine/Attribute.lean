import ScriptMachine.Record

set_option autoImplicit false

namespace ScriptMachine

inductive Attribute where
  | member (read : Unit → Except Fault Value)
  | method (arity : Nat) (call : List Value → Except Fault Value)

namespace Attribute

def isMember : Option Attribute → Bool
  | some (.member _) => true
  | _ => false

def isMethod : Option Attribute → Bool
  | some (.method ..) => true
  | _ => false

end Attribute

namespace Range

def toList (r : Range) : Except Fault Value :=
  if listLimit < r.size then
    .error (.runtimeError ("Range " ++ r.display ++ " is too large for a list"))
  else .ok (.list ((List.range r.size).map fun i => .num (.int (r.element i))))

def len (r : Range) : Value :=
  if (r.size : Int) ≤ Number.intMax then .int r.size else .num (.ofNat r.size)

/-- Only signed words can lie in a range. -/
def includesValue (r : Range) : Value → Bool
  | .num (.int n) => r.includes n
  | _ => false

def attribute? (r : Range) (name : Text) : Option Attribute :=
  if name == "len" then some (.member fun _ => .ok r.len)
  else if name == "first" then
    some (.member fun _ => .ok (if r.size = 0 then .none else .num (.int r.start)))
  else if name == "last" then
    some (.member fun _ => .ok (if r.size = 0 then .none else .num (.int r.last)))
  else if name == "to_list" then some (.member fun _ => r.toList)
  else if name == "includes" then
    some (.method 1 fun args => .ok (.bool (r.includesValue (args.headD .none))))
  else none

def bound (which : Text) : Value → Except Fault Int64
  | .num (.int n) => .ok n
  | v => .error (.typeError ("Range " ++ which ++ " must be Int, got " ++ v.typeName))

def make (start stop : Value) (inclusive : Bool) : Except Fault Value := do
  let e ← bound "end" stop
  let s ← bound "start" start
  return .object (.range ⟨s, e, inclusive⟩)

end Range

namespace RecordShape

def fieldMap (s : RecordShape) (values : List Value) : Entries :=
  Entries.ofPairs ((s.fields.zip values).map fun (f, v) => (.str f.1, v))

/-- Of fields of one name the last one is read, and no field hides the method `fields`. -/
def attribute? (s : RecordShape) (values : List Value) (name : Text) : Option Attribute :=
  if name == "fields" then some (.method 0 fun _ => .ok (.map (s.fieldMap values)))
  else match ((s.fields.zip values).reverse.find? fun (f, _) => f.1 == name) with
    | some (_, v) => some (.member fun _ => .ok v)
    | none => none

end RecordShape

def ClosureCode.attribute? (code : ClosureCode) (name : Text) : Option Attribute :=
  if name == "arity" then some (.member fun _ => .ok (.int code.arity))
  else if name == "name" then some (.member fun _ => .ok (.str code.name))
  else none

namespace ObjectOf

def attribute? (o : Object) (name : Text) : Option Attribute :=
  match o with
  | .range r => r.attribute? name
  | .record _ shape values => shape.attribute? values name
  | .closure _ code _ => code.attribute? name
  | .host .. => none

def hasMethod (o : Object) (name : Text) : Bool := Attribute.isMethod (o.attribute? name)
def hasMember (o : Object) (name : Text) : Bool := Attribute.isMember (o.attribute? name)

def callMethod (o : Object) (name : Text) (args : List Value) : Except Fault Value :=
  match o.attribute? name with
  | some (.method arity call) =>
    if args.length = arity then call args
    else .error (.typeError (o.typeName ++ "." ++ name ++ " expects " ++ Text.ofNat arity ++
      " arguments, got " ++ Text.ofNat args.length))
  | _ => .error (.unknownFunction ("Unknown " ++ o.typeName ++ " method: " ++ name))

def getMember (o : Object) (name : Text) : Except Fault Value :=
  match o.attribute? name with
  | some (.member read) => read ()
  | _ => .error (.unknownFunction ("Unknown " ++ o.typeName ++ " member: " ++ name))

end ObjectOf

end ScriptMachine
