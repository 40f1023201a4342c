import ScriptMachine.Value.Entries

set_option autoImplicit false

namespace ScriptMachine

structure Field where
  name : Text
  type : DeclaredType
  default : Option Value

structure RecordType where
  id : TypeId
  name : Text
  fields : List Field

namespace RecordShape

/-- The position of the first field of a name. -/
def fieldIndex (s : RecordShape) (field : Text) : Option Nat :=
  s.fields.findIdx? (fun f => f.1 == field)

end RecordShape

def checkField (typeName : Text) (field : Text) (type : DeclaredType) (v : Value) :
    Except Fault Unit :=
  if type.matches v then .ok ()
  else .error (.typeError
    (typeName ++ "." ++ field ++ " expects " ++ type.name ++ ", got " ++ v.typeName))

namespace RecordType

def shape (t : RecordType) : RecordShape :=
  ⟨t.id, t.name, t.fields.map fun f => (f.name, f.type)⟩

def fill (typeName : Text) : List Field → List Value → Except Fault (List Value)
  | [], _ => .ok []
  | f :: fs, v :: vs => do
    checkField typeName f.name f.type v
    return v :: (← fill typeName fs vs)
  | f :: fs, [] =>
    match f.default with
    | some v => do return v :: (← fill typeName fs [])
    | none => .error (.typeError (typeName ++ ".new missing field " ++ f.name))

/-- Makes a record of identity `id` from positional values. -/
def construct (t : RecordType) (id : Nat) (args : List Value) : Except Fault Value :=
  if t.fields.length < args.length then
    .error (.typeError (t.name ++ ".new expects at most " ++ Text.ofNat t.fields.length ++
      " arguments, got " ++ Text.ofNat args.length))
  else do
    let values ← fill t.name t.fields args
    return .object (.record id t.shape values)

end RecordType

namespace RecordShape

/-- Sets fields by name, one entry of the map after the other. -/
def assign (s : RecordShape) : Entries → List Value → Except Fault (List Value)
  | [], values => .ok values
  | (key, v) :: rest, values => do
    let unknown : Except Fault (List Value) :=
      .error (.typeError (s.label ++ " has no field " ++ key.display))
    match key with
    | .str name =>
      match s.fieldIndex name with
      | some i =>
        match s.fields[i]? with
        | some (field, type) => do
          checkField s.label field type v
          assign s rest (values.set i v)
        | none => unknown
      | none => unknown
    | _ => unknown

end RecordShape

def ObjectOf.withFields (id : Nat) (fields : Entries) : Object → Except Fault (Option Value)
  | .record _ shape values => do
    let values ← shape.assign fields values
    return some (.object (.record id shape values))
  | _ => .ok none

end ScriptMachine
