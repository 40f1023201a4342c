import ScriptMachine.Host

set_option autoImplicit false

namespace ScriptMachine

structure Parameter where
  name : Text
  type : DeclaredType
  default : Option Value

/-- A signature with a receiver is that of an extension of the receiver's type. -/
structure Signature where
  params : List Parameter
  returns : DeclaredType
  receiver : Option DeclaredType
  mutableReceiver : Bool

namespace Signature

def plain : Signature := ⟨[], .any, none, false⟩

def required (s : Signature) : Nat := (s.params.filter fun p => p.default.isNone).length

def sameShape (s t : Signature) : Bool :=
  s.params.map (·.type) == t.params.map (·.type) && s.returns == t.returns &&
    s.receiver == t.receiver && s.mutableReceiver == t.mutableReceiver

def paramText (p : Parameter) : Text :=
  p.name ++ ": " ++ p.type.name ++
    (match p.default with
      | some v => " = " ++ v.display
      | none => [])

def display (s : Signature) (name : Text) : Text :=
  "fn " ++ (if s.mutableReceiver then Text.ofString "mut " else []) ++
    (match s.receiver with
      | some t => t.name ++ "."
      | none => []) ++
    name ++ "(" ++ Text.join ", " (s.params.map paramText) ++ ") -> " ++ s.returns.name

end Signature

/-- An annotation on a function: what it means is for the users of the function to say. -/
structure Tag where
  name : Text
  args : List Value

namespace Tag

def argument (t : Tag) : Text :=
  match t.args with
  | v :: _ => v.display
  | [] => []

def argText : Value → Text
  | .str t => "\"" ++ t ++ "\""
  | v => v.display

def display (t : Tag) : Text :=
  let args : Text :=
    if t.args.isEmpty then [] else "(" ++ Text.join ", " (t.args.map argText) ++ ")"
  "@" ++ t.name ++ args

def test : Text := "test"
def memo : Text := "memo"
def event : Text := "on"

end Tag

/-- Why native code gave up: a fault of the script, or a failure of its own. -/
inductive Failure where
  | fault (f : Fault)
  | other (what : Text)

structure NativeCall where
  self : Option Value
  args : List Value
  depth : Nat

/-- What a native call leaves behind, also when it fails: the host, and the receiver. -/
structure NativeOutcome where
  host : Host
  self : Option Value
  result : Except Failure Value

abbrev Native := NativeCall → Host → NativeOutcome

/-- Native code may be announced and not supplied. -/
inductive Body where
  | interpreted
  | native (code : Option Native)

structure Function where
  body : Body
  /-- The trait, object or module that the function belongs to; empty for a free function. -/
  module : Text
  name : Text
  signature : Signature
  /-- The scope that an interpreted function runs. -/
  scope : Nat
  tags : List Tag
  location : Location
  /-- The place in the order of declaration. -/
  sequence : Nat

namespace Function

def isExtension (f : Function) : Bool := f.signature.receiver.isSome

def isNative (f : Function) : Bool :=
  match f.body with
  | .native _ => true
  | .interpreted => false

def tag? (f : Function) (name : Text) : Option Tag := f.tags.find? fun t => t.name == name

def hasTag (f : Function) (name : Text) : Bool := (f.tag? name).isSome

def accepts (f : Function) (receiver : Value) : Bool :=
  match f.signature.receiver with
  | some t => t.matches receiver
  | none => false

end Function

end ScriptMachine
