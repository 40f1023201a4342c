import ScriptMachine.Text

set_option autoImplicit false

namespace ScriptMachine

structure Location where
  line : Nat
  column : Nat
  deriving DecidableEq, Inhabited

namespace Location

def unknown : Location := ⟨0, 0⟩

def known (l : Location) : Bool := l.line != 0

def orElse (l other : Location) : Location := if l.known then l else other

end Location

inductive FaultKind where
  | typeError
  | unknownVariable
  | unknownFunction
  | castError
  | borrowConflict
  | runtimeError
  | userRaised
  deriving DecidableEq, Inhabited

def FaultKind.name : FaultKind → Text
  | .typeError => "TypeError"
  | .unknownVariable => "UnknownVariable"
  | .unknownFunction => "UnknownFunction"
  | .castError => "CastError"
  | .borrowConflict => "BorrowConflict"
  | .runtimeError => "RuntimeError"
  | .userRaised => "UserRaised"

def FaultKind.all : List FaultKind :=
  [.typeError, .unknownVariable, .unknownFunction, .castError, .borrowConflict, .runtimeError,
    .userRaised]

def FaultKind.named? (name : Text) : Option FaultKind := all.find? fun k => k.name == name

structure FaultOf (α : Type) where
  kind : FaultKind
  message : Text
  payload : Option α := none
  location : Location := .unknown

namespace FaultOf

variable {α : Type}

def display (f : FaultOf α) : Text := f.kind.name ++ ": " ++ f.message

def typeError (message : Text) : FaultOf α := { kind := .typeError, message }
def runtimeError (message : Text) : FaultOf α := { kind := .runtimeError, message }
def castError (message : Text) : FaultOf α := { kind := .castError, message }
def borrowConflict (message : Text) : FaultOf α := { kind := .borrowConflict, message }
def unknownVariable (name : Text) : FaultOf α :=
  { kind := .unknownVariable, message := "Unknown variable: " ++ name }
def unknownFunction (message : Text) : FaultOf α := { kind := .unknownFunction, message }

def locatedAt (l : Location) (f : FaultOf α) : FaultOf α :=
  { f with location := f.location.orElse l }

end FaultOf

end ScriptMachine
