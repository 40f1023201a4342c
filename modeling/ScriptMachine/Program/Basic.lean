import ScriptMachine.Registry
import ScriptMachine.Attribute

set_option autoImplicit false

namespace ScriptMachine

abbrev Register := Nat

abbrev Target := Option Nat

def noneRegister : Register := 0
def oneRegister : Register := 1
def firstScratch : Register := 2

inductive Operation where
  | halt (source : Register)
  | haltIfError (source : Register)
  | load (literal : Value) (out : Register)
  | copy (source out : Register)
  | loadLet (name : Text) (source : Register)
  | loadMut (name : Text) (source : Register)
  | setVariable (name : Text) (source : Register)
  | getVariable (name : Text) (out : Register)
  | unary (op : UnaryOp) (source out : Register)
  | binary (op : BinaryOp) (left right out : Register)
  | makeList (items : List Register) (out : Register)
  | makeMap (pairs : List Register) (out : Register)
  | call (scope : Target) (args : List Register) (out : Register)
  /-- Enters a scope when the operands are loosely equal, or when they are not. -/
  | callCompared (equal : Bool) (left right : Register) (scope : Target) (out : Register)
  | ifElse (condition : Register) (scope otherwise : Target) (out : Register)
  /-- Enters a scope when the condition has the given truth. -/
  | branch (truth : Bool) (condition : Register) (scope : Target) (out : Register)
  | callFunction (name : Text) (args : List Register) (out : Register)
  /-- The variable is the one that the receiver was read from, if it was. -/
  | callMethod (name : Text) (receiver : Register) (variableName : Option Text)
      (args : List Register) (out : Register)
  | callModule (module name : Text) (args : List Register) (out : Register)
  | tryCatch (scope handler : Target) (errorName : Option Text) (out : Register)
  | raise (source : Register)
  | cast (source out : Register) (type : DeclaredType)
  | ret (source : Register)
  /-- Leaves the innermost function, or the top level, from inside any blocks. -/
  | leave (source : Register)
  | makeClosure (function : Nat) (out : Register)
  | callValue (callee : Register) (args : List Register) (out : Register)
  | makeRange (start stop : Register) (inclusive : Bool) (out : Register)
  /-- Runs a scope for every element of a value and collects the results in a list or a map. -/
  | collect (toMap : Bool) (source : Register) (scope : Target) (out : Register)
  | puts (args : List Register)
  | log (level : LogLevel) (template : Text) (args : List Register)

structure Instruction where
  operation : Operation
  location : Location

inductive ScopeKind where
  | main
  | function
  | block
  deriving DecidableEq, Inhabited

namespace ScopeKind

def name : ScopeKind → Text
  | .main => "main"
  | .function => "function"
  | .block => "block"

def named? (name : Text) : Option ScopeKind :=
  [main, function, block].find? fun k => k.name == name

end ScopeKind

structure Scope where
  name : Text
  kind : ScopeKind
  /-- Bound as immutable variables, in order, when the scope is entered. -/
  params : List Text
  code : Array Instruction
  registerCount : Nat
  location : Location
  /-- The enclosing variables that a closure with this body binds. -/
  captures : List Text
  /-- The name by which a closure with this body calls itself. -/
  selfName : Option Text

instance : Inhabited Scope := ⟨⟨[], .block, [], #[], 2, .unknown, [], none⟩⟩

def Scope.fileSize (s : Scope) : Nat := max s.registerCount firstScratch

structure Import where
  module : Text
  location : Location

structure Program where
  id : Nat
  scopes : Array Scope
  /-- The functions and traits that the source declares. -/
  modules : Registry
  recordTypes : List RecordType
  closures : Array Function
  /-- In source order. -/
  imports : List Import

namespace Program

/-- The number that messages give for an absent target. -/
def absentTarget : Nat := Number.uintMax

def scope (p : Program) (target : Target) : Except Fault Scope :=
  match target with
  | none => .error (.runtimeError ("Unknown scope @" ++ Text.ofNat absentTarget))
  | some i =>
    match p.scopes[i]? with
    | some s => .ok s
    | none => .error (.runtimeError ("Unknown scope @" ++ Text.ofNat i))

def recordType? (p : Program) (name : Text) : Option RecordType :=
  p.recordTypes.reverse.find? fun t => t.shape.label == name

end Program

end ScriptMachine
