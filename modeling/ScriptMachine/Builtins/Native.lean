import ScriptMachine.Registry

set_option autoImplicit false

namespace ScriptMachine

namespace Failure

def lift {α : Type} : Except Fault α → Except Failure α
  | .ok a => .ok a
  | .error f => .error (.fault f)

def fail {α : Type} (f : Fault) : Except Failure α := .error (.fault f)

end Failure

namespace NativeCall

def receiver (c : NativeCall) : Except Failure Value :=
  match c.self with
  | some v => .ok v
  | none => Failure.fail (.runtimeError "Extension called without a receiver")

/-- An argument; native code can be called without the checks that supply all of them. -/
def arg (c : NativeCall) (i : Nat) : Except Failure Value :=
  match c.args[i]? with
  | some v => .ok v
  | none => .error (.other ("vector::_M_range_check: __n (which is " ++ Text.ofNat i ++
      ") >= this->size() (which is " ++ Text.ofNat c.args.length ++ ")"))

end NativeCall

namespace Native

def reading (f : NativeCall → Except Failure Value) : Native := fun c h => ⟨h, c.self, f c⟩

/-- Code that gives a result and a new value for its receiver, which it keeps if it fails. -/
def replacing (f : NativeCall → Except Failure (Value × Value)) : Native := fun c h =>
  match f c with
  | .ok (v, self) => ⟨h, some self, .ok v⟩
  | .error e => ⟨h, c.self, .error e⟩

/-- Code that works on the values shared by all machines, and cannot do without them. -/
def sharing (f : NativeCall → SharedValues → Except Failure (Value × SharedValues)) : Native :=
  fun c h =>
    match h.shared with
    | none =>
      ⟨h, c.self, Failure.fail (.runtimeError "Shared registry is not available")⟩
    | some shared =>
      match f c shared with
      | .ok (v, shared) => ⟨{ h with shared := some shared }, c.self, .ok v⟩
      | .error e => ⟨h, c.self, .error e⟩

end Native

structure Builtin where
  name : Text
  signature : Signature
  code : Native

namespace Parameter

def required (name : Text) (type : DeclaredType) : Parameter := ⟨name, type, none⟩

def optional (name : Text) (type : DeclaredType) (default : Value) : Parameter :=
  ⟨name, type, some default⟩

end Parameter

namespace Builtin

def free (name : Text) (params : List Parameter) (returns : DeclaredType) (code : Native) :
    Builtin :=
  ⟨name, ⟨params, returns, none, false⟩, code⟩

def extension (receiver : DeclaredType) (name : Text) (params : List Parameter)
    (returns : DeclaredType) (code : Native) : Builtin :=
  ⟨name, ⟨params, returns, some receiver, false⟩, code⟩

def mutator (receiver : DeclaredType) (name : Text) (params : List Parameter)
    (returns : DeclaredType) (code : Native) : Builtin :=
  ⟨name, ⟨params, returns, some receiver, true⟩, code⟩

end Builtin

def Registry.withModule (r : Registry) (name : Text) (functions : List Builtin) : Registry :=
  let trait : Trait := ⟨name, functions.map fun b => (b.name, b.signature)⟩
  functions.foldl
    (fun r b => r.add { nativeFunction b.name b.signature (some b.code) with module := name })
    { r with traits := (name, trait) :: r.traits }

end ScriptMachine
