import ScriptMachine.Builtins.StandardModule

set_option autoImplicit false

namespace ScriptMachine

namespace SharedModule

def put (c : NativeCall) (shared : SharedValues) : Except Failure (Value × SharedValues) := do
  let v ← c.arg 1
  let key ← Failure.lift (← c.arg 0).asText
  return (v, shared.put key v)

def get (c : NativeCall) (shared : SharedValues) : Except Failure (Value × SharedValues) := do
  let key ← Failure.lift (← c.arg 0).asText
  return ((shared.get? key).getD .none, shared)

def has (c : NativeCall) (shared : SharedValues) : Except Failure (Value × SharedValues) := do
  let key ← Failure.lift (← c.arg 0).asText
  return (.bool (shared.has key), shared)

def functions : List Builtin :=
  [ .free "put" [.required "key" .string, .required "value" .any] .any (Native.sharing put),
    .free "get" [.required "key" .string] .any (Native.sharing get),
    .free "has" [.required "key" .string] .bool (Native.sharing has) ]

end SharedModule

namespace Registry

def withBuiltins (r : Registry) : Registry :=
  (r.withModule "Std" StandardModule.functions).withModule "Shared" SharedModule.functions

def standard : Registry := empty.withBuiltins

end Registry

end ScriptMachine
