import ScriptMachine.Function

set_option autoImplicit false

/-!
# Registries of functions

A registry keeps functions in the order of their declaration, and traits, which announce functions
with their signatures. Every look-up prefers the latest declaration.
-/
namespace ScriptMachine

structure Trait where
  name : Text
  functions : List (Text × Signature)

def Trait.find? (t : Trait) (function : Text) : Option Signature := t.functions.lookup function

structure Registry where
  traits : List (Text × Trait)
  functions : List Function
  frozen : Bool

inductive RegistryError where
  | frozen (what : Text)
  | missingNative (what : Text)
  | unknownTrait (name : Text)
  | undeclared (function : Text) (owner : Text)
  | mismatch (owner : Text) (function : Text) (declared : Text) (got : Text)

def RegistryError.message : RegistryError → Text
  | .frozen what => "Module registry is frozen, cannot add " ++ what
  | .missingNative what => "Native function callback is empty: " ++ what
  | .unknownTrait name => "Unknown trait: " ++ name
  | .undeclared function owner => function ++ " is not declared by trait " ++ owner
  | .mismatch owner function declared got =>
    "Implementation of " ++ owner ++ "." ++ function ++
      " does not match its declaration: declared `" ++ declared ++ "`, got `" ++ got ++ "`"

namespace Registry

def empty : Registry := ⟨[], [], false⟩

def ensureOpen (r : Registry) (what : Text) : Except RegistryError Unit :=
  if r.frozen then .error (.frozen what) else .ok ()

def freeze (r : Registry) : Registry := { r with frozen := true }

def add (r : Registry) (f : Function) : Registry :=
  { r with functions := r.functions ++ [{ f with sequence := r.functions.length + 1 }] }

def trait? (r : Registry) (name : Text) : Option Trait := r.traits.lookup name

/-- A trait declared again replaces the earlier one. -/
def declareTrait (r : Registry) (t : Trait) : Except RegistryError Registry := do
  r.ensureOpen ("trait " ++ t.name)
  return { r with traits := (t.name, t) :: r.traits.filter fun e => e.1 != t.name }

def inheritDefaults (params declared : List Parameter) : List Parameter :=
  params.zipWith (fun p d => { p with default := p.default.or d.default }) declared

def declared (r : Registry) (owner function : Text) : Except RegistryError Signature :=
  match r.trait? owner with
  | none => .error (.unknownTrait owner)
  | some t =>
    match t.find? function with
    | none => .error (.undeclared function owner)
    | some s => .ok s

/-- Adds an implementation of a declared function, after comparing the signatures. -/
def implement (r : Registry) (owner : Text) (f : Function) : Except RegistryError Registry := do
  r.ensureOpen (owner ++ "." ++ f.name)
  let d ← r.declared owner f.name
  if f.signature.sameShape d then
    let params := inheritDefaults f.signature.params d.params
    return r.add { f with module := owner, signature := { f.signature with params } }
  else .error (.mismatch owner f.name (d.display f.name) (f.signature.display f.name))

def nativeFunction (name : Text) (s : Signature) (code : Option Native) : Function :=
  ⟨.native code, [], name, s, 0, [], .unknown, 0⟩

def bindNative (r : Registry) (owner function : Text) (code : Option Native) :
    Except RegistryError Registry :=
  if code.isNone then .error (.missingNative (owner ++ "." ++ function))
  else do
    let d ← r.declared owner function
    r.implement owner (nativeFunction function d code)

def defineFunction (r : Registry) (f : Function) : Except RegistryError Registry := do
  r.ensureOpen f.name
  match f.body with
  | .native none => .error (.missingNative f.name)
  | _ => return r.add f

def candidates (r : Registry) (accepts : Function → Bool) : List Function :=
  r.functions.reverse.filter accepts

def functionCandidates (r : Registry) (name : Text) : List Function :=
  r.candidates fun f => f.name == name && !f.isExtension

def extensionCandidates (r : Registry) (name : Text) (receiver : Value) : List Function :=
  r.candidates fun f => f.name == name && f.accepts receiver

def resolveFunction (r : Registry) (name : Text) : Option Function :=
  (r.functionCandidates name).head?

def resolveExtension (r : Registry) (name : Text) (receiver : Value) : Option Function :=
  (r.extensionCandidates name receiver).head?

def resolveModuleFunction (r : Registry) (module name : Text) : Option Function :=
  (r.candidates fun f => f.module == module && f.name == name && !f.isExtension).head?

def resolveModuleExtension (r : Registry) (module name : Text) (receiver : Value) :
    Option Function :=
  (r.candidates fun f => f.module == module && f.name == name && f.accepts receiver).head?

def hasModule (r : Registry) (module : Text) : Bool :=
  (r.trait? module).isSome || r.functions.any fun f => f.module == module

def isDeclared (r : Registry) (name : Text) : Bool :=
  r.traits.any fun e => (e.2.find? name).isSome

def functionsWithTag (r : Registry) (tag : Text) : List Function :=
  r.functions.filter fun f => f.hasTag tag

end Registry

end ScriptMachine
