import ScriptMachine.Machine.Lookup

set_option autoImplicit false

namespace ScriptMachine

/-- The receiver of a call: its value, the cell that a mutating call works on, whether the call
borrows that cell or finds it borrowed, and whether the cell was made for the call. -/
structure Receiver where
  value : Value
  cell : Option CellHandle
  borrows : Bool
  temporary : Bool

namespace Function

def fillDefaults (f : Function) : List Parameter → List Value → Except Fault (List Value)
  | [], args => .ok args
  | _ :: ps, v :: vs => do return v :: (← fillDefaults f ps vs)
  | p :: ps, [] =>
    match p.default with
    | some v => do return v :: (← fillDefaults f ps [])
    | none => .error (.typeError (f.name ++ " missing argument '" ++ p.name ++ "'"))

def checkTypes (f : Function) : List Parameter → List Value → Except Fault Unit
  | p :: ps, v :: vs =>
    if p.type.matches v then checkTypes f ps vs
    else .error (.typeError ("Argument '" ++ p.name ++ "' of " ++ f.name ++ " expects " ++
      p.type.name ++ ", got " ++ v.typeName))
  | _, _ => .ok ()

def acceptArgs (f : Function) (args : List Value) : Except Fault (List Value) := do
  let params := f.signature.params
  if params.length < args.length then
    throw (.typeError (f.name ++ " expects at most " ++ Text.ofNat params.length ++
      " arguments, got " ++ Text.ofNat args.length))
  else
    let args ← f.fillDefaults params args
    f.checkTypes params args
    return args

/-- A result is of the declared type or an error value. -/
def checkResult (f : Function) (v : Value) : Except Fault Unit :=
  if f.signature.returns = .any || v.isError || f.signature.returns.matches v then .ok ()
  else .error (.typeError (f.name ++ " must return " ++ f.signature.returns.name ++ ", got " ++
    v.typeName))

def memoKey (f : Function) (args : List Value) : Text :=
  let keys : List Text := args.map fun v => "|" ++ v.typeName ++ ":" ++ v.display
  f.module ++ "::" ++ f.name ++ "#" ++ Text.ofNat f.sequence ++ keys.flatten

end Function

namespace Exec

def remember (key : Option Text) (v : Value) : Exec Unit :=
  match key with
  | some k => modify fun m => { m with memo := (k, v) :: m.memo.filter fun e => e.1 != k }
  | none => pure ()

def resolveReceiver (f : Function) (v : Value) (variableName : Option Text) : Exec Receiver := do
  if !f.signature.mutableReceiver then return ⟨v, none, false, false⟩
  else
    let binding ← match variableName with
      | some name => findBinding name
      | none => pure none
    match binding with
    | some (.cell h) | some (.captured h) => return ⟨v, some h, true, false⟩
    | some (.borrowed h) => return ⟨v, some h, false, false⟩
    | _ =>
      let (h, arena) := (← get).arena.allocate v
      modify fun m => { m with arena }
      return ⟨v, some h, true, true⟩

/-- The receiver as native code gets it; a cell is borrowed for the time of the call. -/
def openReceiver : Option Receiver → Exec (Option Value)
  | none => return none
  | some r =>
    match r.cell with
    | none => return some r.value
    | some h =>
      if r.borrows then do
        let (v, arena) ← readArena fun a => a.beginExclusive h
        modify fun m => { m with arena }
        return some v
      else do
        let v ← readArena fun a => a.borrowed h
        return some v

def closeReceiver (receiver : Option Receiver) (self : Option Value) : Exec Unit := do
  match receiver with
  | some ⟨_, some h, borrows, _⟩ =>
    match self with
    | some v => onArena fun a => a.setBorrowed h v
    | none => pure ()
    if borrows then modify fun m => { m with arena := m.arena.endBorrow h }
  | _ => pure ()

def nativeFault (f : Function) : Failure → Fault
  | .fault e => e
  | .other what => .runtimeError (f.name ++ ": " ++ what.untilNul)

def callNative (s : Setup) (f : Function) (code : Option Native) (args : List Value)
    (receiver : Option Receiver) (key : Option Text) (out : Register) : Exec Unit := do
  let self ← openReceiver receiver
  let m ← get
  let outcome : NativeOutcome :=
    match code with
    | some run => run ⟨self, args, m.frames.length⟩ m.host
    | none => ⟨m.host, self, .error (.other "bad_function_call")⟩
  modify fun m => { m with host := outcome.host }
  closeReceiver receiver outcome.self
  match outcome.result with
  | .error e => fail (nativeFault f e)
  | .ok v =>
    lift (f.checkResult v)
    remember key v
    deliver s v out

/-- Binds the variables that a closure has captured, and the closure itself under its own name. -/
def bindCaptures (s : Setup) (scope : Scope) (closure : Value)
    (captures : List (Text × Captured Value)) : Exec Unit := do
  match scope.selfName with
  | some name => bindLet s name closure
  | none => pure ()
  captures.forM fun (name, captured) => do
    dropBinding s name
    modifyTop fun f => f.bind name
      (match captured with
        | .copy v => .fixed v
        | .cell h => .captured h)

def bindReceiver (s : Setup) (r : Receiver) : Exec Unit := do
  match r.cell with
  | none => bindLet s "self" r.value
  | some h =>
    if r.temporary then modifyTop fun f => { f with owned := f.owned ++ [h] }
    if r.borrows then
      let (_, arena) ← readArena fun a => a.beginExclusive h
      modify fun m => { m with arena }
      modifyTop fun f => { f with borrow := some h }
    modifyTop fun f => f.bind "self" (.borrowed h)

abbrev ClosureCall := Value × List (Text × Captured Value)

def enter (s : Setup) (f : Function) (args : List Value) (receiver : Option Receiver)
    (key : Option Text) (closure : Option ClosureCall) (out : Register) : Exec Unit := do
  pushFrame s (some f.scope) (← rootFrame) out
  modifyTop fun frame => { frame with function := some f, memoKey := key }
  let scope ← lift (s.program.scope (some f.scope))
  match closure with
  | some (value, captures) => bindCaptures s scope value captures
  | none => pure ()
  bindParams s scope.params args
  match receiver with
  | some r => bindReceiver s r
  | none => pure ()

/-- Calls a function. Says whether a frame has taken over the cell made for the receiver. -/
def invokeBody (s : Setup) (f : Function) (args : List Value) (receiver : Option Receiver)
    (out : Register) (closure : Option ClosureCall) : Exec Bool := do
  let args ← lift (f.acceptArgs args)
  let key :=
    if f.hasTag Tag.memo then
      some (f.memoKey ((receiver.map (·.value)).toList ++ args))
    else none
  let memo := (← get).memo
  match key.bind fun k => memo.lookup k with
  | some v =>
    deliver s v out
    return false
  | none =>
    match f.body with
    | .native code =>
      callNative s f code args receiver key out
      return false
    | .interpreted =>
      enter s f args receiver key closure out
      return true

def temporaryCell : Option Receiver → Option CellHandle
  | some ⟨_, some h, _, true⟩ => some h
  | _ => none

/-- Calls a function, and releases a cell made for its receiver unless a frame owns it now. -/
def invoke (s : Setup) (f : Function) (args : List Value) (receiver : Option Receiver)
    (out : Register) (closure : Option ClosureCall) : Exec Unit := do
  match temporaryCell receiver with
  | none =>
    let _ ← invokeBody s f args receiver out closure
  | some h =>
    let releaseTemporary : Exec Unit :=
      modify fun m => { m with arena := m.arena.releaseIfFree h }
    let handedOver ← tryCatch (invokeBody s f args receiver out closure) fun e => do
      releaseTemporary
      throw e
    if !handedOver then releaseTemporary

/-- Calls a closure of this program. One that shares mutable variables with an earlier run cannot be
called any more. -/
def invokeClosure (s : Setup) (callee : Value) (args : List Value) (out : Register) :
    Exec Unit := do
  match callee with
  | .object (.closure _ code captures) =>
    if code.program ≠ s.program.id then
      fail (.runtimeError ("Closure " ++ code.name ++ " belongs to another program"))
    else
      let sharesCells := captures.any fun (_, c) =>
        match c with
        | .cell _ => true
        | .copy _ => false
      if sharesCells && code.run ≠ (← get).runId then
        fail (.runtimeError
          ("Closure " ++ code.name ++ " shares mutable variables with a finished run"))
      else match s.program.closures[code.function]? with
        | some f => invoke s f args none out (some (callee, captures))
        | none => fail (.runtimeError ("Unknown closure #" ++ Text.ofNat code.function))
  | v => fail (.typeError ("Cannot call a value of type " ++ v.typeName))

def captureVariable (name : Text) : Exec (Option (Text × Captured Value)) := do
  match ← findBinding name with
  | none => return none
  | some (.fixed v) => return some (name, .copy v)
  | some (.cell h) | some (.captured h) =>
    pin h
    return some (name, .cell h)
  | some (.borrowed h) => return some (name, .copy (← readArena fun a => a.borrowed h))

def makeClosure (s : Setup) (function : Nat) (out : Register) : Exec Unit := do
  match s.program.closures[function]? with
  | none => fail (.runtimeError ("Unknown closure #" ++ Text.ofNat function))
  | some f =>
    let body ← lift (s.program.scope (some f.scope))
    let captures ← body.captures.filterMapM captureVariable
    let id ← freshId
    let code : ClosureCode := ⟨s.program.id, function, f.name, f.signature.params.length,
      f.signature.display f.name, (← get).runId⟩
    writeRegister s out (.object (.closure id code captures))

def objectAttribute (receiver : Value) (name : Text) (args : List Value) : Exec (Option Value) :=
  match receiver with
  | .object o =>
    if o.hasMethod name then some <$> lift (o.callMethod name args)
    else if o.hasMember name && args.isEmpty then some <$> lift (o.getMember name)
    else pure none
  | _ => pure none

def invokeExtension (s : Setup) (f : Function) (self : Value) (args : List Value)
    (variableName : Option Text) (out : Register) : Exec Unit := do
  let receiver ← resolveReceiver f self variableName
  invoke s f args (some receiver) out none

/-- A call by name: a function, or else an attribute or extension of the first argument. -/
def callFunction (s : Setup) (name : Text) (args : List Value) (out : Register) : Exec Unit := do
  match s.findFunction name with
  | some f => invoke s f args none out none
  | none =>
    match args with
    | [] => fail (s.unknownFunction "function" name)
    | self :: others =>
      match ← objectAttribute self name others with
      | some v => writeRegister s out v
      | none =>
        match s.findExtension name self with
        | some f => invokeExtension s f self others none out
        | none => fail (s.unknownFunction "function" name)

def mapMember (receiver : Value) (name : Text) (args : List Value) : Option Value :=
  match receiver, args with
  | .map entries, [] => Entries.find? (.str name) entries
  | _, _ => none

def isClosure : Value → Bool
  | .object (.closure ..) => true
  | _ => false

/-- A method call: an attribute, an entry of a map, an extension, or a function of the receiver. -/
def callMethod (s : Setup) (name : Text) (receiver : Value) (variableName : Option Text)
    (args : List Value) (out : Register) : Exec Unit := do
  if name == "call" && isClosure receiver then invokeClosure s receiver args out
  else match ← objectAttribute receiver name args with
    | some v => writeRegister s out v
    | none =>
      match mapMember receiver name args with
      | some v => writeRegister s out v
      | none =>
        match s.findExtension name receiver with
        | some f => invokeExtension s f receiver args variableName out
        | none =>
          match s.findFunction name with
          | some f => invoke s f (receiver :: args) none out none
          | none => fail (s.unknownFunction "method" (name ++ " for " ++ receiver.typeName))

def callModule (s : Setup) (module name : Text) (args : List Value) (out : Register) :
    Exec Unit := do
  match s.findModuleFunction module name with
  | some f => invoke s f args none out none
  | none =>
    match args with
    | [] => fail (s.unknownFunction "function" (module ++ "." ++ name))
    | self :: others =>
      match s.findModuleExtension module name self with
      | some f => invokeExtension s f self others none out
      | none => fail (s.unknownFunction "function" (module ++ "." ++ name))

end Exec

end ScriptMachine
