import ScriptMachine.Machine.Comprehension

set_option autoImplicit false

/-!
# One step of a machine

A step takes the next instruction of the top frame, moves past it, notes its place, and does what it
says. A frame that has run to its end returns none.
-/
namespace ScriptMachine

/-- Puts values in the places of a template marked by an empty pair of braces; values that are left
over follow at the end. -/
def formatTemplate : Text → List Text → Text
  | 123 :: 125 :: rest, v :: vs => v ++ formatTemplate rest vs
  | c :: rest, vs => c :: formatTemplate rest vs
  | [], vs => (vs.map fun v => Text.byte ' ' :: v).flatten

namespace Exec

def readPairs (s : Setup) (f : Frame) : List Register → Exec Entries
  | k :: v :: rest => do
    let value ← readRegister s f v
    let key ← readRegister s f k
    return (key, value) :: (← readPairs s f rest)
  | _ => return []

def applyUnary (op : UnaryOp) (v : Value) : Exec Value := do
  match op.printed? v with
  | some (.out t) => modifyHost fun h => h.write t
  | some (.err t) => modifyHost fun h => h.complain t
  | none => pure ()
  lift (op.apply v)

/-- An identity for the record that an operator makes; only an addition makes any. -/
def recordId (op : BinaryOp) : Exec Nat := if op = .add then freshId else pure 0

def applyBinary (op : BinaryOp) (a b : Value) : Exec Value := do
  lift (op.apply (← recordId op) a b)

def enterBlock (s : Setup) (target : Target) (out : Register) : Exec Unit := do
  pushFrame s target (some (← topIndex)) out

/-- Enters a scope with arguments. A function's scope sees only the top level, any other the frame
that it is called from. -/
def callScope (s : Setup) (f : Frame) (target : Target) (args : List Register) (out : Register) :
    Exec Unit := do
  let scope ← lift (s.program.scope target)
  let args ← readRegisters s f args
  let parent ← if scope.kind = .function then rootFrame else some <$> topIndex
  pushFrame s target parent out
  bindParams s scope.params args

/-- A failed cast gives an error value. -/
def castRegister (s : Setup) (f : Frame) (source out : Register) (type : DeclaredType) :
    Exec Unit := do
  let v ← readRegister s f source
  match type.cast v with
  | .ok w => writeRegister s out w
  | .error e =>
    if e.kind = .castError then
      let location := (← get).location
      writeRegister s out (.error { e with location })
    else fail e

/-- Raises a value. An error value is raised as it is. -/
def raise (v : Value) : Exec Unit := do
  match v with
  | .error e => fail e
  | v =>
    let location := (← get).location
    fail { kind := .userRaised, message := v.display, payload := some v, location }

def puts (values : List Value) : Exec Unit :=
  modifyHost fun h => h.write (Text.join ", " (values.map Value.display) ++ Text.newline)

/-- Logs a message; without effect, also on the registers it names, if the level is too low. -/
def log (s : Setup) (f : Frame) (level : LogLevel) (template : Text) (args : List Register) :
    Exec Unit := do
  if s.options.logging && s.options.logLevel.rank ≤ level.rank then
    let values ← readRegisters s f args
    modifyHost fun h => h.log level (formatTemplate template (values.map Value.display))

def perform (s : Setup) (f : Frame) : Operation → Exec Unit
  | .halt source => do
    let v ← readRegister s f source
    modify fun m => { m with halted := some v }
  | .haltIfError source => do
    let v ← readRegister s f source
    if v.isError then modify fun m => { m with halted := some v }
  | .load literal out => writeRegister s out literal
  | .copy source out => do writeRegister s out (← readRegister s f source)
  | .loadLet name source => do bindLet s name (← readRegister s f source)
  | .loadMut name source => do bindMut s name (← readRegister s f source)
  | .setVariable name source => do assignVariable name (← readRegister s f source)
  | .getVariable name out => do writeRegister s out (← readVariable name)
  | .unary op source out => do
    writeRegister s out (← applyUnary op (← readRegister s f source))
  | .binary op left right out => do
    let b ← readRegister s f right
    let a ← readRegister s f left
    writeRegister s out (← applyBinary op a b)
  | .makeList items out => do writeRegister s out (.list (← readRegisters s f items))
  | .makeMap pairs out => do
    if pairs.length % 2 ≠ 0 then fail (.runtimeError "MakeMap needs key/value register pairs")
    else writeRegister s out (.map (Entries.ofPairs (← readPairs s f pairs)))
  | .call target args out => callScope s f target args out
  | .callCompared equal left right target out => do
    let a ← readRegister s f left
    let b ← readRegister s f right
    if a.looseEquals b = equal then enterBlock s target out
  | .ifElse condition target otherwise out => do
    let v ← readRegister s f condition
    match if v.truthy then target else otherwise with
    | none => writeRegister s out .none
    | target => enterBlock s target out
  | .branch truth condition target out => do
    let v ← readRegister s f condition
    if v.truthy = truth then enterBlock s target out else writeRegister s out .none
  | .callFunction name args out => do callFunction s name (← readRegisters s f args) out
  | .callMethod name receiver variableName args out => do
    let v ← readRegister s f receiver
    callMethod s name v variableName (← readRegisters s f args) out
  | .callModule module name args out => do
    callModule s module name (← readRegisters s f args) out
  | .tryCatch target handler errorName out => do
    enterBlock s target out
    modifyTop fun f => { f with handler := some ⟨handler, errorName⟩ }
  | .raise source => do raise (← readRegister s f source)
  | .cast source out type => castRegister s f source out type
  | .ret source => do returnFrom s (← readRegister s f source)
  | .leave source => do leave s (← readRegister s f source)
  | .makeClosure function out => makeClosure s function out
  | .callValue callee args out => do
    let v ← readRegister s f callee
    invokeClosure s v (← readRegisters s f args) out
  | .makeRange start stop inclusive out => do
    let b ← readRegister s f stop
    let a ← readRegister s f start
    writeRegister s out (← lift (Range.make a b inclusive))
  | .collect toMap source target out => do
    startLoop s toMap (← readRegister s f source) target out
  | .puts args => do puts (← readRegisters s f args)
  | .log level template args => log s f level template args

def step (s : Setup) : Exec Unit := do
  let f ← top
  let scope ← lift (s.program.scope (some f.scope))
  match scope.code[f.pc]? with
  | none => returnFrom s .none
  | some i =>
    modifyTop fun f => { f with pc := f.pc + 1 }
    if i.location.known then modify fun m => { m with location := i.location }
    perform s f i.operation

end Exec

end ScriptMachine
