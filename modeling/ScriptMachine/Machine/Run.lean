import ScriptMachine.Machine.Step

set_option autoImplicit false

namespace ScriptMachine

/-- How a run ends. A value may be an error value: a fault is one that nothing has caught. -/
inductive RunResult where
  | ok (v : Value)
  | fault (f : Fault)
  /-- The machine has used up its steps. -/
  | unfinished

namespace RunResult

def isOk : RunResult → Bool
  | .ok _ => true
  | _ => false

end RunResult

/-- A frame in a call stack: its function or scope, and the line that it has reached. -/
def Frame.label (s : Setup) (f : Frame) : Text :=
  match s.program.scopes[f.scope]? with
  | none => []
  | some scope =>
    let name :=
      match f.function with
      | some fn => fn.name
      | none => scope.name
    let location :=
      match f.pc with
      | 0 => Location.unknown
      | pc + 1 => ((scope.code[pc]?).map Instruction.location).getD .unknown
    if location.known then name ++ " (line " ++ Text.ofNat location.line ++ ")" else name

namespace Exec

def handle (s : Setup) (f : Frame) (h : Handler) (error : Fault) : Exec Unit := do
  match h.scope with
  | none => deliver s (.error error) f.out
  | some scope =>
    pushFrame s (some scope) f.parent f.out
    match h.errorName with
    | some name => bindLet s name (.error error)
    | none => pure ()

end Exec

namespace Machine

/-- Leaves frames, top first, until one has a handler that takes the error. A handler can fail; the
search then goes on below it for the new fault. Gives the fault that is left, if any. -/
def unwind (s : Setup) : List Frame → Fault → List Text → Machine → Option Fault × Machine
  | [], error, trace, m => (some error, { m with faultTrace := trace })
  | f :: below, error, trace, m =>
    let m := m.popFrame s
    match f.handler with
    | none => unwind s below error trace m
    | some h =>
      match Exec.handle s f h error m with
      | .ok _ m => (none, m)
      | .error e m => unwind s below (e.fault.locatedAt m.location) (below.map (Frame.label s)) m

def recover (s : Setup) (error : Fault) (m : Machine) : Option Fault × Machine :=
  m.unwind s m.frames (error.locatedAt m.location) (m.frames.map (Frame.label s))

def popAll (s : Setup) (m : Machine) : Machine := m.frames.foldl (fun m _ => m.popFrame s) m

def releasePinned (s : Setup) (m : Machine) : Machine :=
  let arena :=
    if s.options.keepCells then m.arena
    else m.pinned.foldl (fun a h => a.releaseIfFree h) m.arena
  { m with arena, pinned := [] }

def settle (s : Setup) (m : Machine) : Machine := { (m.popAll s).releasePinned s with halted := none }

def outcome (m : Machine) : RunResult := .ok (m.halted.getD m.entryResult)

inductive Progress where
  | running (m : Machine)
  | finished (r : RunResult) (m : Machine)

def advance (s : Setup) (m : Machine) : Progress :=
  if m.frames.isEmpty || m.halted.isSome then .finished m.outcome (m.settle s)
  else match Exec.step s m with
    | .ok _ m => .running m
    | .error e m =>
      match m.recover s e.fault with
      | (none, m) => .running m
      | (some e, m) => .finished (.fault e) (m.settle s)

def runFor (s : Setup) : Nat → Machine → RunResult × Machine
  | 0, m => (.unfinished, m.settle s)
  | n + 1, m =>
    match m.advance s with
    | .running m => runFor s n m
    | .finished r m => (r, m)

def begin (s : Setup) (m : Machine) : Machine :=
  let m := m.settle s
  let (runId, host) := m.host.freshId
  { m with faultTrace := [], entryResult := .none, runId, host }

def start (s : Setup) (action : Exec Unit) (m : Machine) : RunResult × Machine :=
  match action (m.begin s) with
  | .ok _ m => m.runFor s s.options.budget
  | .error e m => (.fault e.fault, m.settle s)

def run (s : Setup) (m : Machine) : RunResult × Machine :=
  m.start s (Exec.pushFrame s (some 0) none noneRegister)

def callFunction (s : Setup) (f : Function) (args : List Value) (m : Machine) :
    RunResult × Machine :=
  m.start s do
    if f.isExtension then
      match args with
      | [] => Exec.fail (.typeError (f.name ++ " needs a receiver"))
      | self :: others => Exec.invokeExtension s f self others none noneRegister
    else Exec.invoke s f args none noneRegister none

def callNamed (s : Setup) (name : Text) (args : List Value) (m : Machine) : RunResult × Machine :=
  match s.findFunction name with
  | some f => m.callFunction s f args
  | none => (.fault (s.unknownFunction "function" name), m.settle s)

def callValue (s : Setup) (callee : Value) (args : List Value) (m : Machine) :
    RunResult × Machine :=
  m.start s (Exec.invokeClosure s callee args noneRegister)

end Machine

inductive SetupError where
  | noTopLevel

def SetupError.message : SetupError → Text
  | .noTopLevel => "Program has no top-level scope"

/-- A machine can only work on a program that has a top level. -/
def Setup.create (program : Program) (builtins : Option Registry) (options : Options) :
    Except SetupError Setup :=
  if program.scopes.isEmpty then .error .noTopLevel else .ok ⟨program, builtins, options⟩

end ScriptMachine
