import ScriptMachine.Builtins.SharedModule
import ScriptMachine.Compiler.Source
import ScriptMachine.Machine.Run
import ScriptMachine.Session.Configuration
import ScriptMachine.Session.Tasks

set_option autoImplicit false

/-!
# Sessions

A session owns all that programs share: the built-in functions, which can be added to until the
first compilation, the shared values, the compiled programs and the tasks. Every entry into a
program gets a machine of its own.
-/
namespace ScriptMachine

structure Session where
  config : Configuration
  builtins : Registry
  programs : Cache Program
  host : Host
  tasks : Tasks (Except CompileError RunResult)

structure TestOutcome where
  name : Text
  passed : Bool
  message : Text

def TestOutcome.judge (f : Function) (r : RunResult) : TestOutcome :=
  let name := if f.module.isEmpty then f.name else f.module ++ "." ++ f.name
  match r with
  | .fault e => ⟨name, false, e.display⟩
  | .ok (.error e) => ⟨name, false, e.display⟩
  | .ok (.bool false) => ⟨name, false, "returned false"⟩
  | .ok _ => ⟨name, true, []⟩
  | .unfinished => ⟨name, false, "unfinished"⟩

abbrev TestReport := List TestOutcome

namespace TestReport

def passed (r : TestReport) : Nat := r.countP fun o => o.passed
def failed (r : TestReport) : Nat := r.countP fun o => !o.passed
def isOk (r : TestReport) : Bool := r.failed == 0

end TestReport

namespace Session

def create (config : Configuration) (host : Host) : Session :=
  let journal :=
    if config.logPath.isEmpty then host.journal else { host.journal with path := config.logPath }
  { config, builtins := .standard, programs := .create config.cacheSize,
    host := { host with journal, shared := some .empty }, tasks := .empty }

def define (s : Session) (f : Function) : Except RegistryError Session := do
  return { s with builtins := ← s.builtins.defineFunction f }

/-- The built-in functions are complete from the first compilation on. -/
def freeze (s : Session) : Session := { s with builtins := s.builtins.freeze }

def build (s : Session) (source : Text) : Except CompileError Program × Session :=
  let (id, host) := s.host.freshId
  (compileSource (some s.builtins) id source, { s with host })

/-- Keeps a program for later unless there is one already, and gives the one that is kept. -/
def keep (s : Session) (source : Text) (program : Program) : Program × Session :=
  let (program, programs) := s.programs.store source program
  (program, { s with programs })

def compile (s : Session) (source : Text) : Except CompileError Program × Session :=
  let s := s.freeze
  match s.programs.find? source with
  | some program => (.ok program, s)
  | none =>
    match s.build source with
    | (.error e, s) => (.error e, s)
    | (.ok program, s) =>
      let (program, s) := s.keep source program
      (.ok program, s)

def setup (s : Session) (program : Program) : Setup := ⟨program, some s.builtins, s.config.options⟩

def takeOver (s : Session) (entry : Text) (result : RunResult) (m : Machine) : Session :=
  match result with
  | .fault e =>
    if s.config.logFaults then
      let (journal, logged) := m.host.journal.machineFault e.display (m.faultTrace.headD entry)
        e.location.line m.faultTrace ("entry: " ++ entry)
      let console := m.host.console.mirror journal.path logged
      { s with host := { m.host with journal, console } }
    else { s with host := m.host }
  | _ => { s with host := m.host }

def enter (s : Session) (program : Program) (entry : Text)
    (start : Setup → Machine → RunResult × Machine) : RunResult × Session :=
  let (result, m) := start (s.setup program) (Machine.initial s.host)
  (result, s.takeOver entry result m)

def run (s : Session) (program : Program) : RunResult × Session :=
  s.enter program "<main>" fun setup m => m.run setup

def eval (s : Session) (source : Text) : Except CompileError RunResult × Session :=
  match s.compile source with
  | (.error e, s) => (.error e, s)
  | (.ok program, s) =>
    let (result, s) := s.run program
    (.ok result, s)

def call (s : Session) (program : Program) (name : Text) (args : List Value) :
    RunResult × Session :=
  s.enter program name fun setup m => m.callNamed setup name args

def callFunction (s : Session) (program : Program) (f : Function) (args : List Value) :
    RunResult × Session :=
  s.enter program f.name fun setup m => m.callFunction setup f args

def callEach (s : Session) (program : Program) (args : List Value) :
    List Function → List RunResult × Session
  | [] => ([], s)
  | f :: rest =>
    let (result, s) := s.callFunction program f args
    let (results, s) := s.callEach program args rest
    (result :: results, s)

def runTests (s : Session) (program : Program) : TestReport × Session :=
  let tests := program.modules.functionsWithTag Tag.test
  let (results, s) := s.callEach program [] tests
  (tests.zipWith TestOutcome.judge results, s)

def handles (event : Text) (f : Function) : Bool :=
  match f.tag? Tag.event with
  | some t => t.argument == event
  | none => false

def dispatch (s : Session) (program : Program) (event : Text) (args : List Value) :
    List RunResult × Session :=
  s.callEach program args (program.modules.functions.filter (handles event))

def runTask (s : Session) (source : Text) : Except CompileError RunResult × Session :=
  match s.compile source with
  | (.error e, s) =>
    match e with
    | .source _ location _ =>
      (.ok (.fault { kind := .runtimeError, message := e.message, location }), s)
    | _ => (.error e, s)
  | (.ok program, s) =>
    let (result, s) := s.enter program "<spawn>" fun setup m => m.run setup
    (.ok result, s)

def spawn (s : Session) (source : Text) : Int × Session :=
  let (outcome, s) := s.runTask source
  let (handle, tasks) := s.tasks.enqueue outcome
  (handle, { s with tasks })

def await (s : Session) (handle : Int) :
    Except TaskError (Except CompileError RunResult × Session) := do
  let (outcome, tasks) ← s.tasks.take handle
  return (outcome, { s with tasks })

end Session

end ScriptMachine
