import ScriptMachine.CommandLine.Basic
import ScriptMachine.CommandLine.Snippet
import ScriptMachine.Program.Listing

set_option autoImplicit false

namespace ScriptMachine

namespace Runner

def usage : Text :=
  "usage: ember [--log] [--log-level=<level>] [--no-modules] [--disassemble] [--test] <file>\n"

structure Request where
  config : Configuration
  disassemble : Bool
  test : Bool
  path : Text

/-- Why arguments are refused; without a reason if there is no script to run. -/
inductive Refusal where
  | unknownLevel (level : Text)
  | unknownOption (arg : Text)
  | secondScript
  | noScript

def Refusal.message : Refusal → Text
  | .unknownLevel level => "ember: unknown log level '" ++ level ++ "'\n"
  | .unknownOption arg => "ember: unknown option '" ++ arg ++ "'\n"
  | .secondScript => "ember: only one script can be run at a time\n"
  | .noScript => []

def levelOption : Text := "--log-level="

def withOptions (r : Request) (f : Options → Options) : Request :=
  { r with config := { r.config with options := f r.config.options } }

def parseArg (r : Request) (arg : Text) : Except Refusal Request :=
  if arg == "--log" then .ok (withOptions r fun o => { o with logging := true })
  else if levelOption.isPrefixOf arg then
    let level := arg.drop levelOption.length
    match LogLevel.parse level with
    | some logLevel => .ok (withOptions r fun o => { o with logging := true, logLevel })
    | none => .error (.unknownLevel level)
  else if arg == "--no-modules" then .ok (withOptions r fun o => { o with disableModules := true })
  else if arg == "--disassemble" then .ok { r with disassemble := true }
  else if arg == "--test" then .ok { r with test := true }
  else if arg.head? = some (Text.byte '-') then .error (.unknownOption arg)
  else if r.path.isEmpty then .ok { r with path := arg }
  else .error .secondScript

def parseArgs (config : Configuration) (args : List Text) : Except Refusal Request := do
  let r ← args.foldlM parseArg ⟨config, false, false, []⟩
  if r.path.isEmpty then throw .noScript else return r

def reportLine (o : TestOutcome) : Text :=
  (if o.passed then Text.ofString "PASS " ++ o.name else "FAIL " ++ o.name ++ ": " ++ o.message) ++
    Text.newline

def reportText (r : TestReport) : Text :=
  (r.map reportLine).flatten ++ Text.ofNat r.passed ++ " passed, " ++ Text.ofNat r.failed ++
    " failed\n"

def compileFailure (path source : Text) (e : CompileError) : Text :=
  match e with
  | .source _ location _ =>
    let oneLine := e.message.all fun b => b != Text.byte '\n' && b != Text.byte '\r'
    path ++ ":" ++ e.message ++ Text.newline ++ (if oneLine then snippet source location else [])
  | _ => "ember: " ++ e.message ++ Text.newline

def faultText (path source : Text) (e : Fault) : Text :=
  path ++ ":" ++ Text.ofNat e.location.line ++ ":" ++ Text.ofNat e.location.column ++ ": " ++
    e.display ++ Text.newline ++ snippet source e.location

def carryOut (r : Request) (source : Text) (program : Program) (s : Session) : Outcome :=
  if r.disassemble then ⟨s.host.console.write program.listing, .exit 0⟩
  else if r.test then
    let (report, s) := s.runTests program
    ⟨s.host.console.write (reportText report), .exit (if report.isOk then 0 else 1)⟩
  else
    match s.run program with
    | (.ok _, s) => ⟨s.host.console, .exit 0⟩
    | (.fault e, s) => ⟨s.host.console.complain (faultText r.path source e), .exit 1⟩
    | (.unfinished, s) => ⟨s.host.console, .exit 1⟩

def fulfil (around : Surroundings) (r : Request) (host : Host) : Outcome :=
  let s := Session.create r.config host
  match around.readFile r.path with
  | .error e => ⟨s.host.console.complain ("ember: " ++ e.message.untilNul ++ Text.newline), .exit 2⟩
  | .ok source =>
    match s.compile source with
    | (.error e, s) => ⟨s.host.console.complain (compileFailure r.path source e), .exit 2⟩
    | (.ok program, s) => carryOut r source program s

def run (around : Surroundings) (args : List Text) : Outcome :=
  let (config, host) := Configuration.fromEnvironment around.setting? .fresh
  match parseArgs config args with
  | .error refusal =>
    ⟨(host.console.complain refusal.message).complain usage, .exit 2⟩
  | .ok r => fulfil around r host

end Runner

end ScriptMachine
