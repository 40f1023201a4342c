import ScriptMachine.Text

set_option autoImplicit false

namespace ScriptMachine

inductive LogLevel where
  | trace
  | debug
  | info
  | warn
  | error
  deriving DecidableEq, Inhabited

namespace LogLevel

def name : LogLevel → Text
  | .trace => "TRACE"
  | .debug => "DEBUG"
  | .info => "INFO"
  | .warn => "WARN"
  | .error => "ERROR"

def rank : LogLevel → Nat
  | .trace => 0
  | .debug => 1
  | .info => 2
  | .warn => 3
  | .error => 4

def parse (t : Text) : Option LogLevel :=
  if t == "trace" then some .trace
  else if t == "debug" then some .debug
  else if t == "info" then some .info
  else if t == "warn" then some .warn
  else if t == "error" then some .error
  else none

end LogLevel

structure LogEntry where
  before : Text
  after : Text
  deriving DecidableEq, Inhabited

def LogEntry.render (e : LogEntry) (time : Text) : Text := e.before ++ time ++ e.after

/-- Where entries are kept, whether they are written at all, and remarks for the next report. -/
structure Journal where
  path : Text
  enabled : Bool
  remarks : List (Text × Text)
  deriving DecidableEq, Inhabited

namespace Journal

def rule : Text := Text.fill 80 (Text.byte '=') ++ Text.newline

def line (t : Text) : Text := t ++ Text.newline

def omitIf (absent : Bool) (t : Text) : Text := if absent then [] else t

def remarkBlock (j : Journal) (title : Text) : Text :=
  omitIf j.remarks.isEmpty (Text.newline ++ line ("--- " ++ title ++ " ---") ++
    (j.remarks.map fun (k, v) => line (k ++ ": " ++ v)).flatten)

def report (j : Journal) (title body : Text) : Journal × Option LogEntry :=
  ({ j with remarks := [] },
    if j.enabled then
      some ⟨Text.newline ++ rule ++ title ++ " - ",
        Text.newline ++ rule ++ body ++ rule ++ Text.newline⟩
    else none)

def error (j : Journal) (message function file : Text) (lineNumber : Int32) :
    Journal × Option LogEntry :=
  j.report "ERROR LOG" (line ("Message: " ++ message) ++
    omitIf function.isEmpty (line ("Function: " ++ function)) ++
    omitIf file.isEmpty (line ("File: " ++ file)) ++
    omitIf (lineNumber ≤ 0) (line ("Line: " ++ Text.ofInt lineNumber.toInt)) ++
    j.remarkBlock "Context")

def machineFault (j : Journal) (message scope : Text) (lineNumber : Nat) (stack : List Text)
    (context : Text) : Journal × Option LogEntry :=
  j.report "VM ERROR LOG" (line ("Message: " ++ message) ++
    Text.newline ++ line "--- VM State ---" ++
    line ("Current Scope: " ++ scope) ++
    line ("Source Line: " ++
      (if lineNumber = 0 then Text.ofString "<unknown>" else Text.ofNat lineNumber)) ++
    omitIf stack.isEmpty (Text.newline ++ line "--- Script Call Stack ---" ++
      (stack.zipIdx.map fun (label, i) => line ("  [" ++ Text.ofNat i ++ "] " ++ label)).flatten) ++
    omitIf context.isEmpty (Text.newline ++ line "--- Additional Context ---" ++ line context) ++
    j.remarkBlock "Debug Context")

/-- A failure of the embedding program; its message ends at a NUL byte. -/
def exception (j : Journal) (message context : Text) : Journal × Option LogEntry :=
  j.report "EXCEPTION LOG" (line ("Message: " ++ message.untilNul) ++
    omitIf context.isEmpty (line ("Context: " ++ context)) ++
    j.remarkBlock "Debug Context")

def message (j : Journal) (level : LogLevel) (t : Text) : Option LogEntry :=
  if j.enabled then some ⟨"[", line ("] " ++ level.name ++ " " ++ t)⟩ else none

def remark (j : Journal) (key value : Text) : Journal :=
  { j with remarks := j.remarks ++ [(key, value)] }

end Journal

end ScriptMachine
