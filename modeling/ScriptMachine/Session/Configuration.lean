import ScriptMachine.Machine.State
import ScriptMachine.Session.Cache

set_option autoImplicit false

namespace ScriptMachine

structure Configuration where
  options : Options
  /-- 0 stands for the number of processors. -/
  workers : Nat
  /-- Faults that nothing caught are entered in the journal. -/
  logFaults : Bool
  /-- Where the journal is kept; empty for its standard place. -/
  logPath : Text
  cacheSize : Nat

namespace Configuration

def standard : Configuration := ⟨.standard, 0, true, [], Cache.standardCapacity⟩

def flags : List Text := ["1", "true", "on", "yes"]

/-- An environment variable; an empty one counts as not set. -/
def setting (env : Text → Option Text) (name : Text) : Option Text :=
  (env name).filter fun t => !t.isEmpty

/-- The magnitude of a decimal number that is cut off at the largest word. -/
def boundedValue (digits : Text) : Nat := Nat.min (Text.natValue digits) Number.uintMax

/-- The word that a sign gives to a magnitude: a negative number wraps around, unless the magnitude
did not fit. -/
def signedWord (negative : Bool) (digits : Text) : Nat :=
  let n := Text.natValue digits
  if negative && n ≤ Number.uintMax then (-n.toUInt64).toNat else boundedValue digits

def readWord (t : Text) : Option Nat :=
  let rest := t.dropWhile fun b => b == Text.byte ' ' || (9 ≤ b && b ≤ 13)
  let (negative, digits) :=
    match rest with
    | 45 :: digits => (true, digits)
    | 43 :: digits => (false, digits)
    | digits => (false, digits)
  if !digits.isEmpty && digits.all Text.isDigit then some (signedWord negative digits) else none

def ignoring (host : Host) (name value : Text) : Host :=
  host.log .warn ("Ignoring " ++ name ++ "=" ++ value)

def applyLogging (env : Text → Option Text) (c : Configuration) : Configuration :=
  match setting env "EMBER_LOG" with
  | some v => { c with options := { c.options with logging := flags.contains v } }
  | none => c

def applyLevel (env : Text → Option Text) (c : Configuration) (host : Host) :
    Configuration × Host :=
  match setting env "EMBER_LOG_LEVEL" with
  | none => (c, host)
  | some v =>
    match LogLevel.parse v with
    | some logLevel => ({ c with options := { c.options with logLevel } }, host)
    | none => (c, ignoring host "EMBER_LOG_LEVEL" v)

def applyPath (env : Text → Option Text) (c : Configuration) : Configuration :=
  match setting env "EMBER_LOG_PATH" with
  | some logPath => { c with logPath }
  | none => c

def applyWorkers (env : Text → Option Text) (c : Configuration) (host : Host) :
    Configuration × Host :=
  match setting env "EMBER_WORKERS" with
  | none => (c, host)
  | some v =>
    match readWord v with
    | some workers => ({ c with workers }, host)
    | none => (c, ignoring host "EMBER_WORKERS" v)

def fromEnvironment (env : Text → Option Text) (host : Host) : Configuration × Host :=
  let (c, host) := applyLevel env (applyLogging env standard) host
  applyWorkers env (applyPath env c) host

end Configuration

end ScriptMachine
