import Std.Time
import ScriptMachine.CommandLine.Lister
import ScriptMachine.CommandLine.Runner

set_option autoImplicit false

namespace ScriptMachine

namespace Terminal

def bytes (t : Text) : ByteArray := ⟨t.toArray⟩

def pathOf (t : Text) : String := (String.fromUTF8? (bytes t)).getD ""

def readSource (path : String) : IO (Except ReadError Text) := do
  try
    return .ok (← IO.FS.readBinFile path).data.toList
  catch
    | .inappropriateType .. => return .error .directory
    | _ => return .error (.missing path)

def readSources (args : List String) : IO (List (Text × Except ReadError Text)) :=
  args.mapM fun path => do return (Text.ofString path, ← readSource path)

def settingNames : List String := ["EMBER_LOG", "EMBER_LOG_LEVEL", "EMBER_LOG_PATH", "EMBER_WORKERS"]

def readVariables : IO (List (Text × Text)) :=
  settingNames.filterMapM fun name => do
    return (← IO.getEnv name).map fun v => (Text.ofString name, Text.ofString v)

def surroundings (args : List String) : IO Surroundings := do
  let sources ← readSources args
  let settings ← readVariables
  return ⟨fun path => (sources.lookup path).getD (.error (.missing path)), fun name => settings.lookup name⟩

def save (path content : Text) : IO Bool := do
  try
    IO.FS.writeBinFile (pathOf path) (bytes content)
    return true
  catch _ => return false

def appendTo (path content : Text) : IO Unit := do
  try
    let file ← IO.FS.Handle.mk (pathOf path) .append
    file.write (bytes content)
  catch _ => return ()

def printMessage (time : Text) : Message → IO Unit
  | .plain t => do (← IO.getStderr).write (bytes t)
  | .logged path e => do
    appendTo path (e.render time)
    (← IO.getStderr).write (bytes (e.render time))

def timestamp : IO Text := do
  let now ← Std.Time.PlainDateTime.now
  return Text.ofString (now.format "uuuu-MM-dd HH:mm:ss.SSS")

def print (c : Console) : IO Unit := do
  let stdout ← IO.getStdout
  stdout.write (bytes c.outText)
  stdout.flush
  let time ← timestamp
  c.err.reverse.forM (printMessage time)

def conclude (o : Outcome) : IO UInt32 := do
  let saved ←
    match o.ending with
    | .save path content => save path content
    | .exit _ => pure true
  let (console, code) := o.afterSaving saved
  print console
  return code.toUInt32

end Terminal

end ScriptMachine

def main (args : List String) : IO UInt32 := do
  let around ← ScriptMachine.Terminal.surroundings args
  let texts := args.map ScriptMachine.Text.ofString
  let name := (← IO.appPath).fileName
  ScriptMachine.Terminal.conclude
    (if name = some "emberc" then ScriptMachine.Lister.run around texts
      else ScriptMachine.Runner.run around texts)
