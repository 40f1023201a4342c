import ScriptMachine.CommandLine.Basic
import ScriptMachine.Program.Listing

set_option autoImplicit false

namespace ScriptMachine

namespace Lister

def usage : Text := "Usage: emberc <input.em> [listing.txt]\n"

def compileFile (around : Surroundings) (path : Text) : Except Text Program :=
  match around.readFile path with
  | .error e => .error e.message.untilNul
  | .ok source =>
    match compileSource (some Registry.standard.freeze) 1 source with
    | .error e => .error e.message
    | .ok program => .ok program

def list (around : Surroundings) (path : Text) (target : Option Text) : Outcome :=
  match compileFile around path with
  | .error message =>
    ⟨Console.empty.complain ("Compile failed: " ++ message ++ Text.newline), .exit 10⟩
  | .ok program =>
    match target with
    | none => ⟨Console.empty.write program.listing, .exit 0⟩
    | some target => ⟨.empty, .save target program.listing⟩

def run (around : Surroundings) (args : List Text) : Outcome :=
  match args with
  | [path] => list around path none
  | [path, target] => list around path (some target)
  | _ => ⟨Console.empty.complain usage, .exit 1⟩

end Lister

def Outcome.afterSaving (o : Outcome) (saved : Bool) : Console × Nat :=
  match o.ending with
  | .exit code => (o.console, code)
  | .save path _ =>
    if saved then (o.console, 0)
    else (o.console.complain ("Failed to write listing: " ++ path ++ Text.newline), 3)

end ScriptMachine
