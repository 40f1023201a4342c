import ScriptMachine.Session.Basic

set_option autoImplicit false

namespace ScriptMachine

inductive ReadError where
  | missing (path : Text)
  | directory

def ReadError.message : ReadError → Text
  | .missing path => "Cannot open source file: " ++ path
  | .directory => "basic_filebuf::underflow error reading the file: Is a directory"

structure Surroundings where
  readFile : Text → Except ReadError Text
  setting? : Text → Option Text

inductive Ending where
  | exit (code : Nat)
  | save (path content : Text)

structure Outcome where
  console : Console
  ending : Ending

def Journal.standard : Journal := ⟨"ember.log", true, []⟩

def Host.fresh : Host := ⟨.empty, .standard, none, 0, 1⟩

end ScriptMachine
