import ScriptMachine.Text

set_option autoImplicit false

namespace ScriptMachine

inductive DeclaredType where
  | any
  | none
  | bool
  | number
  | int
  | uint
  | float
  | string
  | list
  | map
  | error
  | custom (name : Text)
  deriving DecidableEq, Inhabited

namespace DeclaredType

def name : DeclaredType → Text
  | .any => "Any"
  | .none => "None"
  | .bool => "Bool"
  | .number => "Number"
  | .int => "Int"
  | .uint => "UInt"
  | .float => "Float"
  | .string => "String"
  | .list => "List"
  | .map => "Map"
  | .error => "Error"
  | .custom n => n

def builtins : List DeclaredType :=
  [.any, .none, .bool, .number, .int, .uint, .float, .string, .list, .map, .error]

def named (n : Text) : DeclaredType :=
  (builtins.find? (fun t => t.name == n)).getD (.custom n)

end DeclaredType

end ScriptMachine
