import ScriptMachine.Value.Basic

set_option autoImplicit false

namespace ScriptMachine

namespace Value

mutual

def display : Value → Text
  | .none => "none"
  | .bool b => if b then "true" else "false"
  | .num n => n.display
  | .str t => t
  | .list items => "[" ++ displayItems items ++ "]"
  | .map entries => "\x7b" ++ displayEntries entries ++ "\x7d"
  | .error f => f.display
  | .object o => displayObject o

def displayItems : List Value → Text
  | [] => []
  | [v] => display v
  | v :: w :: rest => display v ++ ", " ++ displayItems (w :: rest)

def displayEntries : List (Value × Value) → Text
  | [] => []
  | [(k, v)] => display k ++ " = " ++ display v
  | (k, v) :: e :: rest => display k ++ " = " ++ display v ++ ", " ++ displayEntries (e :: rest)

def displayObject : ObjectOf Value → Text
  | .range r => r.display
  | .record _ shape values => shape.name ++ "\x7b" ++ displayFields shape.fields values ++ "\x7d"
  | .closure _ code _ => "<fn " ++ code.signature.drop 3 ++ ">"
  | .host _ cls => "<" ++ cls.name ++ ">"

def displayFields (fields : List (Text × DeclaredType)) : List Value → Text
  | [] => []
  | [v] => ((fields.head?.map Prod.fst).getD []) ++ " = " ++ display v
  | v :: w :: rest =>
    ((fields.head?.map Prod.fst).getD []) ++ " = " ++ display v ++ ", " ++
      displayFields fields.tail (w :: rest)

end

end Value

end ScriptMachine
