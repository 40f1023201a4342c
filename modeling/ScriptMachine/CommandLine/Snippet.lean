import ScriptMachine.Fault

set_option autoImplicit false

namespace ScriptMachine

def sourceLines (source : Text) : List Text :=
  let pieces := Text.split Text.newline source
  if pieces.getLast? = some [] then pieces.dropLast else pieces

def snippet (source : Text) (l : Location) : Text :=
  if !l.known then []
  else match (sourceLines source)[l.line - 1]? with
    | none => []
    | some line =>
      let margin : Text := Text.ofNat l.line ++ " | "
      margin ++ line ++ Text.newline ++
        Text.fill (margin.length + (l.column - 1)) (Text.byte ' ') ++ "^" ++ Text.newline

end ScriptMachine
