import ScriptMachine.Program.Basic

set_option autoImplicit false

namespace ScriptMachine

namespace Listing

def register (r : Register) : Text := "r" ++ Text.ofNat r

def registers (rs : List Register) : Text := "(" ++ Text.join ", " (rs.map register) ++ ")"

def target : Target → Text
  | some i => "@" ++ Text.ofNat i
  | none => "-"

def literal : Value → Text
  | .str t => "'" ++ t ++ "'"
  | v => v.display

def into (out : Register) : Text := " -> " ++ register out

def operation : Operation → Text
  | .halt a => "Halt " ++ register a
  | .haltIfError a => "HaltIfError " ++ register a
  | .load v out => "Load " ++ literal v ++ into out
  | .copy a out => "Copy " ++ register a ++ into out
  | .loadLet name a => "LoadLet " ++ name ++ " = " ++ register a
  | .loadMut name a => "LoadMut " ++ name ++ " = " ++ register a
  | .setVariable name a => "SetVariable " ++ name ++ " = " ++ register a
  | .getVariable name out => "GetVariable " ++ name ++ into out
  | .unary op a out => "Unary " ++ op.name ++ " " ++ register a ++ into out
  | .binary op a b out => "Binary " ++ op.name ++ " " ++ register a ++ ", " ++ register b ++ into out
  | .makeList items out => "MakeList " ++ registers items ++ into out
  | .makeMap pairs out => "MakeMap " ++ registers pairs ++ into out
  | .call scope args out => "Call " ++ target scope ++ registers args ++ into out
  | .callCompared equal a b scope out =>
    (if equal then Text.ofString "CallEq " else "CallNeq ") ++ register a ++ ", " ++ register b ++
      " " ++ target scope ++ into out
  | .ifElse a scope otherwise out =>
    "IfElse " ++ register a ++ " " ++ target scope ++ " else " ++ target otherwise ++ into out
  | .branch truth a scope out =>
    (if truth then Text.ofString "If " else "Unless ") ++ register a ++ " " ++ target scope ++ into out
  | .callFunction name args out => "CallFunction " ++ name ++ registers args ++ into out
  | .callMethod name a variableName args out =>
    let source : Text :=
      match variableName with
      | some v => " [" ++ v ++ "]"
      | none => []
    "CallMethod " ++ register a ++ source ++ "." ++ name ++ registers args ++ into out
  | .callModule module name args out =>
    "CallModule " ++ module ++ "." ++ name ++ registers args ++ into out
  | .tryCatch scope handler errorName out =>
    let binding : Text :=
      match errorName with
      | some n => " as " ++ n
      | none => []
    "Try " ++ target scope ++ " catch " ++ target handler ++ binding ++ into out
  | .raise a => "Raise " ++ register a
  | .cast a out type => "Cast " ++ register a ++ " as " ++ type.name ++ into out
  | .ret a => "Ret " ++ register a
  | .leave a => "Return " ++ register a
  | .makeClosure function out => "MakeClosure #" ++ Text.ofNat function ++ into out
  | .callValue a args out => "CallValue " ++ register a ++ registers args ++ into out
  | .makeRange a b inclusive out =>
    "MakeRange " ++ register a ++ (if inclusive then Text.ofString "..=" else "..") ++ register b ++
      into out
  | .collect toMap a scope out =>
    (if toMap then Text.ofString "ForMap " else "ForList ") ++ register a ++ " " ++ target scope ++
      into out
  | .puts args => "Puts " ++ registers args
  | .log level template args => "Log " ++ level.name ++ " '" ++ template ++ "' " ++ registers args

def instruction (pc : Nat) (i : Instruction) : Text :=
  let place : Text := if i.location.known then "    ; line " ++ Text.ofNat i.location.line else []
  "  " ++ Text.padLeft 4 (Text.byte '0') (Text.ofNat pc) ++ "  " ++ operation i.operation ++ place ++
    Text.newline

def names (title : Text) (ns : List Text) : Text :=
  if ns.isEmpty then [] else " " ++ title ++ " " ++ Text.join " " ns

def scope (i : Nat) (s : Scope) : Text :=
  "scope @" ++ Text.ofNat i ++ " " ++ s.name ++ " (" ++ s.kind.name ++ ", registers " ++
    Text.ofNat s.registerCount ++ ")" ++ names "params" s.params ++ names "captures" s.captures ++
    Text.newline ++ (s.code.toList.zipIdx.map fun (line, pc) => instruction pc line).flatten

def function (f : Function) : Text :=
  let owner : Text := if f.module.isEmpty then [] else f.module ++ "::"
  let body : Text := if f.isNative then " => native" else " => @" ++ Text.ofNat f.scope
  let tags : Text := (f.tags.map fun t => t.display ++ Text.ofString " ").flatten
  "  " ++ tags ++ owner ++ f.signature.display f.name ++
    body ++ Text.newline

def closure (i : Nat) (f : Function) : Text :=
  "  #" ++ Text.ofNat i ++ " " ++ f.signature.display f.name ++ " => @" ++ Text.ofNat f.scope ++
    Text.newline

def part (title : Text) (lines : List Text) : Text :=
  if lines.isEmpty then [] else Text.newline ++ title ++ Text.newline ++ lines.flatten

end Listing

def Program.listing (p : Program) : Text :=
  Text.join Text.newline (p.scopes.toList.zipIdx.map fun (s, i) => Listing.scope i s) ++
    Listing.part "functions" (p.modules.functions.map Listing.function) ++
    Listing.part "closures" (p.closures.toList.zipIdx.map fun (f, i) => Listing.closure i f)

end ScriptMachine
