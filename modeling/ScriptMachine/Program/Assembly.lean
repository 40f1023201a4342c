import ScriptMachine.Program.Basic

set_option autoImplicit false

namespace ScriptMachine

/-- The operands of an operation. Which of them count depends on the operation. -/
structure Operands where
  a : Register
  b : Register
  out : Register
  registers : List Register
  scope : Target
  otherwise : Target
  /-- The number of a closure. -/
  closure : Nat
  literal : Value
  name : Text
  /-- The function of a module, or the variable that a receiver was read from. -/
  member : Text
  unary : UnaryOp
  binary : BinaryOp
  type : DeclaredType
  inclusive : Bool
  level : LogLevel

namespace Operands

def named (t : Text) : Option Text := if t.isEmpty then none else some t

/-- The target of a number, if the number does not stand for an absent one. -/
def targetOf (n : Nat) : Target := if n = Program.absentTarget then none else some n

end Operands

/-- The operation of a name. -/
def Operation.assemble (o : Operands) : String → Option Operation
  | "Halt" => some (.halt o.a)
  | "HaltIfError" => some (.haltIfError o.a)
  | "Load" => some (.load o.literal o.out)
  | "Copy" => some (.copy o.a o.out)
  | "LoadLet" => some (.loadLet o.name o.a)
  | "LoadMut" => some (.loadMut o.name o.a)
  | "SetVariable" => some (.setVariable o.name o.a)
  | "GetVariable" => some (.getVariable o.name o.out)
  | "Unary" => some (.unary o.unary o.a o.out)
  | "Binary" => some (.binary o.binary o.a o.b o.out)
  | "MakeList" => some (.makeList o.registers o.out)
  | "MakeMap" => some (.makeMap o.registers o.out)
  | "Call" => some (.call o.scope o.registers o.out)
  | "CallEq" => some (.callCompared true o.a o.b o.scope o.out)
  | "CallNeq" => some (.callCompared false o.a o.b o.scope o.out)
  | "IfElse" => some (.ifElse o.a o.scope o.otherwise o.out)
  | "If" => some (.branch true o.a o.scope o.out)
  | "Unless" => some (.branch false o.a o.scope o.out)
  | "CallFunction" => some (.callFunction o.name o.registers o.out)
  | "CallMethod" => some (.callMethod o.name o.a (Operands.named o.member) o.registers o.out)
  | "CallModule" => some (.callModule o.name o.member o.registers o.out)
  | "Try" => some (.tryCatch o.scope o.otherwise (Operands.named o.name) o.out)
  | "Raise" => some (.raise o.a)
  | "Cast" => some (.cast o.a o.out o.type)
  | "Ret" => some (.ret o.a)
  | "Return" => some (.leave o.a)
  | "MakeClosure" => some (.makeClosure o.closure o.out)
  | "CallValue" => some (.callValue o.a o.registers o.out)
  | "MakeRange" => some (.makeRange o.a o.b o.inclusive o.out)
  | "ForList" => some (.collect false o.a o.scope o.out)
  | "ForMap" => some (.collect true o.a o.scope o.out)
  | "Puts" => some (.puts o.registers)
  | "Log" => some (.log o.level o.name o.registers)
  | _ => none

end ScriptMachine
