import ScriptMachine.Value.Entries

set_option autoImplicit false

namespace ScriptMachine

namespace UnaryOp

def forbidden {α : Type} (op : UnaryOp) (v : Value) : Except Fault α :=
  .error (.typeError ("Invalid operation: " ++ op.name ++ " " ++ v.typeName))

def negate : Value → Value
  | .bool b => .bool !b
  | .num n => .num n.neg
  | v => v

def reverse : Value → Value
  | .num n => .num n.reverseBits
  | .str t => .str t.reverse
  | .list items => .list items.reverse
  | .map entries => .map entries.reverse
  | v => v

inductive Printed where
  | out (t : Text)
  | err (t : Text)

def printed? (op : UnaryOp) (v : Value) : Option Printed :=
  match op with
  | .print => some (.out v.display)
  | .eprint => some (.err v.display)
  | .println => some (.out (v.display ++ Text.newline))
  | .eprintln => some (.err (v.display ++ Text.newline))
  | _ => none

def apply (op : UnaryOp) (v : Value) : Except Fault Value :=
  match op with
  | .neg => if v.isError then op.forbidden v else .ok (negate v)
  | .not => if v.isError then op.forbidden v else .ok (.bool !v.truthy)
  | .rev => if v.isError then op.forbidden v else .ok (reverse v)
  | _ => .ok v

end UnaryOp

end ScriptMachine
