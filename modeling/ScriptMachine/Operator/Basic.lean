import ScriptMachine.Text

set_option autoImplicit false

namespace ScriptMachine

inductive UnaryOp where
  | neg
  | not
  | rev
  | print
  | eprint
  | println
  | eprintln
  deriving DecidableEq, Inhabited

def UnaryOp.name : UnaryOp → Text
  | .neg => "neg"
  | .not => "not"
  | .rev => "rev"
  | .print => "print"
  | .eprint => "eprint"
  | .println => "println"
  | .eprintln => "eprintln"

inductive BinaryOp where
  | add
  | sub
  | mul
  | div
  | rem
  | shl
  | shr
  | bitAnd
  | bitOr
  | bitXor
  | and
  | or
  | xor
  | eq
  | neq
  | lt
  | lte
  | gt
  | gte
  deriving DecidableEq, Inhabited

namespace BinaryOp

def name : BinaryOp → Text
  | .add => "add"
  | .sub => "sub"
  | .mul => "mul"
  | .div => "div"
  | .rem => "rem"
  | .shl => "shl"
  | .shr => "shr"
  | .bitAnd => "bitand"
  | .bitOr => "bitor"
  | .bitXor => "bitxor"
  | .and => "and"
  | .or => "or"
  | .xor => "xor"
  | .eq => "eq"
  | .neq => "neq"
  | .lt => "lt"
  | .lte => "lte"
  | .gt => "gt"
  | .gte => "gte"

def symbol : BinaryOp → Text
  | .add => "+"
  | .sub => "-"
  | .mul => "*"
  | .div => "/"
  | .rem => "%"
  | .shl => "<<"
  | .shr => ">>"
  | .bitAnd => "&"
  | .bitOr => "|"
  | .bitXor => "^"
  | .and => "&&"
  | .or => "||"
  | .xor => "xor"
  | .eq => "=="
  | .neq => "!="
  | .lt => "<"
  | .lte => "<="
  | .gt => ">"
  | .gte => ">="

def all : List BinaryOp :=
  [.add, .sub, .mul, .div, .rem, .shl, .shr, .bitAnd, .bitOr, .bitXor, .and, .or, .xor, .eq, .neq,
    .lt, .lte, .gt, .gte]

def named? (name : Text) : Option BinaryOp := all.find? fun o => o.name == name

end BinaryOp

def UnaryOp.all : List UnaryOp := [.neg, .not, .rev, .print, .eprint, .println, .eprintln]

def UnaryOp.named? (name : Text) : Option UnaryOp := all.find? fun o => o.name == name

end ScriptMachine
