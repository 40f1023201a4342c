import ScriptMachine.Compiler.Source
import ScriptMachine.Operator.Binary
import ScriptMachine.Operator.Cast

set_option autoImplicit false

namespace ScriptMachine

/-- A token of a kind. -/
abbrev TokenOf (kind : TokenKind) := { t : Token // t.kind = kind }

namespace Phrase

structure NumberToken where
  token : Token
  value : Number
  isNumber : token.kind = .number
  reads : Number.parse token.text = some value

structure BinarySign where
  token : Token
  op : BinaryOp
  denotes : Compile.binaryOperator token.kind = some op

structure PrefixSign where
  token : Token
  op : UnaryOp
  denotes : Compile.prefixOperator token.kind = some op

structure RangeSign where
  token : Token
  inclusive : Bool
  denotes : token.kind = if inclusive then .dotDotEqual else .dotDot

/-- The word `as`. A failed cast tells its place, so it must have one. -/
structure CastSign where
  token : Token
  isAs : token.kind = .kwAs
  placed : (Compile.place token).known = true

mutual

/-- An operand with the operators that apply to it in reading order. -/
inductive Expression where
  | operand (o : Operand)
  | binary (left : Expression) (sign : BinarySign) (right : Operand)
  | range (start : Expression) (sign : RangeSign) (stop : Operand)
  | cast (source : Expression) (sign : CastSign) (type : TokenOf .identifier)

inductive Operand where
  | number (n : NumberToken)
  | string (t : TokenOf .string)
  | truth (t : TokenOf .kwTrue)
  | falsity (t : TokenOf .kwFalse)
  | none (t : TokenOf .kwNone)
  | prefixed (sign : PrefixSign) (inner : Operand)
  | parenthesized (opening : TokenOf .lparen) (inner : Expression) (closing : TokenOf .rparen)
  | list (opening : TokenOf .lbracket) (items : Items) (closing : TokenOf .rbracket)
  | map (opening : TokenOf .lbrace) (entries : EntryItems) (closing : TokenOf .rbrace)

/-- The items of a list. A comma may follow the last one. -/
inductive Items where
  | done
  | last (item : Expression)
  | more (item : Expression) (comma : TokenOf .comma) (others : Items)

inductive EntryItems where
  | done
  | last (item : Entry)
  | more (item : Entry) (comma : TokenOf .comma) (others : EntryItems)

/-- An entry of a map. A name stands for itself as a text, and a value alone is its own key. -/
inductive Entry where
  | named (name : TokenOf .identifier) (equal : TokenOf .equal) (value : Expression)
  | keyed (key : Expression) (equal : TokenOf .equal) (value : Expression)
  | lone (value : Expression)

end

mutual

def Expression.tokens : Expression → List Token
  | .operand o => o.tokens
  | .binary left sign right => left.tokens ++ sign.token :: right.tokens
  | .range start sign stop => start.tokens ++ sign.token :: stop.tokens
  | .cast source sign type => source.tokens ++ [sign.token, type.1]
termination_by structural e => e

def Operand.tokens : Operand → List Token
  | .number n => [n.token]
  | .string t => [t.1]
  | .truth t => [t.1]
  | .falsity t => [t.1]
  | .none t => [t.1]
  | .prefixed sign inner => sign.token :: inner.tokens
  | .parenthesized opening inner closing => opening.1 :: (inner.tokens ++ [closing.1])
  | .list opening items closing => opening.1 :: (items.tokens ++ [closing.1])
  | .map opening entries closing => opening.1 :: (entries.tokens ++ [closing.1])
termination_by structural o => o

def Items.tokens : Items → List Token
  | .done => []
  | .last item => item.tokens
  | .more item comma others => item.tokens ++ comma.1 :: others.tokens
termination_by structural items => items

def EntryItems.tokens : EntryItems → List Token
  | .done => []
  | .last item => item.tokens
  | .more item comma others => item.tokens ++ comma.1 :: others.tokens
termination_by structural items => items

def Entry.tokens : Entry → List Token
  | .named name equal value => name.1 :: equal.1 :: value.tokens
  | .keyed key equal value => key.tokens ++ equal.1 :: value.tokens
  | .lone value => value.tokens
termination_by structural e => e

end

/-- An evaluation may fail. Its state is the next identity that a new record would get. -/
abbrev Evaluation := EStateM Fault Nat

namespace Evaluation

def lift {α : Type} : Except Fault α → Evaluation α
  | .ok a => pure a
  | .error f => throw f

def freshId : Evaluation Nat := modifyGet fun id => (id, id + 1)

/-- An identity for the record that an operator makes; only an addition makes any. -/
def recordId (op : BinaryOp) : Evaluation Nat := if op = .add then freshId else pure 0

end Evaluation

/-- The value of a cast, which is an error value if the cast fails. -/
def castValue (sign : CastSign) (type : DeclaredType) (v : Value) : Value :=
  match type.cast v with
  | .ok w => w
  | .error e => .error { e with location := Compile.place sign.token }

mutual

def Expression.evaluate : Expression → Evaluation Value
  | .operand o => o.evaluate
  | .binary left sign right => do
    let a ← left.evaluate
    let b ← right.evaluate
    let id ← Evaluation.recordId sign.op
    Evaluation.lift (sign.op.apply id a b)
  | .range start sign stop => do
    let a ← start.evaluate
    let b ← stop.evaluate
    Evaluation.lift (Range.make a b sign.inclusive)
  | .cast source sign type => do
    let v ← source.evaluate
    return castValue sign (.named type.1.text) v
termination_by structural e => e

def Operand.evaluate : Operand → Evaluation Value
  | .number n => return .num n.value
  | .string t => return .str t.1.text
  | .truth _ => return .bool true
  | .falsity _ => return .bool false
  | .none _ => return .none
  | .prefixed sign inner => do
    let v ← inner.evaluate
    Evaluation.lift (sign.op.apply v)
  | .parenthesized _ inner _ => inner.evaluate
  | .list _ items _ => do
    let vs ← items.evaluate
    return .list vs
  | .map _ entries _ => do
    let pairs ← entries.evaluate
    return .map (Entries.ofPairs pairs)
termination_by structural o => o

def Items.evaluate : Items → Evaluation (List Value)
  | .done => return []
  | .last item => do
    let v ← item.evaluate
    return [v]
  | .more item _ others => do
    let v ← item.evaluate
    let vs ← others.evaluate
    return v :: vs
termination_by structural items => items

def EntryItems.evaluate : EntryItems → Evaluation (List (Value × Value))
  | .done => return []
  | .last item => do
    let p ← item.evaluate
    return [p]
  | .more item _ others => do
    let p ← item.evaluate
    let ps ← others.evaluate
    return p :: ps
termination_by structural items => items

def Entry.evaluate : Entry → Evaluation (Value × Value)
  | .named name _ value => do
    let v ← value.evaluate
    return (.str name.1.text, v)
  | .keyed key _ value => do
    let k ← key.evaluate
    let v ← value.evaluate
    return (k, v)
  | .lone value => do
    let v ← value.evaluate
    return (v, v)
termination_by structural e => e

end

/-- What an expression evaluates to when the next identity is the given one. -/
def Expression.value (e : Expression) (nextId : Nat) : Except Fault Value :=
  match e.evaluate nextId with
  | .ok v _ => .ok v
  | .error f _ => .error f

end Phrase

end ScriptMachine
