import ScriptMachine.Builtins.Native
import ScriptMachine.Operator.Binary
import ScriptMachine.Operator.Cast

set_option autoImplicit false

namespace ScriptMachine

namespace StandardModule

def unsupported {α : Type} (function : Text) (v : Value) : Except Failure α :=
  Failure.fail (.typeError (function ++ " is not supported for " ++ v.typeName))

/-- The place that an index means in a sequence; a negative one counts from the end. -/
def resolveIndex (index : Value) (size : Nat) : Except Failure (Option Nat) :=
  match index with
  | .num n =>
    let i := n.toInt.toInt
    let position := if i < 0 then i + size else i
    .ok (if 0 ≤ position && position < size then some position.toNat else none)
  | v => Failure.fail (.typeError ("Index must be a Number, got " ++ v.typeName))

def onReceiver (f : Value → Except Failure Value) : Native :=
  Native.reading fun c => do f (← c.receiver)

def onText (f : Text → Value) : Native :=
  onReceiver fun v => do return f (← Failure.lift v.asText)

def onMap (f : Entries → Value) : Native :=
  onReceiver fun v => do return f (← Failure.lift v.asMap)

def len (v : Value) : Except Failure Value :=
  match v with
  | .str t => .ok (.int t.length)
  | .list items => .ok (.int items.length)
  | .map entries => .ok (.int entries.length)
  | v => unsupported "len" v

def first (v : Value) : Except Failure Value :=
  match v with
  | .list items => .ok (items.headD .none)
  | .str [] => .ok .none
  | .str (b :: _) => .ok (.str [b])
  | v => unsupported "first" v

def last (v : Value) : Except Failure Value :=
  match v with
  | .list items => .ok (items.getLastD .none)
  | .str t =>
    match t.getLast? with
    | some b => .ok (.str [b])
    | none => .ok .none
  | v => unsupported "last" v

/-- The item at an index, or the value under a key; none if there is none. -/
def get (c : NativeCall) : Except Failure Value := do
  let v ← c.receiver
  let key ← c.arg 0
  match v with
  | .list items =>
    match ← resolveIndex key items.length with
    | some i => return items.getD i .none
    | none => return .none
  | .str t =>
    match ← resolveIndex key t.length with
    | some i => return .str ((t.drop i).take 1)
    | none => return .none
  | .map entries => return (Entries.find? key entries).getD .none
  | v => unsupported "get" v

def split (c : NativeCall) : Except Failure Value := do
  let separator ← c.arg 0
  let v ← c.receiver
  Failure.lift (BinaryOp.div.apply 0 v separator)

def join (c : NativeCall) : Except Failure Value := do
  let separator ← c.arg 0
  let separator ← Failure.lift separator.asText
  let items ← Failure.lift (← c.receiver).asList
  return .str (Text.join separator (items.map Value.display))

def isSpace (b : UInt8) : Bool := b == Text.byte ' ' || (9 ≤ b && b ≤ 13)

def trim (t : Text) : Text := ((t.dropWhile isSpace).reverse.dropWhile isSpace).reverse

def upper (b : UInt8) : UInt8 := if Text.byte 'a' ≤ b && b ≤ Text.byte 'z' then b - 32 else b
def lower (b : UInt8) : UInt8 := if Text.byte 'A' ≤ b && b ≤ Text.byte 'Z' then b + 32 else b

def push (c : NativeCall) : Except Failure (Value × Value) := do
  let items ← Failure.lift (← c.receiver).asList
  let result := .list (items ++ [← c.arg 0])
  return (result, result)

def pop (c : NativeCall) : Except Failure (Value × Value) := do
  let items ← Failure.lift (← c.receiver).asList
  return (items.getLastD .none, .list items.dropLast)

/-- The place at which an insertion at the given index goes; a negative index counts from behind the
last item. -/
def insertionPlace (index : Value) (size : Nat) : Except Failure Nat :=
  match index with
  | .num n =>
    let i := n.toInt.toInt
    let position := if i < 0 then i + size + 1 else i
    if 0 ≤ position && position ≤ size then .ok position.toNat
    else Failure.fail (.runtimeError ("insert index " ++ index.display ++ " out of range"))
  | v => Failure.fail (.typeError ("insert index must be a Number, got " ++ v.typeName))

def insert (c : NativeCall) : Except Failure (Value × Value) := do
  let v ← c.receiver
  let key ← c.arg 0
  let item ← c.arg 1
  match v with
  | .map entries =>
    let result := .map (Entries.insert key item entries)
    return (result, result)
  | .list items =>
    let i ← insertionPlace key items.length
    let result := .list (items.take i ++ item :: items.drop i)
    return (result, result)
  | v => unsupported "insert" v

def assertionFailed {α : Type} (what : Text) : Except Failure α :=
  Failure.fail (.runtimeError ("Assertion failed: " ++ what))

def assertTrue (c : NativeCall) : Except Failure Value := do
  if (← c.arg 0).truthy then return .bool true
  else assertionFailed (← c.arg 1).display

def assertCompared (equal : Bool) (c : NativeCall) : Except Failure Value := do
  let a ← c.arg 0
  let b ← c.arg 1
  if a.looseEquals b = equal then return .bool true
  else
    let sign := if equal then Text.ofString " != " else " == "
    assertionFailed (a.display ++ sign ++ b.display)

def functions : List Builtin :=
  let onAny := Builtin.extension .any
  [ onAny "to_s" [] .string (onReceiver fun v => .ok (.str v.display)),
    onAny "to_i" [] .int (onReceiver fun v => Failure.lift (DeclaredType.int.cast v)),
    onAny "to_f" [] .float (onReceiver fun v => Failure.lift (DeclaredType.float.cast v)),
    onAny "is_num" [] .bool (onReceiver fun v => .ok (.bool (v.kind = .number))),
    onAny "is_none" [] .bool (onReceiver fun v => .ok (.bool v.isNone)),
    onAny "is_error" [] .bool (onReceiver fun v => .ok (.bool v.isError)),
    onAny "type" [] .string (onReceiver fun v => .ok (.str v.typeName)),
    onAny "len" [] .int (onReceiver len),
    onAny "first" [] .any (onReceiver first),
    onAny "last" [] .any (onReceiver last),
    onAny "get" [.required "key" .any] .any (Native.reading get),
    .extension .map "keys" [] .list (onMap fun entries => .list (entries.map Prod.fst)),
    .extension .map "values" [] .list (onMap fun entries => .list (entries.map Prod.snd)),
    .extension .string "split" [.optional "separator" .string (.str " ")] .list
      (Native.reading split),
    .extension .list "join" [.optional "separator" .string (.str "")] .string
      (Native.reading join),
    .extension .string "upcase" [] .string (onText fun t => .str (t.map upper)),
    .extension .string "downcase" [] .string (onText fun t => .str (t.map lower)),
    .extension .string "trim" [] .string (onText fun t => .str (trim t)),
    .mutator .list "push" [.required "item" .any] .list (Native.replacing push),
    .mutator .list "pop" [] .any (Native.replacing pop),
    .mutator .any "insert" [.required "at" .any, .required "item" .any] .any (Native.replacing insert),
    .free "assert"
      [.required "condition" .any, .optional "message" .string (.str "assertion failed")] .bool
      (Native.reading assertTrue),
    .free "assert_eq" [.required "actual" .any, .required "expected" .any] .bool
      (Native.reading (assertCompared true)),
    .free "assert_neq" [.required "actual" .any, .required "unexpected" .any] .bool
      (Native.reading (assertCompared false)) ]

end StandardModule

end ScriptMachine
