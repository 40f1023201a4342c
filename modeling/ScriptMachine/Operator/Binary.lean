import ScriptMachine.Record
import ScriptMachine.Operator.Unary
import ScriptMachine.Operator.Order

set_option autoImplicit false

namespace ScriptMachine

namespace Coercion

def forbidden (op : BinaryOp) (a b : Value) : Except Fault Value :=
  .error (.typeError
    ("Invalid operation: " ++ a.typeName ++ " " ++ op.symbol ++ " " ++ b.typeName))

def numericPair : Value → Value → Option (Number × Number)
  | .num m, .str t => (Number.parse t).map fun n => (m, n)
  | .str t, .num n => (Number.parse t).map fun m => (m, n)
  | _, _ => none

/-- With a boolean on one side the truth of both sides is combined. -/
def boolRule (combine : Bool → Bool → Bool) : Value → Value → Option Value
  | .bool x, b => some (.bool (combine x b.truthy))
  | a, .bool y => some (.bool (combine y a.truthy))
  | _, _ => none

/-- The size in bytes or items that a repetition may reach. -/
def repeatLimit : Binary64 := .ofInt 0x10000000

/-- How often a unit of the given size is repeated: the whole part of the count. -/
def repeatTimes (count : Number) (size : Nat) (what : Text) : Except Fault Nat :=
  let times := count.toFloat
  if size = 0 then .ok 0
  else if !times.isFinite ||
      Binary64.compareOrdered (times.mul (.ofInt size)) repeatLimit == .gt then
    .error (.runtimeError
      ("Cannot repeat " ++ what ++ " " ++ count.display ++ " times: result too large"))
  else .ok times.floor.toNat

def fractionBytes (times : Binary64) (size : Nat) : Nat :=
  ((times.sub (.ofInt times.floor)).mul (.ofInt size)).absTrunc

def repeatText (t : Text) (count : Number) : Except Fault Text :=
  if count.isNegative then
    .error (.runtimeError ("Cannot multiply " ++ t ++ " by negatives: " ++ count.display))
  else do
    let whole ← repeatTimes count t.length "a string"
    let rest :=
      if count.isFloat && !t.isEmpty then t.take (fractionBytes count.toFloat t.length) else []
    return Text.repeated whole t ++ rest

def repeatList (items : List Value) (count : Number) : Except Fault (List Value) :=
  if count.isNegative then
    .error (.runtimeError
      ("Cannot repeat a list a negative number of times: " ++ count.display))
  else do
    let times ← repeatTimes count items.length "a list"
    return (List.replicate times items).flatten

def quotient (m n : Number) : Except Fault Value :=
  if n.isZero then .error (.runtimeError ("Cannot divide " ++ m.display ++ " by 0"))
  else .ok (.num (m.div n))

def remainder (m n : Number) : Except Fault Value :=
  if n.isZero then .error (.runtimeError ("Cannot take remainder of " ++ m.display ++ " by 0"))
  else .ok (.num (m.rem n))

def chunks (size : Nat) (items : List Value) : List (List Value) :=
  if _h : size = 0 ∨ items = [] then []
  else items.take size :: chunks size (items.drop size)
termination_by items.length
decreasing_by
  have : items.length ≠ 0 := by
    intro hl
    exact _h (Or.inr (List.eq_nil_of_length_eq_zero hl))
  simp only [List.length_drop]
  omega

def promote (id : Nat) (o : Object) (fields : Entries) (a b : Value) : Except Fault Value := do
  match ← o.withFields id fields with
  | some v => return v
  | none => forbidden .add a b

def add (id : Nat) (a b : Value) : Except Fault Value :=
  match a, b with
  | .list xs, .list ys => .ok (.list (xs ++ ys))
  | .list xs, _ => .ok (.list (xs ++ [b]))
  | .none, _ => .ok b
  | _, .none => .ok a
  | _, .list ys => .ok (.list (a :: ys))
  | .map xs, .map ys => .ok (.map (Entries.insertAll xs ys))
  | .map xs, .object o => promote id o xs a b
  | .object o, .map ys => promote id o ys a b
  | .map xs, _ => .ok (.map (Entries.insert b b xs))
  | _, .map ys => .ok (.map (Entries.insert a a ys))
  | _, _ =>
    match boolRule (· || ·) a b with
    | some v => .ok v
    | none =>
      match a, b with
      | .num m, .num n => .ok (.num (m.add n))
      | .str s, .str t => .ok (.str (s ++ t))
      | .num _, .str _ | .str _, .num _ =>
        match numericPair a b with
        | some (m, n) => .ok (.num (m.add n))
        | none => .ok (.str (a.display ++ b.display))
      | _, _ => forbidden .add a b

def removedBy (b item : Value) : Bool :=
  match b with
  | .list ys => ys.any fun y => y.equals item
  | _ => item.equals b

def sub (a b : Value) : Except Fault Value :=
  match a, b with
  | .none, _ => UnaryOp.neg.apply b
  | _, .none => .ok a
  | .list xs, _ => .ok (.list (xs.filter fun x => !removedBy b x))
  | .map xs, .map ys => .ok (.map (Entries.eraseAll xs (ys.map Prod.fst)))
  | .map xs, _ => .ok (.map (Entries.erase b xs))
  | _, _ =>
    match boolRule (· || ·) a b with
    | some v => .ok v
    | none =>
      match a, b with
      | .num m, .num n => .ok (.num (m.sub n))
      | .str s, .str t => .ok (.str (Text.without t s))
      | _, _ =>
        match numericPair a b with
        | some (m, n) => .ok (.num (m.sub n))
        | none => forbidden .sub a b

def mul (a b : Value) : Except Fault Value :=
  match a, b with
  | .none, _ => .ok .none
  | _, .none => .ok .none
  | _, _ =>
    match boolRule (· || ·) a b with
    | some v => .ok v
    | none =>
      match a, b with
      | .num m, .num n => .ok (.num (m.mul n))
      | .str t, .num n =>
        match Number.parse t with
        | some m => .ok (.num (m.mul n))
        | none => do return .str (← repeatText t n)
      | .list items, .num n => do return .list (← repeatList items n)
      | _, _ => forbidden .mul a b

def div (a b : Value) : Except Fault Value :=
  match a, b with
  | _, .none => forbidden .div a b
  | .none, _ => .ok .none
  | _, _ =>
    match boolRule (· || ·) a b with
    | some v => .ok v
    | none =>
      match a, b with
      | .num m, .num n => quotient m n
      | .str s, .str t => .ok (.list ((Text.split t s).map .str))
      | .list items, .num n =>
        if n.toInt.toInt ≤ 0 then
          .error (.runtimeError ("Cannot split a list into chunks of " ++ n.display))
        else .ok (.list ((chunks n.toInt.toInt.toNat items).map .list))
      | _, _ =>
        match numericPair a b with
        | some (m, n) => quotient m n
        | none => forbidden .div a b

def rem (a b : Value) : Except Fault Value :=
  match a, b with
  | .none, _ => .ok .none
  | _, .none => .ok a
  | _, _ =>
    match boolRule (· || ·) a b with
    | some v => .ok v
    | none =>
      match a, b with
      | .num m, .num n => remainder m n
      | _, _ =>
        match numericPair a b with
        | some (m, n) => remainder m n
        | none => forbidden .rem a b

def byteCount : Number → Int
  | .uint v => min Number.intMax v.toNat
  | n => max (-Number.intMax) n.toInt.toInt

/-- Drops bytes from the front for a positive count and from the back for a negative one. -/
def dropBytes (t : Text) (count : Int) : Text :=
  if 0 ≤ count then t.drop count.toNat else t.take (t.length - (-count).toNat)

def shiftNumber (op : BinaryOp) (m n : Number) : Value :=
  .num (if op = .shl then m.shiftLeft n else m.shiftRight n)

def shiftBy (op : BinaryOp) (a b : Value) : Except Fault Value :=
  match a, b with
  | .none, _ => .ok .none
  | .bool x, .num n => .ok (if x then shiftNumber op (.ofInt 1) n else .int 0)
  | .num m, .num n => .ok (shiftNumber op m n)
  | .num m, .str t =>
    match Number.parse t with
    | some n => .ok (shiftNumber op m n)
    | none => forbidden op a b
  | .str t, .num n =>
    .ok (.str (dropBytes t (if op = .shl then byteCount n else -byteCount n)))
  | .str s, .str t => .ok (.str (if op = .shl then s ++ t else t ++ s))
  | .list xs, _ => .ok (.list (if op = .shl then xs ++ [b] else b :: xs))
  | _, _ => forbidden op a b

def shift (op : BinaryOp) (a b : Value) : Except Fault Value :=
  match a, b with
  | .none, _ => .ok .none
  | _, .none => .ok a
  | _, .bool false => .ok a
  | _, .bool true => shiftBy op a (.int 1)
  | _, _ => shiftBy op a b

def bitAnd (a b : Value) : Except Fault Value :=
  match a, b with
  | .none, _ => .ok .none
  | _, .none => .ok .none
  | _, _ =>
    match boolRule (· && ·) a b with
    | some v => .ok v
    | none =>
      match a, b with
      | .num m, .num n => .ok (.num (m.bitAnd n))
      | _, _ =>
        match numericPair a b with
        | some (m, n) => .ok (.num (m.bitAnd n))
        | none => forbidden .bitAnd a b

def unite (xs ys : List Value) : List Value :=
  ys.foldl (fun acc y => if acc.any (fun x => x.equals y) then acc else acc ++ [y]) xs

def bitOr (a b : Value) : Except Fault Value :=
  match a, b with
  | .none, _ => .ok b
  | _, .none => .ok a
  | _, _ =>
    match boolRule (· || ·) a b with
    | some v => .ok v
    | none =>
      match a, b with
      | .num m, .num n => .ok (.num (m.bitOr n))
      | .list xs, .list ys => .ok (.list (unite xs ys))
      | .map xs, .map ys => .ok (.map (Entries.insertMissing xs ys))
      | _, _ =>
        match numericPair a b with
        | some (m, n) => .ok (.num (m.bitOr n))
        | none => forbidden .bitOr a b

def bitXor (a b : Value) : Except Fault Value :=
  match a, b with
  | .none, _ => .ok b
  | _, .none => .ok a
  | _, _ =>
    match boolRule (· != ·) a b with
    | some v => .ok v
    | none =>
      match a, b with
      | .num m, .num n => .ok (.num (m.bitXor n))
      | _, _ =>
        match numericPair a b with
        | some (m, n) => .ok (.num (m.bitXor n))
        | none => forbidden .bitXor a b

def isBool : Value → Bool
  | .bool _ => true
  | _ => false

def logical (op : BinaryOp) (a b : Value) : Value :=
  let boolean := isBool a || isBool b
  match op with
  | .and => if boolean then .bool (a.truthy && b.truthy) else if a.truthy then b else a
  | .or => if boolean then .bool (a.truthy || b.truthy) else if a.truthy then a else b
  | _ => .bool (a.truthy != b.truthy)

def holds (op : BinaryOp) (order : Ordering) : Bool :=
  match op with
  | .lt => order.isLT
  | .lte => order.isLE
  | .gt => order.isGT
  | _ => order.isGE

def compare (op : BinaryOp) (a b : Value) : Except Fault Value :=
  if a.isObject || b.isObject then forbidden op a b
  else match a.compare? b with
    | some order => .ok (.bool (holds op order))
    | none => .ok (.bool false)

/-- The answer of an object of the embedding program, the left operand first. -/
def hooked (op : BinaryOp) (a b : Value) : Option Value :=
  let ask (self other : Value) (left : Bool) : Option Value :=
    match self with
    | .object (.host _ cls) => (cls.hook op other.display left).map .str
    | _ => none
  (ask a b true).or (ask b a false)

def table (id : Nat) (op : BinaryOp) (a b : Value) : Except Fault Value :=
  match op with
  | .add => add id a b
  | .sub => sub a b
  | .mul => mul a b
  | .div => div a b
  | .rem => rem a b
  | .shl | .shr => shift op a b
  | .bitAnd => bitAnd a b
  | .bitOr => bitOr a b
  | .bitXor => bitXor a b
  | .and | .or | .xor => .ok (logical op a b)
  | .lt | .lte | .gt | .gte => compare op a b
  | .eq => .ok (.bool (a.looseEquals b))
  | .neq => .ok (.bool !a.looseEquals b)

end Coercion

/-- Applies a binary operator; a record that it makes gets the identity `id`. Equality is defined on
all values, everything else refuses error values, and nothing is divided by none. -/
def BinaryOp.apply (id : Nat) (op : BinaryOp) (a b : Value) : Except Fault Value :=
  match op with
  | .eq => .ok (.bool (a.looseEquals b))
  | .neq => .ok (.bool !a.looseEquals b)
  | _ =>
    if a.isError || b.isError then Coercion.forbidden op a b
    else if op = .div && b.isNone then Coercion.forbidden op a b
    else match Coercion.hooked op a b with
      | some v => .ok v
      | none => Coercion.table id op a b

theorem BinaryOp.apply_of_ne {op : BinaryOp} (id : Nat) (a b : Value) (heq : op ≠ .eq)
    (hneq : op ≠ .neq) : op.apply id a b =
      if a.isError || b.isError then Coercion.forbidden op a b
      else if op = .div && b.isNone then Coercion.forbidden op a b
      else (Coercion.hooked op a b).elim (Coercion.table id op a b) .ok := by
  unfold BinaryOp.apply
  split
  · exact absurd rfl heq
  · exact absurd rfl hneq
  · cases Coercion.hooked op a b <;> rfl

theorem BinaryOp.apply_identity {op : BinaryOp} (i j : Nat) (a b : Value) (h : op ≠ .add) :
    op.apply i a b = op.apply j a b := by
  cases op <;> first | rfl | exact absurd rfl h

end ScriptMachine
