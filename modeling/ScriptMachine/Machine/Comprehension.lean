import ScriptMachine.Machine.Invoke

set_option autoImplicit false

namespace ScriptMachine

namespace Value

def elementCount : Value → Except Fault Nat
  | .none => .ok 0
  | .list items => .ok items.length
  | .map entries => .ok entries.length
  | .str t => .ok t.length
  | .object (.range r) => .ok r.size
  | v => .error (.typeError ("Cannot iterate over " ++ v.typeName))

def elementAt (v : Value) (i : Nat) : Value :=
  match v with
  | .list items => items.getD i .none
  | .str t => .str ((t.drop i).take 1)
  | .object (.range r) => .num (.int (r.element i))
  | _ => .none

end Value

namespace Loop

def start (source : Value) (count : Nat) (toMap : Bool) : Loop := ⟨source, count, 0, toMap, [], []⟩

/-- What the loop variables are bound to in this round. One variable takes the element, or key and
value of a map in a list; two take index and element, or key and value. -/
def variableValues (l : Loop) (pairs : Bool) : List Value :=
  match l.source with
  | .map entries =>
    match entries[l.next]? with
    | some (k, v) => if pairs then [k, v] else [.list [k, v]]
    | none => []
  | source =>
    let item := source.elementAt l.next
    if pairs then [.num (.int (Int64.ofNat l.next)), item] else [item]

/-- Adds the result of a round. A result of none is left out, and so is an entry whose key or value
is none. -/
def accumulate (l : Loop) (v : Value) : Except Fault Loop :=
  match l.toMap, v with
  | _, .none => .ok l
  | false, v => .ok { l with items := v :: l.items }
  | true, .list [.none, _] => .ok l
  | true, .list [_, .none] => .ok l
  | true, .list [k, w] => .ok { l with entries := Entries.insert k w l.entries }
  | true, v =>
    .error (.typeError ("Map comprehension needs a key and a value, got " ++ v.typeName))

def result (l : Loop) : Value :=
  if l.toMap then .map l.entries else .list l.items.reverse

end Loop

namespace Exec

def bindLoopVariables (s : Setup) (l : Loop) : Exec Unit := do
  let f ← top
  let scope ← lift (s.program.scope (some f.scope))
  bindParams s (scope.params.take 2) (l.variableValues (2 ≤ scope.params.length))

def startLoop (s : Setup) (toMap : Bool) (source : Value) (target : Target) (out : Register) :
    Exec Unit := do
  let count ← lift source.elementCount
  let loop := Loop.start source count toMap
  if count = 0 then writeRegister s out loop.result
  else
    pushFrame s target (some (← topIndex)) out
    modifyTop fun f => { f with loop := some loop }
    bindLoopVariables s loop

def complete (s : Setup) (f : Frame) (v : Value) : Exec Unit := do
  match f.function with
  | some fn =>
    lift (fn.checkResult v)
    remember f.memoKey v
  | none => pure ()
  popFrame s
  deliver s v f.out

def returnFrom (s : Setup) (v : Value) : Exec Unit := do
  let f ← top
  match f.loop with
  | none => complete s f v
  | some loop =>
    let loop ← lift (loop.accumulate v)
    let loop := { loop with next := loop.next + 1 }
    modifyTop fun f => { f with loop := some loop }
    if loop.next < loop.count then
      resetFrame s
      bindLoopVariables s loop
    else complete s f loop.result

/-- Whether a `return` inside the frame leaves it for the one below. -/
def isInnerBlock (s : Setup) (f : Frame) : Bool :=
  f.function.isNone &&
    (match s.program.scope (some f.scope) with
      | .ok scope => scope.kind = .block
      | .error _ => false)

def unwindBlocks (s : Setup) : List Frame → Machine → Machine
  | f :: g :: rest, m => if isInnerBlock s f then unwindBlocks s (g :: rest) (m.popFrame s) else m
  | _, m => m

def leave (s : Setup) (v : Value) : Exec Unit := do
  modify fun m => unwindBlocks s m.frames m
  returnFrom s v

end Exec

end ScriptMachine
