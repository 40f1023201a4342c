import ScriptMachine.Arena
import ScriptMachine.Program.Basic
import ScriptMachine.Operator.Binary
import ScriptMachine.Operator.Cast

set_option autoImplicit false

/-!
# The state of a machine

A machine has a stack of frames, each of which runs a scope. A frame has registers, variables, and
the index of its lexical parent, which lies below it. Actions of the machine may fail with a fault,
and leave behind the state that they have reached.
-/
namespace ScriptMachine

inductive Binding where
  | fixed (v : Value)
  | cell (h : CellHandle)
  /-- The receiver of a mutating call, in the caller's cell, which the frame has borrowed. -/
  | borrowed (h : CellHandle)
  /-- A mutable variable of an enclosing scope, shared with a closure. -/
  | captured (h : CellHandle)

structure Handler where
  scope : Target
  errorName : Option Text

structure Loop where
  source : Value
  count : Nat
  next : Nat
  toMap : Bool
  /-- The results so far, the latest first. -/
  items : List Value
  entries : Entries

structure Frame where
  scope : Nat
  pc : Nat
  registers : Array Value
  bindings : List (Text × Binding)
  parent : Option Nat
  /-- The register of the frame below that takes the result. -/
  out : Register
  handler : Option Handler
  owned : List CellHandle
  /-- The receiver that the frame has borrowed. -/
  borrow : Option CellHandle
  function : Option Function
  memoKey : Option Text
  loop : Option Loop

namespace Frame

def bind (f : Frame) (name : Text) (b : Binding) : Frame :=
  { f with bindings := (name, b) :: f.bindings.filter fun e => e.1 != name }

def unbind (f : Frame) (name : Text) : Frame :=
  { f with bindings := f.bindings.filter fun e => e.1 != name }

def freshRegisters (s : Scope) : Array Value :=
  (Array.replicate s.fileSize Value.none).setIfInBounds oneRegister (.int 1)

end Frame

structure Options where
  /-- Messages of scripts are dropped unless this is set. -/
  logging : Bool
  logLevel : LogLevel
  /-- Calls reach only what the program itself declares. -/
  disableModules : Bool
  /-- Cells of finished frames are kept, to be looked at after a run. -/
  keepCells : Bool
  maxDepth : Nat
  /-- How many steps an entry may take. -/
  budget : Nat

def Options.standard : Options := ⟨false, .info, false, false, 1024, 0x4000000000000000⟩

structure Setup where
  program : Program
  builtins : Option Registry
  options : Options

structure Machine where
  /-- The top frame first. -/
  frames : List Frame
  arena : Arena
  /-- Results of functions tagged to be remembered. -/
  memo : List (Text × Value)
  halted : Option Value
  entryResult : Value
  /-- The place of the last instruction whose place is known. -/
  location : Location
  /-- The call stack when the last fault was not caught. -/
  faultTrace : List Text
  /-- The cells that belong to the whole run. -/
  pinned : List CellHandle
  runId : Nat
  host : Host

def Machine.initial (host : Host) : Machine :=
  ⟨[], .empty, [], none, .none, .unknown, [], [], 0, host⟩

/-- Why an action stops: a fault of the script, or one that the arena reports about a cell. -/
inductive Trap where
  | script (f : Fault)
  | cell (f : Fault)

def Trap.fault : Trap → Fault
  | .script f => f
  | .cell f => f

abbrev Exec := EStateM Trap Machine

namespace Exec

def fail {α : Type} (f : Fault) : Exec α := throw (.script f)

def lift {α : Type} : Except Fault α → Exec α
  | .ok a => pure a
  | .error f => fail f

/-- The top frame; actions run only while there is one. -/
def top : Exec Frame := do
  match (← get).frames with
  | f :: _ => return f
  | [] => fail (.runtimeError "No frame")

def modifyTop (g : Frame → Frame) : Exec Unit :=
  modify fun m =>
    match m.frames with
    | f :: rest => { m with frames := g f :: rest }
    | [] => m

def readArena {α : Type} (f : Arena → Except Fault α) : Exec α := do
  match f (← get).arena with
  | .ok a => return a
  | .error e => throw (.cell e)

def onArena (f : Arena → Except Fault Arena) : Exec Unit := do
  let arena ← readArena f
  modify fun m => { m with arena }

def modifyHost (f : Host → Host) : Exec Unit := modify fun m => { m with host := f m.host }

def freshId : Exec Nat := do
  let (id, host) := (← get).host.freshId
  modify fun m => { m with host }
  return id

def topIndex : Exec Nat := do return (← get).frames.length - 1

def outOfRange {α : Type} (s : Setup) (f : Frame) (r : Register) : Exec α := do
  let scope ← lift (s.program.scope (some f.scope))
  fail (.runtimeError ("Register r" ++ Text.ofNat r ++ " out of range in " ++ scope.name))

def readRegister (s : Setup) (f : Frame) (r : Register) : Exec Value :=
  match f.registers[r]? with
  | some v => pure v
  | none => outOfRange s f r

def readRegisters (s : Setup) (f : Frame) (rs : List Register) : Exec (List Value) :=
  rs.mapM (readRegister s f)

/-- Registers 0 and 1 cannot be written. -/
def writeRegister (s : Setup) (r : Register) (v : Value) : Exec Unit := do
  let f ← top
  if r < firstScratch then
    fail (.runtimeError ("Register r" ++ Text.ofNat r ++ " is read-only"))
  else if r < f.registers.size then
    modifyTop fun f => { f with registers := f.registers.setIfInBounds r v }
  else outOfRange s f r

def deliver (s : Setup) (v : Value) (out : Register) : Exec Unit := do
  match (← get).frames with
  | [] => modify fun m => { m with entryResult := v }
  | _ :: _ => writeRegister s out v

def rootFrame : Exec (Option Nat) := do
  match (← get).frames.getLast? with
  | some f => return if f.scope = 0 then some 0 else none
  | none => return none

def pushFrame (s : Setup) (target : Target) (parent : Option Nat) (out : Register) : Exec Unit := do
  if s.options.maxDepth ≤ (← get).frames.length then
    fail (.runtimeError ("Stack overflow: exceeded " ++ Text.ofNat s.options.maxDepth))
  else
    let scope ← lift (s.program.scope target)
    let frame : Frame := ⟨target.getD 0, 0, Frame.freshRegisters scope, [], parent, out, none, [],
      none, none, none, none⟩
    modify fun m => { m with frames := frame :: m.frames }

end Exec

namespace Machine

def discard (s : Setup) (m : Machine) (h : CellHandle) : Machine :=
  if s.options.keepCells then m else { m with arena := m.arena.discard h }

def discardAll (s : Setup) (m : Machine) (hs : List CellHandle) : Machine :=
  hs.foldl (discard s) m

def popFrame (s : Setup) (m : Machine) : Machine :=
  match m.frames with
  | [] => m
  | f :: rest =>
    let m :=
      match f.borrow with
      | some h => { m with arena := m.arena.endBorrow h }
      | none => m
    { discardAll s m f.owned with frames := rest }

end Machine

namespace Exec

def popFrame (s : Setup) : Exec Unit := modify (Machine.popFrame s)

def resetFrame (s : Setup) : Exec Unit := do
  let f ← top
  let scope ← lift (s.program.scope (some f.scope))
  modify fun m => Machine.discardAll s m f.owned
  modifyTop fun f =>
    { f with owned := [], bindings := [], registers := Frame.freshRegisters scope, pc := 0 }

def findIn (name : Text) : Option Nat → List Frame → Option Binding
  | _, [] => none
  | target, f :: below =>
    if target = some below.length then
      match f.bindings.lookup name with
      | some b => some b
      | none => findIn name f.parent below
    else findIn name target below

def findBinding (name : Text) : Exec (Option Binding) := do
  let frames := (← get).frames
  return findIn name (some (frames.length - 1)) frames

def borrowedVariable {α : Type} (name : Text) : Exec α :=
  fail (.borrowConflict ("Variable '" ++ name ++ "' is already mutably borrowed"))

def readVariable (name : Text) : Exec Value := do
  match ← findBinding name with
  | none => fail (.unknownVariable name)
  | some (.fixed v) => return v
  | some (.cell h) | some (.captured h) =>
    if ← readArena fun a => a.isBorrowed h then borrowedVariable name
    else readArena fun a => a.read h
  | some (.borrowed h) => readArena fun a => a.borrowed h

def assignVariable (name : Text) (v : Value) : Exec Unit := do
  match ← findBinding name with
  | none => fail (.unknownVariable name)
  | some (.fixed _) =>
    fail (.runtimeError ("Cannot assign twice to immutable variable '" ++ name ++ "'"))
  | some (.cell h) | some (.captured h) =>
    if ← readArena fun a => a.isBorrowed h then borrowedVariable name
    else onArena fun a => a.write h v
  | some (.borrowed h) => onArena fun a => a.setBorrowed h v

/-- Removes a variable of the top frame, with its cell if it has one of its own. -/
def dropBinding (s : Setup) (name : Text) : Exec Unit := do
  let f ← top
  match f.bindings.lookup name with
  | some (.cell h) => modify fun m => m.discard s h
  | _ => pure ()
  modifyTop fun f => f.unbind name

def bindLet (s : Setup) (name : Text) (v : Value) : Exec Unit := do
  dropBinding s name
  modifyTop fun f => f.bind name (.fixed v)

def bindMut (s : Setup) (name : Text) (v : Value) : Exec Unit := do
  dropBinding s name
  let (h, arena) := (← get).arena.allocate v
  modify fun m => { m with arena }
  modifyTop fun f => { f.bind name (.cell h) with owned := f.owned ++ [h] }

def bindParams (s : Setup) : List Text → List Value → Exec Unit
  | [], _ => pure ()
  | p :: ps, args => do
    bindLet s p (args.headD .none)
    bindParams s ps args.tail

/-- Makes a cell belong to the whole run. -/
def pin (h : CellHandle) : Exec Unit := do
  if ← readArena fun a => a.isPinned h then return ()
  else
    onArena fun a => a.pin h
    modify fun m => { m with pinned := m.pinned ++ [h] }

end Exec

end ScriptMachine
