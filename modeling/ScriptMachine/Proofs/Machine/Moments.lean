import ScriptMachine.Proofs.Machine.Flow
import ScriptMachine.Proofs.Machine.Openings
import ScriptMachine.Proofs.Machine.Sessions

set_option autoImplicit false

/-!
# Where bindings come from

A host enters machines one after the other. Whatever a frame has bound under a name, one declaration
has bound it there: an operation that the frame has executed, or the entry of the frame, or, for a name
that a closure has captured, the declaration of what it captured when it was made.
-/
namespace ScriptMachine

/-- The frame at a height of the stack. -/
def frameAt (fs : List Frame) (height : Nat) : Option Frame := fs.reverse[height]?

namespace Exec

/-- Looks for a name as `findIn` does, and tells at which height the frame stands that has it. -/
def locateIn (name : Text) : Option Nat → List Frame → Option (Nat × Binding)
  | _, [] => none
  | target, f :: below =>
    if target = some below.length then
      match f.bindings.lookup name with
      | some b => some (below.length, b)
      | none => locateIn name f.parent below
    else locateIn name target below

theorem findIn_eq (name : Text) (target : Option Nat) (fs : List Frame) :
    findIn name target fs = (locateIn name target fs).map Prod.snd := by
  induction fs generalizing target with
  | nil => rfl
  | cons f below ih =>
    unfold findIn locateIn
    split
    · cases f.bindings.lookup name with
      | some b => rfl
      | none => exact ih _
    · exact ih _

end Exec

/-- What the top frame finds under a name, with the height of the frame that has it. -/
def Machine.locates (m : Machine) (name : Text) : Option (Nat × Binding) :=
  Exec.locateIn name (some (m.frames.length - 1)) m.frames

theorem Machine.finds_eq (m : Machine) (name : Text) : m.finds name = (m.locates name).map Prod.snd :=
  Exec.findIn_eq name _ _

theorem Machine.finds_taken {m : Machine} {f : Frame} {rest : List Frame} (hf : m.frames = f :: rest)
    (i : Instruction) (name : Text) : (m.taken f rest i).finds name = m.finds name := by
  rw [Machine.finds, Machine.finds, hf]
  rfl

/-- What a name is bound to in the frame of the top level, if it is at the bottom of the stack. -/
def globalIn (fs : List Frame) (name : Text) : Option Binding :=
  match fs.getLast? with
  | some f => if f.scope = 0 then f.bindings.lookup name else none
  | none => none

/-- The entries of a host, the latest first, each with the machine that it enters. -/
abbrev Chronicle := List (Machine × Visit)

/-- A state between two steps of an entry, after earlier entries. -/
structure Moment where
  past : Chronicle
  start : Machine
  visit : Visit
  machine : Machine

namespace Moment

/-- The entry that the moment belongs to, and those before it. -/
def chronicle (t : Moment) : Chronicle := (t.start, t.visit) :: t.past

/-- Another state of the same entry. -/
def later (t : Moment) (m : Machine) : Moment := { t with machine := m }

def Reached (s : Setup) (t : Moment) : Prop := t.visit.Reaches s t.start t.machine

def Before (s : Setup) (u t : Moment) : Prop :=
  u.chronicle <:+ t.past ∨ u.chronicle = t.chronicle ∧ u.machine.Runs s t.machine

/-- The top frame has just been entered for a call of the value. -/
inductive Opens (s : Setup) (v : Value) : Moment → Prop where
  | operation {t : Moment} {f g : Frame} {rest : List Frame} {op : Operation} {r : Register}
    {m : Machine} (hf : t.machine.frames = f :: rest) (hop : (s.program.codeOf f.scope)[f.pc]? = some op)
    (hr : op.calledValue? = some r) (hv : f.registers[r]? = some v)
    (ha : t.machine.advance s = .running m) (hm : m.frames = g :: { f with pc := f.pc + 1 } :: rest) :
    Opens s v (t.later m)
  | entry {t : Moment} {g : Frame} {args : List Value} (hvisit : t.visit.entry = .closure v args)
    (hrun : Exec.invokeClosure s v args noneRegister
      (Machine.begin s { t.start with host := t.visit.host }) = .ok ⟨⟩ t.machine)
    (hm : t.machine.frames = [g]) : Opens s v t

/-- The frame at the height has the name bound to the binding, and that is the work of the
declaration. -/
inductive Created (s : Setup) : Moment → Nat → Text → Declaration → Binding → Prop where
  | operation {t : Moment} {f g : Frame} {rest : List Frame} {op : Operation} {n : Text} {m : Machine}
    {b : Binding} (hf : t.machine.frames = f :: rest)
    (hop : (s.program.codeOf f.scope)[f.pc]? = some op) (hn : op.declares? = some n)
    (ha : t.machine.advance s = .running m) (hm : m.frames = g :: rest)
    (hb : g.bindings.lookup n = some b) :
    Created s (t.later m) rest.length n (.operation f.scope f.pc) b
  | entry {t : Moment} {g : Frame} {rest : List Frame} {a : Place} {n : Text} {b : Binding}
    (hg : t.machine.frames = g :: rest) (hpc : g.pc = 0) (ha : s.program.Placed a)
    (hscope : g.scope = a.scope) (hn : a.own n = some (.entry a.scope))
    (hb : g.bindings.lookup n = some b) : Created s t rest.length n (.entry a.scope) b
  | captured {t u : Moment} {g : Frame} {rest : List Frame} {id height : Nat} {c : Closure} {n : Text}
    {d : Declaration} {cap : Captured Value} {b : Binding} (hg : t.machine.frames = g :: rest)
    (hopens : t.Opens s (.object (.closure id c.1 c.2))) (hcap : (n, cap) ∈ c.2)
    (hb : g.bindings.lookup n = some cap.binding) (hu : u.Reached s) (hbefore : u.Before s t)
    (hmade : u.machine.Makes s c) (hfound : u.machine.locates n = some (height, b))
    (hcreated : Created s u height n d b) (has : b.CapturedAs u.machine.arena cap) :
    Created s t rest.length n d cap.binding
  | kept {t : Moment} {height : Nat} {n : Text} {d : Declaration} {b : Binding} {m : Machine} {g : Frame}
    (hcreated : Created s t height n d b) (ha : t.machine.advance s = .running m)
    (hg : frameAt m.frames height = some g) (hpc : g.pc ≠ 0)
    (hanew : ∀ f rest, t.machine.frames = f :: rest → rest.length = height →
      declaredAt (s.program.codeOf f.scope) f.pc ≠ some n) : Created s (t.later m) height n d b

end Moment

/-- The values that a host hands over when it enters. -/
def Entry.values : Entry → List Value
  | .run => []
  | .named _ args | .function _ args => args
  | .closure callee args => callee :: args

namespace Chronicle

/-- If the closure is one of the program, then one of the entries has made it. -/
def Knows (s : Setup) (entries : Chronicle) (c : Closure) : Prop :=
  c.1.program = s.program.id → ∃ u : Moment, u.chronicle <:+ entries ∧ u.Reached s ∧ u.machine.Makes s c

/-- A host calls functions that there are, and hands over closures that it was given. -/
structure Admits (s : Setup) (entries : Chronicle) (v : Visit) : Prop where
  function : ∀ f args, v.entry = .function f args → f ∈ s.functionList
  values : ∀ w ∈ v.entry.values, w.Holds (entries.Knows s)
  host : v.host.All (Value.Holds (entries.Knows s))

/-- Every entry is one into a fresh machine, or into one that an earlier entry has left. -/
inductive Proper (s : Setup) : Chronicle → Prop where
  | nil : Proper s []
  | fresh {past : Chronicle} {v : Visit} (hpast : Proper s past) (hv : past.Admits s v) (host : Host) :
    Proper s ((Machine.initial host, v) :: past)
  | again {past : Chronicle} {e : Machine × Visit} {v : Visit} (hpast : Proper s past)
    (hv : past.Admits s v) (he : e ∈ past) : Proper s (((e.2.perform s e.1).2, v) :: past)

end Chronicle

end ScriptMachine
