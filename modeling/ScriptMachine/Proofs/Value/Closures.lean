import ScriptMachine.Proofs.Value.Parts
import ScriptMachine.Registry

set_option autoImplicit false

namespace ScriptMachine

/-- A closure without its identity: its code, and what it has captured. -/
abbrev Closure := ClosureCode × List (Text × Captured Value)

namespace Value

mutual

def closures : Value → List Closure
  | .list items => itemClosures items
  | .map entries => entryClosures entries
  | .error f => faultClosures f
  | .object o => objectClosures o
  | _ => []
termination_by structural v => v

def itemClosures : List Value → List Closure
  | [] => []
  | v :: vs => v.closures ++ itemClosures vs
termination_by structural vs => vs

def entryClosures : List (Value × Value) → List Closure
  | [] => []
  | (k, v) :: rest => k.closures ++ (v.closures ++ entryClosures rest)
termination_by structural entries => entries

def faultClosures : FaultOf Value → List Closure
  | ⟨_, _, some v, _⟩ => v.closures
  | ⟨_, _, .none, _⟩ => []
termination_by structural f => f

def objectClosures : ObjectOf Value → List Closure
  | .record _ _ values => itemClosures values
  | .closure _ code captures => (code, captures) :: captureClosures captures
  | _ => []
termination_by structural o => o

def captureClosures : List (Text × Captured Value) → List Closure
  | [] => []
  | (_, .copy v) :: rest => v.closures ++ captureClosures rest
  | (_, .cell _) :: rest => captureClosures rest
termination_by structural captures => captures

end

/-- All closures of the value have a property. -/
def Holds (G : Closure → Prop) (v : Value) : Prop := ∀ c ∈ v.closures, G c

end Value

def Captured.Holds (G : Closure → Prop) : Captured Value → Prop
  | .copy v => v.Holds G
  | .cell _ => True

namespace Value

variable {G H : Closure → Prop} {v : Value}

theorem Holds.mono (h : v.Holds G) (hG : ∀ c, G c → H c) : v.Holds H := fun c hc => hG c (h c hc)

theorem holds_items {vs : List Value} : (∀ c ∈ itemClosures vs, G c) ↔ ∀ v ∈ vs, v.Holds G := by
  induction vs with
  | nil => exact iff_of_true (List.forall_mem_nil _) (List.forall_mem_nil _)
  | cons v vs ih =>
    rw [List.forall_mem_cons, ← ih]
    exact List.forall_mem_append

theorem holds_entries {es : Entries} :
    (∀ c ∈ entryClosures es, G c) ↔ ∀ e ∈ es, e.1.Holds G ∧ e.2.Holds G := by
  induction es with
  | nil => exact iff_of_true (List.forall_mem_nil _) (List.forall_mem_nil _)
  | cons e es ih =>
    rw [List.forall_mem_cons, ← ih, and_assoc]
    exact List.forall_mem_append.trans (and_congr_right' List.forall_mem_append)

theorem holds_closure {id : Nat} {code : ClosureCode} {captures : List (Text × Captured Value)} :
    Holds G (.object (.closure id code captures)) ↔
      G (code, captures) ∧ ∀ e ∈ captures, e.2.Holds G := by
  have hcaptures : (∀ c ∈ captureClosures captures, G c) ↔ ∀ e ∈ captures, e.2.Holds G := by
    induction captures with
    | nil => exact iff_of_true (List.forall_mem_nil _) (List.forall_mem_nil _)
    | cons e rest ih =>
      rw [List.forall_mem_cons, ← ih]
      obtain ⟨name, v | h⟩ := e
      · exact List.forall_mem_append
      · exact ⟨fun h => ⟨trivial, h⟩, And.right⟩
  exact List.forall_mem_cons.trans (and_congr_right' hcaptures)

instance (G : Closure → Prop) : Hereditary (Value.Holds G) where
  none := List.forall_mem_nil _
  bool _ := List.forall_mem_nil _
  num _ := List.forall_mem_nil _
  str _ := List.forall_mem_nil _
  list := holds_items
  map := holds_entries
  error := by
    rintro ⟨kind, message, _ | v, location⟩
    · exact iff_of_true (List.forall_mem_nil _) nofun
    · exact ⟨fun h w hw => Option.some.inj hw ▸ h, fun h => h v rfl⟩
  range _ := List.forall_mem_nil _
  record := holds_items
  host _ _ := List.forall_mem_nil _

/-- A value that has every property which values have by their parts holds no closure. -/
def Inert (v : Value) : Prop := ∀ G, v.Holds G

end Value

def Host.All (P : Value → Prop) (h : Host) : Prop := ∀ shared ∈ h.shared, ∀ e ∈ shared.entries, P e.2

structure NativeCall.All (P : Value → Prop) (c : NativeCall) : Prop where
  self : ∀ v ∈ c.self, P v
  args : ∀ v ∈ c.args, P v

structure NativeOutcome.All (P : Value → Prop) (o : NativeOutcome) : Prop where
  host : o.host.All P
  self : ∀ v ∈ o.self, P v
  value : ∀ v, o.result = .ok v → P v
  fault : ∀ f, o.result = .error (.fault f) → ∀ v ∈ f.payload, P v

/-- Native code makes up no closures: all that it hands on it was given, or the host has them. -/
def Native.Faithful (code : Native) : Prop :=
  ∀ (G : Closure → Prop) (c : NativeCall) (h : Host),
    c.All (Value.Holds G) → h.All (Value.Holds G) → (code c h).All (Value.Holds G)

def Parameter.Inert (p : Parameter) : Prop := ∀ v ∈ p.default, v.Inert

def Signature.Inert (s : Signature) : Prop := ∀ p ∈ s.params, p.Inert

/-- A function that brings no closures with it. -/
structure Function.Inert (f : Function) : Prop where
  signature : f.signature.Inert
  native : ∀ code, f.body = .native (some code) → code.Faithful

def Trait.Inert (t : Trait) : Prop := ∀ e ∈ t.functions, e.2.Inert

theorem mem_of_lookup {α : Type} {entries : List (Text × α)} {name : Text} {a : α}
    (h : entries.lookup name = some a) : (name, a) ∈ entries := by
  obtain ⟨front, back, rfl, -⟩ := List.lookup_eq_some_iff.1 h
  simp

structure Registry.Inert (r : Registry) : Prop where
  functions : ∀ f ∈ r.functions, f.Inert
  traits : ∀ e ∈ r.traits, e.2.Inert

end ScriptMachine
