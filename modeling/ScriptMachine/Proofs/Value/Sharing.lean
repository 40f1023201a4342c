import ScriptMachine.Proofs.Value.Parts

set_option autoImplicit false

namespace ScriptMachine

/-- A cell, with the run of the closure that shares it. -/
abbrev SharedCell := Nat × CellHandle

namespace Value

mutual

def cells : Value → List SharedCell
  | .list items => itemCells items
  | .map entries => entryCells entries
  | .error f => faultCells f
  | .object o => objectCells o
  | _ => []
termination_by structural v => v

def itemCells : List Value → List SharedCell
  | [] => []
  | v :: vs => v.cells ++ itemCells vs
termination_by structural vs => vs

def entryCells : List (Value × Value) → List SharedCell
  | [] => []
  | (k, v) :: rest => k.cells ++ (v.cells ++ entryCells rest)
termination_by structural entries => entries

def faultCells : FaultOf Value → List SharedCell
  | ⟨_, _, some v, _⟩ => v.cells
  | ⟨_, _, .none, _⟩ => []
termination_by structural f => f

def objectCells : ObjectOf Value → List SharedCell
  | .record _ _ values => itemCells values
  | .closure _ code captures => captureCells code.run captures
  | _ => []
termination_by structural o => o

def captureCells (run : Nat) : List (Text × Captured Value) → List SharedCell
  | [] => []
  | (_, .copy v) :: rest => v.cells ++ captureCells run rest
  | (_, .cell h) :: rest => (run, h) :: captureCells run rest
termination_by structural captures => captures

end

theorem itemCells_eq (vs : List Value) : itemCells vs = vs.flatMap cells := by
  induction vs with
  | nil => rfl
  | cons v vs ih =>
    change v.cells ++ itemCells vs = v.cells ++ vs.flatMap cells
    rw [ih]

theorem entryCells_eq (es : Entries) : entryCells es = es.flatMap fun e => e.1.cells ++ e.2.cells := by
  induction es with
  | nil => rfl
  | cons e es ih =>
    change e.1.cells ++ (e.2.cells ++ entryCells es) =
      (e.1.cells ++ e.2.cells) ++ es.flatMap fun e => e.1.cells ++ e.2.cells
    rw [ih, List.append_assoc]

/-- All cells that the value shares have a property. -/
def Within (G : SharedCell → Prop) (v : Value) : Prop := ∀ c ∈ v.cells, G c

end Value

/-- All cells that the value raised by a fault shares have a property. -/
def FaultOf.Within (G : SharedCell → Prop) (f : Fault) : Prop := ∀ v ∈ f.payload, v.Within G

def Captured.Within (G : SharedCell → Prop) (run : Nat) : Captured Value → Prop
  | .copy v => v.Within G
  | .cell h => G (run, h)

variable {G : SharedCell → Prop}

namespace Value

@[simp] theorem within_none : Within G .none := List.forall_mem_nil _

@[simp] theorem within_bool (b : Bool) : Within G (.bool b) := List.forall_mem_nil _

@[simp] theorem within_num (n : Number) : Within G (.num n) := List.forall_mem_nil _

@[simp] theorem within_str (t : Text) : Within G (.str t) := List.forall_mem_nil _

@[simp] theorem within_int (n : Int) : Within G (.int n) := within_num _

@[simp] theorem within_range (r : Range) : Within G (.object (.range r)) := List.forall_mem_nil _

@[simp] theorem within_host (id : Nat) (cls : HostClass) : Within G (.object (.host id cls)) :=
  List.forall_mem_nil _

@[simp] theorem within_list {vs : List Value} : Within G (.list vs) ↔ ∀ v ∈ vs, v.Within G := by
  change (∀ c ∈ itemCells vs, G c) ↔ _
  simp only [itemCells_eq, List.mem_flatMap]
  constructor
  · exact fun h v hv c hc => h c ⟨v, hv, hc⟩
  · rintro h c ⟨v, hv, hc⟩
    exact h v hv c hc

@[simp] theorem within_map {es : Entries} :
    Within G (.map es) ↔ ∀ e ∈ es, e.1.Within G ∧ e.2.Within G := by
  change (∀ c ∈ entryCells es, G c) ↔ _
  simp only [entryCells_eq, List.mem_flatMap, List.mem_append]
  constructor
  · exact fun h e he => ⟨fun c hc => h c ⟨e, he, Or.inl hc⟩, fun c hc => h c ⟨e, he, Or.inr hc⟩⟩
  · rintro h c ⟨e, he, hc | hc⟩
    · exact (h e he).1 c hc
    · exact (h e he).2 c hc

@[simp] theorem within_error {f : Fault} : Within G (.error f) ↔ f.Within G := by
  obtain ⟨kind, message, _ | v, location⟩ := f
  · exact iff_of_true (List.forall_mem_nil _) fun v hv => nomatch hv
  · exact ⟨fun h w hw => Option.some.inj hw ▸ h, fun h => h v rfl⟩

@[simp] theorem within_record {id : Nat} {shape : RecordShape} {vs : List Value} :
    Within G (.object (.record id shape vs)) ↔ ∀ v ∈ vs, v.Within G :=
  within_list

@[simp] theorem within_closure {id : Nat} {code : ClosureCode}
    {captures : List (Text × Captured Value)} :
    Within G (.object (.closure id code captures)) ↔
      ∀ e ∈ captures, e.2.Within G code.run := by
  change (∀ c ∈ captureCells code.run captures, G c) ↔ _
  induction captures with
  | nil => exact iff_of_true (List.forall_mem_nil _) (List.forall_mem_nil _)
  | cons e rest ih =>
    rw [List.forall_mem_cons, ← ih]
    obtain ⟨name, v | h⟩ := e
    · exact List.forall_mem_append
    · exact List.forall_mem_cons

end Value

namespace FaultOf

@[simp] theorem within_payload_none {f : Fault} (h : f.payload = none) : f.Within G := by
  simp [FaultOf.Within, h]

theorem within_locatedAt {f : Fault} (l : Location) (h : f.Within G) : (f.locatedAt l).Within G := h

end FaultOf

instance (G : SharedCell → Prop) : Hereditary (Value.Within G) where
  none := Value.within_none
  bool := Value.within_bool
  num := Value.within_num
  str := Value.within_str
  list := Value.within_list
  map := Value.within_map
  error := Value.within_error
  range := Value.within_range
  record := Value.within_record
  host := Value.within_host

end ScriptMachine
