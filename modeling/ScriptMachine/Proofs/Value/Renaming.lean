import ScriptMachine.Value.Display
import ScriptMachine.Operator.Order
import Mathlib.Algebra.Group.Nat.Defs
import Mathlib.Logic.Function.Basic
import Mathlib.Tactic.Common

set_option autoImplicit false

/-!
# Other numbers for objects, runs and cells

Objects, runs and cells are told apart by numbers that a machine has handed out. A renaming puts
other numbers in their place, different ones for different ones. Nothing that a script can see of a
value depends on them: its text, truth, equality and order stay what they are.
-/
namespace ScriptMachine

/-- What holds of a value if it holds of its parts holds of all values. -/
theorem Value.induction {P : Value → Prop} (none : P .none) (bool : ∀ b, P (.bool b))
    (num : ∀ n, P (.num n)) (str : ∀ t, P (.str t)) (list : ∀ vs, (∀ v ∈ vs, P v) → P (.list vs))
    (map : ∀ es, (∀ e ∈ es, P e.1 ∧ P e.2) → P (.map es))
    (error : ∀ f : Fault, (∀ v ∈ f.payload, P v) → P (.error f))
    (range : ∀ r, P (.object (.range r)))
    (record : ∀ id shape vs, (∀ v ∈ vs, P v) → P (.object (.record id shape vs)))
    (closure : ∀ id code captures, (∀ e ∈ captures, ∀ v, e.2 = .copy v → P v) →
      P (.object (.closure id code captures)))
    (host : ∀ id cls, P (.object (.host id cls))) : ∀ v, P v :=
  value
where
  value : ∀ v, P v
    | .none => none
    | .bool b => bool b
    | .num n => num n
    | .str t => str t
    | .list vs => list vs (values vs)
    | .map es => map es (entries es)
    | .error f => error f (fault f)
    | .object (.range r) => range r
    | .object (.record id shape vs) => record id shape vs (values vs)
    | .object (.closure id code captures) => closure id code captures (captured captures)
    | .object (.host id cls) => host id cls
  values : ∀ vs : List Value, ∀ v ∈ vs, P v
    | [] => nofun
    | v :: vs => List.forall_mem_cons.2 ⟨value v, values vs⟩
  entries : ∀ es : List (Value × Value), ∀ e ∈ es, P e.1 ∧ P e.2
    | [] => nofun
    | (k, v) :: es => List.forall_mem_cons.2 ⟨⟨value k, value v⟩, entries es⟩
  fault : ∀ f : FaultOf Value, ∀ v ∈ f.payload, P v
    | ⟨_, _, some v, _⟩ => fun _ h => Option.some.inj h ▸ value v
    | ⟨_, _, .none, _⟩ => nofun
  captured : ∀ cs : List (Text × Captured Value), ∀ e ∈ cs, ∀ v, e.2 = .copy v → P v
    | [] => nofun
    | (_, .copy v) :: cs => List.forall_mem_cons.2
        ⟨fun w h => by cases h; exact value v, captured cs⟩
    | (_, .cell _) :: cs => List.forall_mem_cons.2 ⟨nofun, captured cs⟩

/-- Numbers of objects and runs below `time` are kept, and so are the cells of runs with such a
number. Any other cell goes to another slot, some generations further on; such cells are in the slots
below `limit`. -/
structure Renaming where
  time : Nat
  limit : Nat
  number : Nat → Nat
  index : UInt32 → UInt32
  generation : UInt32 → UInt32
  number_injective : Function.Injective number
  index_injective : Function.Injective index
  number_fixed : ∀ i < time, number i = i
  limit_le : limit ≤ 2 ^ 32

namespace Renaming

def handle (ρ : Renaming) (h : CellHandle) : CellHandle :=
  ⟨ρ.index h.index, h.generation + ρ.generation h.index⟩

/-- A cell that a closure of the given run shares. -/
def shared (ρ : Renaming) (run : Nat) (h : CellHandle) : CellHandle :=
  if run < ρ.time then h else ρ.handle h

section Definitions

variable (ρ : Renaming)

mutual

def value : Value → Value
  | .none => .none
  | .bool b => .bool b
  | .num n => .num n
  | .str t => .str t
  | .list items => .list (values items)
  | .map entries => .map (pairs entries)
  | .error f => .error (raised f)
  | .object o => .object (object o)
termination_by structural v => v

def values : List Value → List Value
  | [] => []
  | v :: vs => value v :: values vs
termination_by structural vs => vs

def pairs : List (Value × Value) → List (Value × Value)
  | [] => []
  | (k, v) :: rest => (value k, value v) :: pairs rest
termination_by structural entries => entries

def raised : FaultOf Value → FaultOf Value
  | ⟨kind, message, some v, location⟩ => ⟨kind, message, some (value v), location⟩
  | ⟨kind, message, .none, location⟩ => ⟨kind, message, .none, location⟩
termination_by structural f => f

def object : ObjectOf Value → ObjectOf Value
  | .range r => .range r
  | .record id shape items => .record (ρ.number id) shape (values items)
  | .closure id code captures =>
    .closure (ρ.number id) { code with run := ρ.number code.run } (captured code.run captures)
  | .host id cls => .host (ρ.number id) cls
termination_by structural o => o

def captured (run : Nat) : List (Text × Captured Value) → List (Text × Captured Value)
  | [] => []
  | (n, .copy v) :: rest => (n, .copy (value v)) :: captured run rest
  | (n, .cell h) :: rest => (n, .cell (ρ.shared run h)) :: captured run rest
termination_by structural captures => captures

end

def entry (e : Value × Value) : Value × Value := (ρ.value e.1, ρ.value e.2)

def fault (f : Fault) : Fault := { f with payload := f.payload.map ρ.value }

def capture (run : Nat) : Captured Value → Captured Value
  | .copy v => .copy (ρ.value v)
  | .cell h => .cell (ρ.shared run h)

def code (c : ClosureCode) : ClosureCode := { c with run := ρ.number c.run }

end Definitions

variable {ρ : Renaming}

@[simp] theorem number_inj {i j : Nat} : ρ.number i = ρ.number j ↔ i = j := ρ.number_injective.eq_iff

@[simp] theorem number_beq (i j : Nat) : (ρ.number i == ρ.number j) = (i == j) := by
  rw [Bool.eq_iff_iff]
  simp

@[simp] theorem index_inj {i j : UInt32} : ρ.index i = ρ.index j ↔ i = j := ρ.index_injective.eq_iff

@[simp] theorem handle_index (h : CellHandle) : (ρ.handle h).index = ρ.index h.index := rfl

@[simp] theorem value_none : ρ.value .none = .none := rfl

@[simp] theorem value_bool (b : Bool) : ρ.value (.bool b) = .bool b := rfl

@[simp] theorem value_num (n : Number) : ρ.value (.num n) = .num n := rfl

@[simp] theorem value_int (n : Int) : ρ.value (.int n) = .int n := rfl

@[simp] theorem value_str (t : Text) : ρ.value (.str t) = .str t := rfl

theorem values_eq (vs : List Value) : ρ.values vs = vs.map ρ.value := by
  induction vs with
  | nil => rfl
  | cons v vs ih => simp only [values, ih, List.map_cons]

theorem pairs_eq (es : Entries) : ρ.pairs es = es.map ρ.entry := by
  induction es with
  | nil => rfl
  | cons e es ih => simp only [pairs, ih, List.map_cons, entry]

theorem captured_eq (run : Nat) (cs : List (Text × Captured Value)) :
    ρ.captured run cs = cs.map fun c => (c.1, ρ.capture run c.2) := by
  induction cs with
  | nil => rfl
  | cons c cs ih =>
    obtain ⟨name, v | h⟩ := c
    · simp only [captured, ih, List.map_cons, capture]
    · simp only [captured, ih, List.map_cons, capture]

@[simp] theorem value_list (vs : List Value) : ρ.value (.list vs) = .list (vs.map ρ.value) := by
  rw [← values_eq]
  rfl

@[simp] theorem value_map (es : Entries) : ρ.value (.map es) = .map (es.map ρ.entry) := by
  rw [← pairs_eq]
  rfl

@[simp] theorem value_error (f : Fault) : ρ.value (.error f) = .error (ρ.fault f) := by
  obtain ⟨kind, message, _ | v, location⟩ := f
  · rfl
  · rfl

@[simp] theorem value_object (o : Object) : ρ.value (.object o) = .object (ρ.object o) := rfl

@[simp] theorem object_range (r : Range) : ρ.object (.range r) = .range r := rfl

@[simp] theorem object_record (id : Nat) (shape : RecordShape) (vs : List Value) :
    ρ.object (.record id shape vs) = .record (ρ.number id) shape (vs.map ρ.value) := by
  rw [← values_eq]
  rfl

@[simp] theorem object_closure (id : Nat) (code : ClosureCode) (cs : List (Text × Captured Value)) :
    ρ.object (.closure id code cs) =
      .closure (ρ.number id) (ρ.code code) (cs.map fun c => (c.1, ρ.capture code.run c.2)) := by
  rw [← captured_eq]
  rfl

@[simp] theorem object_host (id : Nat) (cls : HostClass) :
    ρ.object (.host id cls) = .host (ρ.number id) cls := rfl

@[simp] theorem entry_mk (k v : Value) : ρ.entry (k, v) = (ρ.value k, ρ.value v) := rfl

@[simp] theorem capture_copy (run : Nat) (v : Value) :
    ρ.capture run (.copy v) = .copy (ρ.value v) := rfl

@[simp] theorem capture_cell (run : Nat) (h : CellHandle) :
    ρ.capture run (.cell h) = .cell (ρ.shared run h) := rfl

@[simp] theorem code_run (c : ClosureCode) : (ρ.code c).run = ρ.number c.run := rfl

@[simp] theorem code_program (c : ClosureCode) : (ρ.code c).program = c.program := rfl

@[simp] theorem code_function (c : ClosureCode) : (ρ.code c).function = c.function := rfl

@[simp] theorem code_name (c : ClosureCode) : (ρ.code c).name = c.name := rfl

@[simp] theorem code_arity (c : ClosureCode) : (ρ.code c).arity = c.arity := rfl

@[simp] theorem code_signature (c : ClosureCode) : (ρ.code c).signature = c.signature := rfl

@[simp] theorem fault_kind (f : Fault) : (ρ.fault f).kind = f.kind := rfl

@[simp] theorem fault_message (f : Fault) : (ρ.fault f).message = f.message := rfl

@[simp] theorem fault_display (f : Fault) : (ρ.fault f).display = f.display := rfl

@[simp] theorem fault_location (f : Fault) : (ρ.fault f).location = f.location := rfl

theorem fault_of_payload_none {f : Fault} (h : f.payload = none) : ρ.fault f = f := by
  obtain ⟨kind, message, payload, location⟩ := f
  cases h
  rfl

@[simp] theorem fault_locatedAt (l : Location) (f : Fault) :
    ρ.fault (f.locatedAt l) = (ρ.fault f).locatedAt l := rfl

@[simp] theorem fault_typeError (t : Text) : ρ.fault (.typeError t) = .typeError t := rfl

@[simp] theorem fault_runtimeError (t : Text) : ρ.fault (.runtimeError t) = .runtimeError t := rfl

@[simp] theorem fault_castError (t : Text) : ρ.fault (.castError t) = .castError t := rfl

@[simp] theorem fault_borrowConflict (t : Text) :
    ρ.fault (.borrowConflict t) = .borrowConflict t := rfl

@[simp] theorem fault_unknownVariable (t : Text) :
    ρ.fault (.unknownVariable t) = .unknownVariable t := rfl

@[simp] theorem fault_unknownFunction (t : Text) :
    ρ.fault (.unknownFunction t) = .unknownFunction t := rfl

section Seen

variable (v w : Value)

@[simp] theorem typeName_object (o : Object) : (ρ.object o).typeName = o.typeName := by
  cases o <;> simp [ObjectOf.typeName]

@[simp] theorem truthy_object (o : Object) : (ρ.object o).truthy = o.truthy := by
  cases o <;> simp [ObjectOf.truthy]

@[simp] theorem kind_value : (ρ.value v).kind = v.kind := by
  cases v <;> simp [Value.kind]

@[simp] theorem typeName_value : (ρ.value v).typeName = v.typeName := by
  cases v <;> simp [Value.typeName, Value.kind]

@[simp] theorem isNone_value : (ρ.value v).isNone = v.isNone := by
  cases v <;> simp [Value.isNone]

@[simp] theorem isError_value : (ρ.value v).isError = v.isError := by
  cases v <;> simp [Value.isError]

@[simp] theorem isObject_value : (ρ.value v).isObject = v.isObject := by
  cases v <;> simp [Value.isObject]

@[simp] theorem truthy_value : (ρ.value v).truthy = v.truthy := by
  cases v <;> simp [Value.truthy]

@[simp] theorem isEmptyish_value : (ρ.value v).isEmptyish = v.isEmptyish := by
  cases v <;> simp [Value.isEmptyish]

@[simp] theorem matches_value (t : DeclaredType) : t.matches (ρ.value v) = t.matches v := by
  cases v <;> cases t <;> simp [DeclaredType.matches]

end Seen

theorem displayItems_values {vs : List Value} (h : ∀ v ∈ vs, (ρ.value v).display = v.display) :
    Value.displayItems (vs.map ρ.value) = Value.displayItems vs := by
  induction vs with
  | nil => rfl
  | cons v vs ih =>
    obtain ⟨hv, hvs⟩ := List.forall_mem_cons.1 h
    cases vs with
    | nil => simp [Value.displayItems, hv]
    | cons w vs =>
      rw [List.map_cons] at ih ⊢
      simp [Value.displayItems, hv, ih hvs]

theorem displayEntries_entries {es : Entries}
    (h : ∀ e ∈ es, (ρ.value e.1).display = e.1.display ∧ (ρ.value e.2).display = e.2.display) :
    Value.displayEntries (es.map ρ.entry) = Value.displayEntries es := by
  induction es with
  | nil => rfl
  | cons e es ih =>
    obtain ⟨⟨hk, hv⟩, hes⟩ := List.forall_mem_cons.1 h
    obtain ⟨k, v⟩ := e
    cases es with
    | nil => simp [Value.displayEntries, hk, hv]
    | cons e' es =>
      rw [List.map_cons] at ih ⊢
      simp [Value.displayEntries, hk, hv, ih hes]

theorem displayFields_values {vs : List Value} (h : ∀ v ∈ vs, (ρ.value v).display = v.display)
    (fields : List (Text × DeclaredType)) :
    Value.displayFields fields (vs.map ρ.value) = Value.displayFields fields vs := by
  induction vs generalizing fields with
  | nil => rfl
  | cons v vs ih =>
    obtain ⟨hv, hvs⟩ := List.forall_mem_cons.1 h
    cases vs with
    | nil => simp [Value.displayFields, hv]
    | cons w vs =>
      rw [List.map_cons] at ih ⊢
      simp [Value.displayFields, hv, ih hvs]

@[simp] theorem display_value (v : Value) : (ρ.value v).display = v.display := by
  induction v using Value.induction with
  | none | bool | num | str => rfl
  | list vs ih => simp [Value.display, displayItems_values ih]
  | map es ih => simp [Value.display, displayEntries_entries ih]
  | error f => simp [Value.display]
  | range | closure | host => simp [Value.display, Value.displayObject]
  | record id shape vs ih => simp [Value.display, Value.displayObject, displayFields_values ih]

@[simp] theorem displayItems_map (vs : List Value) :
    Value.displayItems (vs.map ρ.value) = Value.displayItems vs :=
  displayItems_values fun v _ => display_value v

@[simp] theorem displayEntries_map (es : Entries) :
    Value.displayEntries (es.map ρ.entry) = Value.displayEntries es :=
  displayEntries_entries fun e _ => ⟨display_value e.1, display_value e.2⟩

@[simp] theorem displayObject_object (o : Object) :
    Value.displayObject (ρ.object o) = Value.displayObject o := display_value (.object o)

theorem equalItems_values {vs : List Value} (h : ∀ v ∈ vs, ∀ w, (ρ.value v).equals (ρ.value w) = v.equals w)
    (ws : List Value) :
    Value.equalItems (vs.map ρ.value) (ws.map ρ.value) = Value.equalItems vs ws := by
  induction vs generalizing ws with
  | nil => cases ws <;> rfl
  | cons v vs ih =>
    obtain ⟨hv, hvs⟩ := List.forall_mem_cons.1 h
    cases ws with
    | nil => rfl
    | cons w ws => simp [Value.equalItems, hv, ih hvs]

theorem equalEntries_entries {es : Entries}
    (h : ∀ e ∈ es, (∀ w, (ρ.value e.1).equals (ρ.value w) = e.1.equals w) ∧
      ∀ w, (ρ.value e.2).equals (ρ.value w) = e.2.equals w) (es' : Entries) :
    Value.equalEntries (es.map ρ.entry) (es'.map ρ.entry) = Value.equalEntries es es' := by
  induction es generalizing es' with
  | nil => cases es' <;> rfl
  | cons e es ih =>
    obtain ⟨⟨hk, hv⟩, hes⟩ := List.forall_mem_cons.1 h
    cases es' with
    | nil => rfl
    | cons e' es' => simp [Value.equalEntries, entry, hk, hv, ih hes]

@[simp] theorem equals_value (v w : Value) : (ρ.value v).equals (ρ.value w) = v.equals w := by
  induction v using Value.induction generalizing w with
  | none | bool | num | str => cases w <;> simp [Value.equals]
  | list vs ih => cases w <;> simp [Value.equals, equalItems_values ih]
  | map es ih => cases w <;> simp [Value.equals, equalEntries_entries ih]
  | error f => cases w <;> simp [Value.equals]
  | range | closure | host =>
    cases w with
    | object o => cases o <;> simp [Value.equals, Value.equalObjects]
    | _ => simp [Value.equals]
  | record id shape vs ih =>
    cases w with
    | object o => cases o <;> simp [Value.equals, Value.equalObjects, equalItems_values ih]
    | _ => simp [Value.equals]

@[simp] theorem boolEquals_value (b : Bool) (v : Value) :
    Value.boolEquals b (ρ.value v) = Value.boolEquals b v := by
  cases v <;> simp [Value.boolEquals, Value.truthy]

@[simp] theorem looseEquals_value (v w : Value) :
    (ρ.value v).looseEquals (ρ.value w) = v.looseEquals w := by
  unfold Value.looseEquals
  rw [kind_value, kind_value, equals_value]
  cases v <;> cases w <;> simp [Value.isEmptyish, Value.boolEquals, Value.truthy]

theorem compareItems_values {vs : List Value}
    (h : ∀ v ∈ vs, ∀ w, (ρ.value v).compare? (ρ.value w) = v.compare? w) (ws : List Value) :
    Value.compareItems (vs.map ρ.value) (ws.map ρ.value) = Value.compareItems vs ws := by
  induction vs generalizing ws with
  | nil => cases ws <;> rfl
  | cons v vs ih =>
    obtain ⟨hv, hvs⟩ := List.forall_mem_cons.1 h
    cases ws with
    | nil => rfl
    | cons w ws => simp [Value.compareItems, hv, ih hvs]

theorem compareEntries_entries {es : Entries}
    (h : ∀ e ∈ es, (∀ w, (ρ.value e.1).compare? (ρ.value w) = e.1.compare? w) ∧
      ∀ w, (ρ.value e.2).compare? (ρ.value w) = e.2.compare? w) (es' : Entries) :
    Value.compareEntries (es.map ρ.entry) (es'.map ρ.entry) = Value.compareEntries es es' := by
  induction es generalizing es' with
  | nil => cases es' <;> rfl
  | cons e es ih =>
    obtain ⟨⟨hk, hv⟩, hes⟩ := List.forall_mem_cons.1 h
    cases es' with
    | nil => rfl
    | cons e' es' => simp [Value.compareEntries, entry, hk, hv, ih hes]

@[simp] theorem compare_value (v w : Value) : (ρ.value v).compare? (ρ.value w) = v.compare? w := by
  induction v using Value.induction generalizing w with
  | list vs ih => cases w <;> simp [Value.compare?, compareItems_values ih, Value.kind]
  | map es ih => cases w <;> simp [Value.compare?, compareEntries_entries ih, Value.kind]
  | _ => cases w <;> simp [Value.compare?, Value.kind]

end Renaming

end ScriptMachine
