import ScriptMachine.Proofs.Number.Comparison
import ScriptMachine.Proofs.Value.Renaming

set_option autoImplicit false

/-!
# The laws of equality

Strict and loose equality do not care which side a value stands on. A value equals itself unless a NaN
can be reached in it through items of lists and keys and values of maps: errors are compared by kind and
text, and every object equals itself.
-/
namespace ScriptMachine

namespace Number

theorem equals_comm (a b : Number) : equals a b = equals b a := by
  unfold equals
  rw [compare?_swap b a]
  cases compare? b a with
  | none => rfl
  | some o => cases o <;> rfl

theorem equals_self (n : Number) : equals n n = !n.isNaN := by
  cases n with
  | int v => simp [equals, compare?, pair, isNaN]
  | uint v => simp [equals, compare?, pair, isNaN]
  | float x =>
    have hsame : x.compareOrdered x = .eq := Int.compare_eq_eq.2 rfl
    cases hx : x.isNaN <;>
      simp [equals, compare?, pair, toFloat, isNaN, isUInt, hx, hsame]

end Number

namespace Value

/-- A NaN is reached in the value through items of lists and keys and values of maps alone. -/
inductive HasNaN : Value → Prop where
  | num {n : Number} (h : n.isNaN = true) : HasNaN (.num n)
  | item {vs : List Value} {v : Value} (hv : v ∈ vs) (h : HasNaN v) : HasNaN (.list vs)
  | key {es : Entries} {e : Value × Value} (he : e ∈ es) (h : HasNaN e.1) : HasNaN (.map es)
  | value {es : Entries} {e : Value × Value} (he : e ∈ es) (h : HasNaN e.2) : HasNaN (.map es)

theorem equalItems_comm {vs : List Value} (h : ∀ v ∈ vs, ∀ w, v.equals w = w.equals v)
    (ws : List Value) : equalItems vs ws = equalItems ws vs := by
  induction vs generalizing ws with
  | nil => cases ws <;> rfl
  | cons v vs ih =>
    obtain ⟨hv, hvs⟩ := List.forall_mem_cons.1 h
    cases ws with
    | nil => rfl
    | cons w ws => simp only [equalItems, hv w, ih hvs ws]

theorem equalEntries_comm {es : Entries}
    (h : ∀ e ∈ es, (∀ w, e.1.equals w = w.equals e.1) ∧ ∀ w, e.2.equals w = w.equals e.2)
    (es' : Entries) : equalEntries es es' = equalEntries es' es := by
  induction es generalizing es' with
  | nil => cases es' <;> rfl
  | cons e es ih =>
    obtain ⟨⟨hk, hv⟩, hes⟩ := List.forall_mem_cons.1 h
    cases es' with
    | nil => rfl
    | cons e' es' => simp only [equalEntries, hk e'.1, hv e'.2, ih hes es']

/-- The order of the operands does not matter to strict equality. -/
theorem equals_comm (a b : Value) : a.equals b = b.equals a := by
  induction a using Value.induction generalizing b with
  | none => cases b <;> rfl
  | bool x => cases b <;> simp [equals, Bool.beq_comm]
  | num n => cases b <;> simp [equals, Number.equals_comm n]
  | str t => cases b <;> simp [equals, Bool.beq_comm]
  | list vs ih => cases b <;> simp [equals, equalItems_comm ih]
  | map es ih => cases b <;> simp [equals, equalEntries_comm ih]
  | error f => cases b <;> simp [equals, Bool.beq_comm]
  | range r =>
    cases b with
    | object o => cases o <;> simp [equals, equalObjects, Bool.beq_comm]
    | _ => rfl
  | record i shape vs ih =>
    cases b with
    | object o => cases o <;> simp [equals, equalObjects, equalItems_comm ih, Bool.beq_comm]
    | _ => rfl
  | closure i code captures =>
    cases b with
    | object o => cases o <;> simp [equals, equalObjects, Bool.beq_comm]
    | _ => rfl
  | host i cls =>
    cases b with
    | object o => cases o <;> simp [equals, equalObjects, Bool.beq_comm]
    | _ => rfl

theorem looseEquals_comm (a b : Value) : a.looseEquals b = b.looseEquals a := by
  unfold looseEquals
  by_cases hkind : a.kind = b.kind
  · rw [if_pos hkind, if_pos hkind.symm, equals_comm]
  · rw [if_neg hkind, if_neg (Ne.symm hkind)]
    cases a with
    | bool x =>
      cases b with
      | bool y => exact absurd rfl hkind
      | _ => rfl
    | _ => cases b <;> rfl

theorem equalItems_self (vs : List Value) : equalItems vs vs = vs.all fun v => v.equals v := by
  induction vs with
  | nil => rfl
  | cons v vs ih => rw [equalItems, ih, List.all_cons]

theorem equalEntries_self (es : Entries) :
    equalEntries es es = es.all fun e => e.1.equals e.1 && e.2.equals e.2 := by
  induction es with
  | nil => rfl
  | cons e es ih => rw [equalEntries, ih, List.all_cons]

/-- A value differs from itself exactly if a NaN is reached in it. -/
theorem equals_self_eq_false (v : Value) : v.equals v = false ↔ v.HasNaN := by
  induction v using Value.induction with
  | num n =>
    rw [equals, Number.equals_self, Bool.not_eq_false']
    exact ⟨.num, fun h => by cases h; assumption⟩
  | list vs ih =>
    rw [equals, equalItems_self, List.all_eq_false]
    constructor
    · rintro ⟨v, hv, hne⟩
      exact .item hv ((ih v hv).1 (by simpa using hne))
    · rintro (_ | ⟨hv, h⟩)
      exact ⟨_, hv, by simp [(ih _ hv).2 h]⟩
  | map es ih =>
    rw [equals, equalEntries_self, List.all_eq_false]
    constructor
    · rintro ⟨e, he, hne⟩
      rw [Bool.and_eq_true, not_and_or, Bool.not_eq_true, Bool.not_eq_true] at hne
      exact hne.elim (fun h => .key he ((ih e he).1.1 h)) fun h => .value he ((ih e he).2.1 h)
    · rintro (_ | _ | ⟨he, h⟩ | ⟨he, h⟩)
      · exact ⟨_, he, by simp [(ih _ he).1.2 h]⟩
      · exact ⟨_, he, by simp [(ih _ he).2.2 h]⟩
  | none | bool | str | error | range | record | closure | host =>
    simp only [equals, equalObjects, BEq.rfl, Bool.and_self, Bool.true_or, Bool.true_eq_false, false_iff]
    intro h
    cases h

theorem looseEquals_self (v : Value) : v.looseEquals v = v.equals v := if_pos rfl

instance (v : Value) : Decidable v.HasNaN := decidable_of_iff _ (equals_self_eq_false v)

/-- Both equalities are symmetric, and the values that differ from themselves are those in which a NaN
is reached. -/
theorem equality_laws : (∀ a b : Value, (a.equals b = true ↔ b.equals a = true) ∧
      (a.looseEquals b = true ↔ b.looseEquals a = true)) ∧
    ∀ a : Value, (a.equals a = false ↔ a.HasNaN) ∧ (a.looseEquals a = false ↔ a.HasNaN) := by
  refine ⟨fun a b => ⟨?_, ?_⟩, fun a => ⟨equals_self_eq_false a, ?_⟩⟩
  · rw [equals_comm]
  · rw [looseEquals_comm]
  · rw [looseEquals_self, equals_self_eq_false]

/-- A NaN in a list in a map tells the map from itself, one in the fields of a record does not. -/
example :
    let nan : Value := .num (.float .invalid)
    let shape : RecordShape := ⟨⟨0, 0⟩, "Point", [("x", .any)]⟩
    HasNaN (.map [(.str "k", .list [nan])]) ∧ ¬HasNaN (.list [.object (.record 0 shape [nan])]) := by
  decide +kernel

end Value

end ScriptMachine
