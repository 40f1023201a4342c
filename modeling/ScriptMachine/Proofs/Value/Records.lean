import ScriptMachine.Operator.Binary
import Mathlib.Data.List.Forall2

set_option autoImplicit false

/-!
# The types of the fields of a record

A value that is given to a field must be of the field's type, whether it is given when the record is made or
by a map later on; a default is taken as it is. Main statement: `record_respects_types` says what the fields
of a record can hold after any history, and that whatever cannot be made or added is a type error.
-/
namespace ScriptMachine

/-- What a field can hold: a value of its type or its own default, of whatever type. -/
def Field.Admits (f : Field) (v : Value) : Prop := f.type.matches v = true ∨ f.default = some v

/-- The field's default, if it has one, is of its type. -/
def Field.Sound (f : Field) : Prop := ∀ v, f.default = some v → f.type.matches v = true

/-- The values that fields get from those that are given: these in order, then defaults. -/
inductive RecordType.Filled : List Field → List Value → List Value → Prop where
  | done : Filled [] [] []
  | given {f : Field} {fs : List Field} {v : Value} {args values : List Value} :
      f.type.matches v = true → Filled fs args values → Filled (f :: fs) (v :: args) (v :: values)
  | default {f : Field} {fs : List Field} {v : Value} {values : List Value} :
      f.default = some v → Filled fs [] values → Filled (f :: fs) [] (v :: values)

/-- The values of the fields after those that a map names have been set, one entry after the other. -/
inductive RecordType.Assigned (t : RecordType) : Entries → List Value → List Value → Prop where
  | done (values : List Value) : Assigned t [] values values
  | set {name : Text} {v : Value} {es : Entries} {values values' : List Value} {i : Nat} {f : Field} :
      t.shape.fieldIndex name = some i → t.fields[i]? = some f → f.type.matches v = true →
      Assigned t es (values.set i v) values' → Assigned t ((.str name, v) :: es) values values'

/-- The records of a type: those made from values, and those made from a record by adding a map to it, on
either side. -/
inductive RecordType.Made (t : RecordType) : Value → Prop where
  | new {id : Nat} {args : List Value} {v : Value} : t.construct id args = .ok v → Made t v
  | withFields {id : Nat} {o : Object} {es : Entries} {v : Value} :
      Made t (.object o) → o.withFields id es = .ok (some v) → Made t v
  | addRight {id : Nat} {v w : Value} {es : Entries} :
      Made t v → BinaryOp.add.apply id v (.map es) = .ok w → Made t w
  | addLeft {id : Nat} {v w : Value} {es : Entries} :
      Made t v → BinaryOp.add.apply id (.map es) v = .ok w → Made t w

/-- The result is the one value with the property, or a type error if no value has it. -/
def Decides {α : Type} (r : Except Fault α) (P : α → Prop) : Prop :=
  match r with
  | .ok a => ∀ b, P b ↔ b = a
  | .error e => e.kind = .typeError ∧ ∀ b, ¬P b

namespace Decides

variable {α β : Type} {r : Except Fault α} {f : α → Except Fault β} {P Q : α → Prop}
  {R : α → β → Prop}

theorem congr (h : Decides r P) (hiff : ∀ a, Q a ↔ P a) : Decides r Q := by
  have heq : Q = P := funext fun a => propext (hiff a)
  rwa [heq]

theorem pure (a : α) : Decides (.ok a) (· = a) := fun _ => Iff.rfl

theorem bind (h : Decides r P) (hf : ∀ a, P a → Decides (f a) (R a)) :
    Decides (r >>= f) fun b => ∃ a, P a ∧ R a b := by
  cases r with
  | error e =>
    refine ⟨h.1, ?_⟩
    rintro b ⟨a, ha, -⟩
    exact h.2 a ha
  | ok a =>
    refine (hf a ((h a).2 rfl)).congr fun b => ?_
    constructor
    · rintro ⟨c, hc, hb⟩
      rwa [← (h c).1 hc]
    · exact fun hb => ⟨a, (h a).2 rfl, hb⟩

theorem of_ok {a : α} (h : Decides r P) (hr : r = .ok a) : P a := by
  rw [hr] at h
  exact (h a).2 rfl

end Decides

theorem checkField_decides (typeName field : Text) (type : DeclaredType) (v : Value) :
    Decides (checkField typeName field type v) fun _ => type.matches v = true := by
  unfold checkField
  split
  · rename_i h
    exact fun _ => ⟨fun _ => rfl, fun _ => h⟩
  · rename_i h
    exact ⟨rfl, fun _ => h⟩

theorem forall₂_set {α β : Type} {P : α → β → Prop} {as : List α} {bs : List β} {i : Nat} {a : α}
    {b : β} (h : List.Forall₂ P as bs) (ha : as[i]? = some a) (hb : P a b) : List.Forall₂ P as (bs.set i b) := by
  induction h generalizing i with
  | nil => cases ha
  | cons hab hrest ih =>
    cases i with
    | zero =>
      cases ha
      exact .cons hb hrest
    | succ i => exact .cons hab (ih ha)

namespace RecordType

variable {t : RecordType} {fields : List Field} {args values values' : List Value}
  {P : Field → Value → Prop}

theorem Filled.length_le (h : Filled fields args values) : args.length ≤ fields.length := by
  induction h with
  | done => exact Nat.le_refl _
  | given _ _ ih => exact Nat.succ_le_succ ih
  | default _ _ _ => exact Nat.zero_le _

theorem Filled.forall₂ (h : Filled fields args values) (hmatches : ∀ f v, f.type.matches v = true → P f v)
    (hdefault : ∀ f ∈ fields, ∀ v, f.default = some v → P f v) : List.Forall₂ P fields values := by
  induction h with
  | done => exact .nil
  | given hv _ ih => exact .cons (hmatches _ _ hv) (ih (List.forall_mem_cons.1 hdefault).2)
  | default hv _ ih =>
    obtain ⟨hf, hfields⟩ := List.forall_mem_cons.1 hdefault
    exact .cons (hf _ hv) (ih hfields)

theorem fill_decides (name : Text) (h : args.length ≤ fields.length) :
    Decides (fill name fields args) (Filled fields args) := by
  induction fields generalizing args with
  | nil =>
    rw [List.eq_nil_of_length_eq_zero (Nat.le_zero.1 h)]
    refine (Decides.pure []).congr fun values => ⟨?_, ?_⟩
    · rintro ⟨⟩
      rfl
    · rintro rfl
      exact .done
  | cons f fields ih =>
    cases args with
    | cons v args =>
      refine ((checkField_decides name f.name f.type v).bind fun _ _ =>
        (ih (Nat.le_of_succ_le_succ h)).bind fun values _ => .pure (v :: values)).congr fun values => ?_
      constructor
      · intro hfilled
        cases hfilled with
        | given hv hvalues => exact ⟨⟨⟩, hv, _, hvalues, rfl⟩
      · rintro ⟨-, hv, _, hvalues, rfl⟩
        exact .given hv hvalues
    | nil =>
      unfold fill
      cases hd : f.default with
      | none =>
        refine ⟨rfl, fun values hfilled => ?_⟩
        cases hfilled with
        | default hv _ => cases hd.symm.trans hv
      | some v =>
        refine ((ih (Nat.zero_le _)).bind fun values _ => .pure (v :: values)).congr fun values => ?_
        constructor
        · intro hfilled
          cases hfilled with
          | default hv hvalues =>
            cases hd.symm.trans hv
            exact ⟨_, hvalues, rfl⟩
        · rintro ⟨_, hvalues, rfl⟩
          exact .default hd hvalues

theorem construct_decides (t : RecordType) (id : Nat) (args : List Value) :
    Decides (t.construct id args) fun v =>
      ∃ values, Filled t.fields args values ∧ v = .object (.record id t.shape values) := by
  unfold construct
  split
  · rename_i hlong
    refine ⟨rfl, ?_⟩
    rintro v ⟨values, hvalues, -⟩
    exact Nat.not_le.2 hlong hvalues.length_le
  · rename_i hshort
    exact (fill_decides t.name (Nat.not_lt.1 hshort)).bind fun values _ => .pure _

theorem Assigned.forall₂ {es : Entries} (h : t.Assigned es values values')
    (hmatches : ∀ f v, f.type.matches v = true → P f v) (hvalues : List.Forall₂ P t.fields values) :
    List.Forall₂ P t.fields values' := by
  induction h with
  | done => exact hvalues
  | set _ hf hv _ ih => exact ih (forall₂_set hvalues hf (hmatches _ _ hv))

theorem assigned_cons_iff {name : Text} {v : Value} {es : Entries} :
    t.Assigned ((.str name, v) :: es) values values' ↔
      ∃ i f, t.shape.fieldIndex name = some i ∧ t.fields[i]? = some f ∧ f.type.matches v = true ∧
        t.Assigned es (values.set i v) values' := by
  constructor
  · intro h
    cases h with
    | set hi hf hv hrest => exact ⟨_, _, hi, hf, hv, hrest⟩
  · rintro ⟨i, f, hi, hf, hv, hrest⟩
    exact .set hi hf hv hrest

theorem assign_decides (t : RecordType) (es : Entries) (values : List Value) :
    Decides (t.shape.assign es values) (t.Assigned es values) := by
  induction es generalizing values with
  | nil =>
    refine (Decides.pure values).congr fun values' => ⟨?_, ?_⟩
    · rintro ⟨⟩
      rfl
    · rintro rfl
      exact .done _
  | cons e es ih =>
    obtain ⟨k, v⟩ := e
    cases k with
    | str name =>
      cases hi : t.shape.fieldIndex name with
      | none =>
        simp only [RecordShape.assign, hi]
        exact ⟨rfl, fun values' h => by simp [assigned_cons_iff, hi] at h⟩
      | some i =>
        have hshape : t.shape.fields[i]? = t.fields[i]?.map fun f => (f.name, f.type) := List.getElem?_map ..
        cases hf : t.fields[i]? with
        | none =>
          simp only [RecordShape.assign, hi, hshape, hf, Option.map_none]
          exact ⟨rfl, fun values' h => by simp [assigned_cons_iff, hi, hf] at h⟩
        | some f =>
          simp only [RecordShape.assign, hi, hshape, hf, Option.map_some]
          exact ((checkField_decides t.shape.label f.name f.type v).bind fun _ _ =>
            ih (values.set i v)).congr fun values' => by simp [assigned_cons_iff, hi, hf]
    | _ => exact ⟨rfl, fun values' h => by cases h⟩

/-- The records that adding a map to a record can give. -/
def Merged (t : RecordType) (id : Nat) (es : Entries) (values : List Value) (v : Value) : Prop :=
  ∃ values', t.Assigned es values values' ∧ v = .object (.record id t.shape values')

theorem withFields_decides (t : RecordType) (id own : Nat) (es : Entries) (values : List Value) :
    Decides (ObjectOf.withFields id es (.record own t.shape values)) fun r =>
      ∃ v, t.Merged id es values v ∧ r = some v := by
  refine ((t.assign_decides es values).bind fun values' _ => .pure _).congr fun r => ?_
  constructor
  · rintro ⟨_, ⟨values', hvalues', rfl⟩, rfl⟩
    exact ⟨values', hvalues', rfl⟩
  · rintro ⟨values', hvalues', rfl⟩
    exact ⟨_, ⟨values', hvalues', rfl⟩, rfl⟩

theorem promote_decides (t : RecordType) (id own : Nat) (es : Entries) (values : List Value) (a b : Value) :
    Decides (Coercion.promote id (.record own t.shape values) es a b) (t.Merged id es values) := by
  refine ((t.withFields_decides id own es values).bind (R := fun r v => r = some v) fun r hr => ?_).congr
    fun v => ?_
  · obtain ⟨v, -, rfl⟩ := hr
    exact (Decides.pure v).congr fun w => by simp [eq_comm]
  · constructor
    · exact fun h => ⟨some v, ⟨v, h, rfl⟩, rfl⟩
    · rintro ⟨_, ⟨w, hw, rfl⟩, heq⟩
      cases heq
      exact hw

theorem add_decides (t : RecordType) (id own : Nat) (es : Entries) (values : List Value) :
    Decides (BinaryOp.add.apply id (.object (.record own t.shape values)) (.map es))
        (t.Merged id es values) ∧
      Decides (BinaryOp.add.apply id (.map es) (.object (.record own t.shape values)))
        (t.Merged id es values) :=
  ⟨t.promote_decides id own es values _ _, t.promote_decides id own es values _ _⟩

/-- What holds of the values of a field's type and of its default holds of every value that it gets. -/
theorem Made.forall₂ {v : Value} (h : t.Made v) (hmatches : ∀ f v, f.type.matches v = true → P f v)
    (hdefault : ∀ f ∈ t.fields, ∀ v, f.default = some v → P f v) :
    ∃ id values, v = .object (.record id t.shape values) ∧ List.Forall₂ P t.fields values := by
  have hmerged {id : Nat} {es : Entries} {values : List Value} {w : Value}
      (hvalues : List.Forall₂ P t.fields values) (hw : t.Merged id es values w) :
      ∃ id values, w = .object (.record id t.shape values) ∧ List.Forall₂ P t.fields values := by
    obtain ⟨values', hvalues', rfl⟩ := hw
    exact ⟨id, values', rfl, hvalues'.forall₂ hmatches hvalues⟩
  induction h with
  | @new id args v hv =>
    obtain ⟨values, hvalues, rfl⟩ := (t.construct_decides id args).of_ok hv
    exact ⟨id, values, rfl, hvalues.forall₂ hmatches hdefault⟩
  | @withFields id o es v _ hv ih =>
    obtain ⟨own, values, heq, hvalues⟩ := ih
    cases heq
    obtain ⟨_, hw, heq⟩ := (t.withFields_decides id own es values).of_ok hv
    cases heq
    exact hmerged hvalues hw
  | @addRight id v w es _ hw ih =>
    obtain ⟨own, values, rfl, hvalues⟩ := ih
    exact hmerged hvalues ((t.add_decides id own es values).1.of_ok hw)
  | @addLeft id v w es _ hw ih =>
    obtain ⟨own, values, rfl, hvalues⟩ := ih
    exact hmerged hvalues ((t.add_decides id own es values).2.of_ok hw)

theorem Filled.all_given (h : Filled fields args values) (hall : args.length = fields.length) :
    List.Forall₂ (fun f v => f.type.matches v = true) fields values := by
  induction h with
  | done => exact .nil
  | given hv _ ih => exact .cons hv (ih (Nat.succ.inj hall))
  | default _ _ _ => cases hall

/-- Every value is of the type of its field. -/
def Typed (t : RecordType) (values : List Value) : Prop :=
  List.Forall₂ (fun f v => f.type.matches v = true) t.fields values

/-- What the types of its fields mean for the records of a type. -/
structure Respects (t : RecordType) : Prop where
  made : ∀ v, t.Made v →
    ∃ id values, v = .object (.record id t.shape values) ∧ List.Forall₂ Field.Admits t.fields values
  sound : (∀ f ∈ t.fields, f.Sound) → ∀ v, t.Made v →
    ∃ id values, v = .object (.record id t.shape values) ∧ t.Typed values
  constructed : ∀ id args, Decides (t.construct id args) fun v =>
    ∃ values, Filled t.fields args values ∧ v = .object (.record id t.shape values)
  given : ∀ args values, Filled t.fields args values → args.length = t.fields.length → t.Typed values
  merged : ∀ id own es values,
    Decides (ObjectOf.withFields id es (.record own t.shape values))
        (fun r => ∃ v, t.Merged id es values v ∧ r = some v) ∧
      Decides (BinaryOp.add.apply id (.object (.record own t.shape values)) (.map es))
        (t.Merged id es values) ∧
      Decides (BinaryOp.add.apply id (.map es) (.object (.record own t.shape values)))
        (t.Merged id es values)
  kept : ∀ es values values', t.Typed values → t.Assigned es values values' → t.Typed values'

end RecordType

/-- Whatever a record goes through, each of its fields holds a value of the field's type or the field's own
default; so it is only by a default of another type, filled in for a value that was not given, that a field
can get a value of another type. A record that cannot be made and a map that cannot be added are type
errors. -/
theorem record_respects_types (t : RecordType) : t.Respects where
  made := fun _ hv => hv.forall₂ (fun _ _ => .inl) fun _ _ _ => .inr
  sound := fun hsound _ hv => hv.forall₂ (fun _ _ => id) hsound
  constructed := t.construct_decides
  given := fun _ _ hvalues => hvalues.all_given
  merged := fun id own es values => ⟨t.withFields_decides id own es values, t.add_decides id own es values⟩
  kept := fun _ _ _ hvalues hassigned => hassigned.forall₂ (fun _ _ => id) hvalues

/-- A number with a text for its default. -/
def mistypedRecord : RecordType := ⟨⟨0, 0⟩, "P", [⟨"x", .number, some (.str "s")⟩]⟩

theorem mistypedRecord_untyped : ∃ v, mistypedRecord.construct 0 [] = .ok v ∧ mistypedRecord.Made v ∧
    ¬∃ id values, v = .object (.record id mistypedRecord.shape values) ∧ mistypedRecord.Typed values := by
  have hmade : mistypedRecord.construct 0 [] = .ok (.object (.record 0 mistypedRecord.shape [.str "s"])) := rfl
  refine ⟨_, hmade, .new hmade, ?_⟩
  rintro ⟨id, values, heq, htyped⟩
  cases heq
  cases htyped with
  | cons hx _ => cases hx

end ScriptMachine
