import ScriptMachine.Compiler.Source
import ScriptMachine.Machine.Invoke
import ScriptMachine.Proofs.Value.Entries
import ScriptMachine.Proofs.Value.Records
import Mathlib.Data.List.NodupEquivFin

set_option autoImplicit false

/-!
# Reading fields back

A map that is added to a record sets the first field of each name that it has for a key. The last field of a
name is the one that is read, and the one whose value the method `fields` gives. Main statement:
`fields_read_back` says what is read from the sum of a record and a map: what was set, for each name that
only one field has, and what was there before, for a name that several fields have.
-/
namespace ScriptMachine

theorem find?_reverse {α : Type} {p : α → Bool} {l : List α} {i : Nat} {a : α} (ha : l[i]? = some a)
    (hp : p a = true) (hlast : ∀ j > i, ∀ b, l[j]? = some b → p b = false) :
    l.reverse.find? p = some a := by
  induction l generalizing i with
  | nil => cases ha
  | cons b l ih =>
    rw [List.reverse_cons, List.find?_append]
    cases i with
    | zero =>
      cases ha
      have hnone : l.reverse.find? p = none := by
        rw [List.find?_eq_none]
        intro c hc
        obtain ⟨j, hj⟩ := List.mem_iff_getElem?.1 (List.mem_reverse.1 hc)
        simp [hlast (j + 1) (Nat.succ_pos j) c hj]
      simp [hnone, hp]
    | succ i =>
      rw [ih ha fun j hj c hc => hlast (j + 1) (Nat.succ_lt_succ hj) c hc, Option.some_or]

namespace Entries

variable {pairs : List (Text × Value)} {m : Entries}

def ofTexts (pairs : List (Text × Value)) : Entries := pairs.map fun p => (.str p.1, p.2)

theorem texts_equivalence :
    Equivalence fun a b : Set.range Value.str => a.1.equals b.1 = true where
  refl := by
    rintro ⟨_, a, rfl⟩
    exact beq_self_eq_true a
  symm := by
    rintro ⟨_, a, rfl⟩ ⟨_, b, rfl⟩ h
    exact (Value.equals_comm _ _).trans h
  trans := by
    rintro ⟨_, a, rfl⟩ ⟨_, b, rfl⟩ ⟨_, c, rfl⟩ hab hbc
    exact beq_iff_eq.2 ((beq_iff_eq.1 hab).trans (beq_iff_eq.1 hbc))

theorem find?_insertAll_texts (hm : Keyed (Set.range Value.str) m) (name : Text) :
    find? (.str name) (insertAll m (ofTexts pairs)) =
      ((pairs.reverse.find? fun p => p.1 == name).map Prod.snd).or (find? (.str name) m) := by
  induction pairs generalizing m with
  | nil => rfl
  | cons p pairs ih =>
    have hkey := keyed_insert p.2 hm (Set.mem_range_self p.1)
    refine (ih hkey).trans ?_
    rw [find?_insert texts_equivalence hm (Set.mem_range_self p.1) (Set.mem_range_self name),
      List.reverse_cons, List.find?_append]
    cases pairs.reverse.find? fun p => p.1 == name with
    | some q => rfl
    | none =>
      change (if (p.1 == name) = true then _ else _) = _
      cases hp : p.1 == name <;> simp [hp]

theorem find?_ofPairs_texts (name : Text) :
    find? (.str name) (ofPairs (ofTexts pairs)) =
      (pairs.reverse.find? fun p => p.1 == name).map Prod.snd := by
  have hempty : Keyed (Set.range Value.str) [] := fun k hk => nomatch hk
  rw [ofPairs, find?_insertAll_texts hempty]
  exact Option.or_none

theorem keys_insertAll_sublist (a b : Entries) :
    ∃ ks, keys (insertAll a b) = keys a ++ ks ∧ ks.Sublist (keys b) := by
  induction b generalizing a with
  | nil => exact ⟨[], (List.append_nil _).symm, List.Sublist.refl []⟩
  | cons e b ih =>
    obtain ⟨ks, hks, hsub⟩ := ih (insert e.1 e.2 a)
    rw [keys_insert] at hks
    split at hks
    · exact ⟨ks, hks, hsub.cons e.1⟩
    · exact ⟨e.1 :: ks, hks.trans (List.append_assoc ..), hsub.cons_cons e.1⟩

end Entries

namespace RecordType

variable {t : RecordType} {values values' : List Value} {m : Entries} {name : Text} {i : Nat} {v : Value}

/-- The names of the fields in their order. -/
def names (t : RecordType) : List Text := t.fields.map Field.name

/-- What a field holds after a map has been added: the map's value of that name, or else the value before. -/
def updated (m : Entries) (name : Text) (v : Value) : Value := (Entries.find? (.str name) m).getD v

@[simp] theorem length_names : t.names.length = t.fields.length := List.length_map ..

theorem shape_names (t : RecordType) : t.shape.fields.map Prod.fst = t.names := by
  simp [shape, names]

theorem fieldIndex_eq_some : t.shape.fieldIndex name = some i ↔
    t.names[i]? = some name ∧ ∀ j < i, t.names[j]? ≠ some name := by
  have hnames : ∀ j : Nat, t.names[j]? = t.shape.fields[j]?.map Prod.fst := by
    intro j
    rw [← shape_names, List.getElem?_map]
  rw [RecordShape.fieldIndex, List.findIdx?_eq_some_iff_getElem]
  simp only [hnames, Option.map_eq_some_iff, beq_iff_eq, List.getElem?_eq_some_iff]
  grind

/-- A map sets the first field of each of its names and no other field. -/
theorem Assigned.getElem? (h : t.Assigned m values values') (hm : Entries.Distinct m)
    (hname : t.names[i]? = some name) (hv : values[i]? = some v) :
    values'[i]? = some (if t.shape.fieldIndex name = some i then updated m name v else v) := by
  induction h generalizing v with
  | done =>
    rw [hv]
    exact congrArg some (ite_self _).symm
  | @set name' w m values values' j f hj _ _ _ ih =>
    obtain ⟨hkey, hrest⟩ := List.pairwise_cons.1 hm
    have hj' := (fieldIndex_eq_some.1 hj).1
    by_cases hplace : j = i
    · subst j
      cases hname.symm.trans hj'
      have habsent : Entries.find? (.str name) m = none :=
        Entries.find?_eq_none_iff.2 (Entries.contains_eq_false_iff.2 fun k hk =>
          (Value.equals_comm k _).trans (hkey k hk))
      have hset : (values.set i w)[i]? = some w := by
        obtain ⟨hlt, -⟩ := List.getElem?_eq_some_iff.1 hv
        rw [List.getElem?_set_self hlt]
      rw [ih hrest hset]
      simp [updated, habsent, hj, Entries.find?, Value.equals]
    · have hset : (values.set j w)[i]? = some v := by rw [List.getElem?_set_ne hplace, hv]
      rw [ih hrest hset]
      by_cases hfirst : t.shape.fieldIndex name = some i
      · -- Otherwise the first field of the name would stand at both places.
        have hne : name' ≠ name := by
          rintro rfl
          exact hplace (Option.some.inj (hj.symm.trans hfirst))
        simp [updated, Entries.find?, Value.equals, hne]
      · simp [hfirst]

def IsLast (t : RecordType) (name : Text) (i : Nat) : Prop :=
  t.names[i]? = some name ∧ ∀ j > i, t.names[j]? ≠ some name

theorem exists_isLast (hname : name ∈ t.names) : ∃ i, t.IsLast name i := by
  unfold IsLast
  generalize t.names = names at hname ⊢
  induction names with
  | nil => cases hname
  | cons first names ih =>
    by_cases hlater : name ∈ names
    · obtain ⟨i, hi, hlast⟩ := ih hlater
      refine ⟨i + 1, hi, fun j hj => ?_⟩
      obtain ⟨j, rfl⟩ := Nat.exists_eq_succ_of_ne_zero (Nat.ne_zero_of_lt hj)
      exact hlast j (Nat.lt_of_succ_lt_succ hj)
    · obtain rfl := (List.mem_cons.1 hname).resolve_right hlater
      refine ⟨0, rfl, fun j hj hsame => ?_⟩
      obtain ⟨j, rfl⟩ := Nat.exists_eq_succ_of_ne_zero hj.ne'
      exact hlater (List.mem_of_getElem? hsame)

theorem IsLast.fieldIndex_eq_some_iff (h : t.IsLast name i) :
    t.shape.fieldIndex name = some i ↔ ¬List.Duplicate name t.names := by
  rw [fieldIndex_eq_some, List.duplicate_iff_exists_distinct_get]
  constructor
  · rintro ⟨-, hfirst⟩ ⟨⟨j, hj⟩, ⟨k, hk⟩, hjk, hnj, hnk⟩
    have hplaces : t.names[j]? = some name ∧ t.names[k]? = some name :=
      ⟨List.getElem?_eq_some_iff.2 ⟨hj, hnj.symm⟩, List.getElem?_eq_some_iff.2 ⟨hk, hnk.symm⟩⟩
    have hji : i ≤ j := Nat.not_lt.1 fun hlt => hfirst j hlt hplaces.1
    exact h.2 k (Nat.lt_of_le_of_lt hji hjk) hplaces.2
  · refine fun honce => ⟨h.1, fun j hj hsame => honce ?_⟩
    obtain ⟨hj', hnj⟩ := List.getElem?_eq_some_iff.1 hsame
    obtain ⟨hi', hni⟩ := List.getElem?_eq_some_iff.1 h.1
    exact ⟨⟨j, hj'⟩, ⟨i, hi'⟩, hj, hnj.symm, hni.symm⟩

theorem IsLast.attribute? (h : t.IsLast name i) (hv : values[i]? = some v) (hfields : name ≠ "fields") :
    t.shape.attribute? values name = some (.member fun _ => .ok v) := by
  obtain ⟨f, hf, hname⟩ : ∃ f, t.shape.fields[i]? = some f ∧ f.1 = name := by
    rw [← Option.map_eq_some_iff, ← List.getElem?_map, shape_names]
    exact h.1
  have hfind : (t.shape.fields.zip values).reverse.find? (fun p => p.1.1 == name) = some (f, v) := by
    refine find?_reverse (List.getElem?_zip_eq_some.2 ⟨hf, hv⟩) (beq_iff_eq.2 hname) ?_
    rintro j hj ⟨g, w⟩ hgw
    rw [beq_eq_false_iff_ne]
    rintro rfl
    obtain ⟨hg, -⟩ := List.getElem?_zip_eq_some.1 hgw
    apply h.2 j hj
    rw [← shape_names, List.getElem?_map, hg, Option.map_some]
  rw [RecordShape.attribute?, if_neg (by simp [hfields]), hfind]

theorem fieldMap_eq : t.shape.fieldMap values = Entries.ofPairs (Entries.ofTexts (t.names.zip values)) := by
  rw [Entries.ofTexts, ← shape_names, List.zip_map_left, List.map_map]
  rfl

theorem IsLast.find?_fieldMap (h : t.IsLast name i) (hv : values[i]? = some v) :
    Entries.find? (.str name) (t.shape.fieldMap values) = some v := by
  have hfind : (t.names.zip values).reverse.find? (fun p => p.1 == name) = some (name, v) := by
    refine find?_reverse (List.getElem?_zip_eq_some.2 ⟨h.1, hv⟩) (beq_self_eq_true name) ?_
    rintro j hj ⟨other, w⟩ hpair
    rw [beq_eq_false_iff_ne]
    rintro rfl
    exact h.2 j hj (List.getElem?_zip_eq_some.1 hpair).1
  rw [fieldMap_eq, Entries.find?_ofPairs_texts, hfind]
  rfl

theorem keys_fieldMap (hlength : values.length = t.fields.length) :
    (Entries.keys (t.shape.fieldMap values)).Sublist (t.names.map Value.str) := by
  obtain ⟨ks, hks, hsub⟩ := Entries.keys_insertAll_sublist [] (Entries.ofTexts (t.names.zip values))
  have hnames : Entries.keys (Entries.ofTexts (t.names.zip values)) = t.names.map Value.str := by
    have hle : t.names.length ≤ values.length := by simp [hlength]
    rw [Entries.keys, Entries.ofTexts, List.map_map]
    change (t.names.zip values).map (Value.str ∘ Prod.fst) = _
    rw [← List.map_map, List.map_fst_zip hle]
  rw [fieldMap_eq, Entries.ofPairs, hks, ← hnames]
  exact hsub

theorem Made.assigned {id : Nat} {o w : Value} (ho : t.Made o)
    (hw : BinaryOp.add.apply id o (.map m) = .ok w ∨ BinaryOp.add.apply id (.map m) o = .ok w) :
    ∃ own values values', o = .object (.record own t.shape values) ∧
      w = .object (.record id t.shape values') ∧ t.Assigned m values values' ∧
      values.length = t.fields.length ∧ values'.length = t.fields.length := by
  obtain ⟨own, values, rfl, hvalues⟩ := ho.forall₂ (P := fun _ _ => True) (fun _ _ _ => trivial)
    fun _ _ _ _ => trivial
  obtain ⟨hright, hleft⟩ := t.add_decides id own m values
  obtain ⟨values', hassigned, rfl⟩ : t.Merged id m values w := hw.elim hright.of_ok hleft.of_ok
  have hvalues' := hassigned.forall₂ (fun _ _ _ => trivial) hvalues
  exact ⟨own, values, values', rfl, rfl, hassigned, hvalues.length_eq.symm, hvalues'.length_eq.symm⟩

/-- In a script the name after a dot, without arguments, gives this value of the object. -/
def Shows (o : Object) (name : Text) (v : Value) : Prop :=
  ∀ (s : Setup) (variableName : Option Text) (out : Register),
    Exec.callMethod s name (.object o) variableName [] out = Exec.writeRegister s out v

/-- The object has a member of the name with this value, for the host and for a script. -/
structure Reads (o : Object) (name : Text) (v : Value) : Prop where
  host : o.getMember name = .ok v
  script : Shows o name v

theorem IsLast.reads {id : Nat} (h : t.IsLast name i) (hv : values[i]? = some v)
    (hfields : name ≠ "fields") : Reads (.record id t.shape values) name v := by
  have hmember := h.attribute? hv hfields
  have hhost : ObjectOf.getMember (.record id t.shape values) name = .ok v := by
    rw [ObjectOf.getMember, ObjectOf.attribute?, hmember]
  refine ⟨hhost, fun s variableName out => ?_⟩
  have hget : Exec.objectAttribute (.object (.record id t.shape values)) name [] = pure (some v) := by
    simp [Exec.objectAttribute, ObjectOf.hasMethod, ObjectOf.hasMember, ObjectOf.attribute?, hmember, hhost,
      Attribute.isMethod, Attribute.isMember, Exec.lift]
  simp [Exec.callMethod, Exec.isClosure, hget]

theorem shows_fields {id : Nat} :
    Shows (.record id t.shape values) "fields" (.map (t.shape.fieldMap values)) := by
  intro s variableName out
  have hget : Exec.objectAttribute (.object (.record id t.shape values)) "fields" [] =
      pure (some (.map (t.shape.fieldMap values))) := by
    simp [Exec.objectAttribute, ObjectOf.hasMethod, ObjectOf.callMethod, ObjectOf.attribute?,
      RecordShape.attribute?, Attribute.isMethod, Exec.lift]
  simp [Exec.callMethod, Exec.isClosure, hget]

/-- What is read from the record `after` when `m` has been added to the record `before`. -/
structure ReadsBack (t : RecordType) (m : Entries) (before after : Object) : Prop where
  /-- The one field of a name holds the map's value, or else what it held. -/
  single : ∀ name ∈ t.names, ¬List.Duplicate name t.names → name ≠ "fields" →
    ∃ v, Reads before name v ∧ Reads after name (updated m name v)
  /-- Of several fields of one name the last one is read, and it is not the one that was set. -/
  repeated : ∀ name, List.Duplicate name t.names → name ≠ "fields" →
    ∃ v, Reads before name v ∧ Reads after name v
  /-- The method gives a map of the names, in their order, to what is read. -/
  fields : ∃ es, after.callMethod "fields" [] = .ok (.map es) ∧ Shows after "fields" (.map es) ∧
    Entries.Distinct es ∧ (Entries.keys es).Sublist (t.names.map Value.str) ∧
    ∀ name ∈ t.names, ∃ v, Entries.find? (.str name) es = some v ∧
      (name ≠ "fields" → Reads after name v)

theorem Assigned.readsBack {own id : Nat} (h : t.Assigned m values values') (hm : Entries.Distinct m)
    (hbefore : values.length = t.fields.length) (hafter : values'.length = t.fields.length) :
    t.ReadsBack m (.record own t.shape values) (.record id t.shape values') := by
  have hlast : ∀ name ∈ t.names, ∃ (i : Nat) (v : Value), t.IsLast name i ∧ values[i]? = some v ∧
      values'[i]? = some (if t.shape.fieldIndex name = some i then updated m name v else v) := by
    intro name hname
    obtain ⟨i, hi⟩ := exists_isLast hname
    obtain ⟨hlt, -⟩ := List.getElem?_eq_some_iff.1 hi.1
    have hv := List.getElem?_eq_getElem (show i < values.length by rwa [hbefore, ← length_names])
    exact ⟨i, _, hi, hv, h.getElem? hm hi.1 hv⟩
  constructor
  case single =>
    intro name hname honce hfields
    obtain ⟨i, v, hi, hv, hv'⟩ := hlast name hname
    rw [if_pos (hi.fieldIndex_eq_some_iff.2 honce)] at hv'
    exact ⟨v, hi.reads hv hfields, hi.reads hv' hfields⟩
  case repeated =>
    intro name htwice hfields
    obtain ⟨i, v, hi, hv, hv'⟩ := hlast name htwice.mem
    rw [if_neg fun hfirst => hi.fieldIndex_eq_some_iff.1 hfirst htwice] at hv'
    exact ⟨v, hi.reads hv hfields, hi.reads hv' hfields⟩
  case fields =>
    refine ⟨_, rfl, shows_fields, ?_, keys_fieldMap hafter, fun name hname => ?_⟩
    · exact Entries.distinct_insertAll _ List.Pairwise.nil
    · obtain ⟨i, v, hi, -, hv'⟩ := hlast name hname
      exact ⟨_, hi.find?_fieldMap hv', fun hfields => hi.reads hv' hfields⟩

end RecordType

/-- Adding a map to a record, on either side, changes what is read under the names that one field has: what
the map sets is read back, and the rest stays. Of a name that several fields have the map sets the first
field, while the last one goes on being read. The method `fields` gives what is read. -/
theorem fields_read_back {t : RecordType} {id : Nat} {o w : Value} {m : Entries} (ho : t.Made o)
    (hm : Entries.Distinct m)
    (hw : BinaryOp.add.apply id o (.map m) = .ok w ∨ BinaryOp.add.apply id (.map m) o = .ok w) :
    ∃ before after, o = .object before ∧ w = .object after ∧ t.ReadsBack m before after := by
  obtain ⟨own, values, values', rfl, rfl, hassigned, hbefore, hafter⟩ := ho.assigned hw
  exact ⟨_, _, rfl, rfl, hassigned.readsBack hm hbefore hafter⟩

/-- Setting one of two fields. -/
theorem fields_read_back_point :
    let t : RecordType := ⟨⟨0, 0⟩, "Point", [⟨"x", .any, none⟩, ⟨"y", .any, none⟩]⟩
    let o (x : Value) : Value := .object (.record 0 t.shape [x, .int 2])
    let m : Entries := [(.str "x", .int 5)]
    t.Made (o (.int 1)) ∧ Entries.Distinct m ∧
      BinaryOp.add.apply 0 (o (.int 1)) (.map m) = .ok (o (.int 5)) ∧
      ∃ before after, o (.int 1) = .object before ∧ o (.int 5) = .object after ∧
        t.ReadsBack m before after := by
  intro t o m
  have hmade : t.Made (o (.int 1)) := .new (show t.construct 0 [.int 1, .int 2] = _ from rfl)
  exact ⟨hmade, by decide, rfl, fields_read_back hmade (by decide) (.inl rfl)⟩

/-- Two fields of one name. -/
def twinFieldsSource : Text := "object P\n  attr x\n  attr x\nend"

def twinFields : RecordType := ⟨⟨0, 0⟩, "P", [⟨"x", .any, none⟩, ⟨"x", .any, none⟩]⟩

theorem eq_twinFields {t : RecordType} (hshape : t.shape = twinFields.shape)
    (hdefault : ∀ f ∈ t.fields, f.default = none) : t = twinFields := by
  obtain ⟨id, name, fields⟩ := t
  simp only [RecordType.shape, twinFields, RecordShape.mk.injEq, List.map_cons, List.map_nil,
    List.map_eq_cons_iff, List.map_eq_nil_iff] at hshape
  obtain ⟨rfl, rfl, ⟨x, type, default⟩, _, rfl, hx, ⟨x', type', default'⟩, _, rfl, hx', rfl⟩ :=
    hshape
  obtain ⟨rfl, rfl, -⟩ : default = none ∧ default' = none ∧ True := by simpa using hdefault
  cases hx
  cases hx'
  rfl

theorem twinFields_unread : ∃ p after, compileSource none 0 twinFieldsSource = .ok p ∧
    p.recordTypes = [twinFields] ∧ twinFields.Made (.object (.record 0 twinFields.shape [.int 1, .int 2])) ∧
    BinaryOp.add.apply 0 (.object (.record 0 twinFields.shape [.int 1, .int 2])) (.map [(.str "x", .int 5)]) =
      .ok (.object after) ∧
    after.getMember "x" = .ok (.int 2) ∧ after.getMember "x" ≠ .ok (.int 5) ∧
    after.callMethod "fields" [] = .ok (.map [(.str "x", .int 2)]) := by
  have hcheck : (match compileSource none 0 twinFieldsSource with
      | .ok p => p.recordTypes.length = 1 && p.recordTypes.all fun t =>
        t.shape = twinFields.shape && t.fields.all fun f => f.default.isNone
      | .error _ => false) = true := by decide +kernel
  cases hc : compileSource none 0 twinFieldsSource with
  | error e => simp [hc] at hcheck
  | ok p =>
    simp only [hc, Bool.and_eq_true, decide_eq_true_iff, List.length_eq_one_iff] at hcheck
    obtain ⟨⟨t, ht⟩, hall⟩ := hcheck
    simp only [ht, List.all_cons, List.all_nil, Bool.and_true, Bool.and_eq_true, decide_eq_true_iff,
      List.all_eq_true, Option.isNone_iff_eq_none] at hall
    rw [eq_twinFields hall.1 hall.2] at ht
    have hmade : twinFields.construct 0 [.int 1, .int 2] =
        .ok (.object (.record 0 twinFields.shape [.int 1, .int 2])) := rfl
    have hread : ObjectOf.getMember (.record 0 twinFields.shape [.int 5, .int 2]) "x" = .ok (.int 2) := rfl
    refine ⟨p, .record 0 twinFields.shape [.int 5, .int 2], rfl, ht, .new hmade, rfl, hread, ?_, rfl⟩
    rw [hread]
    simp [Value.int, Number.ofInt]

end ScriptMachine
