import ScriptMachine.Proofs.Value.Renaming
import ScriptMachine.Machine.Comprehension

set_option autoImplicit false

namespace ScriptMachine

namespace Renaming

variable {ρ : Renaming}

def result {α β : Type} (ρ : Renaming) (g : α → β) : Except Fault α → Except Fault β
  | .ok a => .ok (g a)
  | .error e => .error (ρ.fault e)

section

variable {α β γ δ : Type} {g : α → β} {k : γ → δ}

@[simp] theorem result_ok (a : α) : ρ.result g (.ok a) = .ok (g a) := rfl

@[simp] theorem result_pure (a : α) : ρ.result g (pure a) = pure (g a) := rfl

@[simp] theorem result_error (e : Fault) : ρ.result g (.error e) = .error (ρ.fault e) := rfl

theorem result_bind {x : Except Fault α} {x' : Except Fault β} {f : α → Except Fault γ}
    {f' : β → Except Fault δ} (hx : x' = ρ.result g x) (hf : ∀ a, f' (g a) = ρ.result k (f a)) :
    x' >>= f' = ρ.result k (x >>= f) := by
  subst hx
  cases x with
  | ok a => exact hf a
  | error e => rfl

theorem result_ite {c : Prop} [Decidable c] {x y : Except Fault α} :
    ρ.result g (if c then x else y) = if c then ρ.result g x else ρ.result g y := by
  split <;> rfl

end

@[simp] theorem find?_entries (k : Value) (es : Entries) :
    Entries.find? (ρ.value k) (es.map ρ.entry) = (Entries.find? k es).map ρ.value := by
  induction es with
  | nil => rfl
  | cons e es ih =>
    obtain ⟨j, v⟩ := e
    simp only [List.map_cons, entry_mk, Entries.find?, equals_value]
    split
    · rfl
    · exact ih

@[simp] theorem contains_entries (k : Value) (es : Entries) :
    Entries.contains (ρ.value k) (es.map ρ.entry) = Entries.contains k es := by
  simp [Entries.contains]

@[simp] theorem insert_entries (k v : Value) (es : Entries) :
    Entries.insert (ρ.value k) (ρ.value v) (es.map ρ.entry) =
      (Entries.insert k v es).map ρ.entry := by
  induction es with
  | nil => rfl
  | cons e es ih =>
    obtain ⟨j, w⟩ := e
    simp only [List.map_cons, entry_mk, Entries.insert, equals_value]
    split
    · rfl
    · simp [ih]

@[simp] theorem erase_entries (k : Value) (es : Entries) :
    Entries.erase (ρ.value k) (es.map ρ.entry) = (Entries.erase k es).map ρ.entry := by
  induction es with
  | nil => rfl
  | cons e es ih =>
    obtain ⟨j, w⟩ := e
    simp only [List.map_cons, entry_mk, Entries.erase, equals_value]
    split
    · rfl
    · simp [ih]

@[simp] theorem insertAll_entries (es ps : Entries) :
    Entries.insertAll (es.map ρ.entry) (ps.map ρ.entry) = (Entries.insertAll es ps).map ρ.entry := by
  unfold Entries.insertAll
  induction ps generalizing es with
  | nil => rfl
  | cons p ps ih =>
    obtain ⟨k, v⟩ := p
    simp only [List.map_cons, List.foldl_cons, entry_mk, insert_entries, ih]

@[simp] theorem ofPairs_entries (ps : Entries) :
    Entries.ofPairs (ps.map ρ.entry) = (Entries.ofPairs ps).map ρ.entry :=
  insertAll_entries [] ps

@[simp] theorem eraseAll_entries (es : Entries) (ks : List Value) :
    Entries.eraseAll (es.map ρ.entry) (ks.map ρ.value) = (Entries.eraseAll es ks).map ρ.entry := by
  unfold Entries.eraseAll
  induction ks generalizing es with
  | nil => rfl
  | cons k ks ih => simp only [List.map_cons, List.foldl_cons, erase_entries, ih]

@[simp] theorem insertMissing_entries (es others : Entries) :
    Entries.insertMissing (es.map ρ.entry) (others.map ρ.entry) =
      (Entries.insertMissing es others).map ρ.entry := by
  unfold Entries.insertMissing
  induction others generalizing es with
  | nil => rfl
  | cons p others ih =>
    obtain ⟨k, v⟩ := p
    simp only [List.map_cons, List.foldl_cons, entry_mk, contains_entries, insert_entries]
    split
    · exact ih es
    · exact ih _

section Operators

variable (v w : Value)

@[simp] theorem printed?_value (op : UnaryOp) : op.printed? (ρ.value v) = op.printed? v := by
  cases op <;> simp [UnaryOp.printed?]

theorem apply_unary (op : UnaryOp) : op.apply (ρ.value v) = ρ.result ρ.value (op.apply v) := by
  cases op <;> cases v <;>
    simp [UnaryOp.apply, UnaryOp.forbidden, UnaryOp.negate, UnaryOp.reverse, Value.isError,
      Value.truthy, Value.typeName, Value.kind]

@[simp] theorem forbidden_value (op : BinaryOp) : Coercion.forbidden op (ρ.value v) (ρ.value w) =
    ρ.result ρ.value (Coercion.forbidden op v w) := by
  simp [Coercion.forbidden]

@[simp] theorem numericPair_value :
    Coercion.numericPair (ρ.value v) (ρ.value w) = Coercion.numericPair v w := by
  cases v <;> cases w <;> simp [Coercion.numericPair]

@[simp] theorem boolRule_value (combine : Bool → Bool → Bool) :
    Coercion.boolRule combine (ρ.value v) (ρ.value w) =
      (Coercion.boolRule combine v w).map ρ.value := by
  cases v <;> cases w <;> simp [Coercion.boolRule, Value.truthy]

end Operators

theorem checkField_value (typeName field : Text) (type : DeclaredType) (v : Value) :
    checkField typeName field type (ρ.value v) =
      ρ.result id (checkField typeName field type v) := by
  simp only [checkField, matches_value, typeName_value, result_ite]
  rfl

theorem assign_values (shape : RecordShape) (es : Entries) (vs : List Value) :
    shape.assign (es.map ρ.entry) (vs.map ρ.value) =
      ρ.result (List.map ρ.value) (shape.assign es vs) := by
  induction es generalizing vs with
  | nil => rfl
  | cons e es ih =>
    obtain ⟨k, v⟩ := e
    cases k with
    | str name =>
      simp only [List.map_cons, entry_mk, value_str, RecordShape.assign]
      split
      · split
        · refine result_bind (checkField_value _ _ _ v) fun _ => ?_
          rw [← List.map_set]
          exact ih _
        · rfl
      · rfl
    | _ => simp [RecordShape.assign, Value.display]

theorem fill_values {typeName : Text} {fields : List Field}
    (h : ∀ f ∈ fields, ∀ v ∈ f.default, ρ.value v = v) (args : List Value) :
    RecordType.fill typeName fields (args.map ρ.value) =
      ρ.result (List.map ρ.value) (RecordType.fill typeName fields args) := by
  induction fields generalizing args with
  | nil => rfl
  | cons f fields ih =>
    obtain ⟨hf, hfields⟩ := List.forall_mem_cons.1 h
    cases args with
    | cons v args =>
      refine result_bind (checkField_value _ _ _ v) fun _ => ?_
      exact result_bind (ih hfields args) fun vs => rfl
    | nil =>
      simp only [List.map_nil, RecordType.fill]
      cases hd : f.default with
      | none => rfl
      | some v =>
        refine result_bind (ih hfields []) fun vs => ?_
        rw [result_pure, List.map_cons, hf v hd]

theorem construct_values {t : RecordType} (h : ∀ f ∈ t.fields, ∀ v ∈ f.default, ρ.value v = v) (i : Nat)
    (args : List Value) :
    t.construct (ρ.number i) (args.map ρ.value) = ρ.result ρ.value (t.construct i args) := by
  simp only [RecordType.construct, List.length_map, result_ite]
  split
  · rfl
  · exact result_bind (fill_values h args) fun vs => by simp

theorem withFields_object (i : Nat) (es : Entries) (o : Object) :
    (ρ.object o).withFields (ρ.number i) (es.map ρ.entry) =
      ρ.result (Option.map ρ.value) (o.withFields i es) := by
  cases o with
  | record id shape vs =>
    rw [object_record]
    exact result_bind (assign_values shape es vs) fun vs => by simp
  | _ => rfl

theorem promote_value (i : Nat) (o : Object) (es : Entries) (v w : Value) :
    Coercion.promote (ρ.number i) (ρ.object o) (es.map ρ.entry) (ρ.value v) (ρ.value w) =
      ρ.result ρ.value (Coercion.promote i o es v w) := by
  refine result_bind (withFields_object i es o) fun r => ?_
  cases r with
  | some u => rfl
  | none => exact forbidden_value v w .add

/-- The tables are settled kind by kind; of the two numbers that texts may stand for nothing depends
on the renaming. -/
theorem add_value (i : Nat) (v w : Value) : Coercion.add (ρ.number i) (ρ.value v) (ρ.value w) =
    ρ.result ρ.value (Coercion.add i v w) := by
  have hpromote := fun o es => promote_value (ρ := ρ) i o es v w
  have hforbidden := forbidden_value (ρ := ρ) v w .add
  have hv := truthy_value (ρ := ρ) v
  have hw := truthy_value (ρ := ρ) w
  have hleft := insert_entries (ρ := ρ) v v
  have hright := insert_entries (ρ := ρ) w w
  cases v <;> cases w <;> simp_all [Coercion.add, Coercion.boolRule, Coercion.numericPair]
  all_goals split <;> rfl

theorem removedBy_value (v w : Value) :
    Coercion.removedBy (ρ.value v) (ρ.value w) = Coercion.removedBy v w := by
  cases v with
  | list items =>
    rw [value_list]
    simp [Coercion.removedBy, Function.comp_def]
  | _ => exact equals_value w _

theorem eraseKeys_entries (es es' : Entries) :
    Entries.eraseAll (es.map ρ.entry) (es'.map fun e => (ρ.entry e).1) =
      (Entries.eraseAll es (es'.map Prod.fst)).map ρ.entry := by
  rw [← eraseAll_entries, List.map_map]
  rfl

theorem sub_value (v w : Value) : Coercion.sub (ρ.value v) (ρ.value w) =
    ρ.result ρ.value (Coercion.sub v w) := by
  have herase := erase_entries (ρ := ρ) w
  have hremoved := removedBy_value (ρ := ρ) w
  cases v <;> cases w <;>
    simp_all [Coercion.sub, Coercion.boolRule, Coercion.numericPair, Coercion.forbidden,
      Value.typeName, Value.kind, UnaryOp.apply, UnaryOp.negate, UnaryOp.forbidden, Value.isError,
      List.filter_map, Function.comp_def, Value.truthy, eraseKeys_entries]
  all_goals split <;> rfl

@[simp] theorem result_repeatText (t : Text) (n : Number) :
    ρ.result ρ.value (Value.str <$> Coercion.repeatText t n) =
      Value.str <$> Coercion.repeatText t n := by
  unfold Coercion.repeatText Coercion.repeatTimes
  dsimp only
  split
  · rfl
  · split
    · rfl
    · split <;> rfl

theorem repeatList_values (n : Number) (vs : List Value) :
    Coercion.repeatList (vs.map ρ.value) n =
      ρ.result (List.map ρ.value) (Coercion.repeatList vs n) := by
  unfold Coercion.repeatList Coercion.repeatTimes
  rw [List.length_map]
  dsimp only
  split
  · rfl
  · split
    · rfl
    · split
      · rfl
      · simp [Bind.bind, Except.bind, Pure.pure, Except.pure]

theorem mul_value (v w : Value) : Coercion.mul (ρ.value v) (ρ.value w) =
    ρ.result ρ.value (Coercion.mul v w) := by
  cases v <;> cases w <;>
    simp [Coercion.mul, Coercion.boolRule, Coercion.forbidden, Value.typeName, Value.kind,
      Value.truthy]
  case str.num => split <;> simp
  case list.num items n =>
    rw [repeatList_values]
    cases Coercion.repeatList items n with
    | ok times => exact congrArg Except.ok (value_list times).symm
    | error e => rfl

@[simp] theorem result_quotient (m n : Number) :
    ρ.result ρ.value (Coercion.quotient m n) = Coercion.quotient m n := by
  unfold Coercion.quotient
  split <;> rfl

@[simp] theorem result_remainder (m n : Number) :
    ρ.result ρ.value (Coercion.remainder m n) = Coercion.remainder m n := by
  unfold Coercion.remainder
  split <;> rfl

theorem chunks_values (size : Nat) (vs : List Value) :
    Coercion.chunks size (vs.map ρ.value) = (Coercion.chunks size vs).map (List.map ρ.value) := by
  fun_induction Coercion.chunks size vs with
  | case1 vs h =>
    rw [Coercion.chunks, dif_pos (by simpa using h)]
    rfl
  | case2 vs h ih =>
    rw [Coercion.chunks, dif_neg (by simpa using h), ← List.map_drop, ih]
    simp

theorem div_value (v w : Value) : Coercion.div (ρ.value v) (ρ.value w) =
    ρ.result ρ.value (Coercion.div v w) := by
  cases v <;> cases w <;>
    simp [Coercion.div, Coercion.boolRule, Coercion.forbidden, Value.typeName, Value.kind,
      Value.truthy, Coercion.numericPair]
  case list.num items n =>
    rw [chunks_values]
    split <;> simp
  all_goals split <;> simp

theorem rem_value (v w : Value) : Coercion.rem (ρ.value v) (ρ.value w) =
    ρ.result ρ.value (Coercion.rem v w) := by
  cases v <;> cases w <;>
    simp [Coercion.rem, Coercion.boolRule, Coercion.forbidden, Value.typeName, Value.kind,
      Value.truthy, Coercion.numericPair]
  all_goals split <;> simp

theorem shiftBy_value (op : BinaryOp) (v w : Value) : Coercion.shiftBy op (ρ.value v) (ρ.value w) =
    ρ.result ρ.value (Coercion.shiftBy op v w) := by
  cases v <;> cases w <;>
    simp [Coercion.shiftBy, Coercion.forbidden, Value.typeName, Value.kind, Coercion.shiftNumber]
  all_goals split <;> simp

theorem shift_value (op : BinaryOp) (v w : Value) : Coercion.shift op (ρ.value v) (ρ.value w) =
    ρ.result ρ.value (Coercion.shift op v w) := by
  have hone := shiftBy_value (ρ := ρ) op v (.int 1)
  have hother := shiftBy_value (ρ := ρ) op v w
  cases w with
  | none => cases v <;> rfl
  | bool b => cases b <;> cases v <;> first | rfl | exact hone
  | _ => cases v <;> first | rfl | exact hother

theorem bitAnd_value (v w : Value) : Coercion.bitAnd (ρ.value v) (ρ.value w) =
    ρ.result ρ.value (Coercion.bitAnd v w) := by
  cases v <;> cases w <;>
    simp [Coercion.bitAnd, Coercion.boolRule, Coercion.forbidden, Value.typeName, Value.kind,
      Value.truthy, Coercion.numericPair]
  all_goals split <;> simp

theorem unite_values (vs ws : List Value) :
    Coercion.unite (vs.map ρ.value) (ws.map ρ.value) = (Coercion.unite vs ws).map ρ.value := by
  unfold Coercion.unite
  induction ws generalizing vs with
  | nil => rfl
  | cons w ws ih =>
    simp only [List.map_cons, List.foldl_cons, List.any_map, Function.comp_def, equals_value]
    split
    · exact ih vs
    · simpa using ih (vs ++ [w])

theorem bitOr_value (v w : Value) : Coercion.bitOr (ρ.value v) (ρ.value w) =
    ρ.result ρ.value (Coercion.bitOr v w) := by
  cases v <;> cases w <;>
    simp [Coercion.bitOr, Coercion.boolRule, Coercion.forbidden, Value.typeName, Value.kind,
      Value.truthy, Coercion.numericPair, unite_values]
  all_goals split <;> simp

theorem bitXor_value (v w : Value) : Coercion.bitXor (ρ.value v) (ρ.value w) =
    ρ.result ρ.value (Coercion.bitXor v w) := by
  cases v <;> cases w <;>
    simp [Coercion.bitXor, Coercion.boolRule, Coercion.forbidden, Value.typeName, Value.kind,
      Value.truthy, Coercion.numericPair]
  all_goals split <;> simp

theorem isBool_value (v : Value) : Coercion.isBool (ρ.value v) = Coercion.isBool v := by
  cases v <;> simp [Coercion.isBool]

theorem logical_value (op : BinaryOp) (v w : Value) :
    Coercion.logical op (ρ.value v) (ρ.value w) = ρ.value (Coercion.logical op v w) := by
  simp only [Coercion.logical, isBool_value, truthy_value]
  split
  · split
    · rfl
    · split <;> rfl
  · split
    · rfl
    · split <;> rfl
  · rfl

theorem compare_values (op : BinaryOp) (v w : Value) :
    Coercion.compare op (ρ.value v) (ρ.value w) = ρ.result ρ.value (Coercion.compare op v w) := by
  simp only [Coercion.compare, isObject_value, compare_value, forbidden_value]
  split
  · rfl
  · split <;> rfl

theorem hooked_value (op : BinaryOp) (v w : Value) :
    Coercion.hooked op (ρ.value v) (ρ.value w) = (Coercion.hooked op v w).map ρ.value := by
  have hanswer : ∀ (cls : HostClass) (other : Value) (left : Bool),
      ((cls.hook op (ρ.value other).display left).map Value.str) =
        ((cls.hook op other.display left).map Value.str).map ρ.value := by
    simp [Function.comp_def]
  unfold Coercion.hooked
  dsimp only
  rw [Option.map_or]
  congr 1
  · cases v with
    | object o =>
      cases o with
      | host id cls => exact hanswer cls w true
      | _ => rfl
    | _ => rfl
  · cases w with
    | object o =>
      cases o with
      | host id cls => exact hanswer cls v false
      | _ => rfl
    | _ => rfl

theorem table_value (i : Nat) (op : BinaryOp) (v w : Value) :
    Coercion.table (ρ.number i) op (ρ.value v) (ρ.value w) =
      ρ.result ρ.value (Coercion.table i op v w) := by
  cases op with
  | add => exact add_value i v w
  | sub => exact sub_value v w
  | mul => exact mul_value v w
  | div => exact div_value v w
  | rem => exact rem_value v w
  | shl => exact shift_value .shl v w
  | shr => exact shift_value .shr v w
  | bitAnd => exact bitAnd_value v w
  | bitOr => exact bitOr_value v w
  | bitXor => exact bitXor_value v w
  | and => exact congrArg Except.ok (logical_value .and v w)
  | or => exact congrArg Except.ok (logical_value .or v w)
  | xor => exact congrArg Except.ok (logical_value .xor v w)
  | lt => exact compare_values .lt v w
  | lte => exact compare_values .lte v w
  | gt => exact compare_values .gt v w
  | gte => exact compare_values .gte v w
  | eq => simp [Coercion.table]
  | neq => simp [Coercion.table]

theorem apply_binary (i : Nat) (op : BinaryOp) (v w : Value) :
    op.apply (ρ.number i) (ρ.value v) (ρ.value w) = ρ.result ρ.value (op.apply i v w) := by
  by_cases heq : op = .eq
  · simp [heq, BinaryOp.apply]
  by_cases hneq : op = .neq
  · simp [hneq, BinaryOp.apply]
  simp only [BinaryOp.apply_of_ne _ _ _ heq hneq, isError_value, isNone_value, forbidden_value,
    hooked_value, table_value]
  split
  · rfl
  · split
    · rfl
    · cases Coercion.hooked op v w <;> rfl

theorem castFault_value (t : DeclaredType) (v : Value) :
    t.castFault (ρ.value v) = ρ.result ρ.value (t.castFault v) := by
  simp [DeclaredType.castFault]

theorem toNumber?_value (v : Value) :
    DeclaredType.toNumber? (ρ.value v) = DeclaredType.toNumber? v := by
  cases v <;> simp [DeclaredType.toNumber?]

theorem toItems_value (v : Value) :
    DeclaredType.toItems (ρ.value v) = (DeclaredType.toItems v).map ρ.value := by
  cases v <;> simp [DeclaredType.toItems, entry]

theorem toEntry_value (v : Value) :
    DeclaredType.toEntry (ρ.value v) = ρ.entry (DeclaredType.toEntry v) := by
  cases v with
  | list items =>
    rcases items with _ | ⟨a, _ | ⟨b, _ | ⟨c, rest⟩⟩⟩ <;> simp [DeclaredType.toEntry, entry]
  | _ => simp [DeclaredType.toEntry, entry]

theorem toEntries?_value (v : Value) : DeclaredType.toEntries? (ρ.value v) =
    (DeclaredType.toEntries? v).map (List.map ρ.entry) := by
  cases v with
  | list items =>
    have hentries : (items.map ρ.value).map DeclaredType.toEntry =
        (items.map DeclaredType.toEntry).map ρ.entry := by
      simp [toEntry_value]
    rw [value_list]
    simp only [DeclaredType.toEntries?, hentries, ofPairs_entries, Option.map_some]
  | _ => simp [DeclaredType.toEntries?]

theorem cast_value (t : DeclaredType) (v : Value) :
    t.cast (ρ.value v) = ρ.result ρ.value (t.cast v) := by
  cases t <;>
    simp only [DeclaredType.cast, castFault_value, toNumber?_value, toItems_value, toEntries?_value,
      isError_value, isObject_value, truthy_value, display_value, matches_value, result_ite,
      result_ok, value_bool, value_str, value_none, value_list]
  case number | int | float => cases DeclaredType.toNumber? v <;> rfl
  case uint =>
    cases DeclaredType.toNumber? v with
    | none => rfl
    | some n => simp only [result_ite, result_ok, value_num]
  case map => cases DeclaredType.toEntries? v <;> simp
  case error => cases v <;> simp [DeclaredType.castFault, Value.display, Value.typeName, Value.kind]

/-- The same attribute of an object and of the object with other numbers. -/
inductive SameAttribute (ρ : Renaming) : Option Attribute → Option Attribute → Prop where
  | none : SameAttribute ρ none none
  | member {read read' : Unit → Except Fault Value} (h : read' () = ρ.result ρ.value (read ())) :
      SameAttribute ρ (some (.member read)) (some (.member read'))
  | method {arity : Nat} {call call' : List Value → Except Fault Value}
      (h : ∀ args, call' (args.map ρ.value) = ρ.result ρ.value (call args)) :
      SameAttribute ρ (some (.method arity call)) (some (.method arity call'))

theorem includesValue_value (r : Range) (v : Value) :
    r.includesValue (ρ.value v) = r.includesValue v := by
  cases v <;> simp [Range.includesValue]

theorem attribute_range (r : Range) (name : Text) :
    SameAttribute ρ (r.attribute? name) (r.attribute? name) := by
  have hlen : ρ.value r.len = r.len := by
    unfold Range.len
    split <;> rfl
  have hlist : ρ.result ρ.value r.toList = r.toList := by
    unfold Range.toList
    split
    · rfl
    · simp [Function.comp_def]
  unfold Range.attribute?
  split
  · exact .member (congrArg Except.ok hlen.symm)
  split
  · exact .member (by split <;> rfl)
  split
  · exact .member (by split <;> rfl)
  split
  · exact .member hlist.symm
  split
  · refine .method fun args => ?_
    cases args with
    | nil => rfl
    | cons v vs => simp [includesValue_value]
  · exact .none

theorem fieldMap_values (shape : RecordShape) (vs : List Value) :
    shape.fieldMap (vs.map ρ.value) = (shape.fieldMap vs).map ρ.entry := by
  unfold RecordShape.fieldMap
  rw [← ofPairs_entries, List.zip_map_right]
  simp [Function.comp_def]

theorem attribute_shape (shape : RecordShape) (vs : List Value) (name : Text) :
    SameAttribute ρ (shape.attribute? vs name) (shape.attribute? (vs.map ρ.value) name) := by
  unfold RecordShape.attribute?
  split
  · exact .method fun _ => by simp [fieldMap_values]
  · rw [List.zip_map_right, ← List.map_reverse, List.find?_map]
    simp only [Function.comp_def, Prod.map_fst, id]
    cases (shape.fields.zip vs).reverse.find? fun e => e.1.1 == name with
    | none => exact .none
    | some e => exact .member rfl

theorem attribute_object (o : Object) (name : Text) :
    SameAttribute ρ (o.attribute? name) ((ρ.object o).attribute? name) := by
  cases o with
  | range r => exact attribute_range r name
  | record id shape vs =>
    rw [object_record]
    exact attribute_shape shape vs name
  | closure id code captures =>
    rw [object_closure]
    simp only [ObjectOf.attribute?, ClosureCode.attribute?]
    split
    · exact .member rfl
    · split
      · exact .member rfl
      · exact .none
  | host id cls => exact .none

namespace SameAttribute

variable {a a' : Option Attribute}

theorem isMethod (h : SameAttribute ρ a a') : Attribute.isMethod a' = Attribute.isMethod a := by
  cases h <;> rfl

theorem isMember (h : SameAttribute ρ a a') : Attribute.isMember a' = Attribute.isMember a := by
  cases h <;> rfl

end SameAttribute

theorem hasMethod_object (o : Object) (name : Text) :
    (ρ.object o).hasMethod name = o.hasMethod name := (attribute_object o name).isMethod

theorem hasMember_object (o : Object) (name : Text) :
    (ρ.object o).hasMember name = o.hasMember name := (attribute_object o name).isMember

theorem callMethod_object (o : Object) (name : Text) (args : List Value) :
    (ρ.object o).callMethod name (args.map ρ.value) =
      ρ.result ρ.value (o.callMethod name args) := by
  have h := attribute_object (ρ := ρ) o name
  unfold ObjectOf.callMethod
  rw [typeName_object, List.length_map]
  generalize o.attribute? name = a at h ⊢
  generalize (ρ.object o).attribute? name = a' at h ⊢
  cases h with
  | none => rfl
  | member h => rfl
  | method h =>
    dsimp only
    split
    · exact h args
    · rfl

theorem getMember_object (o : Object) (name : Text) :
    (ρ.object o).getMember name = ρ.result ρ.value (o.getMember name) := by
  have h := attribute_object (ρ := ρ) o name
  unfold ObjectOf.getMember
  rw [typeName_object]
  generalize o.attribute? name = a at h ⊢
  generalize (ρ.object o).attribute? name = a' at h ⊢
  cases h with
  | none => rfl
  | member h => exact h
  | method h => rfl

theorem makeRange_value (v w : Value) (inclusive : Bool) :
    Range.make (ρ.value v) (ρ.value w) inclusive =
      ρ.result ρ.value (Range.make v w inclusive) := by
  have hbound : ∀ (which : Text) (u : Value),
      Range.bound which (ρ.value u) = ρ.result (fun n => n) (Range.bound which u) := by
    intro which u
    cases u with
    | num n => cases n <;> rfl
    | _ => simp [Range.bound, Value.typeName, Value.kind]
  exact result_bind (hbound "end" w) fun e => result_bind (hbound "start" v) fun b => rfl

section Calls

variable {f : Function}

theorem fillDefaults_values {params : List Parameter}
    (hd : ∀ p ∈ params, ∀ v ∈ p.default, ρ.value v = v) (args : List Value) :
    f.fillDefaults params (args.map ρ.value) =
      ρ.result (List.map ρ.value) (f.fillDefaults params args) := by
  induction params generalizing args with
  | nil => rfl
  | cons p params ih =>
    obtain ⟨hp, hparams⟩ := List.forall_mem_cons.1 hd
    cases args with
    | nil =>
      simp only [List.map_nil, Function.fillDefaults]
      split
      · rename_i v hv
        refine result_bind (ih hparams []) fun vs => ?_
        simp [hp v hv]
      · rfl
    | cons v vs => exact result_bind (ih hparams vs) fun ws => rfl

theorem checkTypes_values (params : List Parameter) (args : List Value) :
    f.checkTypes params (args.map ρ.value) =
      ρ.result (fun u => u) (f.checkTypes params args) := by
  induction params generalizing args with
  | nil => cases args <;> rfl
  | cons p params ih =>
    cases args with
    | nil => rfl
    | cons v vs =>
      simp only [List.map_cons, Function.checkTypes, matches_value, typeName_value]
      split
      · exact ih vs
      · rfl

theorem acceptArgs_values (hd : ∀ p ∈ f.signature.params, ∀ v ∈ p.default, ρ.value v = v)
    (args : List Value) :
    f.acceptArgs (args.map ρ.value) = ρ.result (List.map ρ.value) (f.acceptArgs args) := by
  unfold Function.acceptArgs
  rw [List.length_map]
  dsimp only
  split
  · rfl
  · refine result_bind (fillDefaults_values hd args) fun vs => ?_
    exact result_bind (checkTypes_values _ vs) fun _ => rfl

theorem checkResult_value (v : Value) :
    f.checkResult (ρ.value v) = ρ.result (fun u => u) (f.checkResult v) := by
  simp only [Function.checkResult, isError_value, matches_value, typeName_value]
  split <;> rfl

@[simp] theorem accepts_value (v : Value) : f.accepts (ρ.value v) = f.accepts v := by
  unfold Function.accepts
  split
  · exact matches_value v _
  · rfl

end Calls

theorem elementCount_value (v : Value) :
    (ρ.value v).elementCount = ρ.result (fun n => n) v.elementCount := by
  cases v with
  | object o => cases o <;> simp [Value.elementCount, Value.typeName, ObjectOf.typeName]
  | _ => simp [Value.elementCount, Value.typeName, Value.kind]

theorem elementAt_value (v : Value) (i : Nat) :
    (ρ.value v).elementAt i = ρ.value (v.elementAt i) := by
  cases v with
  | list items =>
    rw [value_list]
    simp only [Value.elementAt, List.getD_eq_getElem?_getD, List.getElem?_map]
    cases items[i]? <;> rfl
  | object o => cases o <;> simp [Value.elementAt]
  | _ => simp [Value.elementAt]

def loop (ρ : Renaming) (l : Loop) : Loop :=
  { l with
    source := ρ.value l.source
    items := l.items.map ρ.value
    entries := l.entries.map ρ.entry }

theorem variableValues_loop (l : Loop) (pairs : Bool) :
    (ρ.loop l).variableValues pairs = (l.variableValues pairs).map ρ.value := by
  obtain ⟨source, count, next, toMap, items, entries⟩ := l
  have hitem := elementAt_value (ρ := ρ) source next
  cases source with
  | map es =>
    simp only [Loop.variableValues, loop, value_map, List.getElem?_map]
    cases es[next]? with
    | none => rfl
    | some e => cases pairs <;> simp [entry]
  | _ =>
    cases pairs with
    | false => exact congrArg (fun v => [v]) hitem
    | true => exact congrArg (fun v => [.num (.int (Int64.ofNat next)), v]) hitem

theorem accumulate_loop (l : Loop) (v : Value) :
    (ρ.loop l).accumulate (ρ.value v) = ρ.result ρ.loop (l.accumulate v) := by
  obtain ⟨source, count, next, toMap, items, entries⟩ := l
  cases toMap with
  | false => cases v <;> simp [Loop.accumulate, loop]
  | true =>
    cases v with
    | list vs =>
      rcases vs with _ | ⟨a, _ | ⟨b, _ | ⟨c, rest⟩⟩⟩
      · rfl
      · cases a <;> rfl
      · have hentries := insert_entries (ρ := ρ) a b entries
        have hloop := congrArg (fun es => Except.ok (ε := Fault)
          (⟨ρ.value source, count, next, true, items.map ρ.value, es⟩ : Loop)) hentries
        cases a <;> cases b <;> first | rfl | exact hloop
      · cases a <;> cases b <;> rfl
    | _ => simp [Loop.accumulate, loop, Value.typeName, Value.kind]

theorem result_loop (l : Loop) : (ρ.loop l).result = ρ.value l.result := by
  obtain ⟨source, count, next, toMap, items, entries⟩ := l
  cases toMap <;> simp [Loop.result, loop]

theorem mapMember_value (v : Value) (name : Text) (args : List Value) :
    Exec.mapMember (ρ.value v) name (args.map ρ.value) =
      (Exec.mapMember v name args).map ρ.value := by
  have hfind := find?_entries (ρ := ρ) (.str name)
  cases v <;> cases args <;> simp_all [Exec.mapMember]

end Renaming

end ScriptMachine
