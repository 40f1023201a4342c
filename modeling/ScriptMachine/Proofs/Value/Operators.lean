import ScriptMachine.Proofs.Value.Parts

set_option autoImplicit false

namespace ScriptMachine

variable {P : Value → Prop} [Hereditary P] {a b v : Value}

namespace UnaryOp

theorem negate_inherits (hv : P v) : P (negate v) := by
  unfold negate
  split
  · exact Hereditary.bool _
  · exact Hereditary.num _
  · exact hv

theorem reverse_inherits (hv : P v) : P (reverse v) := by
  unfold reverse
  split
  · exact Hereditary.num _
  · exact Hereditary.str _
  · exact Hereditary.list.2 fun w hw => Hereditary.list.1 hv w (List.mem_reverse.1 hw)
  · exact Hereditary.map.2 fun e he => Hereditary.map.1 hv e (List.mem_reverse.1 he)
  · exact hv

theorem apply_gives (op : UnaryOp) (hv : P v) : Gives P (op.apply v) P := by
  have hforbidden : Gives P (op.forbidden v : Except Fault Value) P :=
    Gives.error rfl
  unfold apply
  split
  · split
    · exact hforbidden
    · exact negate_inherits hv
  · split
    · exact hforbidden
    · exact Hereditary.bool _
  · split
    · exact hforbidden
    · exact reverse_inherits hv
  · exact hv

end UnaryOp

namespace Coercion

omit [Hereditary P] in
theorem forbidden_gives (op : BinaryOp) (a b : Value) :
    Gives P (forbidden op a b) P := Gives.error rfl

theorem boolRule_inherits {combine : Bool → Bool → Bool} (h : boolRule combine a b = some v) :
    P v := by
  unfold boolRule at h
  split at h
  · cases h
    exact Hereditary.bool _
  · cases h
    exact Hereditary.bool _
  · cases h

omit [Hereditary P] in
theorem assign_gives (s : RecordShape) {es : Entries} {vs : List Value}
    (hes : Entries.All P es) (hvs : ∀ v ∈ vs, P v) :
    Gives P (s.assign es vs) fun vs => ∀ v ∈ vs, P v := by
  induction es generalizing vs with
  | nil => exact hvs
  | cons e es ih =>
    obtain ⟨he, hrest⟩ := List.forall_mem_cons.1 hes
    unfold RecordShape.assign
    dsimp only
    split
    · split
      · split
        · refine Gives.bind (Q := fun _ => True) ?_ fun _ _ => ih hrest ?_
          · unfold checkField
            split
            · trivial
            · exact Gives.error rfl
          · intro w hw
            rcases List.mem_or_eq_of_mem_set hw with hw | rfl
            · exact hvs w hw
            · exact he.2
        · exact Gives.error rfl
      · exact Gives.error rfl
    · exact Gives.error rfl

theorem promote_gives (id : Nat) {o : Object} {es : Entries} (ho : P (Value.object o))
    (hes : Entries.All P es) : Gives P (promote id o es a b) P := by
  unfold promote
  refine Gives.bind (Q := fun w => ∀ v ∈ w, P v) ?_ fun w hw => ?_
  · unfold ObjectOf.withFields
    split
    · refine Gives.bind (assign_gives _ hes (Hereditary.record.1 ho)) fun vs hvs => ?_
      rintro v ⟨⟩
      exact Hereditary.record.2 hvs
    · rintro v ⟨⟩
  · cases w with
    | some v => exact hw v rfl
    | none => exact forbidden_gives _ _ _

theorem add_gives (id : Nat) (ha : P a) (hb : P b) :
    Gives P (add id a b) P := by
  unfold add
  split
  · exact Hereditary.list.2 (List.forall_mem_append.2
      ⟨Hereditary.list.1 ha, Hereditary.list.1 hb⟩)
  · exact Hereditary.list.2 (List.forall_mem_append.2
      ⟨Hereditary.list.1 ha, List.forall_mem_singleton.2 hb⟩)
  · exact hb
  · exact ha
  · exact Hereditary.list.2 (List.forall_mem_cons.2 ⟨ha, Hereditary.list.1 hb⟩)
  · exact Hereditary.map.2 (Entries.all_insertAll (Hereditary.map.1 ha) (Hereditary.map.1 hb))
  · exact promote_gives id hb (Hereditary.map.1 ha)
  · exact promote_gives id ha (Hereditary.map.1 hb)
  · exact Hereditary.map.2 (Entries.all_insert hb hb (Hereditary.map.1 ha))
  · exact Hereditary.map.2 (Entries.all_insert ha ha (Hereditary.map.1 hb))
  · split
    · exact boolRule_inherits ‹_›
    · split
      · exact Hereditary.num _
      · exact Hereditary.str _
      · split
        · exact Hereditary.num _
        · exact Hereditary.str _
      · split
        · exact Hereditary.num _
        · exact Hereditary.str _
      · exact forbidden_gives _ _ _

theorem sub_gives (ha : P a) (hb : P b) : Gives P (sub a b) P := by
  unfold sub
  split
  · exact UnaryOp.apply_gives _ hb
  · exact ha
  · exact Hereditary.list.2 fun v hv => Hereditary.list.1 ha v (List.mem_of_mem_filter hv)
  · exact Hereditary.map.2 (Entries.all_eraseAll (Hereditary.map.1 ha))
  · exact Hereditary.map.2 (Entries.all_erase (Hereditary.map.1 ha))
  · split
    · exact boolRule_inherits ‹_›
    · split
      · exact Hereditary.num _
      · exact Hereditary.str _
      · split
        · exact Hereditary.num _
        · exact forbidden_gives _ _ _

omit [Hereditary P] in
theorem repeatTimes_gives (n : Number) (size : Nat) (what : Text) :
    Gives P (repeatTimes n size what) fun _ => True := by
  unfold repeatTimes
  dsimp only
  split
  · trivial
  · split
    · exact Gives.error rfl
    · trivial

omit [Hereditary P] in
theorem repeatText_gives (t : Text) (n : Number) : Gives P (repeatText t n) fun _ => True := by
  unfold repeatText
  split
  · exact Gives.error rfl
  · exact Gives.bind (repeatTimes_gives _ _ _) fun _ _ => trivial

omit [Hereditary P] in
theorem repeatList_gives {items : List Value} (n : Number) (h : ∀ v ∈ items, P v) :
    Gives P (repeatList items n) fun items => ∀ v ∈ items, P v := by
  unfold repeatList
  split
  · exact Gives.error rfl
  · refine Gives.bind (repeatTimes_gives _ _ _) fun times _ v hv => ?_
    obtain ⟨copy, hc, hv⟩ := List.mem_flatten.1 hv
    rw [List.eq_of_mem_replicate hc] at hv
    exact h v hv

theorem mul_gives (a b : Value) (ha : P a) : Gives P (mul a b) P := by
  unfold mul
  split
  · exact Hereditary.none
  · exact Hereditary.none
  · split
    · exact boolRule_inherits ‹_›
    · split
      · exact Hereditary.num _
      · split
        · exact Hereditary.num _
        · exact Gives.bind (repeatText_gives _ _) fun _ _ => Hereditary.str _
      · exact Gives.bind (repeatList_gives _ (Hereditary.list.1 ha)) fun _ h =>
          Hereditary.list.2 h
      · exact forbidden_gives _ _ _

theorem quotient_gives (m n : Number) : Gives P (quotient m n) P := by
  unfold quotient
  split
  · exact Gives.error rfl
  · exact Hereditary.num _

theorem remainder_gives (m n : Number) : Gives P (remainder m n) P := by
  unfold remainder
  split
  · exact Gives.error rfl
  · exact Hereditary.num _

omit [Hereditary P] in
theorem chunks_inherits {size : Nat} {items : List Value} (h : ∀ v ∈ items, P v) :
    ∀ chunk ∈ chunks size items, ∀ v ∈ chunk, P v := by
  induction items using chunks.induct size with
  | case1 items hstop =>
    rw [chunks, dif_pos hstop]
    simp
  | case2 items hgo ih =>
    rw [chunks, dif_neg hgo]
    refine List.forall_mem_cons.2 ⟨fun v hv => h v (List.mem_of_mem_take hv), ?_⟩
    exact ih fun v hv => h v (List.mem_of_mem_drop hv)

theorem div_gives (ha : P a) : Gives P (div a b) P := by
  unfold div
  split
  · exact forbidden_gives _ _ _
  · exact Hereditary.none
  · split
    · exact boolRule_inherits ‹_›
    · split
      · exact quotient_gives _ _
      · refine Hereditary.list.2 fun v hv => ?_
        obtain ⟨t, -, rfl⟩ := List.mem_map.1 hv
        exact Hereditary.str t
      · split
        · exact Gives.error rfl
        · refine Hereditary.list.2 fun v hv => ?_
          obtain ⟨chunk, hc, rfl⟩ := List.mem_map.1 hv
          exact Hereditary.list.2 (chunks_inherits (Hereditary.list.1 ha) chunk hc)
      · split
        · exact quotient_gives _ _
        · exact forbidden_gives _ _ _

theorem rem_gives (ha : P a) : Gives P (rem a b) P := by
  unfold rem
  split
  · exact Hereditary.none
  · exact ha
  · split
    · exact boolRule_inherits ‹_›
    · split
      · exact remainder_gives _ _
      · split
        · exact remainder_gives _ _
        · exact forbidden_gives _ _ _

theorem shiftBy_gives (op : BinaryOp) (ha : P a) (hb : P b) :
    Gives P (shiftBy op a b) P := by
  unfold shiftBy
  split
  · exact Hereditary.none
  · change P (if _ then _ else _)
    split
    · exact Hereditary.num _
    · exact Hereditary.int _
  · exact Hereditary.num _
  · split
    · exact Hereditary.num _
    · exact forbidden_gives _ _ _
  · exact Hereditary.str _
  · exact Hereditary.str _
  · refine Hereditary.list.2 ?_
    split
    · exact List.forall_mem_append.2 ⟨Hereditary.list.1 ha, List.forall_mem_singleton.2 hb⟩
    · exact List.forall_mem_cons.2 ⟨hb, Hereditary.list.1 ha⟩
  · exact forbidden_gives _ _ _

theorem shift_gives (op : BinaryOp) (ha : P a) (hb : P b) :
    Gives P (shift op a b) P := by
  unfold shift
  split
  · exact Hereditary.none
  · exact ha
  · exact ha
  · exact shiftBy_gives op ha (Hereditary.int _)
  · exact shiftBy_gives op ha hb

theorem bitAnd_gives (a b : Value) : Gives P (bitAnd a b) P := by
  unfold bitAnd
  split
  · exact Hereditary.none
  · exact Hereditary.none
  · split
    · exact boolRule_inherits ‹_›
    · split
      · exact Hereditary.num _
      · split
        · exact Hereditary.num _
        · exact forbidden_gives _ _ _

omit [Hereditary P] in
theorem unite_inherits {xs ys : List Value} (hx : ∀ v ∈ xs, P v) (hy : ∀ v ∈ ys, P v) :
    ∀ v ∈ unite xs ys, P v := by
  unfold unite
  induction ys generalizing xs with
  | nil => exact hx
  | cons y ys ih =>
    obtain ⟨hfirst, hrest⟩ := List.forall_mem_cons.1 hy
    refine ih ?_ hrest
    dsimp only
    split
    · exact hx
    · exact List.forall_mem_append.2 ⟨hx, List.forall_mem_singleton.2 hfirst⟩

theorem bitOr_gives (ha : P a) (hb : P b) :
    Gives P (bitOr a b) P := by
  unfold bitOr
  split
  · exact hb
  · exact ha
  · split
    · exact boolRule_inherits ‹_›
    · split
      · exact Hereditary.num _
      · exact Hereditary.list.2 (unite_inherits (Hereditary.list.1 ha) (Hereditary.list.1 hb))
      · exact Hereditary.map.2
          (Entries.all_insertMissing (Hereditary.map.1 ha) (Hereditary.map.1 hb))
      · split
        · exact Hereditary.num _
        · exact forbidden_gives _ _ _

theorem bitXor_gives (ha : P a) (hb : P b) :
    Gives P (bitXor a b) P := by
  unfold bitXor
  split
  · exact hb
  · exact ha
  · split
    · exact boolRule_inherits ‹_›
    · split
      · exact Hereditary.num _
      · split
        · exact Hereditary.num _
        · exact forbidden_gives _ _ _

theorem logical_inherits (op : BinaryOp) (ha : P a) (hb : P b) :
    P (logical op a b) := by
  unfold logical
  dsimp only
  split
  · split
    · exact Hereditary.bool _
    · split
      · exact hb
      · exact ha
  · split
    · exact Hereditary.bool _
    · split
      · exact ha
      · exact hb
  · exact Hereditary.bool _

theorem compare_gives (op : BinaryOp) (a b : Value) :
    Gives P (compare op a b) P := by
  unfold compare
  split
  · exact forbidden_gives _ _ _
  · split
    · exact Hereditary.bool _
    · exact Hereditary.bool _

theorem hooked_inherits {op : BinaryOp} (h : hooked op a b = some v) : P v := by
  unfold hooked at h
  extract_lets ask at h
  have hask : ∀ (self other : Value) (left : Bool) (w : Value),
      ask self other left = some w → P w := by
    intro self other left w hw
    unfold ask at hw
    split at hw
    · obtain ⟨t, -, rfl⟩ := Option.map_eq_some_iff.1 hw
      exact Hereditary.str t
    · cases hw
  rcases Option.or_eq_some_iff.1 h with h | ⟨-, h⟩
  · exact hask a b true v h
  · exact hask b a false v h

theorem table_gives (id : Nat) (op : BinaryOp) (ha : P a) (hb : P b) :
    Gives P (table id op a b) P := by
  cases op with
  | add => exact add_gives id ha hb
  | sub => exact sub_gives ha hb
  | mul => exact mul_gives a b ha
  | div => exact div_gives ha
  | rem => exact rem_gives ha
  | shl => exact shift_gives _ ha hb
  | shr => exact shift_gives _ ha hb
  | bitAnd => exact bitAnd_gives a b
  | bitOr => exact bitOr_gives ha hb
  | bitXor => exact bitXor_gives ha hb
  | and => exact logical_inherits _ ha hb
  | or => exact logical_inherits _ ha hb
  | xor => exact logical_inherits _ ha hb
  | eq => exact Hereditary.bool _
  | neq => exact Hereditary.bool _
  | lt => exact compare_gives _ a b
  | lte => exact compare_gives _ a b
  | gt => exact compare_gives _ a b
  | gte => exact compare_gives _ a b

end Coercion

theorem BinaryOp.apply_gives (id : Nat) (op : BinaryOp) (ha : P a) (hb : P b) :
    Gives P (op.apply id a b) P := by
  unfold BinaryOp.apply
  split
  · exact Hereditary.bool _
  · exact Hereditary.bool _
  · split
    · exact Coercion.forbidden_gives _ _ _
    · split
      · exact Coercion.forbidden_gives _ _ _
      · split
        · exact Coercion.hooked_inherits ‹_›
        · exact Coercion.table_gives id _ ha hb

namespace DeclaredType

omit [Hereditary P] in
theorem castFault_gives (t : DeclaredType) (v : Value) :
    Gives P (t.castFault v) P := Gives.error rfl

theorem toItems_inherits (hv : P v) : ∀ w ∈ toItems v, P w := by
  unfold toItems
  split
  · exact Hereditary.list.1 hv
  · simp
  · intro w hw
    obtain ⟨e, he, rfl⟩ := List.mem_map.1 hw
    obtain ⟨hk, hw⟩ := Hereditary.map.1 hv e he
    exact Hereditary.list.2 (List.forall_mem_cons.2 ⟨hk, List.forall_mem_singleton.2 hw⟩)
  · intro w hw
    obtain ⟨b, -, rfl⟩ := List.mem_map.1 hw
    exact Hereditary.str _
  · exact List.forall_mem_singleton.2 hv

theorem toEntry_inherits (hv : P v) : P (toEntry v).1 ∧ P (toEntry v).2 := by
  unfold toEntry
  split
  · have hkw := Hereditary.list.1 hv
    exact ⟨hkw _ (by simp), hkw _ (by simp)⟩
  · exact ⟨hv, hv⟩

theorem toEntries_inherits {es : Entries} (hv : P v) (h : toEntries? v = some es) :
    Entries.All P es := by
  unfold toEntries? at h
  split at h
  · cases h
    exact Hereditary.map.1 hv
  · cases h
    simp [Entries.All]
  · cases h
    refine Entries.all_ofPairs fun e he => ?_
    obtain ⟨w, hw, rfl⟩ := List.mem_map.1 he
    exact toEntry_inherits (Hereditary.list.1 hv w hw)
  · cases h

theorem cast_gives (t : DeclaredType) (hv : P v) : Gives P (t.cast v) P := by
  unfold cast
  split
  · exact hv
  · exact Hereditary.none
  · split
    · exact castFault_gives _ _
    · exact Hereditary.bool _
  · exact Hereditary.str _
  · split
    · exact Hereditary.num _
    · exact castFault_gives _ _
  · split
    · exact Hereditary.num _
    · exact castFault_gives _ _
  · split
    · split
      · exact castFault_gives _ _
      · exact Hereditary.num _
    · exact castFault_gives _ _
  · split
    · exact Hereditary.num _
    · exact castFault_gives _ _
  · split
    · exact castFault_gives _ _
    · exact Hereditary.list.2 (toItems_inherits hv)
  · split
    · exact Hereditary.map.2 (toEntries_inherits hv ‹_›)
    · exact castFault_gives _ _
  · split
    · exact hv
    · exact Hereditary.error.2 nofun
    · exact castFault_gives _ _
  · split
    · exact hv
    · exact castFault_gives _ _

end DeclaredType

theorem Range.make_gives (inclusive : Bool) : Gives P (Range.make a b inclusive) P := by
  have hbound : ∀ (which : Text) (v : Value), Gives P (Range.bound which v) fun _ => True := by
    intro which v
    unfold Range.bound
    split
    · trivial
    · exact Gives.error rfl
  refine Gives.bind (hbound _ b) fun stop _ => Gives.bind (hbound _ a) fun start _ => ?_
  exact Hereditary.range _

def Attribute.Gives (P : Value → Prop) : Attribute → Prop
  | .member read => ScriptMachine.Gives P (read ()) P
  | .method _ call => ∀ args, ScriptMachine.Gives P (call args) P

theorem Range.attribute_gives {r : Range} {name : Text} {att : Attribute}
    (h : r.attribute? name = some att) : att.Gives P := by
  unfold Range.attribute? at h
  split at h
  · cases h
    change P (r.len)
    unfold Range.len
    split
    · exact Hereditary.int _
    · exact Hereditary.num _
  split at h
  · cases h
    change P (if _ then _ else _)
    split
    · exact Hereditary.none
    · exact Hereditary.num _
  split at h
  · cases h
    change P (if _ then _ else _)
    split
    · exact Hereditary.none
    · exact Hereditary.num _
  split at h
  · cases h
    change ScriptMachine.Gives P r.toList _
    unfold Range.toList
    split
    · exact Gives.error rfl
    · refine Hereditary.list.2 fun v hv => ?_
      obtain ⟨i, -, rfl⟩ := List.mem_map.1 hv
      exact Hereditary.num _
  split at h
  · cases h
    exact fun _ => Hereditary.bool _
  · cases h

theorem RecordShape.attribute_gives {s : RecordShape} {vs : List Value} {name : Text}
    {att : Attribute} (hvs : ∀ v ∈ vs, P v) (h : s.attribute? vs name = some att) :
    att.Gives P := by
  unfold RecordShape.attribute? at h
  split at h
  · cases h
    refine fun _ => Hereditary.map.2 (Entries.all_ofPairs fun e he => ?_)
    obtain ⟨p, hp, rfl⟩ := List.mem_map.1 he
    exact ⟨Hereditary.str _, hvs _ (List.of_mem_zip hp).2⟩
  · split at h
    · rename_i v hfind
      cases h
      exact hvs _ (List.of_mem_zip (List.mem_reverse.1 (List.mem_of_find?_eq_some hfind))).2
    · cases h

theorem ObjectOf.attribute_gives {o : Object} {name : Text} {att : Attribute}
    (ho : P (Value.object o)) (h : o.attribute? name = some att) : att.Gives P := by
  cases o with
  | range r => exact Range.attribute_gives h
  | record id shape values => exact RecordShape.attribute_gives (Hereditary.record.1 ho) h
  | closure id code captures =>
    unfold ObjectOf.attribute? ClosureCode.attribute? at h
    dsimp only at h
    split at h
    · cases h
      exact Hereditary.int _
    · split at h
      · cases h
        exact Hereditary.str _
      · cases h
  | host id cls => cases h

theorem ObjectOf.callMethod_gives {o : Object} (name : Text) (args : List Value)
    (ho : P (Value.object o)) : Gives P (o.callMethod name args) P := by
  unfold ObjectOf.callMethod
  split
  · rename_i arity call h
    split
    · exact attribute_gives ho h args
    · exact Gives.error rfl
  · exact Gives.error rfl

theorem ObjectOf.getMember_gives {o : Object} (name : Text) (ho : P (Value.object o)) :
    Gives P (o.getMember name) P := by
  unfold ObjectOf.getMember
  split
  · rename_i read h
    exact attribute_gives ho h
  · exact Gives.error rfl

end ScriptMachine
