import ScriptMachine.Operator.Binary
import ScriptMachine.Proofs.Value.Entries

set_option autoImplicit false

/-!
# Negation and reversal

Both operators undo themselves. A value that is negated twice equals itself, although the least signed word
comes back as a double; a value that is reversed twice is itself, unless it is a double. Main statement:
`involutions`.
-/
namespace ScriptMachine

namespace Binary64

theorem signed_eq (x : Binary64) : x.signed = x.bits.toBitVec.getLsbD 63 := by
  have hmask : signMask.toBitVec = BitVec.twoPow 64 63 := by decide
  unfold signed
  rw [Bool.eq_iff_iff, bne_iff_ne, ne_eq, ← UInt64.toBitVec_inj, UInt64.toBitVec_and, hmask,
    BitVec.and_twoPow]
  split <;> simp_all

theorem signed_neg (x : Binary64) : x.neg.signed = !x.signed := by
  rw [signed_eq, signed_eq, neg, UInt64.toBitVec_xor, BitVec.getLsbD_xor]
  exact Bool.xor_true _

theorem magnitude_neg (x : Binary64) : x.neg.magnitude = x.magnitude := by
  unfold magnitude neg
  rw [← UInt64.toBitVec_inj]
  simp only [UInt64.toBitVec_and, UInt64.toBitVec_xor, UInt64.toBitVec_not]
  ext i
  simp only [BitVec.getElem_and, BitVec.getElem_xor, BitVec.getElem_not]
  cases x.bits.toBitVec[i] <;> cases signMask.toBitVec[i] <;> rfl

theorem neg_neg (x : Binary64) : x.neg.neg = x := by
  simp only [neg, UInt64.xor_assoc, UInt64.xor_self, UInt64.xor_zero]

end Binary64

namespace Number

/-- What negation makes of a number. The least signed word has no signed counterpart and becomes the double
2^63; an unsigned word and its two's complement add up to nothing. -/
inductive Negated : Number → Number → Prop where
  | int {v w : Int64} : v.toInt ≠ intMin → w.toInt = -v.toInt → Negated (.int v) (.int w)
  | least {v : Int64} : v.toInt = intMin → Negated (.int v) (.float (.ofInt (-intMin)))
  | uint {v w : UInt64} : (v.toNat + w.toNat) % (uintMax + 1) = 0 → Negated (.uint v) (.uint w)
  | float {x y : Binary64} : y.signed = !x.signed → y.magnitude = x.magnitude →
      Negated (.float x) (.float y)

/-- The bits of one word are those of the other one in the opposite order. -/
def BitsTurned (v w : UInt64) : Prop := ∀ i < 64, w.toNat.testBit i = v.toNat.testBit (63 - i)

variable {v : Int64}

theorem toInt_neg (h : v.toInt ≠ intMin) : (-v).toInt = -v.toInt := by
  have hlow := v.le_toInt
  have hhigh := v.toInt_lt
  unfold intMin at h
  rw [Int64.toInt_neg]
  exact Int.bmod_eq_of_le (by omega) (by omega)

theorem neg_least (h : v.toInt = intMin) : neg (.int v) = .float (.ofInt (-intMin)) := by
  have hwide : (Binary64.ofInt intMin).neg = .ofInt (-intMin) := by decide +kernel
  rw [neg, if_pos h, hwide]

theorem neg_negated (n : Number) : Negated n n.neg := by
  cases n with
  | int v =>
    by_cases h : v.toInt = intMin
    · rw [neg_least h]
      exact .least h
    · rw [neg, if_neg h]
      exact .int h (toInt_neg h)
  | uint v =>
    have hsum : v + -v = 0 := by rw [← UInt64.sub_eq_add_neg, UInt64.sub_self]
    refine .uint ?_
    change (v.toNat + (-v).toNat) % 2 ^ 64 = 0
    rw [← UInt64.toNat_add, hsum]
    rfl
  | float x => exact .float x.signed_neg x.magnitude_neg

theorem equals_least (h : v.toInt = intMin) : equals (.float (.ofInt intMin)) (.int v) = true := by
  have hnan : (Binary64.ofInt intMin).isNaN = false := by decide +kernel
  have hself : (Binary64.ofInt intMin).compareOrdered (.ofInt intMin) = .eq := Int.compare_eq_eq.2 rfl
  simp [equals, compare?, pair, toFloat, isNaN, isUInt, h, hnan, hself]

theorem neg_neg_equals (n : Number) (h : n.isNaN = false) : n.neg.neg.equals n = true := by
  cases n with
  | int v =>
    by_cases hv : v.toInt = intMin
    · simp only [neg, hv, if_true, Binary64.neg_neg]
      exact equals_least hv
    · have hback : (-v).toInt ≠ intMin := by
        rw [toInt_neg hv]
        have hhigh := v.toInt_lt
        unfold intMin
        omega
      simp only [neg, hv, hback, if_false, Int64.neg_neg]
      rw [equals_self, h]
      rfl
  | uint v =>
    simp only [neg, UInt64.neg_neg]
    rw [equals_self, h]
    rfl
  | float x =>
    simp only [neg, Binary64.neg_neg]
    rw [equals_self, h]
    rfl

theorem reverseWord_turned (v : UInt64) : BitsTurned v (reverseWord v) := by
  intro i hi
  change v.toBitVec.reverse.getLsbD i = v.toBitVec.getLsbD (63 - i)
  rw [BitVec.getLsbD_reverse, BitVec.getMsbD_eq_getLsbD, decide_eq_true hi, Bool.true_and]

theorem reverseWord_reverseWord (v : UInt64) : reverseWord (reverseWord v) = v :=
  UInt64.toBitVec_inj.1 BitVec.reverse_reverse_eq

end Number

namespace Value

/-- What negation makes of a value: numbers and booleans change, all else stays. -/
inductive Negated : Value → Value → Prop where
  | bool (b : Bool) : Negated (.bool b) (.bool !b)
  | num {n m : Number} : n.Negated m → Negated (.num n) (.num m)
  | same {v : Value} : v.kind ≠ .bool → v.kind ≠ .number → Negated v v

/-- What reversal makes of a value that is no double. -/
inductive Reversed : Value → Value → Prop where
  | int {v w : Int64} : Number.BitsTurned v.toUInt64 w.toUInt64 → Reversed (.num (.int v)) (.num (.int w))
  | uint {v w : UInt64} : Number.BitsTurned v w → Reversed (.num (.uint v)) (.num (.uint w))
  | str (t : Text) : Reversed (.str t) (.str t.reverse)
  | list (items : List Value) : Reversed (.list items) (.list items.reverse)
  | map (entries : Entries) : Reversed (.map entries) (.map entries.reverse)
  | same {v : Value} : v.kind = .none ∨ v.kind = .bool ∨ v.kind = .object → Reversed v v

variable {v : Value}

theorem negate_negated (v : Value) : Negated v (UnaryOp.negate v) := by
  cases v with
  | bool b => exact .bool b
  | num n => exact .num n.neg_negated
  | none | str _ | list _ | map _ | error _ | object _ => exact .same nofun nofun

theorem isError_eq (v : Value) : v.isError = decide (v.kind = .error) := by
  cases v <;> rfl

theorem kind_negate (v : Value) : (UnaryOp.negate v).kind = v.kind := by
  cases v <;> rfl

theorem negate_negate_equals (h : ¬v.HasNaN) : (UnaryOp.negate (UnaryOp.negate v)).equals v = true := by
  have hself : v.equals v = true := by
    rw [← Bool.not_eq_false, equals_self_eq_false]
    exact h
  cases v with
  | bool b => exact beq_iff_eq.2 b.not_not
  | num n =>
    have hn : n.isNaN = false := by
      rw [← Bool.not_eq_true]
      exact fun hnan => h (.num hnan)
    exact n.neg_neg_equals hn
  | none | str _ | list _ | map _ | error _ | object _ => exact hself

theorem reverse_reversed (herror : v.isError = false) (hfloat : ∀ x, v ≠ .num (.float x)) :
    Reversed v (UnaryOp.reverse v) ∧ UnaryOp.reverse (UnaryOp.reverse v) = v := by
  cases v with
  | num n =>
    cases n with
    | int v =>
      refine ⟨.int ?_, ?_⟩
      · rw [UInt64.toUInt64_toInt64]
        exact Number.reverseWord_turned _
      · simp [UnaryOp.reverse, Number.reverseBits, Number.reverseWord_reverseWord]
    | uint v => exact ⟨.uint (Number.reverseWord_turned v), by
        simp [UnaryOp.reverse, Number.reverseBits, Number.reverseWord_reverseWord]⟩
    | float x => exact absurd rfl (hfloat x)
  | str t => exact ⟨.str t, congrArg Value.str t.reverse_reverse⟩
  | list items => exact ⟨.list items, congrArg Value.list items.reverse_reverse⟩
  | map entries => exact ⟨.map entries, congrArg Value.map entries.reverse_reverse⟩
  | none => exact ⟨.same (.inl rfl), rfl⟩
  | bool b => exact ⟨.same (.inr (.inl rfl)), rfl⟩
  | object o => exact ⟨.same (.inr (.inr rfl)), rfl⟩
  | error f => cases herror

end Value

/-- Whatever is no error value can be negated and reversed. What is negated twice equals the value, to the
script as well, if no NaN is reached in it; what is reversed twice is the value, if it is no double. Reversal
keeps the keys of a map apart. -/
theorem UnaryOp.involutions {v : Value} (herror : v.isError = false) :
    (¬v.HasNaN → ∃ w u, neg.apply v = .ok w ∧ neg.apply w = .ok u ∧ v.Negated w ∧ u.equals v = true ∧
      ∀ id, BinaryOp.eq.apply id u v = .ok (.bool true)) ∧
    ((∀ x, v ≠ .num (.float x)) → ∃ w, rev.apply v = .ok w ∧ rev.apply w = .ok v ∧ v.Reversed w ∧
      ∀ m, v = .map m → Entries.Distinct m → ∃ m', w = .map m' ∧ Entries.Distinct m') := by
  have hkept {w : Value} (hkind : w.kind = v.kind) : w.isError = false := by
    rwa [w.isError_eq, hkind, ← v.isError_eq]
  constructor
  · intro hnan
    have hkind : (negate (negate v)).kind = v.kind :=
      (Value.kind_negate _).trans (Value.kind_negate v)
    have hequals := Value.negate_negate_equals hnan
    refine ⟨negate v, negate (negate v), ?_, ?_, v.negate_negated, hequals, fun id => ?_⟩
    · simp [apply, herror]
    · simp [apply, hkept (Value.kind_negate v)]
    · simp [BinaryOp.apply, Value.looseEquals, hkind, hequals]
  · intro hfloat
    obtain ⟨hreversed, hback⟩ := Value.reverse_reversed herror hfloat
    have hkind : (reverse v).kind = v.kind := by cases v <;> rfl
    refine ⟨reverse v, ?_, ?_, hreversed, ?_⟩
    · simp [apply, herror]
    · simp [apply, hkept hkind, hback]
    · rintro m rfl hm
      exact ⟨m.reverse, rfl, Entries.distinct_reverse hm⟩

/-- The least signed word, which comes back as a double, and a map with two keys. -/
theorem UnaryOp.involutions_least :
    (¬(Value.int Number.intMin).HasNaN ∧
      ∃ u, neg.apply (.int Number.intMin) = .ok (.num (.float (.ofInt (-Number.intMin)))) ∧
        neg.apply (.num (.float (.ofInt (-Number.intMin)))) = .ok u ∧
        u.equals (.int Number.intMin) = true) ∧
    ∃ w, rev.apply (.map [(.int 1, .list []), (.str "k", .none)]) = .ok w ∧
      rev.apply w = .ok (.map [(.int 1, .list []), (.str "k", .none)]) := by
  have hnan : ¬(Value.int Number.intMin).HasNaN := by decide
  have hwide : neg.apply (.int Number.intMin) = .ok (.num (.float (.ofInt (-Number.intMin)))) :=
    congrArg (fun n => Except.ok (Value.num n)) (Number.neg_least rfl)
  obtain ⟨w, u, hw, hu, -, hequals, -⟩ := (involutions rfl).1 hnan
  cases hwide.symm.trans hw
  obtain ⟨w, hw, hback, -⟩ := (involutions (v := .map [(.int 1, .list []), (.str "k", .none)]) rfl).2 nofun
  exact ⟨⟨hnan, u, hwide, hu, hequals⟩, w, hw, hback⟩

end ScriptMachine
