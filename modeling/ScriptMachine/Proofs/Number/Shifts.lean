import ScriptMachine.Proofs.Value.Casts
import Mathlib.Data.List.DropRight

set_option autoImplicit false

/-!
# Shifts

A shift multiplies or divides the exact value by a power of two. The distance of a shift is cut to what can
make a difference: 64 bits of a word, and for a text what a signed word holds. Main statement: `shifts_exact`.
-/
namespace ScriptMachine

namespace Number

variable {x y b : Number} {v k : Int} {n : Nat}

/-- An integer reduced modulo 2^64 to a word of the kind of `x`. -/
def reduced (x : Number) (n : Int) : Int := if x.isUInt then n % 2 ^ 64 else n.bmod (2 ^ 64)

/-- Two numbers of the same representation. -/
def SameKind (x y : Number) : Prop := y.isInt = x.isInt ∧ y.isUInt = x.isUInt

/-- A number of value `v` has been multiplied by `2 ^ n`; from 64 on nothing of it is left. -/
structure ShiftedUp (x : Number) (v : Int) (n : Nat) (y : Number) : Prop where
  kind : SameKind x y
  value : y.integer? = some (x.reduced (v * 2 ^ n))
  gone : 64 ≤ n → y.integer? = some 0

/-- A number of value `v` has been divided by `2 ^ n`, toward minus infinity. -/
structure ShiftedDown (x : Number) (v : Int) (n : Nat) (y : Number) : Prop where
  kind : SameKind x y
  value : y.integer? = some (v.fdiv (2 ^ n))

theorem shiftDistance_eq (hb : b.integer? = some k) : shiftDistance b = max (-64) (min 64 k) := by
  cases b with
  | int w =>
    cases hb
    rfl
  | uint w =>
    cases hb
    rw [shiftDistance]
    omega
  | float => cases hb

theorem reduced_of_le (x : Number) (v : Int) (hn : 64 ≤ n) : x.reduced (v * 2 ^ n) = 0 := by
  obtain ⟨m, rfl⟩ := Nat.exists_eq_add_of_le hn
  have hdvd : (2 : Int) ^ 64 ∣ v * 2 ^ (64 + m) := by
    rw [Int.pow_add]
    exact Int.dvd_mul_of_dvd_right (Int.dvd_mul_right _ _)
  unfold reduced
  split
  · exact Int.emod_eq_zero_of_dvd hdvd
  · exact Int.bmod_eq_zero_of_dvd hdvd

theorem reduced_min (x : Number) (v : Int) (n : Nat) :
    x.reduced (v * 2 ^ min 64 n) = x.reduced (v * 2 ^ n) := by
  by_cases hn : 64 ≤ n
  · rw [Nat.min_eq_left hn, reduced_of_le x v (Nat.le_refl _), reduced_of_le x v hn]
  · rw [Nat.min_eq_right (by omega)]

theorem fdiv_min (hv : -2 ^ 63 ≤ v ∧ v < 2 ^ 64) (n : Nat) : v.fdiv (2 ^ min 64 n) = v.fdiv (2 ^ n) := by
  by_cases hn : 64 ≤ n
  · have hle : (2 : Int) ^ 64 ≤ 2 ^ n := by exact_mod_cast Nat.pow_le_pow_right (by decide) hn
    have hends : ∀ d : Int, 2 ^ 64 ≤ d → v.fdiv d = if v < 0 then -1 else 0 := by
      intro d hd
      rw [Int.fdiv_eq_ediv_of_nonneg v (by omega)]
      split
      · exact Int.ediv_eq_neg_one_of_neg_of_le ‹_› (by omega)
      · exact Int.ediv_eq_zero_of_lt (by omega) (by omega)
    rw [Nat.min_eq_left hn, hends _ (Int.le_refl _), hends _ hle]
  · rw [Nat.min_eq_right (by omega)]

theorem shift_kind (hx : x.integer? = some v) (d : Int) : SameKind x (shift x d) := by
  cases x with
  | float => cases hx
  | int =>
    unfold shift
    dsimp only
    split <;> exact ⟨rfl, rfl⟩
  | uint =>
    unfold shift
    dsimp only
    split <;> exact ⟨rfl, rfl⟩

theorem shift_up (hx : x.integer? = some v) (n : Nat) :
    (shift x n).integer? = some (x.reduced (v * 2 ^ n)) := by
  cases x with
  | float => cases hx
  | int w =>
    cases hx
    unfold shift
    dsimp only
    rw [if_pos (Int.natCast_nonneg n), Int.toNat_natCast, Int.shiftLeft_eq]
    exact congrArg some Int64.toInt_ofInt
  | uint w =>
    cases hx
    unfold shift
    dsimp only
    rw [if_pos (Int.natCast_nonneg n), Int.toNat_natCast, Nat.shiftLeft_eq, ofNat, integer?,
      UInt64.toNat_ofNat', reduced, if_pos (show isUInt (.uint w) = true from rfl)]
    norm_cast

theorem reduced_self (hx : x.integer? = some v) : x.reduced v = v := by
  cases x with
  | float => cases hx
  | int w =>
    cases hx
    have hw := SignedWord.toInt_range w
    exact Int.bmod_eq_of_le (by omega) (by omega)
  | uint w =>
    cases hx
    exact Int.emod_eq_of_lt (Int.natCast_nonneg _) (by exact_mod_cast w.toNat_lt)

theorem fitsInt_ediv {d : Int} (hd : 0 < d) (hv : fitsInt v = true) : fitsInt (v / d) = true := by
  have hrange := SignedWord.fitsInt_iff.1 hv
  refine SignedWord.fitsInt_iff.2 ⟨Int.le_ediv_of_mul_le hd ?_, Int.ediv_lt_of_lt_mul hd ?_⟩
  · omega
  · omega

theorem shift_down (hx : x.integer? = some v) (n : Nat) :
    (shift x (-n)).integer? = some (v.fdiv (2 ^ n)) := by
  have hpos : (0 : Int) < 2 ^ n := Int.pow_pos (by decide)
  rw [Int.fdiv_eq_ediv_of_nonneg v (Int.le_of_lt hpos)]
  cases n with
  | zero =>
    have hup := shift_up hx 0
    rw [Int.pow_zero, Int.mul_one, reduced_self hx] at hup
    rwa [Int.pow_zero, Int.ediv_one]
  | succ n =>
    have hneg : ¬(0 : Int) ≤ -(n + 1 : Nat) := by omega
    cases x with
    | float => cases hx
    | int w =>
      cases hx
      unfold shift
      dsimp only
      rw [if_neg hneg, Int.neg_neg, Int.toNat_natCast, Int.shiftRight_eq_div_pow]
      have hfits := fitsInt_ediv hpos (SignedWord.fitsInt_iff.2 (SignedWord.toInt_range w))
      exact_mod_cast integer_ofInt hfits
    | uint w =>
      cases hx
      unfold shift
      dsimp only
      rw [if_neg hneg, Int.neg_neg, Int.toNat_natCast, Nat.shiftRight_eq_div_pow]
      exact_mod_cast integer_ofNat (Nat.le_trans (Nat.div_le_self _ _) (toNat_le w))

theorem shift_cut_up (hx : x.integer? = some v) (n : Nat) : ShiftedUp x v n (shift x (min 64 n : Nat)) := by
  have hvalue := shift_up hx (min 64 n)
  rw [reduced_min] at hvalue
  exact ⟨shift_kind hx _, hvalue, fun hn => by rw [hvalue, reduced_of_le x v hn]⟩

theorem shift_cut_down (hx : x.integer? = some v) (n : Nat) :
    ShiftedDown x v n (shift x (-(min 64 n : Nat))) :=
  ⟨shift_kind hx _, by rw [shift_down hx, fdiv_min (integer_range hx)]⟩

theorem byteCount_eq (hb : b.integer? = some k) :
    Coercion.byteCount b = max (-intMax) (min intMax k) := by
  cases b with
  | float => cases hb
  | int w =>
    cases hb
    have hw := SignedWord.toInt_range w
    change max (-intMax) w.toInt = _
    unfold intMax
    omega
  | uint w =>
    cases hb
    change min intMax (w.toNat : Int) = _
    unfold intMax
    omega

theorem dropBytes_front {t : Text} (ht : t.length < 2 ^ 63) (n : Nat) :
    Coercion.dropBytes t (min intMax n) = t.drop (min n t.length) := by
  have hcut : min (min intMax (n : Int)).toNat t.length = min n t.length := by
    unfold intMax
    omega
  rw [Coercion.dropBytes, if_pos (by unfold intMax; omega), List.drop_eq_drop_min, hcut]

theorem dropBytes_back {t : Text} (ht : t.length < 2 ^ 63) (n : Nat) :
    Coercion.dropBytes t (-min intMax n) = t.rdrop (min n t.length) := by
  cases n with
  | zero => rw [Nat.zero_min, List.rdrop_zero]; rfl
  | succ n =>
    have hcut : t.length - (min intMax ((n + 1 : Nat) : Int)).toNat = t.length - min (n + 1) t.length := by
      unfold intMax
      omega
    rw [Coercion.dropBytes, if_neg (by unfold intMax; omega), Int.neg_neg, hcut, List.rdrop]

end Number

open Number in
/-- Whatever integer word the distance is: a shifted word of an integer is exact up to the reduction to its
kind, and a shifted text has lost bytes at one end. No text has 2^63 bytes or more. -/
theorem shifts_exact (id : Nat) {x b : Number} {v k : Int} (hx : x.integer? = some v)
    (hb : b.integer? = some k) :
    (∃ l r : Number, BinaryOp.shl.apply id (.num x) (.num b) = .ok (.num l) ∧
      BinaryOp.shr.apply id (.num x) (.num b) = .ok (.num r) ∧
      (0 ≤ k → ShiftedUp x v k.toNat l ∧ ShiftedDown x v k.toNat r) ∧
      (k < 0 → ShiftedDown x v (-k).toNat l ∧ ShiftedUp x v (-k).toNat r)) ∧
    ∀ t : Text, t.length < 2 ^ 63 →
      ∃ l r : Text, BinaryOp.shl.apply id (.str t) (.num b) = .ok (.str l) ∧
        BinaryOp.shr.apply id (.str t) (.num b) = .ok (.str r) ∧
        (0 ≤ k → l = t.drop (min k.toNat t.length) ∧ r = t.rdrop (min k.toNat t.length)) ∧
        (k < 0 → l = t.rdrop (min (-k).toNat t.length) ∧ r = t.drop (min (-k).toNat t.length)) := by
  refine ⟨⟨_, _, rfl, rfl, fun hk => ?_, fun hk => ?_⟩, fun t ht => ⟨_, _, rfl, rfl, fun hk => ?_, fun hk => ?_⟩⟩
  · obtain ⟨n, rfl⟩ := Int.eq_ofNat_of_zero_le hk
    have hdistance : shiftDistance b = (min 64 n : Nat) := by
      rw [shiftDistance_eq hb]
      omega
    rw [shiftLeft, shiftRight, hdistance]
    exact ⟨shift_cut_up hx n, shift_cut_down hx n⟩
  · obtain ⟨n, rfl⟩ : ∃ n : Nat, k = -n := ⟨k.natAbs, by omega⟩
    have hdistance : shiftDistance b = -(min 64 n : Nat) := by
      rw [shiftDistance_eq hb]
      omega
    rw [shiftLeft, shiftRight, hdistance, Int.neg_neg, Int.neg_neg]
    exact ⟨shift_cut_down hx n, shift_cut_up hx n⟩
  · obtain ⟨n, rfl⟩ := Int.eq_ofNat_of_zero_le hk
    have hcount : Coercion.byteCount b = min intMax n := by
      rw [byteCount_eq hb]
      unfold intMax
      omega
    rw [hcount]
    exact ⟨dropBytes_front ht n, dropBytes_back ht n⟩
  · obtain ⟨n, rfl⟩ : ∃ n : Nat, k = -n := ⟨k.natAbs, by omega⟩
    have hcount : Coercion.byteCount b = -min intMax n := by
      rw [byteCount_eq hb]
      unfold intMax
      omega
    rw [hcount, Int.neg_neg, Int.neg_neg]
    exact ⟨dropBytes_back ht n, dropBytes_front ht n⟩

open Number in
/-- The least signed word as a distance, whose negative is no signed word. -/
theorem shifts_exact_least :
    (Number.int (-5)).integer? = some (-5) ∧ (Number.int SignedWord.least).integer? = some (-2 ^ 63) ∧
      (∃ r : Number, BinaryOp.shr.apply 0 (.num (.int (-5))) (.num (.int SignedWord.least)) = .ok (.num r) ∧
        r.integer? = some 0) ∧
      BinaryOp.shl.apply 0 (.str "abc") (.num (.int SignedWord.least)) = .ok (.str []) := by
  have hx : (Number.int (-5)).integer? = some (-5) := rfl
  have hb : (Number.int SignedWord.least).integer? = some (-2 ^ 63) := rfl
  obtain ⟨⟨_, r, -, hr, -, hnumber⟩, htext⟩ := shifts_exact 0 hx hb
  obtain ⟨l, _, hl, -, -, hbytes⟩ := htext "abc" (by decide)
  refine ⟨hx, hb, ⟨r, hr, (hnumber (by decide)).2.gone (by decide)⟩, ?_⟩
  rw [hl, (hbytes (by decide)).1]
  rfl

end ScriptMachine
