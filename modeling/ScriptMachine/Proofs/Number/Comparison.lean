import ScriptMachine.Number.Basic
import Mathlib.Data.Nat.Bitwise
import Mathlib.Tactic.Common

set_option autoImplicit false

namespace ScriptMachine

theorem compare_natCast (x y : Nat) : compare (x : Int) y = compare x y := by
  simp only [compare, compareOfLessAndEq, Int.ofNat_lt, Int.ofNat_inj]

namespace Binary64

theorem nearestEven_mul (num den : Nat) {c : Nat} (hc : 0 < c) :
    nearestEven (num * c) (den * c) = nearestEven num den := by
  have hrem : 2 * (num * c % (den * c)) = 2 * (num % den) * c := by
    rw [Nat.mul_mod_mul_right, Nat.mul_assoc]
  unfold nearestEven
  dsimp only
  rw [hrem, Nat.mul_div_mul_right _ _ hc]
  simp only [Nat.mul_lt_mul_right hc]

theorem nearestEven_le {num den k : Nat} (hden : 0 < den) (h : num < k * den) :
    nearestEven num den ≤ k := by
  have hq : num / den < k := (Nat.div_lt_iff_lt_mul hden).2 h
  unfold nearestEven
  dsimp only
  split
  · omega
  · split
    · omega
    · omega

/-- A number below 2^53 times a power of two is rounded to 53 bits and that power at most. -/
theorem roundBits_le {num k : Nat} (h : num < 2 * leadingBit * 2 ^ k) :
    roundBits num 1 ≤ k * leadingBit + 2 * leadingBit := by
  refine Nat.le_trans (Nat.min_le_right _ _) ?_
  rw [Nat.div_one]
  split
  · rename_i hsmall
    have hle := nearestEven_le (k := 2 * leadingBit) Nat.one_pos (by rwa [Nat.mul_one])
    rw [Nat.zero_mul, Nat.zero_add, Nat.shiftLeft_zero]
    exact Nat.le_trans hle (Nat.le_add_left _ _)
  · rename_i hlarge
    have hpos : num ≠ 0 := by
      rintro rfl
      exact hlarge (by decide)
    have hlower : 53 ≤ num.log2 := (Nat.le_log2 hpos).2 (Nat.not_lt.1 hlarge)
    have hupper : num.log2 < 53 + k := (Nat.log2_lt hpos).2 (by rw [Nat.pow_add]; exact h)
    have hbits : num < 2 * leadingBit * (1 <<< (num.log2 - 52)) := by
      have hsplit : 2 * leadingBit * (1 <<< (num.log2 - 52)) = 2 ^ (num.log2 + 1) := by
        rw [Nat.one_shiftLeft, show 2 * leadingBit = 2 ^ 53 from rfl, ← Nat.pow_add]
        congr 1
        omega
      rw [hsplit]
      exact Nat.lt_log2_self
    have hle := nearestEven_le (by rw [Nat.one_shiftLeft]; exact Nat.two_pow_pos _) hbits
    have hshift : (num.log2 - 52) * leadingBit ≤ k * leadingBit := Nat.mul_le_mul_right _ (by omega)
    omega

theorem unit_eq {e : Nat} (he : e = 1074) : unit = 2 ^ e := by
  rw [← Nat.one_shiftLeft, he]
  rfl

theorem unit_pos : 0 < unit := by decide +kernel

/-- A number of `53 + k` bits is cut to its first 53. -/
theorem roundBits_integer {n k : Nat} (hlow : 2 ^ (52 + k) ≤ n) (hhigh : n < 2 ^ (53 + k)) :
    roundBits (n * unit) 1 =
      Nat.min infinityBits.toNat ((k + 1074) * leadingBit + nearestEven n (2 ^ k)) := by
  obtain ⟨e, he⟩ : ∃ e, e = 1074 := ⟨_, rfl⟩
  have hunit := unit_eq he
  have hpos : n * unit ≠ 0 :=
    Nat.mul_ne_zero (Nat.ne_of_gt (Nat.lt_of_lt_of_le (Nat.two_pow_pos _) hlow))
      (Nat.ne_of_gt unit_pos)
  have hlog : (n * unit).log2 = 52 + k + e := by
    refine (Nat.log2_eq_iff hpos).2 ⟨?_, ?_⟩
    · rw [Nat.pow_add, hunit]
      exact Nat.mul_le_mul_right _ hlow
    · rw [show 52 + k + e + 1 = 53 + k + e by omega, Nat.pow_add, hunit]
      exact Nat.mul_lt_mul_of_pos_right hhigh (Nat.two_pow_pos _)
  have hlarge : ¬n * unit < 2 * leadingBit := by
    refine Nat.not_lt.2 ((Nat.le_log2 (k := 53) hpos).1 ?_)
    omega
  unfold roundBits
  dsimp only
  rw [Nat.div_one, if_neg hlarge, hlog, show 52 + k + e - 52 = k + e by omega, ← he,
    Nat.one_shiftLeft, Nat.pow_add, ← hunit, nearestEven_mul n _ unit_pos]

def boundBits : Nat := 1085 * leadingBit + leadingBit

theorem nearestEven_below {n : Nat} (hlow : 2 ^ 62 ≤ n) (hhigh : n < 2 ^ 63) :
    nearestEven n (2 ^ 10) ≤ 2 ^ 53 ∧ (nearestEven n (2 ^ 10) = 2 ^ 53 ↔ 2 ^ 63 - 512 ≤ n) := by
  unfold nearestEven
  dsimp only
  split_ifs <;> omega

theorem nearestEven_above {n : Nat} (hlow : 2 ^ 63 ≤ n) (hhigh : n < 2 ^ 64) :
    2 ^ 52 ≤ nearestEven n (2 ^ 11) ∧ nearestEven n (2 ^ 11) ≤ 2 ^ 53 ∧
      (nearestEven n (2 ^ 11) = 2 ^ 52 ↔ n ≤ 2 ^ 63 + 1024) := by
  unfold nearestEven
  dsimp only
  split_ifs <;> omega

theorem roundBits_below {n : Nat} (hn : n < 2 ^ 63) :
    roundBits (n * unit) 1 ≤ boundBits ∧
      (roundBits (n * unit) 1 = boundBits ↔ 2 ^ 63 - 512 ≤ n) := by
  rcases Nat.lt_or_ge n (2 ^ 62) with hsmall | hlarge
  · have hbits : n * unit < 2 * leadingBit * 2 ^ 1083 := by
      rw [show 2 * leadingBit * 2 ^ 1083 = 2 ^ 62 * unit by decide +kernel]
      exact Nat.mul_lt_mul_of_pos_right hsmall unit_pos
    have hle := roundBits_le hbits
    simp only [boundBits, leadingBit] at hle ⊢
    omega
  · obtain ⟨hle, heq⟩ := nearestEven_below hlarge hn
    have hbits : infinityBits.toNat = 2047 * leadingBit := rfl
    rw [roundBits_integer (k := 10) hlarge hn, hbits]
    simp only [boundBits, leadingBit, Nat.min_def]
    split_ifs <;> omega

theorem roundBits_above {n : Nat} (hlow : 2 ^ 63 ≤ n) (hhigh : n < 2 ^ 64) :
    boundBits ≤ roundBits (n * unit) 1 ∧ (roundBits (n * unit) 1 = boundBits ↔ n ≤ 2 ^ 63 + 1024) := by
  obtain ⟨hge, hle, heq⟩ := nearestEven_above hlow hhigh
  have hbits : infinityBits.toNat = 2047 * leadingBit := rfl
  rw [roundBits_integer (k := 11) hlow hhigh, hbits]
  simp only [boundBits, leadingBit, Nat.min_def]
  split_ifs <;> omega

theorem roundBits_le_infinity (num den : Nat) : roundBits num den ≤ infinityBits.toNat :=
  Nat.min_le_left _ _

theorem withSign_false {n : Nat} (hn : n ≤ infinityBits.toNat) :
    (withSign false n.toUInt64).signed = false ∧ (withSign false n.toUInt64).magnitude.toNat = n := by
  have hbound : n < 2 ^ 63 := Nat.lt_of_le_of_lt hn (by decide)
  have hword : n.toUInt64.toNat = n := by
    rw [UInt64.toNat_ofNat_of_lt' (Nat.lt_trans hbound (by decide))]
  constructor
  · have hbit : n.toUInt64 &&& signMask = 0 := by
      apply UInt64.toNat_inj.1
      rw [UInt64.toNat_and, hword, show signMask.toNat = 2 ^ 63 from rfl, Nat.and_comm,
        Nat.two_pow_and, Nat.testBit_lt_two_pow hbound]
      rfl
    simp [signed, withSign, hbit]
  · change (n.toUInt64 &&& ~~~signMask).toNat = n
    rw [UInt64.toNat_and, hword, show (~~~signMask).toNat = 2 ^ 63 - 1 from rfl,
      Nat.and_two_pow_sub_one_eq_mod, Nat.mod_eq_of_lt hbound]

theorem compareOrdered_ofInt (x y : Nat) :
    compareOrdered (ofInt x) (ofInt y) = compare (roundBits (x * unit) 1) (roundBits (y * unit) 1) := by
  have hround : ∀ n : Nat, ofInt n = withSign false (roundBits (n * unit) 1).toUInt64 := by
    intro n
    have hsign : decide ((n : Int) < 0) = false := decide_eq_false (by omega)
    rw [ofInt, round, hsign, Int.natAbs_natCast]
  obtain ⟨hx, hx'⟩ := withSign_false (roundBits_le_infinity (x * unit) 1)
  obtain ⟨hy, hy'⟩ := withSign_false (roundBits_le_infinity (y * unit) 1)
  unfold compareOrdered
  rw [hround, hround]
  simp only [hx, hx', hy, hy', Bool.false_eq_true, if_false, compare_natCast]

theorem compareOrdered_across {x y : Nat} (hx : x < 2 ^ 63) (hy : 2 ^ 63 ≤ y) (hy' : y < 2 ^ 64) :
    compareOrdered (ofInt x) (ofInt y) =
      if 2 ^ 63 - 512 ≤ x ∧ y ≤ 2 ^ 63 + 1024 then .eq else .lt := by
  obtain ⟨hle, heq⟩ := roundBits_below hx
  obtain ⟨hge, heq'⟩ := roundBits_above hy hy'
  rw [compareOrdered_ofInt]
  split_ifs with h
  · rw [Nat.compare_eq_eq, heq.2 h.1, heq'.2 h.2]
  · rw [Nat.compare_eq_lt]
    omega

end Binary64

namespace Number

def blurred : Number → Number → Bool
  | .int v, .uint w | .uint w, .int v =>
    2 ^ 63 - 512 ≤ v.toInt && 2 ^ 63 ≤ w.toNat && w.toNat ≤ 2 ^ 63 + 1024
  | _, _ => false

theorem blurred_comm (a b : Number) : blurred b a = blurred a b := by
  cases a <;> cases b <;> rfl

theorem fitsInt_natCast (n : Nat) : fitsInt n = true ↔ n < 2 ^ 63 := by
  rw [fitsInt, Bool.and_eq_true, decide_eq_true_iff, decide_eq_true_iff, intMin, intMax]
  omega

theorem compare?_mixed (v : Int64) (w : UInt64) :
    compare? (.int v) (.uint w) =
      some (if blurred (.int v) (.uint w) then .eq else compare v.toInt w.toNat) := by
  have hv := v.toInt_lt
  unfold compare? pair
  dsimp only
  by_cases hw : w.toNat < 2 ^ 63
  · have hblurred : blurred (.int v) (.uint w) = false := by
      simp only [blurred, Bool.and_eq_false_iff, decide_eq_false_iff_not]
      omega
    rw [if_pos ((fitsInt_natCast _).2 hw), hblurred]
    rfl
  · rw [if_neg fun h => hw ((fitsInt_natCast _).1 h)]
    by_cases hnegative : v < 0
    · have hv' : v.toInt < 0 := Int64.lt_iff_toInt_lt.1 hnegative
      have hblurred : blurred (.int v) (.uint w) = false := by
        simp only [blurred, Bool.and_eq_false_iff, decide_eq_false_iff_not]
        omega
      have hless : compare v.toInt w.toNat = .lt := Int.compare_eq_lt.2 (by omega)
      simp [isNaN, isNegative, isUInt, hnegative, hblurred, hless]
    · have hv' : 0 ≤ v.toInt := Int.not_lt.1 fun h => hnegative (Int64.lt_iff_toInt_lt.2 h)
      obtain ⟨x, hx⟩ := Int.eq_ofNat_of_zero_le hv'
      have hacross := Binary64.compareOrdered_across (x := x) (by omega) (Nat.not_lt.1 hw) w.toNat_lt
      have hless : compare (x : Int) w.toNat = .lt := Int.compare_eq_lt.2 (by omega)
      have hblurred : blurred (.int v) (.uint w) = true ↔
          2 ^ 63 - 512 ≤ x ∧ w.toNat ≤ 2 ^ 63 + 1024 := by
        simp only [blurred, Bool.and_eq_true, decide_eq_true_iff]
        omega
      simp [isNaN, isNegative, isUInt, hnegative, toFloat, hx, hacross, hblurred, hless]

def Pair.swap : Pair → Pair
  | .ints x y => .ints y x
  | .uints x y => .uints y x
  | .floats x y => .floats y x

theorem pair_swap (a b : Number) : pair b a = (pair a b).swap := by
  cases a with
  | int v =>
    cases b with
    | uint w =>
      simp only [pair]
      split <;> rfl
    | _ => rfl
  | uint v =>
    cases b with
    | int w =>
      simp only [pair]
      split <;> rfl
    | _ => rfl
  | float x => cases b <;> rfl

theorem isNegative_of_isUInt {a : Number} (h : a.isUInt = true) : a.isNegative = false := by
  cases a with
  | uint _ => rfl
  | int _ | float _ => cases h

theorem compare?_swap (a b : Number) : compare? b a = (compare? a b).map Ordering.swap := by
  unfold compare?
  rw [pair_swap a b]
  cases pair a b with
  | ints x y => exact congrArg some Std.OrientedCmp.eq_swap
  | uints x y => exact congrArg some Std.OrientedCmp.eq_swap
  | floats x y =>
    have hranks : ∀ i j : Int, compare j i = (compare i j).swap := fun _ _ => Std.OrientedCmp.eq_swap
    have hfloats : y.compareOrdered x = (x.compareOrdered y).swap := hranks _ _
    simp only [Pair.swap, Bool.or_comm b.isNaN, hfloats]
    cases ha : a.isUInt <;> cases hb : b.isUInt <;> split_ifs <;>
      simp_all [isNegative_of_isUInt]

/-- Integer words are compared as the integers they stand for, except that two which both round to
2^63 as doubles, one of either kind, are taken for equal. -/
theorem compare?_integers {a b : Number} {x y : Int} (ha : a.integer? = some x)
    (hb : b.integer? = some y) :
    compare? a b = some (if blurred a b then .eq else compare x y) := by
  cases a with
  | float _ => cases ha
  | int v =>
    cases ha
    cases b with
    | float _ => cases hb
    | int w =>
      cases hb
      rfl
    | uint w =>
      cases hb
      exact compare?_mixed v w
  | uint v =>
    cases ha
    cases b with
    | float _ => cases hb
    | uint w =>
      cases hb
      exact congrArg some (compare_natCast _ _).symm
    | int w =>
      cases hb
      rw [compare?_swap (.int w), compare?_mixed, blurred_comm]
      split_ifs
      · rfl
      · rw [Option.map_some, ← Std.OrientedCmp.eq_swap]

theorem equals_integers {a b : Number} {x y : Int} (ha : a.integer? = some x)
    (hb : b.integer? = some y) : equals a b = true ↔ x = y ∨ blurred a b = true := by
  rw [equals, compare?_integers ha hb, beq_iff_eq, Option.some.injEq]
  split <;> simp [*]

theorem equals_not_transitive :
    equals (ofInt intMax) (ofNat (2 ^ 63)) = true ∧ equals (ofNat (2 ^ 63)) (ofInt (intMax - 1)) = true ∧
      equals (ofInt intMax) (ofInt (intMax - 1)) = false := by
  decide +kernel

end Number

end ScriptMachine
