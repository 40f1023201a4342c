import ScriptMachine.Operator.Binary
import ScriptMachine.Proofs.Number.Comparison

set_option autoImplicit false

/-!
# Arithmetic on integer words

Signed words have no sum, difference or quotient outside of the words, and no quotient by zero: there a
processor overflows or traps. The operators test for that beforehand, with operations on the same words.
Main statement: no test and no operation is ever without a result, and a result that is a word is exact;
doubles come in only where no word of the operands' kind could be the result.
-/
namespace ScriptMachine

namespace SignedWord

def least : Int64 := Int64.ofInt Number.intMin
def greatest : Int64 := Int64.ofInt Number.intMax

def exactly (n : Int) : Option Int64 := if Number.fitsInt n then some (Int64.ofInt n) else none

def add (x y : Int64) : Option Int64 := exactly (x.toInt + y.toInt)
def sub (x y : Int64) : Option Int64 := exactly (x.toInt - y.toInt)
def mul (x y : Int64) : Option Int64 := exactly (x.toInt * y.toInt)
def div (x y : Int64) : Option Int64 := if y = 0 then none else exactly (x.toInt.tdiv y.toInt)

/-- A remainder is there only if the quotient is. -/
def rem (x y : Int64) : Option Int64 :=
  (div x y).map fun _ => Int64.ofInt (x.toInt.tmod y.toInt)

def addOverflows (x y : Int64) : Option Bool := do
  if 0 < y then return decide ((← sub greatest y) < x)
  else if y < 0 then return decide (x < (← sub least y))
  else return false

def subOverflows (x y : Int64) : Option Bool := do
  if y < 0 then return decide ((← add greatest y) < x)
  else if 0 < y then return decide (x < (← add least y))
  else return false

/-- The product is taken around the circle of words and divided back. -/
def mulOverflows (x y : Int64) : Option Bool := do
  if x = 0 ∨ y = 0 then return false
  else if (x = -1 ∧ y = least) ∨ (y = -1 ∧ x = least) then return true
  else return (← div (x * y) y) != x

end SignedWord

namespace Number

/-- Two numbers as the words in which they are combined, if they are. -/
inductive Lane where
  | ints (x y : Int64)
  | uints (x y : UInt64)
  | floats

def fitsSigned : Number → Bool
  | .uint v => v.toNat ≤ intMax
  | _ => true

def lane : Number → Number → Lane
  | .float _, _ | _, .float _ => .floats
  | .uint x, .uint y => .uints x y
  | a, b => if a.fitsSigned && b.fitsSigned then .ints a.toInt b.toInt else .floats

def greatestWord : UInt64 := 0xffffffffffffffff

def addWords (a b : Number) : Option Number := do
  let wide : Number := .float (.add a.toFloat b.toFloat)
  match lane a b with
  | .ints x y =>
    if ← SignedWord.addOverflows x y then return wide else return .int (← SignedWord.add x y)
  | .uints x y => if greatestWord - y < x then return wide else return .uint (x + y)
  | .floats => return wide

def subWords (a b : Number) : Option Number := do
  let wide : Number := .float (.sub a.toFloat b.toFloat)
  match lane a b with
  | .ints x y =>
    if ← SignedWord.subOverflows x y then return wide else return .int (← SignedWord.sub x y)
  | .uints x y =>
    if y ≤ x then return .uint (x - y)
    else if a.fitsSigned && b.fitsSigned then return .int (← SignedWord.sub a.toInt b.toInt)
    else return wide
  | .floats => return wide

def mulWords (a b : Number) : Option Number := do
  let wide : Number := .float (.mul a.toFloat b.toFloat)
  match lane a b with
  | .ints x y =>
    if ← SignedWord.mulOverflows x y then return wide else return .int (← SignedWord.mul x y)
  | .uints x y => if x ≠ 0 ∧ greatestWord / x < y then return wide else return .uint (x * y)
  | .floats => return wide

def divWords (a b : Number) : Option Number := do
  let wide : Number := .float (.div a.toFloat b.toFloat)
  match lane a b with
  | .ints x y =>
    if y = 0 ∨ (x = SignedWord.least ∧ y = -1) then return wide
    else if (← SignedWord.rem x y) = 0 then return .int (← SignedWord.div x y)
    else return wide
  | .uints x y => if y ≠ 0 ∧ x % y = 0 then return .uint (x / y) else return wide
  | .floats => return wide

/-- Unsigned words too have no remainder by zero. -/
def remWords (a b : Number) : Option Number := do
  match lane a b with
  | .ints x y => if y = -1 then return .int 0 else return .int (← SignedWord.rem x y)
  | .uints x y => if y = 0 then none else return .uint (x % y)
  | .floats => return .float (.rem a.toFloat b.toFloat)

end Number

namespace SignedWord

variable {n : Int} {x y : Int64}

theorem toInt_range (x : Int64) : -2 ^ 63 ≤ x.toInt ∧ x.toInt < 2 ^ 63 := ⟨x.le_toInt, x.toInt_lt⟩

theorem fitsInt_iff : Number.fitsInt n = true ↔ -2 ^ 63 ≤ n ∧ n < 2 ^ 63 := by
  rw [Number.fitsInt, Bool.and_eq_true, decide_eq_true_iff, decide_eq_true_iff, Number.intMin,
    Number.intMax]
  omega

theorem toInt_ofInt (h : Number.fitsInt n = true) : (Int64.ofInt n).toInt = n :=
  Int64.toInt_ofInt_of_le (fitsInt_iff.1 h).1 (fitsInt_iff.1 h).2

theorem exactly_eq (h : -2 ^ 63 ≤ n ∧ n < 2 ^ 63) : ∃ z, exactly n = some z ∧ z.toInt = n :=
  ⟨_, if_pos (fitsInt_iff.2 h), toInt_ofInt (fitsInt_iff.2 h)⟩

theorem toInt_least : least.toInt = -2 ^ 63 := rfl

theorem toInt_greatest : greatest.toInt = 2 ^ 63 - 1 := rfl

theorem eq_least_iff : x = least ↔ x.toInt = -2 ^ 63 := Int64.toInt_inj.symm

theorem eq_zero_iff : x = 0 ↔ x.toInt = 0 := Int64.toInt_inj.symm

theorem eq_minus_one_iff : x = -1 ↔ x.toInt = -1 := Int64.toInt_inj.symm

theorem overflow_flag {p : Prop} [Decidable p] (h : p ↔ ¬(-2 ^ 63 ≤ n ∧ n < 2 ^ 63)) :
    decide p = !Number.fitsInt n := by
  rw [Bool.eq_iff_iff, decide_eq_true_iff, Bool.not_eq_true', ← Bool.not_eq_true, fitsInt_iff, h]

theorem addOverflows_eq (x y : Int64) :
    addOverflows x y = some !Number.fitsInt (x.toInt + y.toInt) := by
  have hx := toInt_range x
  have hy := toInt_range y
  unfold addOverflows
  simp only [Int64.lt_iff_toInt_lt, Int64.toInt_zero]
  split_ifs with hpos hneg
  · obtain ⟨z, hz, hval⟩ := exactly_eq (n := greatest.toInt - y.toInt) (by rw [toInt_greatest]; omega)
    rw [toInt_greatest] at hval
    rw [sub, hz]
    exact congrArg some (overflow_flag (by omega))
  · obtain ⟨z, hz, hval⟩ := exactly_eq (n := least.toInt - y.toInt) (by rw [toInt_least]; omega)
    rw [toInt_least] at hval
    rw [sub, hz]
    exact congrArg some (overflow_flag (by omega))
  · have hfits : Number.fitsInt (x.toInt + y.toInt) = true := fitsInt_iff.2 (by omega)
    rw [hfits]
    rfl

theorem subOverflows_eq (x y : Int64) :
    subOverflows x y = some !Number.fitsInt (x.toInt - y.toInt) := by
  have hx := toInt_range x
  have hy := toInt_range y
  unfold subOverflows
  simp only [Int64.lt_iff_toInt_lt, Int64.toInt_zero]
  split_ifs with hneg hpos
  · obtain ⟨z, hz, hval⟩ := exactly_eq (n := greatest.toInt + y.toInt) (by rw [toInt_greatest]; omega)
    rw [toInt_greatest] at hval
    rw [add, hz]
    exact congrArg some (overflow_flag (by omega))
  · obtain ⟨z, hz, hval⟩ := exactly_eq (n := least.toInt + y.toInt) (by rw [toInt_least]; omega)
    rw [toInt_least] at hval
    rw [add, hz]
    exact congrArg some (overflow_flag (by omega))
  · have hfits : Number.fitsInt (x.toInt - y.toInt) = true := fitsInt_iff.2 (by omega)
    rw [hfits]
    rfl

theorem natAbs_tmod_lt {a b : Int} (hb : b ≠ 0) : (a.tmod b).natAbs < b.natAbs := by
  rw [Int.natAbs_tmod]
  exact Nat.mod_lt _ (Int.natAbs_pos.2 hb)

theorem tmod_nonpos {a b : Int} (ha : a ≤ 0) : a.tmod b ≤ 0 := by
  have hneg := Int.tmod_nonneg b (Int.neg_nonneg_of_nonpos ha)
  rw [Int.neg_tmod] at hneg
  omega

theorem tdiv_range (hy : y ≠ 0) (hcorner : ¬(x = least ∧ y = -1)) :
    -2 ^ 63 ≤ x.toInt.tdiv y.toInt ∧ x.toInt.tdiv y.toInt < 2 ^ 63 := by
  rw [eq_least_iff, eq_minus_one_iff] at hcorner
  have hx := toInt_range x
  have hy' := toInt_range y
  have habs : (x.toInt.tdiv y.toInt).natAbs ≤ x.toInt.natAbs := by
    rw [Int.natAbs_tdiv]
    exact Nat.div_le_self _ _
  refine ⟨by omega, ?_⟩
  by_contra hover
  -- Only a quotient of 2^63 is left: the dividend is the least word, and the remainder, not above
  -- zero and smaller than the divisor, leaves minus one for it.
  have hquotient : x.toInt.tdiv y.toInt = 2 ^ 63 := by omega
  have hsum := Int.tdiv_mul_add_tmod x.toInt y.toInt
  have hsmall := natAbs_tmod_lt (a := x.toInt) (mt eq_zero_iff.2 hy)
  have hsign := tmod_nonpos (b := y.toInt) (show x.toInt ≤ 0 by omega)
  rw [hquotient] at hsum
  omega

theorem div_eq (hy : y ≠ 0) (hcorner : ¬(x = least ∧ y = -1)) :
    ∃ z, div x y = some z ∧ z.toInt = x.toInt.tdiv y.toInt := by
  rw [div, if_neg hy]
  exact exactly_eq (tdiv_range hy hcorner)

theorem rem_eq (hy : y ≠ 0) (hcorner : ¬(x = least ∧ y = -1)) :
    ∃ z, rem x y = some z ∧ z.toInt = x.toInt.tmod y.toInt := by
  obtain ⟨q, hq, -⟩ := div_eq hy hcorner
  have hsmall := natAbs_tmod_lt (a := x.toInt) (mt eq_zero_iff.2 hy)
  have hy' := toInt_range y
  refine ⟨Int64.ofInt (x.toInt.tmod y.toInt), by rw [rem, hq]; rfl, ?_⟩
  exact toInt_ofInt (fitsInt_iff.2 (by omega))

theorem toInt_mul (h : -2 ^ 63 ≤ x.toInt * y.toInt ∧ x.toInt * y.toInt < 2 ^ 63) :
    (x * y).toInt = x.toInt * y.toInt := by
  rw [Int64.toInt_mul]
  exact Int.bmod_eq_of_le (by omega) (by omega)

/-- A product around the circle divides back to its factor only if it has not gone around. -/
theorem tdiv_mul_eq_iff (hy : y ≠ 0) :
    (x * y).toInt.tdiv y.toInt = x.toInt ↔
      -2 ^ 63 ≤ x.toInt * y.toInt ∧ x.toInt * y.toInt < 2 ^ 63 := by
  have hnonzero := mt eq_zero_iff.2 hy
  constructor
  · intro hback
    have hsum := Int.tdiv_mul_add_tmod (x * y).toInt y.toInt
    have hsmall := natAbs_tmod_lt (a := (x * y).toInt) hnonzero
    have hy' := toInt_range y
    have hword := toInt_range (x * y)
    have hcircle : ((2 ^ 64 : Nat) : Int) ∣ (x * y).toInt - x.toInt * y.toInt := by
      rw [Int64.toInt_mul]
      exact Int.dvd_bmod_sub_self
    rw [hback] at hsum
    have hexact : (x * y).toInt - x.toInt * y.toInt = 0 :=
      Int.eq_zero_of_dvd_of_natAbs_lt_natAbs hcircle (by omega)
    omega
  · intro hrange
    rw [toInt_mul hrange]
    exact Int.mul_tdiv_cancel _ hnonzero

theorem mulOverflows_eq (x y : Int64) :
    mulOverflows x y = some !Number.fitsInt (x.toInt * y.toInt) := by
  unfold mulOverflows
  split_ifs with hzero hcorner
  · have hproduct : x.toInt * y.toInt = 0 := by
      rw [Int.mul_eq_zero, ← eq_zero_iff, ← eq_zero_iff]
      exact hzero
    rw [hproduct]
    rfl
  · have hproduct : x.toInt * y.toInt = 2 ^ 63 := by
      obtain ⟨rfl, rfl⟩ | ⟨rfl, rfl⟩ := hcorner <;> rfl
    rw [hproduct]
    rfl
  · obtain ⟨hx, hy⟩ := not_or.1 hzero
    obtain ⟨-, hleast⟩ := not_or.1 hcorner
    have hdivisible : ¬(x * y = least ∧ y = -1) := by
      rintro ⟨hproduct, rfl⟩
      refine hleast ⟨rfl, ?_⟩
      calc x = x * -1 * -1 := by rw [Int64.mul_assoc]; exact (Int64.mul_one x).symm
        _ = least := by rw [hproduct]; rfl
    obtain ⟨q, hq, hval⟩ := div_eq hy hdivisible
    rw [hq]
    refine congrArg some ?_
    rw [Bool.eq_iff_iff, bne_iff_ne, Bool.not_eq_true', ← Bool.not_eq_true, fitsInt_iff, Ne,
      ← Int64.toInt_inj, hval, tdiv_mul_eq_iff hy]

end SignedWord

namespace Number

theorem fitsSigned_int (v : Int64) : (int v).fitsSigned = true := rfl

theorem fitsSigned_uint (v : UInt64) : (uint v).fitsSigned = fitsInt v.toNat := by
  have hlow : intMin ≤ (v.toNat : Int) := Int.le_trans (by decide) (Int.natCast_nonneg _)
  rw [fitsInt, decide_eq_true hlow, Bool.true_and]
  rfl

theorem toInt_toInt64 {v : UInt64} (h : fitsInt v.toNat = true) : v.toInt64.toInt = v.toNat := by
  have hrange := SignedWord.fitsInt_iff.1 h
  rw [← Int64.toInt_toBitVec, UInt64.toBitVec_toInt64, BitVec.toInt_eq_toNat_of_lt]
  · rfl
  · rw [UInt64.toNat_toBitVec]
    omega

theorem pair_lane (a b : Number) :
    pair a b = match lane a b with
      | .ints x y => .ints x.toInt y.toInt
      | .uints x y => .uints x.toNat y.toNat
      | .floats => .floats a.toFloat b.toFloat := by
  cases a with
  | float x => cases b <;> rfl
  | int x =>
    cases b with
    | int y => rfl
    | float y => rfl
    | uint y =>
      simp only [pair, lane, fitsSigned_uint, fitsSigned_int, Bool.true_and]
      split_ifs with h
      · simp only [toInt, toInt_toInt64 h]
      · rfl
  | uint x =>
    cases b with
    | uint y => rfl
    | float y => rfl
    | int y =>
      simp only [pair, lane, fitsSigned_uint, fitsSigned_int, Bool.and_true]
      split_ifs with h
      · simp only [toInt, toInt_toInt64 h]
      · rfl

/-- In the signed lane both words stand for the numbers themselves. -/
theorem lane_ints {a b : Number} {x y : Int64} (h : lane a b = .ints x y) :
    a.integer? = some x.toInt ∧ b.integer? = some y.toInt := by
  cases a with
  | float => cases b <;> cases h
  | int =>
    cases b with
    | float => cases h
    | int =>
      cases h
      exact ⟨rfl, rfl⟩
    | uint v =>
      simp only [lane, fitsSigned_uint, fitsSigned_int, Bool.true_and] at h
      split_ifs at h with hfits
      cases h
      exact ⟨rfl, congrArg some (toInt_toInt64 hfits).symm⟩
  | uint v =>
    cases b with
    | float => cases h
    | int =>
      simp only [lane, fitsSigned_uint, fitsSigned_int, Bool.and_true] at h
      split_ifs at h with hfits
      cases h
      exact ⟨congrArg some (toInt_toInt64 hfits).symm, rfl⟩
    | uint => cases h

theorem lane_uints {a b : Number} {x y : UInt64} (h : lane a b = .uints x y) :
    a = .uint x ∧ b = .uint y := by
  cases a with
  | float => cases b <;> cases h
  | int =>
    cases b with
    | float => cases h
    | int =>
      simp only [lane] at h
      split_ifs at h
    | uint =>
      simp only [lane] at h
      split_ifs at h
  | uint =>
    cases b with
    | float => cases h
    | int =>
      simp only [lane] at h
      split_ifs at h
    | uint =>
      cases h
      exact ⟨rfl, rfl⟩

theorem int_ofInt {z : Int64} {n : Int} (h : z.toInt = n) : Number.int z = ofInt n := by
  rw [ofInt, ← h, Int64.ofInt_toInt]

theorem uint_ofNat {z : UInt64} {n : Nat} (h : z.toNat = n) : Number.uint z = ofNat n := by
  rw [ofNat, ← h, UInt64.ofNat_toNat]

theorem intOr_exactly (n : Int) (wide : Binary64) :
    (if (!fitsInt n) = true then some (.float wide)
      else (SignedWord.exactly n).bind fun z => some (.int z)) = some (intOr n wide) := by
  rw [intOr]
  by_cases hfits : fitsInt n = true
  · obtain ⟨z, hz, hval⟩ := SignedWord.exactly_eq (SignedWord.fitsInt_iff.1 hfits)
    rw [hz, hfits, if_neg (by decide), if_pos rfl, Option.bind_some, int_ofInt hval]
  · rw [Bool.not_eq_true] at hfits
    rw [hfits]
    rfl

theorem uintOr_checked {p : Prop} [Decidable p] {z : UInt64} {n : Nat} (wide : Binary64)
    (htest : p ↔ ¬n ≤ uintMax) (hword : n ≤ uintMax → z.toNat = n) :
    (if p then some (.float wide) else some (Number.uint z)) = some (uintOr n wide) := by
  rw [uintOr]
  by_cases hfits : n ≤ uintMax
  · rw [if_neg (by rw [htest]; exact not_not_intro hfits), if_pos hfits, uint_ofNat (hword hfits)]
  · rw [if_pos (htest.2 hfits), if_neg hfits]

theorem toNat_greatestWord : greatestWord.toNat = uintMax := rfl

theorem toNat_le (v : UInt64) : v.toNat ≤ uintMax := Nat.le_of_lt_succ v.toNat_lt

theorem le_greatestWord (v : UInt64) : v ≤ greatestWord := UInt64.le_iff_toNat_le.2 (toNat_le v)

theorem addWords_eq (a b : Number) : addWords a b = some (add a b) := by
  simp only [addWords, add, pair_lane]
  cases lane a b with
  | floats => rfl
  | ints x y =>
    simp only [SignedWord.addOverflows_eq]
    exact intOr_exactly _ _
  | uints x y =>
    refine uintOr_checked _ ?_ fun hfits => ?_
    · have hy := toNat_le y
      rw [UInt64.lt_iff_toNat_lt, UInt64.toNat_sub_of_le _ _ (le_greatestWord y), toNat_greatestWord]
      omega
    · rw [UInt64.toNat_add]
      exact Nat.mod_eq_of_lt (Nat.lt_succ_of_le hfits)

theorem subWords_eq (a b : Number) : subWords a b = some (sub a b) := by
  simp only [subWords, sub, pair_lane]
  cases hlane : lane a b with
  | floats => rfl
  | ints x y =>
    simp only [SignedWord.subOverflows_eq]
    exact intOr_exactly _ _
  | uints x y =>
    obtain ⟨rfl, rfl⟩ := lane_uints hlane
    simp only [UInt64.le_iff_toNat_le, fitsSigned_uint]
    split_ifs with hle hfits
    · exact congrArg some (uint_ofNat (UInt64.toNat_sub_of_le x y (UInt64.le_iff_toNat_le.2 hle)))
    · rw [Bool.and_eq_true] at hfits
      have hx := SignedWord.fitsInt_iff.1 hfits.1
      have hy := SignedWord.fitsInt_iff.1 hfits.2
      obtain ⟨z, hz, hval⟩ := SignedWord.exactly_eq (n := x.toNat - y.toNat) (by omega)
      simp only [SignedWord.sub, toInt, toInt_toInt64 hfits.1, toInt_toInt64 hfits.2, hz]
      exact congrArg some (int_ofInt hval)
    · rfl

theorem mulWords_eq (a b : Number) : mulWords a b = some (mul a b) := by
  simp only [mulWords, mul, pair_lane]
  cases lane a b with
  | floats => rfl
  | ints x y =>
    simp only [SignedWord.mulOverflows_eq]
    exact intOr_exactly _ _
  | uints x y =>
    refine uintOr_checked _ ?_ fun hfits => ?_
    · rw [UInt64.lt_iff_toNat_lt, UInt64.toNat_div, toNat_greatestWord, Ne, ← UInt64.toNat_inj]
      obtain hzero | hpos := Nat.eq_zero_or_pos x.toNat
      · simp [hzero]
      · rw [Nat.div_lt_iff_lt_mul hpos, Nat.mul_comm, Nat.not_le]
        exact and_iff_right (Nat.ne_of_gt hpos)
    · rw [UInt64.toNat_mul]
      exact Nat.mod_eq_of_lt (Nat.lt_succ_of_le hfits)

theorem divWords_eq (a b : Number) : divWords a b = some (div a b) := by
  simp only [divWords, div, pair_lane]
  cases lane a b with
  | floats => rfl
  | ints x y =>
    have hzero : y = 0 ↔ y.toInt = 0 := SignedWord.eq_zero_iff
    have hleast : x = SignedWord.least ↔ x.toInt = intMin := SignedWord.eq_least_iff
    have hminus : y = -1 ↔ y.toInt = -1 := SignedWord.eq_minus_one_iff
    simp only [ne_eq, ← hzero, ← hleast, ← hminus]
    by_cases hguard : y = 0 ∨ (x = SignedWord.least ∧ y = -1)
    · rw [if_pos hguard, if_neg (by tauto)]
      rfl
    · obtain ⟨hy, hcorner⟩ := not_or.1 hguard
      obtain ⟨q, hq, hquotient⟩ := SignedWord.div_eq hy hcorner
      obtain ⟨r, hr, hremainder⟩ := SignedWord.rem_eq hy hcorner
      rw [if_neg hguard, hr, hq]
      simp only [Option.bind_eq_bind, Option.bind_some, SignedWord.eq_zero_iff (x := r), hremainder]
      by_cases hexact : x.toInt.tmod y.toInt = 0
      · rw [if_pos hexact, if_pos ⟨hy, hcorner, hexact⟩]
        exact congrArg some (int_ofInt hquotient)
      · rw [if_neg hexact, if_neg fun h => hexact h.2.2]
        rfl
  | uints x y =>
    simp only [ne_eq, ← UInt64.toNat_inj, UInt64.toNat_mod, UInt64.toNat_zero]
    split_ifs
    · exact congrArg some (uint_ofNat (UInt64.toNat_div x y))
    · rfl

theorem isZero_iff {b : Number} {y : Int} (hb : b.integer? = some y) : b.isZero = true ↔ y = 0 := by
  cases b with
  | float => cases hb
  | int v =>
    cases hb
    exact beq_iff_eq.trans SignedWord.eq_zero_iff
  | uint v =>
    cases hb
    exact beq_iff_eq.trans (UInt64.toNat_inj.symm.trans Int.natCast_eq_zero.symm)

theorem remWords_eq {a b : Number} (hb : b.isZero = false) : remWords a b = some (rem a b) := by
  simp only [remWords, rem, pair_lane]
  cases hlane : lane a b with
  | floats => rfl
  | ints x y =>
    have hminus : y = -1 ↔ y.toInt = -1 := SignedWord.eq_minus_one_iff
    simp only [← hminus]
    split_ifs with hy
    · rfl
    · have hzero : y ≠ 0 := by
        rw [Ne, SignedWord.eq_zero_iff, ← isZero_iff (lane_ints hlane).2, hb]
        decide
      obtain ⟨r, hr, hremainder⟩ := SignedWord.rem_eq (x := x) hzero fun h => hy h.2
      rw [hr]
      exact congrArg some (int_ofInt hremainder)
  | uints x y =>
    obtain ⟨rfl, rfl⟩ := lane_uints hlane
    have hzero : y ≠ 0 := by
      rintro rfl
      cases hb
    simp only [if_neg hzero]
    exact congrArg some (uint_ofNat (UInt64.toNat_mod x y))

/-- A signed word beside an unsigned one beyond the signed ones. -/
def mixed : Number → Number → Bool
  | .int _, .uint v | .uint v, .int _ => intMax < v.toNat
  | _, _ => false

/-- Whether the operands' common kind has a word for `n`. -/
def fitsCommon : Number → Number → Int → Bool
  | .uint _, .uint _, n => 0 ≤ n && n ≤ uintMax
  | _, _, n => fitsInt n

/-- Either `n` itself, or a double where there was no word for `n`. -/
def ExactOrWide (a b : Number) (n : Int) (r : Number) : Prop :=
  r.integer? = some n ∨ r.isFloat = true ∧ (mixed a b = true ∨ fitsCommon a b n = false)

/-- What the operators make of two integer words that stand for `x` and `y`. -/
structure IntegerLaws (a b : Number) (x y : Int) : Prop where
  sum : ExactOrWide a b (x + y) (add a b)
  difference : ExactOrWide a b (x - y) (sub a b)
  product : ExactOrWide a b (x * y) (mul a b)
  quotient : y ≠ 0 →
    (∃ q, (div a b).integer? = some q ∧ q * y = x) ∨
      (div a b).isFloat = true ∧ (mixed a b = true ∨ ¬y ∣ x ∨ x = intMin ∧ y = -1)
  remainder : y ≠ 0 → mixed a b = false →
    ∃ r k, (rem a b).integer? = some r ∧ x = k * y + r ∧ r.natAbs < y.natAbs ∧
      (r = 0 ∨ r.sign = x.sign)

/-- No overflow and no trap: on words the operators come to the same numbers. Only a remainder by zero
would trap, and the operator of the language refuses it before. -/
structure CarriedOut (a b : Number) (y : Int) : Prop where
  sum : addWords a b = some (add a b)
  difference : subWords a b = some (sub a b)
  product : mulWords a b = some (mul a b)
  quotient : divWords a b = some (div a b)
  remainder : y ≠ 0 → remWords a b = some (rem a b)
  refused : y = 0 → ∃ fault, Coercion.remainder a b = .error fault

variable {a b : Number} {x y : Int}

theorem integer_ofInt {n : Int} (h : fitsInt n = true) : (ofInt n).integer? = some n :=
  congrArg some (SignedWord.toInt_ofInt h)

theorem integer_ofNat {n : Nat} (h : n ≤ uintMax) : (ofNat n).integer? = some (n : Int) :=
  congrArg (fun k : Nat => some (k : Int)) (UInt64.toNat_ofNat_of_lt (Nat.lt_succ_of_le h))

theorem intOr_law {n : Int} (wide : Binary64) (hcommon : fitsCommon a b n = fitsInt n) :
    ExactOrWide a b n (intOr n wide) := by
  rw [intOr]
  by_cases hfits : fitsInt n = true
  · rw [if_pos hfits]
    exact .inl (integer_ofInt hfits)
  · rw [if_neg hfits]
    exact .inr ⟨rfl, .inr (by rw [hcommon]; exact Bool.not_eq_true _ ▸ hfits)⟩

theorem uintOr_law {n : Nat} (wide : Binary64) (v w : UInt64) :
    ExactOrWide (.uint v) (.uint w) n (uintOr n wide) := by
  rw [uintOr]
  by_cases hfits : n ≤ uintMax
  · rw [if_pos hfits]
    exact .inl (integer_ofNat hfits)
  · rw [if_neg hfits]
    refine .inr ⟨rfl, .inr ?_⟩
    rw [fitsCommon, Bool.and_eq_false_iff]
    exact .inr (decide_eq_false (mt Int.ofNat_le.1 hfits))

theorem wide_law {n : Int} (r : Binary64) (h : mixed a b = true) : ExactOrWide a b n (.float r) :=
  .inr ⟨rfl, .inl h⟩

theorem mixed_of_not_fitsSigned {v : UInt64} (h : ¬fitsInt v.toNat = true) : intMax < v.toNat := by
  rw [← fitsSigned_uint, fitsSigned, decide_eq_true_iff] at h
  exact Int.not_le.1 h

/-- Two integer words are combined as doubles only if they are mixed. -/
theorem lane_floats (ha : a.integer? = some x) (hb : b.integer? = some y)
    (h : lane a b = .floats) : mixed a b = true := by
  cases a with
  | float => cases ha
  | int =>
    cases b with
    | float => cases hb
    | int => cases h
    | uint w =>
      simp only [lane, fitsSigned_uint, fitsSigned_int, Bool.true_and] at h
      split_ifs at h with hfits
      exact decide_eq_true (mixed_of_not_fitsSigned hfits)
  | uint v =>
    cases b with
    | float => cases hb
    | int =>
      simp only [lane, fitsSigned_uint, fitsSigned_int, Bool.and_true] at h
      split_ifs at h with hfits
      exact decide_eq_true (mixed_of_not_fitsSigned hfits)
    | uint => cases h

theorem fitsCommon_ints {v w : Int64} (h : lane a b = .ints v w) (n : Int) :
    fitsCommon a b n = fitsInt n := by
  cases a with
  | uint =>
    cases b with
    | uint => cases h
    | int => rfl
    | float => rfl
  | int => rfl
  | float => rfl

theorem lane_cases (ha : a.integer? = some x) (hb : b.integer? = some y) :
    (lane a b = .floats ∧ mixed a b = true) ∨
      (∃ v w : Int64, lane a b = .ints v w ∧ x = v.toInt ∧ y = w.toInt ∧
        ∀ n, fitsCommon a b n = fitsInt n) ∨
      ∃ v w : UInt64, a = .uint v ∧ b = .uint w ∧ x = v.toNat ∧ y = w.toNat := by
  cases hlane : lane a b with
  | floats => exact .inl ⟨rfl, lane_floats ha hb hlane⟩
  | ints v w =>
    obtain ⟨hv, hw⟩ := lane_ints hlane
    exact .inr (.inl ⟨v, w, rfl, Option.some.inj (ha.symm.trans hv),
      Option.some.inj (hb.symm.trans hw), fitsCommon_ints hlane⟩)
  | uints v w =>
    obtain ⟨rfl, rfl⟩ := lane_uints hlane
    exact .inr (.inr ⟨v, w, rfl, rfl, (Option.some.inj ha).symm, (Option.some.inj hb).symm⟩)

theorem add_law (ha : a.integer? = some x) (hb : b.integer? = some y) :
    ExactOrWide a b (x + y) (add a b) := by
  obtain ⟨hlane, hmixed⟩ | ⟨v, w, hlane, rfl, rfl, hcommon⟩ | ⟨v, w, rfl, rfl, rfl, rfl⟩ :=
    lane_cases ha hb
  · simp only [add, pair_lane, hlane]
    exact wide_law _ hmixed
  · simp only [add, pair_lane, hlane]
    exact intOr_law _ (hcommon _)
  · exact uintOr_law _ v w

theorem mul_law (ha : a.integer? = some x) (hb : b.integer? = some y) :
    ExactOrWide a b (x * y) (mul a b) := by
  obtain ⟨hlane, hmixed⟩ | ⟨v, w, hlane, rfl, rfl, hcommon⟩ | ⟨v, w, rfl, rfl, rfl, rfl⟩ :=
    lane_cases ha hb
  · simp only [mul, pair_lane, hlane]
    exact wide_law _ hmixed
  · simp only [mul, pair_lane, hlane]
    exact intOr_law _ (hcommon _)
  · exact uintOr_law _ v w

theorem sub_law (ha : a.integer? = some x) (hb : b.integer? = some y) :
    ExactOrWide a b (x - y) (sub a b) := by
  obtain ⟨hlane, hmixed⟩ | ⟨v, w, hlane, rfl, rfl, hcommon⟩ | ⟨v, w, rfl, rfl, rfl, rfl⟩ :=
    lane_cases ha hb
  · simp only [sub, pair_lane, hlane]
    exact wide_law _ hmixed
  · simp only [sub, pair_lane, hlane]
    exact intOr_law _ (hcommon _)
  · simp only [sub, pair]
    split_ifs with hle hfits
    · rw [← Int.ofNat_sub hle]
      exact .inl (integer_ofNat (Nat.le_trans (Nat.sub_le _ _) (toNat_le v)))
    · rw [Bool.and_eq_true] at hfits
      have hv := SignedWord.fitsInt_iff.1 hfits.1
      have hw := SignedWord.fitsInt_iff.1 hfits.2
      exact .inl (integer_ofInt (SignedWord.fitsInt_iff.2 (by omega)))
    · refine .inr ⟨rfl, .inr ?_⟩
      rw [fitsCommon, Bool.and_eq_false_iff]
      exact .inl (decide_eq_false (by omega))

theorem div_law (ha : a.integer? = some x) (hb : b.integer? = some y) (hy : y ≠ 0) :
    (∃ q, (div a b).integer? = some q ∧ q * y = x) ∨
      (div a b).isFloat = true ∧ (mixed a b = true ∨ ¬y ∣ x ∨ x = intMin ∧ y = -1) := by
  obtain ⟨hlane, hmixed⟩ | ⟨v, w, hlane, rfl, rfl, hcommon⟩ | ⟨v, w, rfl, rfl, rfl, rfl⟩ :=
    lane_cases ha hb
  · simp only [div, pair_lane, hlane]
    exact .inr ⟨rfl, .inl hmixed⟩
  · simp only [div, pair_lane, hlane]
    split_ifs with hexact
    · obtain ⟨-, hcorner, hzero⟩ := hexact
      have hrange := SignedWord.tdiv_range (x := v) (mt SignedWord.eq_zero_iff.1 hy)
        (by rw [SignedWord.eq_least_iff, SignedWord.eq_minus_one_iff]; exact hcorner)
      exact .inl ⟨_, integer_ofInt (SignedWord.fitsInt_iff.2 hrange),
        Int.tdiv_mul_cancel_of_tmod_eq_zero hzero⟩
    · refine .inr ⟨rfl, .inr ?_⟩
      rw [Int.dvd_iff_tmod_eq_zero]
      tauto
  · simp only [div, pair]
    split_ifs with hexact
    · refine .inl ⟨_, integer_ofNat (Nat.le_trans (Nat.div_le_self _ _) (toNat_le v)), ?_⟩
      exact congrArg Nat.cast (Nat.div_mul_cancel (Nat.dvd_of_mod_eq_zero hexact.2))
    · refine .inr ⟨rfl, .inr (.inl fun hdvd => hexact ⟨?_, ?_⟩)⟩
      · exact fun hzero => hy (congrArg Nat.cast hzero)
      · exact Nat.mod_eq_zero_of_dvd (Int.natCast_dvd_natCast.1 hdvd)

theorem tmod_law (x : Int) (hy : y ≠ 0) :
    x = x.tdiv y * y + x.tmod y ∧ (x.tmod y).natAbs < y.natAbs ∧
      (x.tmod y = 0 ∨ (x.tmod y).sign = x.sign) := by
  refine ⟨(Int.tdiv_mul_add_tmod x y).symm, SignedWord.natAbs_tmod_lt hy, ?_⟩
  by_cases hdvd : y ∣ x
  · exact .inl (Int.dvd_iff_tmod_eq_zero.1 hdvd)
  · exact .inr (by rw [Int.sign_tmod, if_neg hdvd])

theorem rem_law (ha : a.integer? = some x) (hb : b.integer? = some y) (hy : y ≠ 0)
    (hmixed : mixed a b = false) :
    ∃ r k, (rem a b).integer? = some r ∧ x = k * y + r ∧ r.natAbs < y.natAbs ∧
      (r = 0 ∨ r.sign = x.sign) := by
  obtain ⟨-, hfloats⟩ | ⟨v, w, hlane, rfl, rfl, -⟩ | ⟨v, w, rfl, rfl, rfl, rfl⟩ := lane_cases ha hb
  · cases hmixed.symm.trans hfloats
  · simp only [rem, pair_lane, hlane]
    split_ifs with hminus
    · rw [hminus]
      exact ⟨0, -v.toInt, rfl, by omega, by decide, .inl rfl⟩
    · have hsmall := SignedWord.natAbs_tmod_lt (a := v.toInt) hy
      have hw := SignedWord.toInt_range w
      exact ⟨_, _, integer_ofInt (SignedWord.fitsInt_iff.2 (by omega)), tmod_law _ hy⟩
  · refine ⟨_, (v.toNat : Int).tdiv w.toNat, ?_, tmod_law _ hy⟩
    exact integer_ofNat (Nat.le_trans (Nat.mod_le _ _) (toNat_le v))

/-- Sums, differences and products are exact or wide, a quotient is exact or wide, a remainder takes the
sign of the dividend, and no step on the way overflows. -/
theorem integer_arithmetic (ha : a.integer? = some x) (hb : b.integer? = some y) :
    IntegerLaws a b x y ∧ CarriedOut a b y := by
  refine ⟨⟨add_law ha hb, sub_law ha hb, mul_law ha hb, div_law ha hb, rem_law ha hb⟩,
    addWords_eq a b, subWords_eq a b, mulWords_eq a b, divWords_eq a b, fun hy => ?_, fun hy => ?_⟩
  · refine remWords_eq ?_
    rw [← Bool.not_eq_true, isZero_iff hb]
    exact hy
  · exact ⟨_, if_pos ((isZero_iff hb).2 hy)⟩

/-- The least signed word over minus one, which has no quotient. -/
theorem integer_arithmetic_least :
    IntegerLaws (.int SignedWord.least) (.int (-1)) (-2 ^ 63) (-1) ∧
      CarriedOut (.int SignedWord.least) (.int (-1)) (-1) :=
  integer_arithmetic rfl rfl

end Number

end ScriptMachine
