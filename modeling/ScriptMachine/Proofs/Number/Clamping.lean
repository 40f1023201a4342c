import ScriptMachine.Proofs.Number.Arithmetic

set_option autoImplicit false

namespace ScriptMachine

namespace Binary64

theorem withSign_spec (negative : Bool) {n : Nat} (hn : n ≤ infinityBits.toNat) :
    (withSign negative n.toUInt64).signed = negative ∧
      (withSign negative n.toUInt64).magnitude.toNat = n := by
  cases negative with
  | false => exact withSign_false hn
  | true =>
    obtain ⟨hsign, hmagnitude⟩ := withSign_false hn
    have hclear : n.toUInt64 &&& signMask = 0 := by simpa [signed, withSign] using hsign
    have hpart : ∀ m : UInt64,
        (n.toUInt64 ||| signMask) &&& m = (n.toUInt64 &&& m) ||| (signMask &&& m) := fun m =>
      UInt64.toNat_inj.1 (Nat.and_or_distrib_right _ _ _)
    constructor
    · change ((n.toUInt64 ||| signMask) &&& signMask != 0) = true
      rw [hpart, hclear]
      rfl
    · change ((n.toUInt64 ||| signMask) &&& ~~~signMask).toNat = n
      rw [hpart, show signMask &&& ~~~signMask = 0 from rfl, UInt64.or_zero]
      exact hmagnitude

theorem boundBits_le_roundBits {n : Nat} (hn : 2 ^ 63 ≤ n) : boundBits ≤ roundBits (n * unit) 1 := by
  have hlog : 63 ≤ n.log2 := (Nat.le_log2 (by omega)).2 hn
  obtain ⟨k, hk⟩ : ∃ k, n.log2 = 52 + k := ⟨n.log2 - 52, by omega⟩
  have hlow : 2 ^ (52 + k) ≤ n := hk ▸ Nat.log2_self_le (by omega)
  have hhigh : n < 2 ^ (53 + k) := by
    have h := Nat.lt_log2_self (n := n)
    rwa [hk, show 52 + k + 1 = 53 + k by omega] at h
  have hnearest : 2 ^ 52 ≤ nearestEven n (2 ^ k) := by
    have hquotient : 2 ^ 52 ≤ n / 2 ^ k :=
      (Nat.le_div_iff_mul_le (Nat.two_pow_pos k)).2 (by rwa [← Nat.pow_add])
    unfold nearestEven
    dsimp only
    split_ifs <;> omega
  have hbits : infinityBits.toNat = 2047 * leadingBit := rfl
  have hshift : (11 + 1074) * leadingBit ≤ (k + 1074) * leadingBit :=
    Nat.mul_le_mul_right _ (by omega)
  rw [roundBits_integer hlow hhigh, hbits]
  simp only [boundBits, leadingBit, Nat.min_def] at hshift ⊢
  split_ifs <;> omega

theorem absTrunc_large {x : Binary64} (h : boundBits ≤ x.magnitude.toNat) : 2 ^ 63 ≤ x.absTrunc := by
  obtain ⟨e, he⟩ : ∃ e, e = 1085 := ⟨_, rfl⟩
  have hbound : 2 ^ 63 * unit = leadingBit * 2 ^ e := by
    rw [he]
    decide +kernel
  have hexponent : e + 1 ≤ x.magnitude.toNat / leadingBit :=
    (Nat.le_div_iff_mul_le (by decide)).2 (by simpa [he, boundBits, leadingBit] using h)
  rw [absTrunc, Nat.le_div_iff_mul_le unit_pos, hbound]
  unfold absUnits
  dsimp only
  rw [if_neg (by omega), Nat.shiftLeft_eq]
  exact Nat.mul_le_mul (Nat.le_add_right _ _) (Nat.pow_le_pow_right (by decide) (by omega))

end Binary64

namespace Number

/-- A double from 2^63 on, or one up to -2^63, is cut to the word at the end. -/
theorem clampToInt_large {x : Binary64} (h : Binary64.boundBits ≤ x.magnitude.toNat)
    (hfinite : x.magnitude.toNat ≤ Binary64.infinityBits.toNat) :
    clampToInt x = if x.signed then SignedWord.least else SignedWord.greatest := by
  have hnan : x.isNaN = false := decide_eq_false (UInt64.not_lt.2 (UInt64.le_iff_toNat_le.2 hfinite))
  have htrunc := Binary64.absTrunc_large h
  unfold clampToInt
  rw [hnan, if_neg Bool.false_ne_true]
  split
  · rfl
  · unfold Binary64.trunc
    cases x.signed with
    | true =>
      have hcut : max intMin (min intMax (-(x.absTrunc : Int))) = intMin := by
        simp only [intMin, intMax]
        omega
      exact congrArg Int64.ofInt hcut
    | false =>
      have hcut : max intMin (min intMax (x.absTrunc : Int)) = intMax := by
        simp only [intMin, intMax]
        omega
      exact congrArg Int64.ofInt hcut

theorem clampToInt_ofInt {v : Int} (h : ¬(-2 ^ 63 ≤ v ∧ v < 2 ^ 63)) :
    clampToInt (.ofInt v) = if v < 0 then SignedWord.least else SignedWord.greatest := by
  have hlarge := Binary64.boundBits_le_roundBits (n := v.natAbs) (by omega)
  obtain ⟨hsign, hmagnitude⟩ := Binary64.withSign_spec (decide (v < 0))
    (Binary64.roundBits_le_infinity (v.natAbs * Binary64.unit) 1)
  have hclamp := clampToInt_large (x := .ofInt v) (hmagnitude.symm ▸ hlarge)
    (hmagnitude.symm ▸ Binary64.roundBits_le_infinity _ _)
  rw [hclamp, Binary64.ofInt, Binary64.round, hsign]
  simp only [decide_eq_true_eq]

end Number

end ScriptMachine
