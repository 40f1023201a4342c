import ScriptMachine.Text
import Mathlib.Data.List.TakeWhile

set_option autoImplicit false

namespace ScriptMachine

namespace Text

/-- A text of decimal digits only. -/
def Digits (t : Text) : Prop := ∀ b ∈ t, isDigit b = true

theorem Digits.nil : Digits [] := fun _ h => absurd h List.not_mem_nil

theorem Digits.append {s t : Text} (hs : Digits s) (ht : Digits t) : Digits (s ++ t) := fun b hb =>
  (List.mem_append.1 hb).elim (hs b) (ht b)

theorem digits_takeWhile (t : Text) : Digits (t.takeWhile isDigit) := fun _ hb =>
  List.mem_takeWhile_imp hb

theorem digitByte_spec {d : Nat} (h : d < 10) :
    isDigit (digitByte d) = true ∧ digitValue (digitByte d) = d := by
  have hall : ∀ d < 10, isDigit (digitByte d) = true ∧ digitValue (digitByte d) = d := by decide
  exact hall d h

theorem exists_digitByte {b : UInt8} (h : isDigit b = true) : ∃ d < 10, b = digitByte d := by
  obtain ⟨hlow, hhigh⟩ := Bool.and_eq_true_iff.1 h
  have hlow' : 48 ≤ b.toNat := UInt8.le_iff_toNat_le.1 (of_decide_eq_true hlow)
  have hhigh' : b.toNat ≤ 57 := UInt8.le_iff_toNat_le.1 (of_decide_eq_true hhigh)
  refine ⟨b.toNat - 48, by omega, ?_⟩
  rw [digitByte, Nat.add_sub_cancel' hlow']
  exact UInt8.ofNat_toNat.symm

theorem natValue_concat (ds : Text) (b : UInt8) :
    natValue (ds ++ [b]) = 10 * natValue ds + digitValue b := by
  rw [natValue, List.foldl_append]
  rfl

theorem ofNat_ne_nil (n : Nat) : ofNat n ≠ [] := by
  rw [ofNat]
  split <;> simp

theorem digits_ofNat (n : Nat) : Digits (ofNat n) := by
  induction n using ofNat.induct with
  | case1 n hsmall =>
    rw [ofNat, if_pos hsmall]
    intro b hb
    rw [List.mem_singleton.1 hb]
    exact (digitByte_spec hsmall).1
  | case2 n hlarge ih =>
    rw [ofNat, if_neg hlarge]
    refine ih.append fun b hb => ?_
    rw [List.mem_singleton.1 hb]
    exact (digitByte_spec (Nat.mod_lt n (by decide))).1

@[simp] theorem natValue_ofNat (n : Nat) : natValue (ofNat n) = n := by
  induction n using ofNat.induct with
  | case1 n hsmall =>
    rw [ofNat, if_pos hsmall]
    exact (Nat.zero_add _).trans (digitByte_spec hsmall).2
  | case2 n hlarge ih =>
    rw [ofNat, if_neg hlarge, natValue_concat, ih, (digitByte_spec (Nat.mod_lt n (by decide))).2]
    exact Nat.div_add_mod n 10

end Text

end ScriptMachine
