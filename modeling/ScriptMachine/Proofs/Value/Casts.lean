import ScriptMachine.Builtins.StandardModule
import ScriptMachine.Proofs.Number.Arithmetic
import ScriptMachine.Proofs.Value.Entries

set_option autoImplicit false

/-!
# Casts

A cast gives a value of the type or a cast error, and leaves alone what is of the type already; so a
second cast changes nothing. A map survives being made a list of pairs, because its keys are distinct.
Integers keep their value or are refused, but for one gap: an unsigned word from 2^63 on is cast to the
signed words without a check and comes out smaller by 2^64.
-/
namespace ScriptMachine

namespace DeclaredType

def Typed (t : DeclaredType) (r : Except Fault Value) : Prop :=
  match r with
  | .ok w => t.matches w = true
  | .error f => f.kind = .castError

theorem castFault_typed (t u : DeclaredType) (v : Value) : Typed t (castFault u v) := rfl

theorem cast_typed (t : DeclaredType) (v : Value) : Typed t (t.cast v) := by
  cases t with
  | any | none | string => rfl
  | bool | list =>
    simp only [cast]
    split
    · exact castFault_typed _ _ v
    · rfl
  | number | int | float | map =>
    simp only [cast]
    split
    · rfl
    · exact castFault_typed _ _ v
  | uint =>
    simp only [cast]
    split
    · split
      · exact castFault_typed _ _ v
      · rfl
    · exact castFault_typed _ _ v
  | error =>
    cases v with
    | error f | str t => rfl
    | _ => exact castFault_typed _ _ _
  | custom name =>
    simp only [cast]
    split
    · assumption
    · exact castFault_typed _ _ v

theorem cast_eq_self {t : DeclaredType} {v : Value} (h : t.matches v = true) : t.cast v = .ok v := by
  cases t with
  | any => rfl
  | custom name => exact if_pos h
  | int | uint | float =>
    cases v with
    | num n =>
      cases n <;> first | rfl | cases h
    | _ => cases h
  | none | bool | number | string | list | map | error =>
    cases v <;> first | rfl | cases h

theorem map_toEntry (m : Entries) : (toItems (.map m)).map toEntry = m := by
  simp [toItems, Function.comp_def, toEntry]

theorem cast_list_map {m : Entries} (h : Entries.Distinct m) :
    DeclaredType.list.cast (.map m) >>= DeclaredType.map.cast = .ok (.map m) := by
  have hmap : DeclaredType.map.cast (.list (toItems (.map m))) =
      .ok (.map (Entries.ofPairs ((toItems (.map m)).map toEntry))) := rfl
  rw [map_toEntry, Entries.ofPairs_of_distinct h] at hmap
  exact hmap

/-- A cast gives a value of the type or a cast error; values of the type are their own casts, so that
casting again changes nothing; and a map that is made a list is got back from it. -/
theorem cast_retracts :
    (∀ (t : DeclaredType) (v : Value),
      (∀ f, t.cast v = .error f → f.kind = .castError) ∧
      (∀ w, t.cast v = .ok w → t.matches w = true ∧ t.cast w = .ok w) ∧
      (t.matches v = true → t.cast v = .ok v)) ∧
    ∀ us : List Entries.Update, DeclaredType.list.cast (.map (Entries.after us)) >>=
      DeclaredType.map.cast = .ok (.map (Entries.after us)) := by
  refine ⟨fun t v => ⟨fun f hf => ?_, fun w hw => ?_, cast_eq_self⟩, fun us =>
    cast_list_map (Entries.distinct_after us)⟩
  · have htyped := cast_typed t v
    rw [hf] at htyped
    exact htyped
  · have htyped := cast_typed t v
    rw [hw] at htyped
    exact ⟨htyped, cast_eq_self htyped⟩

/-- A text that reads as an integer, one that does not, and a map with a pair and two NaNs for keys. -/
theorem cast_retracts_mixed :
    let nan : Value := .num (.float .invalid)
    let us : List Entries.Update :=
      [.insert nan (.int 1), .insert (.list [.str "k", nan]) .none, .insert nan (.int 2), .reverse]
    (DeclaredType.int.cast (.str "42") = .ok (.int 42) ∧ DeclaredType.int.matches (.int 42) = true ∧
      DeclaredType.int.cast (.int 42) = .ok (.int 42)) ∧
    (∃ f, DeclaredType.int.cast (.str "x") = .error f ∧ f.kind = .castError) ∧
    Entries.keys (Entries.after us) = [nan, .list [.str "k", nan], nan] ∧
    DeclaredType.list.cast (.map (Entries.after us)) >>= DeclaredType.map.cast =
      .ok (.map (Entries.after us)) := by
  intro nan us
  have hread : DeclaredType.int.cast (.str "42") = .ok (.int 42) := by rfl
  have hfails : ∃ f, DeclaredType.int.cast (.str "x") = .error f := ⟨_, rfl⟩
  obtain ⟨f, hf⟩ := hfails
  exact ⟨⟨hread, (cast_retracts.1 .int _).2.1 _ hread⟩, ⟨f, hf, (cast_retracts.1 .int _).1 f hf⟩, rfl,
    cast_retracts.2 us⟩

end DeclaredType

namespace Number

variable {n : Number} {i : Int}

theorem integer_range (h : n.integer? = some i) : -2 ^ 63 ≤ i ∧ i < 2 ^ 64 := by
  cases n with
  | int v =>
    cases h
    have hrange := SignedWord.toInt_range v
    omega
  | uint v =>
    cases h
    have hrange := v.toNat_lt
    omega
  | float _ => cases h

theorem int_toInt (h : n.integer? = some i) : int n.toInt = ofInt i := by
  cases n with
  | int v =>
    cases h
    exact congrArg int (Int64.ofInt_toInt v).symm
  | uint v =>
    cases h
    have hword : v.toInt64 = Int64.ofInt v.toNat := by
      rw [Int64.ofInt_eq_ofNat, ← UInt64.toInt64_ofNat', UInt64.ofNat_toNat]
    exact congrArg int hword
  | float _ => cases h

theorem uint_toUInt (h : n.integer? = some i) (hi : 0 ≤ i) : uint (DeclaredType.toUInt n) = ofNat i.toNat := by
  cases n with
  | int v =>
    cases h
    obtain ⟨k, hk⟩ := Int.eq_ofNat_of_zero_le hi
    have hword : v.toUInt64 = UInt64.ofNat k := by
      rw [← Int64.ofInt_toInt v, hk, Int64.ofInt_eq_ofNat, ← UInt64.toInt64_ofNat',
        UInt64.toUInt64_toInt64]
    rw [hk]
    exact congrArg uint hword
  | uint v =>
    cases h
    exact congrArg uint UInt64.ofNat_toNat.symm
  | float _ => cases h

theorem isNegative_iff (h : n.integer? = some i) : n.isNegative = true ↔ i < 0 := by
  cases n with
  | int v =>
    cases h
    exact decide_eq_true_iff.trans Int64.lt_iff_toInt_lt
  | uint v =>
    cases h
    exact iff_of_false nofun (by omega)
  | float _ => cases h

end Number

/-- The integer that a number stands for, or a text that reads as a number. -/
def Value.integer? : Value → Option Int
  | .num n => n.integer?
  | .str t => (Number.parse t).bind Number.integer?
  | _ => .none

namespace DeclaredType

variable {v : Value} {i : Int}

theorem toNumber?_integer (h : v.integer? = some i) :
    ∃ n, toNumber? v = some n ∧ n.integer? = some i := by
  cases v with
  | num n => exact ⟨n, rfl, h⟩
  | str t => exact Option.bind_eq_some_iff.1 h
  | _ => cases h

/-- The number of the given integer, or a cast error. -/
def KeepsInteger (i : Int) (r : Except Fault Value) : Prop :=
  match r with
  | .ok w => ∃ n, w = .num n ∧ n.integer? = some i
  | .error f => f.kind = .castError

theorem cast_int (h : v.integer? = some i) : DeclaredType.int.cast v = .ok (.int i) := by
  obtain ⟨n, hn, hi⟩ := toNumber?_integer h
  simp only [cast, hn, Number.int_toInt hi]
  rfl

theorem cast_uint (h : v.integer? = some i) :
    DeclaredType.uint.cast v =
      if i < 0 then castFault .uint v else .ok (.num (.ofNat i.toNat)) := by
  obtain ⟨n, hn, hi⟩ := toNumber?_integer h
  have hneg := Number.isNegative_iff hi
  simp only [cast, hn]
  by_cases hlt : i < 0
  · rw [if_pos (hneg.2 hlt), if_pos hlt]
  · rw [if_neg (fun h => hlt (hneg.1 h)), if_neg hlt, Number.uint_toUInt hi (Int.not_lt.1 hlt)]

theorem Value.integer?_range (h : v.integer? = some i) : -2 ^ 63 ≤ i ∧ i < 2 ^ 64 := by
  obtain ⟨n, -, hi⟩ := toNumber?_integer h
  exact Number.integer_range hi

theorem cast_uint_keeps (h : v.integer? = some i) : KeepsInteger i (DeclaredType.uint.cast v) := by
  rw [cast_uint h]
  split
  · rfl
  · have hrange := Value.integer?_range h
    refine ⟨_, rfl, ?_⟩
    rw [Number.integer_ofNat (by rw [Number.uintMax]; omega), Int.toNat_of_nonneg (by omega)]

theorem cast_int_integer (h : v.integer? = some i) : ∃ n, DeclaredType.int.cast v = .ok (.num n) ∧
    n.integer? = some (if i < 2 ^ 63 then i else i - 2 ^ 64) := by
  have hrange := Value.integer?_range h
  refine ⟨_, cast_int h, ?_⟩
  split
  · exact Number.integer_ofInt (SignedWord.fitsInt_iff.2 (by omega))
  · have hword : Number.ofInt i = Number.ofInt (i - 2 ^ 64) := by
      refine congrArg Number.int (Int64.toInt_inj.1 ?_)
      rw [Int64.toInt_ofInt, Int64.toInt_ofInt]
      exact (Int.sub_bmod_right i Int64.size).symm
    rw [hword]
    exact Number.integer_ofInt (SignedWord.fitsInt_iff.2 (by omega))

theorem cast_int_keeps_iff (h : v.integer? = some i) :
    KeepsInteger i (DeclaredType.int.cast v) ↔ i < 2 ^ 63 := by
  obtain ⟨n, hcast, hn⟩ := cast_int_integer h
  have hkeeps : KeepsInteger i (DeclaredType.int.cast v) ↔ n.integer? = some i := by
    rw [hcast]
    constructor
    · rintro ⟨m, hm, hi⟩
      cases hm
      exact hi
    · exact fun hi => ⟨n, rfl, hi⟩
  rw [hkeeps, hn, Option.some.injEq]
  split <;> omega

theorem toI_cast : ∃ b, StandardModule.functions.find? (fun b => b.name == Text.ofString "to_i") = some b ∧
    ∀ (c : NativeCall) (host : Host) (v : Value), c.self = some v →
      (b.code c host).result = Failure.lift (DeclaredType.int.cast v) := by
  refine ⟨_, rfl, fun c host v hself => ?_⟩
  change (NativeCall.receiver c >>= fun v => Failure.lift (DeclaredType.int.cast v)) = _
  unfold NativeCall.receiver
  rw [hself]
  rfl

/-- Cast to the unsigned words, an integer keeps its value or is refused. Cast to the signed words, which
is also what the method does, it keeps its value exactly below 2^63, and from there on it comes out as
another one without an error. -/
theorem integer_casts (h : v.integer? = some i) :
    KeepsInteger i (DeclaredType.uint.cast v) ∧
      (KeepsInteger i (DeclaredType.int.cast v) ↔ i < 2 ^ 63) ∧
      (∃ n, DeclaredType.int.cast v = .ok (.num n) ∧
        n.integer? = some (if i < 2 ^ 63 then i else i - 2 ^ 64)) ∧
      ∃ b, StandardModule.functions.find? (fun b => b.name == Text.ofString "to_i") = some b ∧
        ∀ (c : NativeCall) (host : Host), c.self = some v →
          (b.code c host).result = Failure.lift (DeclaredType.int.cast v) := by
  obtain ⟨b, hb, hcode⟩ := toI_cast
  exact ⟨cast_uint_keeps h, cast_int_keeps_iff h, cast_int_integer h, b, hb,
    fun c host hself => hcode c host v hself⟩

/-- A text for 2^63 - 1 keeps its value in both casts. -/
theorem integer_casts_greatest :
    (Value.str "9223372036854775807").integer? = some (2 ^ 63 - 1) ∧
      KeepsInteger (2 ^ 63 - 1) (DeclaredType.uint.cast (.str "9223372036854775807")) ∧
      KeepsInteger (2 ^ 63 - 1) (DeclaredType.int.cast (.str "9223372036854775807")) := by
  have hread : (Value.str "9223372036854775807").integer? = some (2 ^ 63 - 1) := by decide +kernel
  obtain ⟨hunsigned, hsigned, -⟩ := integer_casts hread
  exact ⟨hread, hunsigned, hsigned.2 (by decide)⟩

/-- The unsigned word 2^63 is cast to the least signed word. -/
theorem least_cast_changed :
    (Value.num (.ofNat (2 ^ 63))).integer? = some (2 ^ 63) ∧
      (∃ n, DeclaredType.int.cast (.num (.ofNat (2 ^ 63))) = .ok (.num n) ∧ n.integer? = some (-2 ^ 63)) ∧
      ¬KeepsInteger (2 ^ 63) (DeclaredType.int.cast (.num (.ofNat (2 ^ 63)))) := by
  have hinteger : (Value.num (.ofNat (2 ^ 63))).integer? = some (2 ^ 63) := by decide +kernel
  exact ⟨hinteger, cast_int_integer hinteger,
    fun hkeeps => absurd ((cast_int_keeps_iff hinteger).1 hkeeps) (by decide)⟩

end DeclaredType

end ScriptMachine
