import ScriptMachine.Attribute
import ScriptMachine.Proofs.Number.Arithmetic

set_option autoImplicit false

namespace ScriptMachine

namespace Range

/-- The range of all words. -/
def Full (r : Range) : Prop :=
  r.inclusive = true ∧ r.start = SignedWord.least ∧ r.stop = SignedWord.greatest

instance (r : Range) : Decidable r.Full :=
  inferInstanceAs (Decidable (_ ∧ _))

/-- The words of a range in the order of their positions. -/
def words (r : Range) : List Int64 := (List.range r.size).map r.element

def past (r : Range) : Int := if r.inclusive then r.stop.toInt + 1 else r.stop.toInt

variable {r : Range} {i j : Nat}

theorem length_words (r : Range) : r.words.length = r.size := by simp [words]

theorem size_eq (h : ¬r.Full) : (r.size : Int) = max 0 (r.past - r.start.toInt) := by
  obtain ⟨hstart, -⟩ := SignedWord.toInt_range r.start
  obtain ⟨-, hstop⟩ := SignedWord.toInt_range r.stop
  have hempty : r.stop < r.start ∨ (r.stop = r.start ∧ r.inclusive = false) ↔ r.past ≤ r.start.toInt := by
    rw [Int64.lt_iff_toInt_lt, ← Int64.toInt_inj, past]
    cases r.inclusive with
    | false =>
      simp only [and_true, Bool.false_eq_true, if_false]
      omega
    | true =>
      simp only [and_false, or_false, if_true, Bool.true_eq_false]
      omega
  unfold size
  by_cases hpast : r.past ≤ r.start.toInt
  · rw [if_pos (hempty.2 hpast)]
    omega
  · rw [if_neg (hempty.not.2 hpast)]
    cases hinclusive : r.inclusive with
    | false =>
      simp only [past, hinclusive, Bool.false_eq_true, if_false] at hpast ⊢
      omega
    | true =>
      -- only the number of all words is too great
      have hfew : r.stop.toInt - r.start.toInt < 2 ^ 64 - 1 := by
        by_contra hall
        refine h ⟨hinclusive, SignedWord.eq_least_iff.2 (by omega), Int64.toInt_inj.1 ?_⟩
        rw [SignedWord.toInt_greatest]
        omega
      simp only [past, hinclusive, if_true] at hpast ⊢
      have hword : (r.stop.toInt - r.start.toInt).toNat + 1 ≤ Number.uintMax := by
        rw [Number.uintMax]
        omega
      have hmin : Number.uintMax.min ((r.stop.toInt - r.start.toInt).toNat + 1) = _ := Nat.min_eq_right hword
      rw [hmin]
      omega

theorem toInt_element (h : ¬r.Full) (hi : i < r.size) : (r.element i).toInt = r.start.toInt + i := by
  obtain ⟨hstart, -⟩ := SignedWord.toInt_range r.start
  obtain ⟨-, hstop⟩ := SignedWord.toInt_range r.stop
  have hsize := size_eq h
  have hpast : r.past ≤ r.stop.toInt + 1 := by
    unfold past
    split <;> omega
  have hword : (Int64.ofNat i).toInt = (i : Int).bmod (2 ^ 64) := Int64.toInt_ofNat'
  rw [element, Int64.toInt_add, hword, Int.add_bmod_bmod]
  exact Int.bmod_eq_of_le (by omega) (by omega)

theorem includes_eq (r : Range) (n : Int64) :
    r.includes n = decide (r.start.toInt ≤ n.toInt ∧ n.toInt < r.past) := by
  rw [includes, past]
  cases r.inclusive with
  | false => simp only [Bool.false_eq_true, if_false, Int64.le_iff_toInt_le, Int64.lt_iff_toInt_lt, Bool.decide_and]
  | true => simp only [if_true, Int64.le_iff_toInt_le, Int.lt_add_one_iff, Bool.decide_and]

theorem includes_iff (h : ¬r.Full) (n : Int64) : r.includes n = true ↔ ∃ i < r.size, n = r.element i := by
  have hsize := size_eq h
  rw [includes_eq, decide_eq_true_iff]
  constructor
  · rintro ⟨hstart, hpast⟩
    have hi : (n.toInt - r.start.toInt).toNat < r.size := by omega
    refine ⟨_, hi, Int64.toInt_inj.1 ?_⟩
    rw [toInt_element h hi]
    omega
  · rintro ⟨i, hi, rfl⟩
    rw [toInt_element h hi]
    omega

theorem element_lt (h : ¬r.Full) (hij : i < j) (hj : j < r.size) : r.element i < r.element j := by
  rw [Int64.lt_iff_toInt_lt, toInt_element h (Nat.lt_trans hij hj), toInt_element h hj]
  omega

theorem element_zero (r : Range) : r.element 0 = r.start := by
  simp [element]

theorem last_eq (h : ¬r.Full) (hsize : 0 < r.size) : r.last = r.element (r.size - 1) := by
  obtain ⟨hstart, -⟩ := SignedWord.toInt_range r.start
  obtain ⟨-, hstop⟩ := SignedWord.toInt_range r.stop
  have heq := size_eq h
  refine Int64.toInt_inj.1 ?_
  rw [toInt_element h (Nat.sub_lt hsize Nat.one_pos)]
  unfold last
  cases hinclusive : r.inclusive with
  | true =>
    simp only [past, hinclusive, if_true] at heq ⊢
    omega
  | false =>
    simp only [past, hinclusive, Bool.false_eq_true, if_false] at heq ⊢
    have hone : (1 : Int64).toInt = 1 := rfl
    rw [Int64.toInt_sub, hone, Int.bmod_eq_of_le (by omega) (by omega)]
    omega

theorem truthy_iff (r : Range) : (Value.object (.range r)).truthy = true ↔ 0 < r.size := by
  change (r.size != 0) = true ↔ _
  rw [bne_iff_ne]
  omega

theorem len_integer (r : Range) : ∃ n, r.len = .num n ∧ n.integer? = some (r.size : Int) := by
  unfold len
  split
  · rename_i hsmall
    refine ⟨.ofInt r.size, rfl, Number.integer_ofInt (SignedWord.fitsInt_iff.2 ?_)⟩
    rw [Number.intMax] at hsmall
    omega
  · refine ⟨.ofNat r.size, rfl, Number.integer_ofNat ?_⟩
    obtain ⟨hstart, -⟩ := SignedWord.toInt_range r.start
    obtain ⟨-, hstop⟩ := SignedWord.toInt_range r.stop
    unfold size
    split
    · exact Nat.zero_le _
    · dsimp only
      split
      · exact Nat.min_le_left _ _
      · rw [Number.uintMax]
        omega

/-- What can be asked of a range, told by the words at its positions. -/
structure Views (r : Range) : Prop where
  includes : ∀ n, ∃ b, ObjectOf.callMethod (.range r) "includes" [.num (.int n)] = .ok (.bool b) ∧
    (b = true ↔ ∃ i < r.size, n = r.element i)
  increasing : ∀ i j, i < j → j < r.size → r.element i < r.element j
  truthy : (Value.object (.range r)).truthy = true ↔ 0 < r.size
  first : ObjectOf.getMember (.range r) "first" =
    .ok (if 0 < r.size then .num (.int (r.element 0)) else .none)
  last : ObjectOf.getMember (.range r) "last" =
    .ok (if 0 < r.size then .num (.int (r.element (r.size - 1))) else .none)
  len : ∃ n, ObjectOf.getMember (.range r) "len" = .ok (.num n) ∧ n.integer? = some (r.size : Int)
  toList : r.size ≤ 2 ^ 24 → ObjectOf.getMember (.range r) "to_list" =
    .ok (.list (r.words.map fun n => .num (.int n)))
  tooLong : 2 ^ 24 < r.size → ∃ e, ObjectOf.getMember (.range r) "to_list" = .error e ∧
    e.kind = .runtimeError

theorem views (h : ¬r.Full) : r.Views where
  includes := fun n => ⟨r.includes n, rfl, includes_iff h n⟩
  increasing := fun _ _ hij hj => element_lt h hij hj
  truthy := truthy_iff r
  first := by
    have hmember : ObjectOf.getMember (.range r) "first" =
        .ok (if r.size = 0 then .none else .num (.int r.start)) := rfl
    rw [hmember, element_zero]
    by_cases hsize : r.size = 0 <;> simp [hsize, Nat.pos_iff_ne_zero]
  last := by
    have hmember : ObjectOf.getMember (.range r) "last" =
        .ok (if r.size = 0 then .none else .num (.int r.last)) := rfl
    rw [hmember]
    by_cases hsize : r.size = 0
    · simp [hsize]
    · rw [if_neg hsize, if_pos (Nat.pos_of_ne_zero hsize), last_eq h (Nat.pos_of_ne_zero hsize)]
  len := by
    obtain ⟨n, hlen, hn⟩ := len_integer r
    exact ⟨n, congrArg Except.ok hlen, hn⟩
  toList := by
    intro hsize
    have hmember : ObjectOf.getMember (.range r) "to_list" = r.toList := rfl
    have hshort : ¬listLimit < r.size := Nat.not_lt.2 hsize
    rw [hmember, toList, if_neg hshort, words, List.map_map]
    rfl
  tooLong := by
    intro hsize
    have hmember : ObjectOf.getMember (.range r) "to_list" = r.toList := rfl
    have hlong : listLimit < r.size := hsize
    rw [hmember, toList, if_pos hlong]
    exact ⟨_, rfl, rfl⟩

end Range

end ScriptMachine
