import ScriptMachine.Proofs.Builtins.Answers
import ScriptMachine.Proofs.Value.Casts

set_option autoImplicit false

/-!
# Indices

Asking for an item and inserting one work with the signed word of an index, which is the index itself but
for the unsigned words from 2^63 on: these count as the integer smaller by 2^64, and so from the end.
Main statement: `indexed_by_word` says which item is given, and where an item is inserted, for every integer.
-/
namespace ScriptMachine

namespace Number

variable {n : Number} {i : Int}

/-- The signed word with the lowest 64 bits of an integer word. -/
def wrapped (i : Int) : Int := if i < 2 ^ 63 then i else i - 2 ^ 64

theorem toInt_integer (h : n.integer? = some i) : n.toInt.toInt = wrapped i := by
  obtain ⟨m, hcast, hm⟩ := DeclaredType.cast_int_integer (v := .num n) h
  cases hcast
  exact Option.some.inj hm

end Number

namespace StandardModule

variable {size : Nat} {j : Int} {found found' : Nat → Prop} {missing missing' : Prop} {n : Number}

/-- The index `j` means a place of a sequence of the given size, counted from the front or from the end,
and `found` holds of it; or it means none, and `missing` holds. -/
structure Located (size : Nat) (j : Int) (found : Nat → Prop) (missing : Prop) : Prop where
  front : ∀ k < size, j = k → found k
  back : ∀ k < size, j = k - size → found k
  outside : j < -size ∨ size ≤ j → missing

theorem Located.mono (h : Located size j found missing) (hfound : ∀ k < size, found k → found' k)
    (hmissing : missing → missing') : Located size j found' missing' :=
  ⟨fun k hk hj => hfound k hk (h.front k hk hj), fun k hk hj => hfound k hk (h.back k hk hj),
    fun hj => hmissing (h.outside hj)⟩

theorem resolveIndex_located (n : Number) (size : Nat) :
    Located size n.toInt.toInt (fun k => resolveIndex (.num n) size = .ok (some k))
      (resolveIndex (.num n) size = .ok none) := by
  generalize hj : n.toInt.toInt = j
  have hfound : ∀ k < size, (if j < 0 then j + size else j) = k →
      resolveIndex (.num n) size = .ok (some k) := fun k hk hposition => by
    rw [resolveIndex, hj, hposition, if_pos (by simpa using hk)]
    rfl
  refine ⟨fun k hk hj => hfound k hk ?_, fun k hk hj => hfound k hk ?_, fun hj' => ?_⟩
  · split_ifs <;> omega
  · split_ifs <;> omega
  · rw [resolveIndex, hj, if_neg]
    rw [Bool.and_eq_true, decide_eq_true_iff, decide_eq_true_iff]
    split_ifs <;> omega

theorem insertionPlace_located (n : Number) (size : Nat) :
    Located (size + 1) n.toInt.toInt (fun k => insertionPlace (.num n) size = .ok k)
      (∃ f, insertionPlace (.num n) size = Failure.fail f ∧ f.kind = .runtimeError) := by
  generalize hj : n.toInt.toInt = j
  have hfound : ∀ k < size + 1, (if j < 0 then j + size + 1 else j) = k →
      insertionPlace (.num n) size = .ok k := fun k hk hposition => by
    rw [insertionPlace, hj, hposition, if_pos (by simpa [Nat.lt_succ_iff] using hk)]
    rfl
  refine ⟨fun k hk hj => hfound k hk ?_, fun k hk hj => hfound k hk ?_, fun hj' => ?_⟩
  · split_ifs <;> omega
  · split_ifs <;> omega
  · rw [insertionPlace, hj, if_neg]
    · exact ⟨_, rfl, rfl⟩
    · rw [Bool.and_eq_true, decide_eq_true_iff, decide_eq_true_iff]
      split_ifs <;> omega

theorem get_of_list {items : List Value} {key : Value} {place : Option Nat}
    (h : resolveIndex key items.length = .ok place) (depth : Nat) :
    get ⟨some (.list items), [key], depth⟩ = .ok (place.elim .none fun k => items.getD k .none) := by
  simp only [get, NativeCall.receiver, NativeCall.arg, List.getElem?_cons_zero, bind, Except.bind, h]
  cases place <;> rfl

theorem get_of_text {t : Text} {key : Value} {place : Option Nat}
    (h : resolveIndex key t.length = .ok place) (depth : Nat) :
    get ⟨some (.str t), [key], depth⟩ =
      .ok (place.elim .none fun k => .str ((t.drop k).take 1)) := by
  simp only [get, NativeCall.receiver, NativeCall.arg, List.getElem?_cons_zero, bind, Except.bind, h]
  cases place <;> rfl

theorem get_list (items : List Value) (n : Number) :
    Located items.length n.toInt.toInt
      (fun k => ∃ v, items[k]? = some v ∧ Answers "get" (.list items) [.num n] (.list items) (.ok v))
      (Answers "get" (.list items) [.num n] (.list items) (.ok .none)) := by
  refine (resolveIndex_located n items.length).mono (fun k hk hplace => ?_)
    fun hplace => answers_reading rfl rfl (get_of_list hplace)
  have hanswers : Answers "get" (.list items) [.num n] (.list items) (.ok (items.getD k .none)) :=
    answers_reading rfl rfl (get_of_list hplace)
  rw [List.getD_eq_getElem items .none hk] at hanswers
  exact ⟨items[k], List.getElem?_eq_getElem hk, hanswers⟩

theorem get_text (t : Text) (n : Number) :
    Located t.length n.toInt.toInt
      (fun k => ∃ b, t[k]? = some b ∧ Answers "get" (.str t) [.num n] (.str t) (.ok (.str [b])))
      (Answers "get" (.str t) [.num n] (.str t) (.ok .none)) := by
  refine (resolveIndex_located n t.length).mono (fun k hk hplace => ?_)
    fun hplace => answers_reading rfl rfl (get_of_text hplace)
  have hanswers : Answers "get" (.str t) [.num n] (.str t) (.ok (.str ((t.drop k).take 1))) :=
    answers_reading rfl rfl (get_of_text hplace)
  rw [List.drop_eq_getElem_cons hk] at hanswers
  exact ⟨t[k], List.getElem?_eq_getElem hk, hanswers⟩

/-- The item `v` stands at the place `k` of a list, and without it the list is the old one. -/
structure Inserted (items : List Value) (k : Nat) (v : Value) (items' : List Value) : Prop where
  length : items'.length = items.length + 1
  item : items'[k]? = some v
  others : items'.eraseIdx k = items

theorem inserted_at {items : List Value} {k : Nat} (hk : k < items.length + 1) (v : Value) :
    Inserted items k v (items.take k ++ v :: items.drop k) := by
  have hlength : (items.take k).length = k := List.length_take_of_le (Nat.lt_succ_iff.1 hk)
  refine ⟨?_, ?_, ?_⟩
  · rw [List.length_append, List.length_cons, ← Nat.add_assoc, ← List.length_append, List.take_append_drop]
  · rw [List.getElem?_append_right (Nat.le_of_eq hlength), hlength, Nat.sub_self]
    rfl
  · rw [List.eraseIdx_append_of_length_le (Nat.le_of_eq hlength), hlength, Nat.sub_self]
    exact List.take_append_drop k items

theorem insert_list (items : List Value) (n : Number) (v : Value) :
    Located (items.length + 1) n.toInt.toInt
      (fun k => ∃ items', Inserted items k v items' ∧
        Answers "insert" (.list items) [.num n, v] (.list items') (.ok (.list items')))
      (∃ f, f.kind = .runtimeError ∧
        Answers "insert" (.list items) [.num n, v] (.list items) (Failure.fail f)) := by
  have hinsert : ∀ depth, insert ⟨some (.list items), [.num n, v], depth⟩ =
      (do let i ← insertionPlace (.num n) items.length
          let result := .list (items.take i ++ v :: items.drop i)
          return (result, result)) := fun _ => rfl
  refine (insertionPlace_located n items.length).mono (fun k hk hplace => ?_) ?_
  · refine ⟨_, inserted_at hk v, answers_replacing rfl rfl fun depth => ?_⟩
    rw [hinsert, hplace]
    rfl
  · rintro ⟨f, hplace, hf⟩
    refine ⟨f, hf, answers_replacing_error rfl rfl fun depth => ?_⟩
    rw [hinsert, hplace]
    rfl

/-- For an integer below 2^63 the item given is the one at that place from the front, or from the end if it
is negative, and none if there is no such place; an item is inserted so that it is at that place of the
longer list, or is refused. A larger integer counts as the one smaller by 2^64. -/
theorem indexed_by_word {i : Int} (h : n.integer? = some i) :
    (∀ items : List Value, Located items.length (Number.wrapped i)
      (fun k => ∃ v, items[k]? = some v ∧ Answers "get" (.list items) [.num n] (.list items) (.ok v))
      (Answers "get" (.list items) [.num n] (.list items) (.ok .none))) ∧
    (∀ t : Text, Located t.length (Number.wrapped i)
      (fun k => ∃ b, t[k]? = some b ∧ Answers "get" (.str t) [.num n] (.str t) (.ok (.str [b])))
      (Answers "get" (.str t) [.num n] (.str t) (.ok .none))) ∧
    ∀ (items : List Value) (v : Value), Located (items.length + 1) (Number.wrapped i)
      (fun k => ∃ items', Inserted items k v items' ∧
        Answers "insert" (.list items) [.num n, v] (.list items') (.ok (.list items')))
      (∃ f, f.kind = .runtimeError ∧
        Answers "insert" (.list items) [.num n, v] (.list items) (Failure.fail f)) := by
  rw [← Number.toInt_integer h]
  exact ⟨fun items => get_list items n, fun t => get_text t n, fun items v => insert_list items n v⟩

/-- The index -1 gives the last of two items, and puts a new item behind them. -/
theorem indexed_by_word_minus_one :
    (Number.ofInt (-1)).integer? = some (-1) ∧
      Answers "get" (.list [.int 1, .int 2]) [.int (-1)] (.list [.int 1, .int 2]) (.ok (.int 2)) ∧
      ∃ items', Inserted [.int 1, .int 2] 2 (.int 3) items' ∧
        Answers "insert" (.list [.int 1, .int 2]) [.int (-1), .int 3] (.list items') (.ok (.list items')) := by
  have hinteger : (Number.ofInt (-1)).integer? = some (-1) := by decide
  obtain ⟨hget, -, hinsert⟩ := indexed_by_word hinteger
  obtain ⟨v, hv, hlast⟩ := (hget [.int 1, .int 2]).back 1 (by decide) (by decide)
  cases hv
  exact ⟨hinteger, hlast, (hinsert [.int 1, .int 2] (.int 3)).back 2 (by decide) (by decide)⟩

/-- The greatest unsigned word lies far behind the end of a list, but gives its last item. -/
theorem greatest_index_last :
    (Number.ofNat (2 ^ 64 - 1)).integer? = some (2 ^ 64 - 1) ∧
      Answers "get" (.list [.int 1]) [.num (.ofNat (2 ^ 64 - 1))] (.list [.int 1]) (.ok (.int 1)) ∧
      ¬Answers "get" (.list [.int 1]) [.num (.ofNat (2 ^ 64 - 1))] (.list [.int 1]) (.ok .none) := by
  have hinteger : (Number.ofNat (2 ^ 64 - 1)).integer? = some (2 ^ 64 - 1) := by decide +kernel
  have hword : (Number.ofNat (2 ^ 64 - 1)).toInt.toInt = ((0 : Nat) : Int) - ((1 : Nat) : Int) := by
    rw [Number.toInt_integer hinteger]
    decide
  obtain ⟨v, hv, hlast⟩ := (get_list [.int 1] (.ofNat (2 ^ 64 - 1))).back 0 (by decide) hword
  cases hv
  exact ⟨hinteger, hlast, fun hnone => nomatch hnone.result_eq hlast⟩

end StandardModule

end ScriptMachine
