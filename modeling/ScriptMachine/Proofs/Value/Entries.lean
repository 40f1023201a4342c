import ScriptMachine.Operator.Binary
import ScriptMachine.Proofs.Value.Equality
import Mathlib.Data.Set.Defs

set_option autoImplicit false

/-!
# Maps as finite maps

A map never has two equal keys, however it came about. Equality of values is not an equivalence: a NaN
differs from itself, and numbers that round to one double can be equal to a third one without being
equal to each other. Over keys on which it is an equivalence a map is a finite map in the order of
insertion. Main statement: what inserting, erasing and the three merging operators do to look-ups and
to the order of the entries.
-/
namespace ScriptMachine

namespace Entries

/-- The keys of a map in their order. -/
def keys (m : Entries) : List Value := m.map Prod.fst

/-- No key equals another one. A NaN equals no key, so it may occur more than once. -/
def Distinct (m : Entries) : Prop := (keys m).Pairwise fun j k => j.equals k = false

instance (m : Entries) : Decidable (Distinct m) :=
  inferInstanceAs (Decidable ((keys m).Pairwise fun j k => j.equals k = false))

/-- A change to a map. -/
inductive Update where
  | insert (key value : Value)
  | erase (key : Value)
  | reverse

def Update.apply : Update → Entries → Entries
  | .insert k v, m => m.insert k v
  | .erase k, m => m.erase k
  | .reverse, m => m.reverse

/-- The map that changes lead to from the empty one. -/
def after (us : List Update) : Entries := us.foldl (fun m u => u.apply m) []

@[simp] theorem keys_nil : keys [] = [] := rfl

@[simp] theorem keys_cons (e : Value × Value) (m : Entries) : keys (e :: m) = e.1 :: keys m := rfl

@[simp] theorem keys_append (a b : Entries) : keys (a ++ b) = keys a ++ keys b := List.map_append

theorem keys_filter (p : Value → Bool) (m : Entries) :
    keys (m.filter fun e => p e.1) = (keys m).filter p :=
  List.filter_map.symm

theorem key_mem {e : Value × Value} {m : Entries} (h : e ∈ m) : e.1 ∈ keys m := List.mem_map_of_mem h

theorem contains_eq_any (k : Value) (m : Entries) : contains k m = (keys m).any fun j => j.equals k := by
  induction m with
  | nil => rfl
  | cons e m ih =>
    obtain ⟨j, w⟩ := e
    unfold contains at ih ⊢
    unfold find?
    cases hj : j.equals k with
    | true => simp [hj]
    | false => simpa [hj] using ih

theorem contains_eq_false_iff {k : Value} {m : Entries} :
    contains k m = false ↔ ∀ j ∈ keys m, j.equals k = false := by
  rw [contains_eq_any, List.any_eq_false]
  simp only [Bool.not_eq_true]

theorem keys_insert (k v : Value) (m : Entries) :
    keys (insert k v m) = if contains k m then keys m else keys m ++ [k] := by
  induction m with
  | nil => rfl
  | cons e m ih =>
    obtain ⟨j, w⟩ := e
    rw [contains_eq_any] at ih ⊢
    cases hj : j.equals k with
    | true => simp [insert, hj]
    | false =>
      simp only [insert, hj, Bool.false_eq_true, if_false, keys_cons, ih, List.any_cons, Bool.false_or]
      split <;> rfl

theorem insert_of_not_contains {k : Value} {m : Entries} (v : Value) (h : contains k m = false) :
    insert k v m = m ++ [(k, v)] := by
  induction m with
  | nil => rfl
  | cons e m ih =>
    obtain ⟨j, w⟩ := e
    obtain ⟨hj, hm⟩ := List.forall_mem_cons.1 (contains_eq_false_iff.1 h)
    simp [insert, hj, ih (contains_eq_false_iff.2 hm)]

theorem erase_sublist (k : Value) (m : Entries) : (erase k m).Sublist m := by
  induction m with
  | nil => exact .slnil
  | cons e m ih =>
    unfold erase
    split
    · exact List.sublist_cons_self _ _
    · exact ih.cons_cons _

theorem remove_eq (k : Value) (m : Entries) : remove k m = (contains k m, erase k m) := by
  induction m with
  | nil => rfl
  | cons e m ih =>
    obtain ⟨j, w⟩ := e
    unfold remove contains erase find?
    cases hj : j.equals k with
    | true => rfl
    | false =>
      simp only [ih, Bool.false_eq_true, if_false]
      rfl

theorem distinct_insert {m : Entries} (k v : Value) (h : Distinct m) : Distinct (insert k v m) := by
  unfold Distinct
  rw [keys_insert]
  cases hk : contains k m with
  | true => exact h
  | false =>
    refine List.pairwise_append.2 ⟨h, List.pairwise_singleton _ _, fun j hj i hi => ?_⟩
    rw [List.mem_singleton.1 hi]
    exact contains_eq_false_iff.1 hk j hj

theorem distinct_erase {m : Entries} (k : Value) (h : Distinct m) : Distinct (erase k m) :=
  List.Pairwise.sublist ((erase_sublist k m).map Prod.fst) h

theorem distinct_reverse {m : Entries} (h : Distinct m) : Distinct m.reverse := by
  unfold Distinct keys
  rw [List.map_reverse, List.pairwise_reverse]
  exact h.imp fun hjk => (Value.equals_comm _ _).trans hjk

theorem Update.apply_distinct (u : Update) {m : Entries} (h : Distinct m) : Distinct (u.apply m) := by
  cases u with
  | insert k v => exact distinct_insert k v h
  | erase k => exact distinct_erase k h
  | reverse => exact distinct_reverse h

theorem distinct_after (us : List Update) : Distinct (after us) := by
  have hrun : ∀ m, Distinct m → Distinct (us.foldl (fun m u => u.apply m) m) := by
    induction us with
    | nil => exact fun _ h => h
    | cons u us ih => exact fun m h => ih _ (u.apply_distinct h)
  exact hrun [] List.Pairwise.nil

/-- A NaN that is set twice stands in the map twice, and the two differ. -/
example :
    let m := after [.insert (.num (.float .invalid)) (.int 1), .insert (.num (.float .invalid)) (.int 2)]
    keys m = [.num (.float .invalid), .num (.float .invalid)] ∧ Distinct m :=
  ⟨rfl, by decide +kernel⟩

theorem distinct_insertAll {a : Entries} (b : Entries) (h : Distinct a) : Distinct (insertAll a b) := by
  induction b generalizing a with
  | nil => exact h
  | cons e b ih => exact ih (distinct_insert e.1 e.2 h)

theorem insertAll_of_distinct {a b : Entries} (h : Distinct (a ++ b)) : insertAll a b = a ++ b := by
  induction b generalizing a with
  | nil => exact (List.append_nil a).symm
  | cons e b ih =>
    have hsplit : a ++ e :: b = (a ++ [e]) ++ b := by simp
    have hnew : contains e.1 a = false := by
      rw [contains_eq_false_iff]
      unfold Distinct at h
      rw [keys_append] at h
      exact fun j hj => (List.pairwise_append.1 h).2.2 j hj e.1 (List.mem_cons_self ..)
    change insertAll (insert e.1 e.2 a) b = _
    rw [insert_of_not_contains e.2 hnew, hsplit]
    exact ih (hsplit ▸ h)

theorem ofPairs_of_distinct {m : Entries} (h : Distinct m) : ofPairs m = m :=
  insertAll_of_distinct (a := []) h

theorem distinct_eraseAll {a : Entries} (ks : List Value) (h : Distinct a) : Distinct (eraseAll a ks) := by
  induction ks generalizing a with
  | nil => exact h
  | cons k ks ih => exact ih (distinct_erase k h)

theorem distinct_insertMissing {a : Entries} (b : Entries) (h : Distinct a) :
    Distinct (insertMissing a b) := by
  induction b generalizing a with
  | nil => exact h
  | cons e b ih =>
    refine ih ?_
    dsimp only
    split
    · exact h
    · exact distinct_insert e.1 e.2 h

theorem contains_insert_of_ne {j k : Value} (w : Value) (m : Entries) (h : j.equals k = false) :
    contains k (insert j w m) = contains k m := by
  rw [contains_eq_any, contains_eq_any, keys_insert]
  split
  · rfl
  · simp [h]

theorem keys_insertAll {b : Entries} (a : Entries) (hb : Distinct b) :
    keys (insertAll a b) = keys a ++ (keys b).filter fun k => !contains k a := by
  induction b generalizing a with
  | nil => simp [insertAll]
  | cons e b ih =>
    obtain ⟨hfirst, hrest⟩ := List.pairwise_cons.1 hb
    have hsame : ((keys b).filter fun k => !contains k (insert e.1 e.2 a)) =
        (keys b).filter fun k => !contains k a :=
      List.filter_congr fun k hk => by rw [contains_insert_of_ne _ _ (hfirst k hk)]
    refine (ih (insert e.1 e.2 a) hrest).trans ?_
    rw [hsame, keys_insert]
    cases h : contains e.1 a <;> simp [h]

theorem insertMissing_eq {b : Entries} (a : Entries) (hb : Distinct b) :
    insertMissing a b = a ++ b.filter fun e => !contains e.1 a := by
  induction b generalizing a with
  | nil => simp [insertMissing]
  | cons e b ih =>
    obtain ⟨hfirst, hrest⟩ := List.pairwise_cons.1 hb
    refine (ih (if contains e.1 a then a else insert e.1 e.2 a) hrest).trans ?_
    cases h : contains e.1 a with
    | true => simp [h]
    | false =>
      have hsame : (b.filter fun f => !contains f.1 (insert e.1 e.2 a)) =
          b.filter fun f => !contains f.1 a :=
        List.filter_congr fun f hf => by
          rw [contains_insert_of_ne _ _ (hfirst f.1 (key_mem hf))]
      simp only [Bool.false_eq_true, if_false, hsame]
      simp [insert_of_not_contains e.2 h, h]

theorem find?_append (k : Value) (a b : Entries) :
    find? k (a ++ b) = (find? k a).or (find? k b) := by
  induction a with
  | nil => rfl
  | cons e a ih =>
    obtain ⟨j, w⟩ := e
    simp only [List.cons_append, find?, ih]
    split <;> rfl

theorem find?_eq_none_iff {k : Value} {m : Entries} : find? k m = none ↔ contains k m = false := by
  rw [contains, Option.isSome_eq_false_iff, Option.isNone_iff_eq_none]

/-- A selection that does not tell the key from those equal to it keeps or drops what the key leads to. -/
theorem find?_filter {p : Value → Bool} {k : Value} {m : Entries}
    (hp : ∀ j ∈ keys m, j.equals k = true → p j = p k) :
    find? k (m.filter fun e => p e.1) = if p k then find? k m else none := by
  induction m with
  | nil => simp [find?]
  | cons e m ih =>
    obtain ⟨j, w⟩ := e
    obtain ⟨hj, hm⟩ := List.forall_mem_cons.1 hp
    cases hjk : j.equals k with
    | true =>
      have hpj : p j = p k := hj hjk
      cases hpk : p k with
      | true => simp [find?, hpj, hpk, hjk]
      | false => simpa [hpj, hpk] using ih hm
    | false =>
      have hrest : find? k ((j, w) :: m) = find? k m := by simp [find?, hjk]
      rw [hrest, ← ih hm, List.filter_cons]
      split
      · simp [find?, hjk]
      · rfl

/-- The keys of a map are among the given values. -/
def Keyed (S : Set Value) (m : Entries) : Prop := ∀ k ∈ keys m, k ∈ S

theorem keyed_insert {S : Set Value} {m : Entries} {k : Value} (v : Value) (hm : Keyed S m)
    (hk : k ∈ S) : Keyed S (insert k v m) := by
  unfold Keyed
  rw [keys_insert]
  split
  · exact hm
  · exact List.forall_mem_append.2 ⟨hm, List.forall_mem_singleton.2 hk⟩

section Equivalence

variable {S : Set Value} (hS : Equivalence fun a b : S => a.1.equals b.1 = true)

include hS

theorem equals_congr {a b c : Value} (ha : a ∈ S) (hb : b ∈ S) (hc : c ∈ S) (h : a.equals b = true) :
    a.equals c = b.equals c := by
  have hforth : b.equals c = true → a.equals c = true :=
    fun hbc => hS.trans (x := ⟨a, ha⟩) (y := ⟨b, hb⟩) (z := ⟨c, hc⟩) h hbc
  have hback : a.equals c = true → b.equals c = true :=
    fun hac => hS.trans (x := ⟨b, hb⟩) (y := ⟨a, ha⟩) (z := ⟨c, hc⟩)
      ((Value.equals_comm b a).trans h) hac
  exact Bool.eq_iff_iff.2 ⟨hback, hforth⟩

theorem find?_insert {m : Entries} (hm : Keyed S m) {k k' : Value} (hk : k ∈ S) (hk' : k' ∈ S)
    (v : Value) : find? k' (insert k v m) = if k.equals k' then some v else find? k' m := by
  induction m with
  | nil => rfl
  | cons e m ih =>
    obtain ⟨j, w⟩ := e
    obtain ⟨hj, hm⟩ := List.forall_mem_cons.1 hm
    cases hjk : j.equals k with
    | true =>
      simp only [insert, find?, hjk, if_true, equals_congr hS hj hk hk' hjk]
      split <;> rfl
    | false =>
      simp only [insert, find?, hjk, Bool.false_eq_true, if_false, ih hm]
      cases hjk' : j.equals k' with
      | true =>
        -- Otherwise both keys would be the head's.
        have hne : k.equals k' = false := by
          rw [Value.equals_comm, ← equals_congr hS hj hk' hk hjk', hjk]
        simp [hne]
      | false => rfl

/-- Over distinct keys, setting one that is present changes that one entry where it stands. -/
theorem insert_of_contains {m : Entries} (hm : Keyed S m) (hd : Distinct m) {k : Value} (hk : k ∈ S)
    (v : Value) (h : contains k m = true) :
    insert k v m = m.map fun e => if e.1.equals k then (e.1, v) else e := by
  induction m with
  | nil => cases h
  | cons e m ih =>
    obtain ⟨j, w⟩ := e
    obtain ⟨hj, hm⟩ := List.forall_mem_cons.1 hm
    obtain ⟨hfirst, hd⟩ := List.pairwise_cons.1 hd
    cases hjk : j.equals k with
    | true =>
      have hothers : (m.map fun e => if e.1.equals k then (e.1, v) else e) = m := by
        refine (List.map_congr_left fun e he => ?_).trans (List.map_id m)
        have hne : e.1.equals k = false := by
          rw [Value.equals_comm, ← equals_congr hS hj hk (hm _ (key_mem he)) hjk]
          exact hfirst e.1 (key_mem he)
        simp [hne]
      simp [insert, hjk, hothers]
    | false =>
      rw [contains_eq_any, keys_cons, List.any_cons, hjk, Bool.false_or, ← contains_eq_any] at h
      simp [insert, hjk, ih hm hd h]

theorem erase_eq_filter {m : Entries} (hm : Keyed S m) (hd : Distinct m) {k : Value} (hk : k ∈ S) :
    erase k m = m.filter fun e => !e.1.equals k := by
  induction m with
  | nil => rfl
  | cons e m ih =>
    obtain ⟨j, w⟩ := e
    obtain ⟨hj, hm⟩ := List.forall_mem_cons.1 hm
    obtain ⟨hfirst, hd⟩ := List.pairwise_cons.1 hd
    cases hjk : j.equals k with
    | true =>
      have hothers : (m.filter fun e => !e.1.equals k) = m := by
        refine List.filter_eq_self.2 fun e he => ?_
        rw [Value.equals_comm, ← equals_congr hS hj hk (hm _ (key_mem he)) hjk,
          hfirst e.1 (key_mem he)]
        rfl
      simp [erase, hjk, hothers]
    | false => simp [erase, hjk, ih hm hd]

theorem contains_congr {m : Entries} (hm : Keyed S m) {j k : Value} (hj : j ∈ S) (hk : k ∈ S)
    (h : j.equals k = true) : contains j m = contains k m := by
  rw [contains_eq_any, contains_eq_any, Bool.eq_iff_iff, List.any_eq_true, List.any_eq_true]
  refine exists_congr fun i => and_congr_right fun hi => ?_
  rw [Value.equals_comm, equals_congr hS hj hk (hm i hi) h, Value.equals_comm]

theorem find?_erase {m : Entries} (hm : Keyed S m) (hd : Distinct m) {k k' : Value} (hk : k ∈ S)
    (hk' : k' ∈ S) : find? k' (erase k m) = if k'.equals k then none else find? k' m := by
  rw [erase_eq_filter hS hm hd hk, find?_filter (p := fun j => !j.equals k)]
  · cases k'.equals k <;> rfl
  · intro j hj hjk'
    rw [equals_congr hS (hm j hj) hk' hk hjk']

theorem eraseAll_eq_filter {a : Entries} (ha : Keyed S a) (hd : Distinct a) {ks : List Value}
    (hks : ∀ k ∈ ks, k ∈ S) : eraseAll a ks = a.filter fun e => !ks.any fun k => e.1.equals k := by
  induction ks generalizing a with
  | nil => exact (List.filter_eq_self.2 fun _ _ => rfl).symm
  | cons k ks ih =>
    obtain ⟨hk, hks⟩ := List.forall_mem_cons.1 hks
    have hkeyed : Keyed S (erase k a) := fun j hj => ha j (((erase_sublist k a).map Prod.fst).subset hj)
    refine (ih hkeyed (distinct_erase k hd) hks).trans ?_
    rw [erase_eq_filter hS ha hd hk, List.filter_filter]
    simp [Bool.and_comm]

theorem eraseAll_keys {a b : Entries} (ha : Keyed S a) (hd : Distinct a) (hb : Keyed S b) :
    eraseAll a (keys b) = a.filter fun e => !contains e.1 b := by
  rw [eraseAll_eq_filter hS ha hd hb]
  refine List.filter_congr fun e _ => ?_
  rw [contains_eq_any]
  simp only [Value.equals_comm e.1]

theorem find?_insertAll {a b : Entries} (ha : Keyed S a) (hb : Keyed S b) (hd : Distinct b) {k : Value}
    (hk : k ∈ S) : find? k (insertAll a b) = (find? k b).or (find? k a) := by
  induction b generalizing a with
  | nil => rfl
  | cons e b ih =>
    obtain ⟨j, w⟩ := e
    obtain ⟨hj, hb⟩ := List.forall_mem_cons.1 hb
    obtain ⟨hfirst, hd⟩ := List.pairwise_cons.1 hd
    refine (ih (keyed_insert w ha hj) hb hd).trans ?_
    rw [find?_insert hS ha hj hk]
    cases hjk : j.equals k with
    | true =>
      have hnone : find? k b = none := by
        rw [find?_eq_none_iff, contains_eq_false_iff]
        intro i hi
        rw [Value.equals_comm, ← equals_congr hS hj hk (hb i hi) hjk]
        exact hfirst i hi
      simp [find?, hjk, hnone]
    | false => simp [find?, hjk]

theorem find?_insertMissing {a b : Entries} (ha : Keyed S a) (hb : Keyed S b) (hd : Distinct b)
    {k : Value} (hk : k ∈ S) : find? k (insertMissing a b) = (find? k a).or (find? k b) := by
  rw [insertMissing_eq a hd, find?_append, find?_filter (p := fun j => !contains j a)]
  · unfold contains
    cases find? k a <;> rfl
  · intro j hj hjk
    rw [contains_congr hS ha (hb j hj) hk hjk]

theorem find?_eraseAll {a b : Entries} (ha : Keyed S a) (hda : Distinct a) (hb : Keyed S b) {k : Value}
    (hk : k ∈ S) : find? k (eraseAll a (keys b)) = if contains k b then none else find? k a := by
  rw [eraseAll_keys hS ha hda hb, find?_filter (p := fun j => !contains j b)]
  · cases contains k b <;> rfl
  · intro j hj hjk
    rw [contains_congr hS hb (ha j hj) hk hjk]

end Equivalence

/-- What setting a key does to a map with keys among the given values. -/
structure Sets (S : Set Value) (m : Entries) (k v : Value) : Prop where
  found : find? k (insert k v m) = some v
  others : ∀ k' ∈ S, k'.equals k = false → find? k' (insert k v m) = find? k' m
  inPlace : contains k m = true → insert k v m = m.map fun e => if e.1.equals k then (e.1, v) else e
  last : contains k m = false → insert k v m = m ++ [(k, v)]

/-- What taking a key out does. -/
structure Drops (S : Set Value) (m : Entries) (k : Value) : Prop where
  gone : find? k (erase k m) = none
  others : ∀ k' ∈ S, k'.equals k = false → find? k' (erase k m) = find? k' m
  order : erase k m = m.filter fun e => !e.1.equals k
  told : remove k m = (contains k m, erase k m)

/-- An operator makes of two maps one that has distinct keys, the given look-ups and the given keys. -/
def Merges (S : Set Value) (id : Nat) (op : BinaryOp) (a b : Entries) (found : Value → Option Value)
    (order : List Value) : Prop :=
  ∃ m, op.apply id (.map a) (.map b) = .ok (.map m) ∧ Distinct m ∧ (∀ k ∈ S, find? k m = found k) ∧
    keys m = order

section Equivalence

variable {S : Set Value} (hS : Equivalence fun a b : S => a.1.equals b.1 = true)

include hS

theorem insert_sets {m : Entries} (hm : Keyed S m) (hd : Distinct m) {k : Value} (hk : k ∈ S) (v : Value) :
    Sets S m k v where
  found := by
    have hself : k.equals k = true := hS.refl ⟨k, hk⟩
    rw [find?_insert hS hm hk hk, if_pos hself]
  others k' hk' hne := by
    rw [find?_insert hS hm hk hk', Value.equals_comm, hne]
    rfl
  inPlace := insert_of_contains hS hm hd hk v
  last := insert_of_not_contains v

theorem erase_drops {m : Entries} (hm : Keyed S m) (hd : Distinct m) {k : Value} (hk : k ∈ S) :
    Drops S m k where
  gone := by
    have hself : k.equals k = true := hS.refl ⟨k, hk⟩
    rw [find?_erase hS hm hd hk hk, if_pos hself]
  others k' hk' hne := by
    rw [find?_erase hS hm hd hk hk', hne]
    rfl
  order := erase_eq_filter hS hm hd hk
  told := remove_eq k m

variable {a b : Entries} (ha : Keyed S a) (hda : Distinct a) (hb : Keyed S b) (hdb : Distinct b) (id : Nat)

include ha hda hb

include hdb in
theorem merges_add : Merges S id .add a b (fun k => (find? k b).or (find? k a))
    (keys a ++ (keys b).filter fun k => !contains k a) :=
  ⟨insertAll a b, rfl, distinct_insertAll b hda, fun _ hk => find?_insertAll hS ha hb hdb hk,
    keys_insertAll a hdb⟩

include hdb in
theorem merges_bitOr : Merges S id .bitOr a b (fun k => (find? k a).or (find? k b))
    (keys a ++ (keys b).filter fun k => !contains k a) := by
  refine ⟨insertMissing a b, rfl, distinct_insertMissing b hda,
    fun _ hk => find?_insertMissing hS ha hb hdb hk, ?_⟩
  rw [insertMissing_eq a hdb, keys_append]
  exact congrArg (keys a ++ ·) (keys_filter (fun k => !contains k a) b)

theorem merges_sub : Merges S id .sub a b (fun k => if contains k b then none else find? k a)
    ((keys a).filter fun k => !contains k b) := by
  refine ⟨eraseAll a (keys b), rfl, distinct_eraseAll _ hda,
    fun _ hk => find?_eraseAll hS ha hda hb hk, ?_⟩
  rw [eraseAll_keys hS ha hda hb]
  exact keys_filter (fun k => !contains k b) a

end Equivalence

/-- No map that changes lead to has two equal keys. Over keys on which equality is an equivalence it is
a finite map in insertion order, for each change and for the sum, the union and the difference of two
such maps. -/
theorem insertion_ordered (us : List Update) :
    Distinct (after us) ∧
      ∀ S : Set Value, Equivalence (fun a b : S => a.1.equals b.1 = true) → Keyed S (after us) →
        (∀ k ∈ S, (∀ v, Sets S (after us) k v) ∧ Drops S (after us) k) ∧
        ∀ (us' : List Update) (id : Nat), Keyed S (after us') →
          Merges S id .add (after us) (after us')
            (fun k => (find? k (after us')).or (find? k (after us)))
            (keys (after us) ++ (keys (after us')).filter fun k => !contains k (after us)) ∧
          Merges S id .bitOr (after us) (after us')
            (fun k => (find? k (after us)).or (find? k (after us')))
            (keys (after us) ++ (keys (after us')).filter fun k => !contains k (after us)) ∧
          Merges S id .sub (after us) (after us')
            (fun k => if contains k (after us') then none else find? k (after us))
            ((keys (after us)).filter fun k => !contains k (after us')) := by
  have hd := distinct_after us
  refine ⟨hd, fun S hS hm => ⟨fun k hk => ⟨insert_sets hS hm hd hk, erase_drops hS hm hd hk⟩, ?_⟩⟩
  intro us' id hm'
  have hd' := distinct_after us'
  exact ⟨merges_add hS hm hd hm' hd' id, merges_bitOr hS hm hd hm' hd' id, merges_sub hS hm hd hm' id⟩

theorem equivalence_texts :
    Equivalence fun a b : {v : Value | v.kind = .string} => a.1.equals b.1 = true := by
  have hbytes : ∀ a b : {v : Value | v.kind = .string}, a.1.equals b.1 = true ↔ a = b := by
    rintro ⟨a, ha⟩ ⟨b, hb⟩
    cases a <;> cases ha
    cases b <;> cases hb
    simp only [Value.equals, beq_iff_eq, Subtype.ext_iff, Value.str.injEq]
  simp only [hbytes]
  exact eq_equivalence

/-- Two maps with texts for keys: the first entry is set anew in its place, the second one is taken out,
and a later map overrides, completes or cuts the first. -/
theorem insertion_ordered_texts :
    let S : Set Value := {v | v.kind = .string}
    let m := after [.insert (.str "b") (.int 2), .insert (.str "a") (.int 1), .reverse]
    let m' := after [.insert (.str "c") (.int 4), .insert (.str "a") (.int 3)]
    Keyed S m ∧ Keyed S m' ∧ Sets S m (.str "a") (.int 5) ∧ Drops S m (.str "b") ∧
      Merges S 0 .add m m' (fun k => (find? k m').or (find? k m)) [.str "a", .str "b", .str "c"] ∧
      Merges S 0 .bitOr m m' (fun k => (find? k m).or (find? k m')) [.str "a", .str "b", .str "c"] ∧
      Merges S 0 .sub m m' (fun k => if contains k m' then none else find? k m) [.str "b"] := by
  intro S m m'
  have hm : Keyed S m := by
    change ∀ k ∈ [Value.str "a", .str "b"], k.kind = .string
    simp [Value.kind]
  have hm' : Keyed S m' := by
    change ∀ k ∈ [Value.str "c", .str "a"], k.kind = .string
    simp [Value.kind]
  obtain ⟨hsingle, hmerge⟩ := (insertion_ordered _).2 S equivalence_texts hm
  obtain ⟨hsum, hunion, hrest⟩ := hmerge _ 0 hm'
  exact ⟨hm, hm', (hsingle _ rfl).1 _, (hsingle _ rfl).2, hsum, hunion, hrest⟩

end Entries

end ScriptMachine
