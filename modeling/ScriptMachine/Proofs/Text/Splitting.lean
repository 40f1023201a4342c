import ScriptMachine.Text
import Mathlib.Data.List.Basic

set_option autoImplicit false

namespace ScriptMachine

namespace Text

variable {t s before after piece : Text} {pieces : List Text}

def AbsentBefore (t : Text) (n : Nat) (s : Text) : Prop := ∀ k < n, ¬t <+: s.drop k

/-- A text cut at the occurrences of a separator, each of them the first behind the one before. -/
inductive Parted (t : Text) : Text → List Text → Prop
  | last {s : Text} (h : AbsentBefore t s.length s) : Parted t s [s]
  | piece {before after : Text} {pieces : List Text}
      (h : AbsentBefore t before.length (before ++ (t ++ after))) (hrest : Parted t after pieces) :
      Parted t (before ++ (t ++ after)) (before :: pieces)

theorem AbsentBefore.not_contained (ht : t ≠ []) (h : AbsentBefore t s.length s) : ¬t <:+: s := by
  rintro ⟨u, v, rfl⟩
  have hpos := List.length_pos_iff.2 ht
  refine h u.length (by simp only [List.length_append]; omega) ?_
  rw [List.append_assoc, List.drop_left]
  exact List.prefix_append t v

theorem Parted.ne_nil (h : Parted t s pieces) : pieces ≠ [] := by
  cases h <;> exact List.cons_ne_nil _ _

theorem Parted.join (h : Parted t s pieces) : Text.join t pieces = s := by
  induction h with
  | last => rfl
  | @piece before after pieces _ hrest ih =>
    obtain ⟨p, ps, rfl⟩ := List.exists_cons_of_ne_nil hrest.ne_nil
    rw [Text.join, ih, List.append_assoc]

theorem Parted.not_contained (ht : t ≠ []) (h : Parted t s pieces) : ∀ p ∈ pieces, ¬t <:+: p := by
  induction h with
  | last h =>
    rintro p (_ | ⟨_, ⟨⟩⟩)
    exact h.not_contained ht
  | @piece before after pieces h _ ih =>
    rintro p (_ | ⟨_, hp⟩)
    · rintro ⟨u, v, rfl⟩
      have hpos := List.length_pos_iff.2 ht
      refine h u.length (by simp only [List.length_append]; omega) ?_
      rw [List.append_assoc, List.append_assoc, List.drop_left]
      exact List.prefix_append t _
    · exact ih p hp

/-- While a piece is read, the separator does not begin in it. -/
theorem parted_splitFrom (ht : t ≠ []) (skip : Nat) (piece s : Text)
    (h : AbsentBefore t piece.length (piece.reverse ++ s.drop skip)) :
    Parted t (piece.reverse ++ s.drop skip) (splitFrom t skip piece s) := by
  induction skip, piece, s using splitFrom.induct t with
  | case1 skip piece =>
    rw [splitFrom, List.drop_nil, List.append_nil] at *
    exact .last (by rwa [List.length_reverse])
  | case2 skip piece b rest ih =>
    rw [splitFrom]
    exact ih h
  | case3 piece b rest hprefix ih =>
    obtain ⟨after, hafter⟩ := List.isPrefixOf_iff_prefix.1 hprefix
    obtain ⟨c, u, rfl⟩ := List.exists_cons_of_ne_nil ht
    obtain ⟨rfl, rfl⟩ := List.cons.inj hafter
    rw [splitFrom, if_pos hprefix]
    refine .piece (by rwa [List.length_reverse]) ?_
    have hdrop : (u.append after).drop ((c :: u).length - 1) = after := List.drop_left
    have hpieces := ih nofun
    rwa [List.reverse_nil, List.nil_append, hdrop] at hpieces
  | case4 piece b rest hprefix ih =>
    have hmove : (b :: piece).reverse ++ rest.drop 0 = piece.reverse ++ (b :: rest).drop 0 := by simp
    rw [hmove] at ih
    rw [splitFrom, if_neg hprefix]
    refine ih fun k hk => ?_
    rcases Nat.lt_succ_iff_lt_or_eq.1 hk with hlt | rfl
    · exact h k hlt
    · rw [← List.length_reverse, List.drop_left]
      exact fun hp => hprefix (List.isPrefixOf_iff_prefix.2 hp)

theorem parted_split (ht : t ≠ []) (s : Text) : Parted t s (split t s) := by
  rw [split, if_neg (by simpa using ht)]
  exact parted_splitFrom ht 0 [] s nofun

theorem find?_of_absent (h : AbsentBefore t before.length (before ++ (t ++ after))) :
    find? t (before ++ (t ++ after)) = some before.length := by
  induction before with
  | nil =>
    have hprefix : t.isPrefixOf (t ++ after) = true :=
      List.isPrefixOf_iff_prefix.2 (List.prefix_append t after)
    rw [List.nil_append]
    cases htext : t ++ after with
    | nil =>
      rw [(List.append_eq_nil_iff.1 htext).1]
      rfl
    | cons b rest =>
      rw [htext] at hprefix
      exact if_pos hprefix
  | cons b before ih =>
    have hhead : ¬t.isPrefixOf (b :: (before ++ (t ++ after))) = true := fun hp =>
      h 0 (Nat.succ_pos _) (List.isPrefixOf_iff_prefix.1 hp)
    have htail := ih fun k hk => h (k + 1) (Nat.succ_lt_succ hk)
    rw [List.cons_append, find?, if_neg hhead, htail]
    rfl

theorem find?_eq_none (ht : t ≠ []) (h : AbsentBefore t s.length s) : find? t s = none := by
  induction s with
  | nil => exact if_neg (by simpa using ht)
  | cons b s ih =>
    have hhead : ¬t.isPrefixOf (b :: s) = true := fun hp =>
      h 0 (Nat.succ_pos _) (List.isPrefixOf_iff_prefix.1 hp)
    have htail := ih fun k hk => h (k + 1) (Nat.succ_lt_succ hk)
    rw [find?, if_neg hhead, htail]
    rfl

theorem removeFrom_of_none {start : Nat} (h : findFrom? t start s = none) :
    removeFrom t start s = s := by
  rw [removeFrom]
  split
  · rename_i hfound
    cases h.symm.trans hfound
  · rfl

theorem removeFrom_of_some {start i : Nat} (ht : t ≠ []) (h : findFrom? t start s = some i) :
    removeFrom t start s = removeFrom t i (s.take i ++ s.drop (i + t.length)) := by
  rw [removeFrom]
  split
  · rename_i hfound
    cases h.symm.trans hfound
    rw [if_neg ht]
  · rename_i hnone
    cases h.symm.trans hnone

theorem Parted.removeFrom (ht : t ≠ []) (h : Parted t s pieces) (kept : Text) :
    Text.removeFrom t kept.length (kept ++ s) = kept ++ pieces.flatten := by
  induction h generalizing kept with
  | @last s h =>
    have hnone : findFrom? t kept.length (kept ++ s) = none := by
      rw [findFrom?, List.drop_left, find?_eq_none ht h]
      rfl
    rw [removeFrom_of_none hnone]
    simp
  | @piece before after pieces h _ ih =>
    have hfound : findFrom? t kept.length (kept ++ (before ++ (t ++ after))) =
        some (kept ++ before).length := by
      rw [findFrom?, List.drop_left, find?_of_absent h, List.length_append]
      rfl
    have htext : kept ++ (before ++ (t ++ after)) = (kept ++ before) ++ (t ++ after) :=
      (List.append_assoc ..).symm
    rw [removeFrom_of_some ht hfound, htext, List.take_left, ← List.drop_drop, List.drop_left,
      List.drop_left, ih (kept ++ before), List.flatten_cons, List.append_assoc]

theorem flatten_split_nil (s : Text) : (split [] s).flatten = s := by
  induction s with
  | nil => rfl
  | cons b s ih => exact congrArg (b :: ·) ih

theorem without_nil (s : Text) : without [] s = s := by
  rw [without, removeFrom]
  split
  · exact if_pos rfl
  · rfl

theorem join_nil (pieces : List Text) : join [] pieces = pieces.flatten := by
  induction pieces with
  | nil => rfl
  | cons p pieces ih =>
    cases pieces with
    | nil => exact (List.append_nil p).symm
    | cons q pieces =>
      rw [join, ih, List.append_nil]
      rfl

theorem join_split (t s : Text) : join t (split t s) = s := by
  by_cases ht : t = []
  · rw [ht, join_nil, flatten_split_nil]
  · exact (parted_split ht s).join

theorem without_eq_join (t s : Text) : without t s = join [] (split t s) := by
  rw [join_nil]
  by_cases ht : t = []
  · rw [ht, without_nil, flatten_split_nil]
  · exact (parted_split ht s).removeFrom ht []

end Text

end ScriptMachine
