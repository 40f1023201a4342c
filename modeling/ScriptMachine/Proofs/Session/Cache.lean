import Mathlib.Data.List.DropRight
import Mathlib.Data.List.Nodup
import ScriptMachine.Session.Cache

set_option autoImplicit false

namespace ScriptMachine

namespace Cache

variable {α : Type} {c : Cache α} {key : Text} {a : α} {room : Nat} {stored : List (Text × α)}

theorem rtake_rtake_append {β : Type} (n : Nat) (hn : 0 < n) (l : List β) (b : β) :
    (l.rtake n ++ [b]).rtake n = (l ++ [b]).rtake n := by
  obtain ⟨m, rfl⟩ := Nat.exists_eq_succ_of_ne_zero (Nat.ne_of_gt hn)
  rw [List.rtake_concat_succ, List.rtake_concat_succ]
  congr 1
  simp only [List.rtake_eq_reverse_take_reverse, List.reverse_reverse, List.take_take]
  rw [Nat.min_eq_left (Nat.le_succ m)]

theorem rtake_append_cons {β : Type} {n : Nat} {before after : List β} {b : β}
    (h : after.length < n) :
    (before ++ b :: after).rtake n = before.rtake (n - (after.length + 1)) ++ b :: after := by
  have hdrop : (before ++ b :: after).length - n = before.length - (n - (after.length + 1)) := by
    simp only [List.length_append, List.length_cons]
    omega
  rw [List.rtake, hdrop, List.drop_append_of_le_length (Nat.sub_le _ _)]
  rfl

theorem store_known (hfind : c.find? key = some a) (b : α) : c.store key b = (a, c) := by
  simp only [store, hfind]

/-- The cache after all values of a history have newly been stored. -/
structure Holds (c : Cache α) (stored : List (Text × α)) : Prop where
  room : 0 < c.capacity
  order : c.order = (stored.rtake c.capacity).map Prod.fst
  kept : c.kept.Perm (stored.rtake c.capacity)
  distinct : c.order.Nodup

theorem create_holds (capacity : Nat) : (create capacity : Cache α).Holds [] :=
  ⟨Nat.le_max_right _ _, by simp [create], by simp [create], List.nodup_nil⟩

/-- Dropping the oldest entries keeps the last ones. -/
theorem evict_spec (room : Nat) {kept entries : List (Text × α)} (h : kept.Perm entries)
    (hd : (entries.map Prod.fst).Nodup) :
    (evict room kept (entries.map Prod.fst)).capacity = room ∧
      (evict room kept (entries.map Prod.fst)).order = (entries.rtake room).map Prod.fst ∧
      (evict room kept (entries.map Prod.fst)).kept.Perm (entries.rtake room) := by
  induction entries generalizing kept with
  | nil => exact ⟨rfl, by simp [evict], by simpa [evict] using h⟩
  | cons e entries ih =>
    obtain ⟨hfresh, hd⟩ := List.nodup_cons.1 hd
    simp only [List.map_cons, evict, List.length_cons, List.length_map]
    split
    · rename_i hroom
      have hrest : (e :: entries).rtake room = entries.rtake room := by
        rw [List.rtake, List.rtake, List.length_cons, Nat.succ_sub (by omega), List.drop_succ_cons]
      have hkept : (kept.filter fun x => x.1 != e.1).Perm entries := by
        refine (h.filter _).trans ?_
        rw [List.filter_cons_of_neg (by simp), List.filter_eq_self.2]
        intro x hx
        have hne : x.1 ≠ e.1 := fun hxe => hfresh (hxe ▸ List.mem_map_of_mem hx)
        simpa using hne
      rw [hrest]
      exact ih hkept hd
    · rename_i hroom
      have hall : (e :: entries).rtake room = e :: entries := by
        rw [List.rtake, List.length_cons, Nat.sub_eq_zero_of_le (by omega), List.drop_zero]
      exact ⟨rfl, by rw [hall]; rfl, by rw [hall]; exact h⟩

namespace Holds

variable (h : c.Holds stored)
include h

theorem keys : ((stored.rtake c.capacity).map Prod.fst).Nodup := h.order ▸ h.distinct

theorem order_perm : c.order.Perm (c.kept.map Prod.fst) := by
  rw [h.order]
  exact (h.kept.map _).symm

theorem size_le : c.size ≤ c.capacity := by
  rw [Cache.size, h.kept.length_eq, List.rtake, List.length_drop]
  omega

theorem find?_some : c.find? key = some a ↔ (key, a) ∈ stored.rtake c.capacity := by
  rw [← h.kept.mem_iff]
  constructor
  · intro hfind
    obtain ⟨front, back, hkept, -⟩ := List.lookup_eq_some_iff.1 hfind
    rw [hkept]
    exact List.mem_append_right _ List.mem_cons_self
  · intro hmem
    obtain ⟨front, back, hkept⟩ := List.append_of_mem hmem
    refine List.lookup_eq_some_iff.2 ⟨front, back, hkept, fun x hx => ?_⟩
    have hd : (c.kept.map Prod.fst).Nodup := h.order_perm.nodup_iff.1 h.distinct
    rw [hkept, List.map_append, List.map_cons] at hd
    have hne : x.1 ≠ key := fun hxe => (List.nodup_append.1 hd).2.2 x.1 (List.mem_map_of_mem hx) key
      List.mem_cons_self hxe
    simpa using hne.symm

theorem find?_none : c.find? key = none ↔ key ∉ (stored.rtake c.capacity).map Prod.fst := by
  rw [Option.eq_none_iff_forall_ne_some]
  constructor
  · intro hnone hmem
    obtain ⟨⟨_, b⟩, hb, rfl⟩ := List.mem_map.1 hmem
    exact hnone b (h.find?_some.2 hb)
  · exact fun hfresh b hb => hfresh (List.mem_map_of_mem (h.find?_some.1 hb))

/-- A new value is stored and given back. -/
theorem store_new (hfind : c.find? key = none) (a : α) :
    (c.store key a).1 = a ∧ (c.store key a).2.capacity = c.capacity ∧
      (c.store key a).2.Holds (stored ++ [(key, a)]) := by
  have hfresh := h.find?_none.1 hfind
  have horder : c.order ++ [key] = ((stored.rtake c.capacity ++ [(key, a)]).map Prod.fst) := by
    simp [h.order]
  have hkept : ((key, a) :: c.kept).Perm (stored.rtake c.capacity ++ [(key, a)]) :=
    (h.kept.cons _).trans (List.perm_append_singleton _ _).symm
  have hd : ((stored.rtake c.capacity ++ [(key, a)]).map Prod.fst).Nodup := by
    rw [List.map_append, List.map_singleton]
    refine List.nodup_append.2 ⟨h.keys, List.nodup_singleton _, fun k hk l hl hkl => hfresh ?_⟩
    cases List.mem_singleton.1 hl
    cases hkl
    exact hk
  obtain ⟨hroom, hord, hper⟩ := evict_spec c.capacity hkept hd
  simp only [store, hfind, horder, true_and]
  rw [rtake_rtake_append _ h.room] at hord hper
  refine ⟨hroom, hroom.symm ▸ h.room, by rw [hroom, hord], by rw [hroom]; exact hper, ?_⟩
  rw [hord, ← rtake_rtake_append _ h.room, List.rtake]
  exact hd.sublist ((List.drop_sublist _ _).map _)

theorem find?_recent {before after : List (Text × α)} (hstored : stored = before ++ (key, a) :: after)
    (hroom : after.length < c.capacity) : c.find? key = some a := by
  rw [h.find?_some, hstored, rtake_append_cons hroom]
  exact List.mem_append_right _ List.mem_cons_self

theorem find?_gone {before after : List (Text × α)} (hstored : stored = before ++ (key, a) :: after)
    (hroom : c.capacity ≤ after.length) (hafter : key ∉ after.map Prod.fst) : c.find? key = none := by
  rw [h.find?_none, hstored]
  intro hmem
  refine hafter (List.map_subset _ (fun e he => ?_) hmem)
  have hlast : (before ++ (key, a) :: after).rtake c.capacity = after.rtake c.capacity := by
    rw [List.append_cons, List.rtake, List.length_append, Nat.add_sub_assoc hroom,
      List.drop_length_add_append, List.rtake]
  rw [hlast] at he
  exact List.mem_of_mem_drop he

end Holds

def Spaced (room : Nat) (keys : List Text) : Prop :=
  ∀ before key after, keys = before ++ key :: after → key ∉ after.take room

theorem Spaced.nodup {keys before after : List Text} (h : Spaced room keys)
    (hkeys : keys = before ++ key :: after) : (key :: after.take room).Nodup := by
  refine List.nodup_cons.2 ⟨h before key after hkeys, ?_⟩
  induction after generalizing before key with
  | nil => simp
  | cons k after ih =>
    have hnext : keys = (before ++ [key]) ++ k :: after := by simpa using hkeys
    refine (List.nodup_cons.2 ⟨h _ k after hnext, ih hnext⟩).sublist ?_
    rw [← List.take_succ_cons]
    exact List.take_sublist_take_left (Nat.le_succ room)

theorem spaced_nil (room : Nat) : Spaced room [] := fun before key after h => by simp at h

/-- A key may come next that is not among the last ones. -/
theorem Spaced.append {keys : List Text} (h : Spaced room keys) (hkey : key ∉ keys.rtake room) :
    Spaced room (keys ++ [key]) := by
  intro before k after heq hmem
  rcases List.eq_nil_or_concat after with rfl | ⟨rest, last, rfl⟩
  · simp at hmem
  rw [List.concat_eq_append] at heq hmem
  have hsplit : keys ++ [key] = (before ++ k :: rest) ++ [last] := by simpa using heq
  obtain ⟨hkeys, hlast⟩ := List.append_inj' hsplit rfl
  cases hlast
  have hold := h before k rest hkeys
  rcases Nat.lt_or_ge rest.length room with hlt | hge
  · rw [List.take_of_length_le (by simpa using Nat.succ_le_of_lt hlt)] at hmem
    rw [List.take_of_length_le (Nat.le_of_lt hlt)] at hold
    rcases List.mem_append.1 hmem with hmem | hmem
    · exact hold hmem
    · cases List.mem_singleton.1 hmem
      rw [hkeys, rtake_append_cons hlt] at hkey
      exact hkey (List.mem_append_right _ List.mem_cons_self)
  · rw [List.take_append_of_le_length hge] at hmem
    exact hold hmem

end Cache

end ScriptMachine
