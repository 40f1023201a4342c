import ScriptMachine.Proofs.Number.Comparison
import ScriptMachine.Proofs.Value.Refusals
import ScriptMachine.Proofs.Value.Renaming

set_option autoImplicit false

/-!
# The ordering operators

Seen from the other side a comparison of values is the same one turned round, also where it goes through
lists and maps. It has no answer exactly if two numbers decide it of which one is a NaN. Main statement:
on operands that are neither errors nor objects the four ordering operators agree with each other and
with their mirror images.
-/
namespace ScriptMachine

theorem Text.compare_swap (s t : Text) : Text.compare t s = (Text.compare s t).swap := by
  induction s generalizing t with
  | nil => cases t <;> rfl
  | cons a s ih =>
    cases t with
    | nil => rfl
    | cons b t =>
      unfold Text.compare
      by_cases hlt : a < b
      · rw [if_pos hlt, if_neg (UInt8.lt_asymm hlt), if_pos hlt]
        rfl
      · by_cases hgt : b < a
        · rw [if_pos hgt, if_neg hlt, if_pos hgt]
          rfl
        · rw [if_neg hgt, if_neg hlt, if_neg hlt, if_neg hgt, ih]

namespace Number

theorem pair_of_isNaN {a b : Number} (h : a.isNaN = true ∨ b.isNaN = true) :
    pair a b = .floats a.toFloat b.toFloat := by
  cases a with
  | float x => cases b <;> rfl
  | int v | uint v =>
    cases b with
    | float y => rfl
    | int w | uint w => rcases h with h | h <;> cases h

theorem compare?_eq_none_iff (a b : Number) :
    compare? a b = none ↔ a.isNaN = true ∨ b.isNaN = true := by
  constructor
  · intro h
    unfold compare? at h
    split at h
    · cases h
    · cases h
    · split_ifs at h with hnan
      exact Bool.or_eq_true_iff.1 hnan
  · intro h
    unfold compare?
    rw [pair_of_isNaN h]
    exact if_pos (Bool.or_eq_true_iff.2 h)

end Number

namespace Value

/-- The comparison of two values finds no difference. -/
def Tied (a b : Value) : Prop := a.compare? b = some .eq

/-- A comparison is decided by two numbers of which one is a NaN: by the operands themselves, where a
text that reads as a number stands for it beside a number, or by the first items of two lists, or keys
or values of two maps, that are not tied. -/
inductive DecidedByNaN : Value → Value → Prop
  | numbers {m n : Number} (h : m.isNaN = true ∨ n.isNaN = true) : DecidedByNaN (.num m) (.num n)
  | parsed {a b : Value} {m n : Number} (hp : Coercion.numericPair a b = some (m, n))
      (h : m.isNaN = true ∨ n.isNaN = true) : DecidedByNaN a b
  | item {before before' vs ws : List Value} {v w : Value} (ht : List.Forall₂ Tied before before')
      (h : DecidedByNaN v w) : DecidedByNaN (.list (before ++ v :: vs)) (.list (before' ++ w :: ws))
  | key {before before' es fs : Entries} {e f : Value × Value}
      (ht : List.Forall₂ (fun e f => Tied e.1 f.1 ∧ Tied e.2 f.2) before before')
      (h : DecidedByNaN e.1 f.1) : DecidedByNaN (.map (before ++ e :: es)) (.map (before' ++ f :: fs))
  | value {before before' es fs : Entries} {e f : Value × Value}
      (ht : List.Forall₂ (fun e f => Tied e.1 f.1 ∧ Tied e.2 f.2) before before') (hk : Tied e.1 f.1)
      (h : DecidedByNaN e.2 f.2) : DecidedByNaN (.map (before ++ e :: es)) (.map (before' ++ f :: fs))

theorem compareItems_swap {vs : List Value}
    (h : ∀ v ∈ vs, ∀ w, compare? w v = (compare? v w).map Ordering.swap) (ws : List Value) :
    compareItems ws vs = (compareItems vs ws).map Ordering.swap := by
  induction vs generalizing ws with
  | nil => cases ws <;> rfl
  | cons v vs ih =>
    obtain ⟨hv, hvs⟩ := List.forall_mem_cons.1 h
    cases ws with
    | nil => rfl
    | cons w ws =>
      unfold compareItems
      rw [hv w]
      cases compare? v w with
      | none => rfl
      | some o =>
        cases o with
        | eq => exact ih hvs ws
        | lt | gt => rfl

theorem compareEntries_swap {es : Entries}
    (h : ∀ e ∈ es, (∀ w, compare? w e.1 = (compare? e.1 w).map Ordering.swap) ∧
      ∀ w, compare? w e.2 = (compare? e.2 w).map Ordering.swap) (fs : Entries) :
    compareEntries fs es = (compareEntries es fs).map Ordering.swap := by
  induction es generalizing fs with
  | nil => cases fs <;> rfl
  | cons e es ih =>
    obtain ⟨⟨hk, hv⟩, hes⟩ := List.forall_mem_cons.1 h
    cases fs with
    | nil => rfl
    | cons f fs =>
      unfold compareEntries
      rw [hk f.1, hv f.2]
      cases compare? e.1 f.1 with
      | none => rfl
      | some o =>
        cases o with
        | lt | gt => rfl
        | eq =>
          cases compare? e.2 f.2 with
          | none => rfl
          | some o =>
            cases o with
            | eq => exact ih hes fs
            | lt | gt => rfl

theorem compareTextNumber_swap (n : Number) (t : Text) :
    compareTextNumber t n = (compareNumberText n t).map Ordering.swap := by
  unfold compareTextNumber compareNumberText
  cases Number.parse t with
  | some m => exact Number.compare?_swap n m
  | none => exact congrArg some (Text.compare_swap _ _)

/-- Seen from the other side a comparison is turned round. -/
theorem compare?_swap (a b : Value) : compare? b a = (compare? a b).map Ordering.swap := by
  induction a using Value.induction generalizing b with
  | bool x =>
    cases b with
    | bool y => exact congrArg some Std.OrientedCmp.eq_swap
    | _ => rfl
  | num n =>
    cases b with
    | num m => exact Number.compare?_swap n m
    | str t => exact compareTextNumber_swap n t
    | _ => rfl
  | str t =>
    cases b with
    | num n =>
      change compareNumberText n t = (compareTextNumber t n).map Ordering.swap
      rw [compareTextNumber_swap, Option.map_map]
      cases compareNumberText n t with
      | none => rfl
      | some o => cases o <;> rfl
    | str s => exact congrArg some (Text.compare_swap t s)
    | _ => rfl
  | list vs ih =>
    cases b with
    | list ws => exact compareItems_swap ih ws
    | _ => rfl
  | map es ih =>
    cases b with
    | map fs => exact compareEntries_swap ih fs
    | _ => rfl
  | none | error | range | record | closure | host => cases b <;> rfl

theorem compareItems_append {vs ws : List Value} (h : List.Forall₂ Tied vs ws) (vs' ws' : List Value) :
    compareItems (vs ++ vs') (ws ++ ws') = compareItems vs' ws' := by
  induction h with
  | nil => rfl
  | cons ht _ ih =>
    simp only [List.cons_append, compareItems]
    rw [ht]
    exact ih

theorem compareEntries_append {es fs : Entries}
    (h : List.Forall₂ (fun e f => Tied e.1 f.1 ∧ Tied e.2 f.2) es fs) (es' fs' : Entries) :
    compareEntries (es ++ es') (fs ++ fs') = compareEntries es' fs' := by
  induction h with
  | nil => rfl
  | cons ht _ ih =>
    simp only [List.cons_append, compareEntries]
    rw [ht.1, ht.2]
    exact ih

theorem compare?_of_numericPair {a b : Value} {m n : Number}
    (h : Coercion.numericPair a b = some (m, n)) : compare? a b = m.compare? n := by
  cases a with
  | num x =>
    cases b with
    | str t =>
      obtain ⟨y, hy, hmn⟩ := Option.map_eq_some_iff.1 h
      cases hmn
      simp only [compare?, compareNumberText, hy]
    | _ => cases h
  | str t =>
    cases b with
    | num y =>
      obtain ⟨x, hx, hmn⟩ := Option.map_eq_some_iff.1 h
      cases hmn
      simp only [compare?, compareTextNumber, hx]
    | _ => cases h
  | _ => cases h

theorem compare?_of_decidedByNaN {a b : Value} (h : DecidedByNaN a b) : compare? a b = .none := by
  induction h with
  | numbers h => exact (Number.compare?_eq_none_iff _ _).2 h
  | parsed hp h => exact (compare?_of_numericPair hp).trans ((Number.compare?_eq_none_iff _ _).2 h)
  | item ht _ ih => simp only [compare?, compareItems_append ht, compareItems, ih]
  | key ht _ ih => simp only [compare?, compareEntries_append ht, compareEntries, ih]
  | value ht hk _ ih =>
    rw [Tied] at hk
    simp only [compare?, compareEntries_append ht, compareEntries, hk, ih]

theorem compareItems_eq_none {vs ws : List Value} (h : compareItems vs ws = .none) :
    ∃ before before' v w vs' ws', vs = before ++ v :: vs' ∧ ws = before' ++ w :: ws' ∧
      List.Forall₂ Tied before before' ∧ compare? v w = .none := by
  induction vs generalizing ws with
  | nil => cases ws <;> cases h
  | cons v vs ih =>
    cases ws with
    | nil => cases h
    | cons w ws =>
      unfold compareItems at h
      split at h
      · rename_i htied
        obtain ⟨before, before', v', w', vs', ws', rfl, rfl, ht, hn⟩ := ih h
        exact ⟨v :: before, w :: before', v', w', vs', ws', rfl, rfl, .cons htied ht, hn⟩
      · exact ⟨[], [], v, w, vs, ws, rfl, rfl, .nil, h⟩

theorem compareEntries_eq_none {es fs : Entries} (h : compareEntries es fs = .none) :
    ∃ before before' e f es' fs', es = before ++ e :: es' ∧ fs = before' ++ f :: fs' ∧
      List.Forall₂ (fun e f => Tied e.1 f.1 ∧ Tied e.2 f.2) before before' ∧
      (compare? e.1 f.1 = .none ∨ Tied e.1 f.1 ∧ compare? e.2 f.2 = .none) := by
  induction es generalizing fs with
  | nil => cases fs <;> cases h
  | cons e es ih =>
    cases fs with
    | nil => cases h
    | cons f fs =>
      unfold compareEntries at h
      split at h
      · rename_i hkey
        split at h
        · rename_i hvalue
          obtain ⟨before, before', e', f', es', fs', rfl, rfl, ht, hn⟩ := ih h
          exact ⟨e :: before, f :: before', e', f', es', fs', rfl, rfl, .cons ⟨hkey, hvalue⟩ ht, hn⟩
        · exact ⟨[], [], e, f, es, fs, rfl, rfl, .nil, .inr ⟨hkey, h⟩⟩
      · exact ⟨[], [], e, f, es, fs, rfl, rfl, .nil, .inl h⟩

theorem decidedByNaN_of_compare? {a b : Value} (h : compare? a b = .none) : DecidedByNaN a b := by
  induction a using Value.induction generalizing b with
  | num m =>
    cases b with
    | num n => exact .numbers ((Number.compare?_eq_none_iff m n).1 h)
    | str t =>
      simp only [compare?, compareNumberText] at h
      split at h
      · rename_i n hn
        exact .parsed (congrArg (Option.map fun n => (m, n)) hn) ((Number.compare?_eq_none_iff m n).1 h)
      · cases h
    | _ => cases h
  | str t =>
    cases b with
    | num n =>
      simp only [compare?, compareTextNumber] at h
      split at h
      · rename_i m hm
        exact .parsed (congrArg (Option.map fun m => (m, n)) hm) ((Number.compare?_eq_none_iff m n).1 h)
      · cases h
    | _ => cases h
  | list vs ih =>
    cases b with
    | list ws =>
      obtain ⟨before, before', v, w, vs', ws', rfl, rfl, ht, hn⟩ := compareItems_eq_none h
      exact .item ht (ih v (by simp) hn)
    | _ => cases h
  | map es ih =>
    cases b with
    | map fs =>
      obtain ⟨before, before', e, f, es', fs', rfl, rfl, ht, hn⟩ := compareEntries_eq_none h
      obtain ⟨ihk, ihv⟩ := ih e (by simp)
      rcases hn with hn | ⟨hk, hn⟩
      · exact .key ht (ihk hn)
      · exact .value ht hk (ihv hn)
    | _ => cases h
  | _ => cases b <;> cases h

theorem compare?_eq_none_iff (a b : Value) : compare? a b = .none ↔ DecidedByNaN a b :=
  ⟨decidedByNaN_of_compare?, compare?_of_decidedByNaN⟩

end Value

namespace BinaryOp

open Coercion

variable {a b : Value}

theorem apply_ordering {op : BinaryOp} (id : Nat) (hop : op = .lt ∨ op = .lte ∨ op = .gt ∨ op = .gte)
    (ha : Plain a) (hb : Plain b) : op.apply id a b = .ok (.bool ((a.compare? b).any (holds op))) := by
  have herror : (a.isError || b.isError) = false := by cases ha <;> cases hb <;> rfl
  have hobject : (a.isObject || b.isObject) = false := by cases ha <;> cases hb <;> rfl
  have hcompare : Coercion.compare op a b = .ok (.bool ((a.compare? b).any (holds op))) := by
    unfold Coercion.compare
    rw [hobject]
    cases a.compare? b <;> rfl
  have heq : op ≠ .eq := by
    rintro rfl
    simp at hop
  have hneq : op ≠ .neq := by
    rintro rfl
    simp at hop
  rw [apply_of_ne id a b heq hneq, herror, hooked_plain op ha hb]
  rcases hop with rfl | rfl | rfl | rfl <;> exact hcompare

/-- The answers of the four ordering operators. -/
structure Orders (id : Nat) (a b : Value) (lt lte gt gte : Bool) : Prop where
  lt : BinaryOp.lt.apply id a b = .ok (.bool lt)
  lte : BinaryOp.lte.apply id a b = .ok (.bool lte)
  gt : BinaryOp.gt.apply id a b = .ok (.bool gt)
  gte : BinaryOp.gte.apply id a b = .ok (.bool gte)

theorem orders_of_compare? (id : Nat) (ha : Plain a) (hb : Plain b) {r : Option Ordering}
    (h : a.compare? b = r) :
    Orders id a b (r.any (holds .lt)) (r.any (holds .lte)) (r.any (holds .gt)) (r.any (holds .gte)) := by
  subst h
  exact ⟨apply_ordering id (by simp) ha hb, apply_ordering id (by simp) ha hb,
    apply_ordering id (by simp) ha hb, apply_ordering id (by simp) ha hb⟩

/-- On operands that are neither errors nor objects the ordering operators have answers, the operands in
the opposite order have those of the opposite operators, and either a NaN decides the comparison and all
four answers are no, or just one of less, greater and equal is the case. -/
theorem ordering_coherent (id : Nat) (hae : a.isError = false) (hao : a.isObject = false)
    (hbe : b.isError = false) (hbo : b.isObject = false) :
    ∃ lt lte gt gte, Orders id a b lt lte gt gte ∧ Orders id b a gt gte lt lte ∧
      (a.DecidedByNaN b ∧ (lt, lte, gt, gte) = (false, false, false, false) ∨
        ¬a.DecidedByNaN b ∧ ((lt, lte, gt, gte) = (true, true, false, false) ∨
          (lt, lte, gt, gte) = (false, false, true, true) ∨
          (lt, lte, gt, gte) = (false, true, false, true))) := by
  have ha := plain_of_kind hae hao
  have hb := plain_of_kind hbe hbo
  have hnan := Value.compare?_eq_none_iff a b
  have hswap := Value.compare?_swap a b
  cases hr : a.compare? b with
  | none =>
    rw [hr] at hswap
    exact ⟨_, _, _, _, orders_of_compare? id ha hb hr, orders_of_compare? id hb ha hswap,
      .inl ⟨hnan.1 hr, rfl⟩⟩
  | some o =>
    have hordered : ¬a.DecidedByNaN b := fun h => nomatch hr.symm.trans (hnan.2 h)
    rw [hr] at hswap
    have hforth := orders_of_compare? id ha hb hr
    have hback := orders_of_compare? id hb ha hswap
    cases o with
    | lt => exact ⟨_, _, _, _, hforth, hback, .inr ⟨hordered, .inl rfl⟩⟩
    | gt => exact ⟨_, _, _, _, hforth, hback, .inr ⟨hordered, .inr (.inl rfl)⟩⟩
    | eq => exact ⟨_, _, _, _, hforth, hback, .inr ⟨hordered, .inr (.inr rfl)⟩⟩

/-- A NaN behind tied items, one of them a text for a number, leaves two lists without an order. -/
theorem ordering_coherent_lists :
    let nan : Value := .num (.float .invalid)
    let a : Value := .list [.str "1", .list [nan]]
    let b : Value := .list [.int 1, .list [.int 2]]
    a.isError = false ∧ a.isObject = false ∧ b.isError = false ∧ b.isObject = false ∧
      a.DecidedByNaN b ∧ Orders 0 a b false false false false ∧ Orders 0 b a false false false false := by
  intro nan a b
  have hnan : a.DecidedByNaN b := (Value.compare?_eq_none_iff a b).1 (by decide +kernel)
  obtain ⟨lt, lte, gt, gte, hforth, hback, h⟩ := ordering_coherent 0 (a := a) (b := b) rfl rfl rfl rfl
  rcases h with ⟨-, hnone⟩ | ⟨hordered, -⟩
  · cases hnone
    exact ⟨rfl, rfl, rfl, rfl, hnan, hforth, hback⟩
  · exact absurd hnan hordered

end BinaryOp

end ScriptMachine
