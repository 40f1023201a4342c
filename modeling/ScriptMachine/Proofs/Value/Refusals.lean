import ScriptMachine.Operator.Binary
import Mathlib.Tactic.Common

set_option autoImplicit false

/-!
# What the binary operators refuse

A pair of operands outside the table of its operator is refused with a type error. A pair inside the
table can still have no result, which is a runtime error: a zero divisor, a bad repetition, a bad
chunk size. On operands that are no objects nothing else goes wrong.
-/
namespace ScriptMachine

namespace Coercion

/-- A number and a text, in either order. -/
def NumberAndText (a b : Value) : Prop :=
  a.kind = .number ∧ b.kind = .string ∨ a.kind = .string ∧ b.kind = .number

/-- A number and a text that reads as a number, in either order. -/
def Parses (a b : Value) : Prop := (numericPair a b).isSome

/-- Two numbers, where a text may stand for the one that it reads as. -/
def Numeric (a b : Value) : Prop := a.kind = .number ∧ b.kind = .number ∨ Parses a b

/-- None or a boolean on some side. -/
def HasTruth (a b : Value) : Prop :=
  a.kind = .none ∨ b.kind = .none ∨ a.kind = .bool ∨ b.kind = .bool

/-- The pairs that can be shifted, apart from those with a boolean on the right. -/
def Shifts (a b : Value) : Prop :=
  a.kind = .none ∨ b.kind = .none ∨ (a.kind = .bool ∨ a.kind = .number) ∧ b.kind = .number ∨
    a.kind = .number ∧ Parses a b ∨ a.kind = .string ∧ (b.kind = .number ∨ b.kind = .string) ∨
    a.kind = .list

/-- The pairs outside the table of an operator. No pair is outside those of addition, of the logical
operators and of comparison. -/
def Forbids (op : BinaryOp) (a b : Value) : Prop :=
  match op with
  | .sub =>
    (a.kind = .number ∨ a.kind = .string) ∧ (b.kind = .list ∨ b.kind = .map) ∨
      NumberAndText a b ∧ ¬Parses a b
  | .mul =>
    ¬(HasTruth a b ∨ (a.kind = .number ∨ a.kind = .string ∨ a.kind = .list) ∧ b.kind = .number)
  | .div =>
    b.kind = .none ∨
      ¬(HasTruth a b ∨ Numeric a b ∨ a.kind = .string ∧ b.kind = .string ∨
        a.kind = .list ∧ b.kind = .number)
  | .rem => ¬(HasTruth a b ∨ Numeric a b)
  | .shl | .shr => ¬(Shifts a b ∨ b = .bool false ∨ b = .bool true ∧ Shifts a (.int 1))
  | .bitAnd | .bitXor => ¬(HasTruth a b ∨ Numeric a b)
  | .bitOr =>
    ¬(HasTruth a b ∨ Numeric a b ∨ a.kind = .list ∧ b.kind = .list ∨
      a.kind = .map ∧ b.kind = .map)
  | _ => False

/-- A number of times that something of the given size cannot be repeated. -/
def BadCount (count : Number) (size : Nat) : Prop :=
  count.isNegative ∨ size ≠ 0 ∧ (count.toFloat.isFinite = false ∨
    Binary64.compareOrdered (count.toFloat.mul (.ofInt size)) repeatLimit = .gt)

/-- The divisor that the right operand stands for. -/
def divisor? (a b : Value) : Option Number :=
  match a, b with
  | .num _, .num n => some n
  | _, _ => (numericPair a b).map Prod.snd

/-- The pairs in the table of an operator that have no result all the same. -/
def Undefined (op : BinaryOp) (a b : Value) : Prop :=
  match op, a, b with
  | .mul, .str t, .num n => Number.parse t = none ∧ BadCount n t.length
  | .mul, .list items, .num n => BadCount n items.length
  | .div, .list _, .num n => n.toInt.toInt ≤ 0
  | .div, a, b => ∃ n ∈ divisor? a b, n.isZero
  | .rem, a, b => ∃ n ∈ divisor? a b, n.isZero
  | _, _, _ => False

/-- The result is a type error exactly where it is refused, a runtime error exactly where it is
undefined, and nothing else but a value. -/
def Judged (r : Except Fault Value) (refused undefined : Prop) : Prop :=
  match r with
  | .ok _ => ¬refused ∧ ¬undefined
  | .error f =>
    f.kind = .typeError ∧ refused ∧ ¬undefined ∨ f.kind = .runtimeError ∧ undefined ∧ ¬refused

section Judged

variable {a b : Value} {refused undefined : Prop}

@[simp] theorem judged_forbidden {op : BinaryOp} :
    Judged (forbidden op a b) refused undefined ↔ refused ∧ ¬undefined := by
  simp [Judged, forbidden, FaultOf.typeError]

@[simp] theorem judged_ok {v : Value} :
    Judged (.ok v) refused undefined ↔ ¬refused ∧ ¬undefined := Iff.rfl

@[simp] theorem judged_runtimeError {t : Text} :
    Judged (.error (.runtimeError t)) refused undefined ↔ undefined ∧ ¬refused := by
  simp [Judged, FaultOf.runtimeError]

@[simp] theorem judged_quotient {m n : Number} :
    Judged (quotient m n) refused undefined ↔ ¬refused ∧ (undefined ↔ n.isZero) := by
  unfold quotient
  split
  · simp [*, and_comm]
  · simp [*]

@[simp] theorem judged_remainder {m n : Number} :
    Judged (remainder m n) refused undefined ↔ ¬refused ∧ (undefined ↔ n.isZero) := by
  unfold remainder
  split
  · simp [*, and_comm]
  · simp [*]

end Judged

/-- Neither an error value nor an object: what the tables are about. -/
inductive Plain : Value → Prop where
  | none : Plain .none
  | bool (b : Bool) : Plain (.bool b)
  | num (n : Number) : Plain (.num n)
  | str (t : Text) : Plain (.str t)
  | list (items : List Value) : Plain (.list items)
  | map (entries : Entries) : Plain (.map entries)

theorem plain_of_kind {v : Value} (he : v.isError = false) (ho : v.isObject = false) : Plain v := by
  cases v with
  | error => cases he
  | object => cases ho
  | none => exact .none
  | bool b => exact .bool b
  | num n => exact .num n
  | str t => exact .str t
  | list items => exact .list items
  | map entries => exact .map entries

section Tables

variable {a b : Value}

attribute [local simp] Forbids Undefined NumberAndText HasTruth Numeric Parses Shifts numericPair
  divisor? boolRule Value.kind Value.isError UnaryOp.apply

theorem add_judged (id : Nat) (ha : Plain a) (hb : Plain b) :
    Judged (add id a b) (Forbids .add a b) (Undefined .add a b) := by
  unfold add
  cases ha <;> cases hb <;> simp
  case num.str n t => cases Number.parse t <;> simp
  case str.num t n => cases Number.parse t <;> simp

theorem sub_judged (ha : Plain a) (hb : Plain b) :
    Judged (sub a b) (Forbids .sub a b) (Undefined .sub a b) := by
  unfold sub
  cases ha <;> cases hb <;> simp
  case num.str n t => cases Number.parse t <;> simp
  case str.num t n => cases Number.parse t <;> simp

theorem repeatTimes_judged (count : Number) (size : Nat) (what : Text) (v : Nat → Value)
    (h : count.isNegative = false) :
    Judged (v <$> repeatTimes count size what) False (BadCount count size) := by
  unfold repeatTimes BadCount
  dsimp only
  split
  · exact judged_ok.2 (by simp_all)
  · split
    · exact judged_runtimeError.2 (by simp_all)
    · exact judged_ok.2 (by simp_all)

theorem repeatText_judged (t : Text) (count : Number) :
    Judged (.str <$> repeatText t count) False (BadCount count t.length) := by
  unfold repeatText
  split
  · exact judged_runtimeError.2 ⟨Or.inl ‹_›, id⟩
  · rename_i hn
    have h := repeatTimes_judged count t.length "a string" (fun whole => .str (Text.repeated whole t ++
      if count.isFloat && !t.isEmpty then t.take (fractionBytes count.toFloat t.length) else []))
      (by simpa using hn)
    cases hr : repeatTimes count t.length "a string" <;> rw [hr] at h <;> exact h

theorem repeatList_judged (items : List Value) (count : Number) :
    Judged (.list <$> repeatList items count) False (BadCount count items.length) := by
  unfold repeatList
  split
  · exact judged_runtimeError.2 ⟨Or.inl ‹_›, id⟩
  · rename_i hn
    have h := repeatTimes_judged count items.length "a list"
      (fun times => .list (List.replicate times items).flatten) (by simpa using hn)
    cases hr : repeatTimes count items.length "a list" <;> rw [hr] at h <;> exact h

theorem mul_judged (ha : Plain a) (hb : Plain b) :
    Judged (mul a b) (Forbids .mul a b) (Undefined .mul a b) := by
  unfold mul
  cases ha <;> cases hb <;> simp
  case str.num t n =>
    cases Number.parse t with
    | some m => simp
    | none => simpa using repeatText_judged t n
  case list.num items n => exact repeatList_judged items n

theorem div_judged (ha : Plain a) (hb : Plain b) :
    Judged (div a b) (Forbids .div a b) (Undefined .div a b) := by
  unfold div
  cases ha <;> cases hb <;> simp
  case num.str n t => cases Number.parse t <;> simp
  case str.num t n => cases Number.parse t <;> simp
  case list.num items n =>
    split
    · simpa
    · simpa using Int.not_le.1 ‹_›

theorem rem_judged (ha : Plain a) (hb : Plain b) :
    Judged (rem a b) (Forbids .rem a b) (Undefined .rem a b) := by
  unfold rem
  cases ha <;> cases hb <;> simp
  case num.str n t => cases Number.parse t <;> simp
  case str.num t n => cases Number.parse t <;> simp

theorem shiftBy_judged (op : BinaryOp) (ha : Plain a) (hb : Plain b) (hn : b.kind ≠ .none)
    (hbool : b.kind ≠ .bool) : Judged (shiftBy op a b) (¬Shifts a b) False := by
  unfold shiftBy
  cases ha <;> cases hb <;> simp at hn hbool ⊢
  case num.str n t => cases Number.parse t <;> simp

theorem shift_judged {op : BinaryOp} (hop : op = .shl ∨ op = .shr) (ha : Plain a) (hb : Plain b) :
    Judged (shift op a b) (Forbids op a b) (Undefined op a b) := by
  have hforbids : Forbids op a b ↔
      ¬(Shifts a b ∨ b = .bool false ∨ b = .bool true ∧ Shifts a (.int 1)) := by
    rcases hop with rfl | rfl <;> rfl
  have hundefined : Undefined op a b ↔ False := by rcases hop with rfl | rfl <;> simp
  rw [hforbids, hundefined]
  by_cases hplain : b.kind = .none ∨ b.kind = .bool
  · cases hb with
    | none => cases ha <;> simp [shift]
    | bool x =>
      cases x with
      | false => cases ha <;> simp [shift]
      | true =>
        have hone : Plain (.int 1) := .num _
        have hshift : shift op a (.bool true) = shiftBy op a (.int 1) := by cases ha <;> rfl
        have hweaker : Shifts a (.bool true) → Shifts a (.int 1) := by
          cases ha <;> simp [Value.int]
        have hshifts : (Shifts a (.bool true) ∨ Value.bool true = .bool false ∨
            Value.bool true = .bool true ∧ Shifts a (.int 1)) ↔ Shifts a (.int 1) := by
          simpa using hweaker
        rw [hshift, hshifts]
        exact shiftBy_judged op ha hone nofun nofun
    | num n => simp at hplain
    | str t => simp at hplain
    | list items => simp at hplain
    | map entries => simp at hplain
  · obtain ⟨hn, hbool⟩ := not_or.1 hplain
    have hshift : shift op a b = shiftBy op a b := by
      cases ha <;> cases hb <;> first | rfl | simp at hn hbool
    have hshifts : (Shifts a b ∨ b = .bool false ∨ b = .bool true ∧ Shifts a (.int 1)) ↔
        Shifts a b := by
      refine ⟨?_, Or.inl⟩
      rintro (h | rfl | ⟨rfl, -⟩)
      · exact h
      · exact absurd rfl hbool
      · exact absurd rfl hbool
    rw [hshift, hshifts]
    exact shiftBy_judged op ha hb hn hbool

theorem bitAnd_judged (ha : Plain a) (hb : Plain b) :
    Judged (bitAnd a b) (Forbids .bitAnd a b) (Undefined .bitAnd a b) := by
  unfold bitAnd
  cases ha <;> cases hb <;> simp
  case num.str n t => cases Number.parse t <;> simp
  case str.num t n => cases Number.parse t <;> simp

theorem bitOr_judged (ha : Plain a) (hb : Plain b) :
    Judged (bitOr a b) (Forbids .bitOr a b) (Undefined .bitOr a b) := by
  unfold bitOr
  cases ha <;> cases hb <;> simp
  case num.str n t => cases Number.parse t <;> simp
  case str.num t n => cases Number.parse t <;> simp

theorem bitXor_judged (ha : Plain a) (hb : Plain b) :
    Judged (bitXor a b) (Forbids .bitXor a b) (Undefined .bitXor a b) := by
  unfold bitXor
  cases ha <;> cases hb <;> simp
  case num.str n t => cases Number.parse t <;> simp
  case str.num t n => cases Number.parse t <;> simp

theorem table_judged (id : Nat) (op : BinaryOp) (ha : Plain a) (hb : Plain b) :
    Judged (table id op a b) (Forbids op a b) (Undefined op a b) := by
  have hother : Undefined op a b → op = .mul ∨ op = .div ∨ op = .rem := by
    cases op <;> simp
  have hcompare : Judged (compare op a b) False False := by
    unfold compare
    cases ha <;> cases hb <;> simp [Value.isObject] <;> split <;> simp
  cases op with
  | add => exact add_judged id ha hb
  | sub => exact sub_judged ha hb
  | mul => exact mul_judged ha hb
  | div => exact div_judged ha hb
  | rem => exact rem_judged ha hb
  | shl => exact shift_judged (Or.inl rfl) ha hb
  | shr => exact shift_judged (Or.inr rfl) ha hb
  | bitAnd => exact bitAnd_judged ha hb
  | bitOr => exact bitOr_judged ha hb
  | bitXor => exact bitXor_judged ha hb
  | and | or | xor | eq | neq => exact judged_ok.2 ⟨nofun, fun h => by simpa using hother h⟩
  | lt | lte | gt | gte => simpa [table] using hcompare

end Tables

end Coercion

namespace BinaryOp

open Coercion

variable {a b : Value}

theorem hooked_plain (op : BinaryOp) (ha : Plain a) (hb : Plain b) : hooked op a b = none := by
  cases ha <;> cases hb <;> rfl

def Refuses (op : BinaryOp) (a b : Value) : Prop :=
  op ≠ .eq ∧ op ≠ .neq ∧ (a.isError ∨ b.isError ∨ Forbids op a b)

theorem apply_judged (id : Nat) (op : BinaryOp) (ha : a.isObject = false) (hb : b.isObject = false) :
    Judged (op.apply id a b) (op.Refuses a b) (Undefined op a b) := by
  by_cases heq : op = .eq ∨ op = .neq
  · rcases heq with rfl | rfl <;> simp [apply, Refuses, Undefined]
  · obtain ⟨hne, hnn⟩ := not_or.1 heq
    have hrefuses : op.Refuses a b ↔ a.isError ∨ b.isError ∨ Forbids op a b := by
      simp [Refuses, hne, hnn]
    rw [apply_of_ne id a b hne hnn, hrefuses]
    split
    · rename_i he
      have herror : a.isError ∨ b.isError := by simpa using he
      refine judged_forbidden.2 ⟨by tauto, ?_⟩
      rcases herror with h | h
      · cases a <;> cases op <;> simp [Value.isError, Undefined, divisor?, numericPair] at h ⊢
      · cases b <;> cases a <;> cases op <;>
          simp [Value.isError, Undefined, divisor?, numericPair] at h ⊢
    · rename_i he
      obtain ⟨hea, heb⟩ : a.isError = false ∧ b.isError = false := by simpa using he
      have hpa := plain_of_kind hea ha
      have hpb := plain_of_kind heb hb
      have htable := table_judged id op hpa hpb
      rw [hooked_plain op hpa hpb]
      simp only [hea, heb, Bool.false_eq_true, false_or]
      split
      · rename_i hn
        obtain ⟨rfl, hn⟩ : op = .div ∧ b.isNone := by simpa using hn
        have hb : b = .none := by cases hpb <;> first | rfl | cases hn
        subst hb
        have hdiv : table id .div a .none = forbidden .div a .none := by cases hpa <;> rfl
        exact hdiv ▸ htable
      · exact htable

/-- On operands that are no objects an operator fails with a type error exactly where it is refused,
with a runtime error exactly where it is undefined, and with no other fault. -/
theorem apply_fails_iff (id : Nat) (op : BinaryOp) (ha : a.isObject = false)
    (hb : b.isObject = false) :
    (∀ f, op.apply id a b = .error f → f.kind = .typeError ∨ f.kind = .runtimeError) ∧
      ((∃ f, op.apply id a b = .error f ∧ f.kind = .typeError) ↔
        op ≠ .eq ∧ op ≠ .neq ∧ (a.isError ∨ b.isError ∨ Forbids op a b)) ∧
      ((∃ f, op.apply id a b = .error f ∧ f.kind = .runtimeError) ↔ Undefined op a b) := by
  have hjudged := apply_judged id op ha hb
  change _ ∧ (_ ↔ op.Refuses a b) ∧ _
  cases hr : op.apply id a b with
  | ok v =>
    rw [hr] at hjudged
    simpa using hjudged
  | error f =>
    rw [hr] at hjudged
    rcases hjudged with ⟨hk, hrefused, hdefined⟩ | ⟨hk, hundefined, hallowed⟩
    · simp [hk, hrefused, hdefined]
    · simp [hk, hundefined, hallowed]

/-- A list cannot be taken away from a number, and a number cannot be divided by zero. -/
theorem sub_list_refused :
    ((Value.int 1).isObject = false ∧ (Value.list []).isObject = false ∧
      ∃ f, BinaryOp.sub.apply 0 (.int 1) (.list []) = .error f ∧ f.kind = .typeError) ∧
    ∃ f, BinaryOp.div.apply 0 (.int 1) (.int 0) = .error f ∧ f.kind = .runtimeError :=
  ⟨⟨rfl, rfl, (apply_fails_iff 0 .sub rfl rfl).2.1.2
      ⟨nofun, nofun, Or.inr (Or.inr (Or.inl ⟨Or.inl rfl, Or.inl rfl⟩))⟩⟩,
    (apply_fails_iff 0 .div rfl rfl).2.2.2 ⟨.ofInt 0, rfl, by decide⟩⟩

end BinaryOp

end ScriptMachine
