import ScriptMachine.Operator.Binary
import ScriptMachine.Operator.Cast
import ScriptMachine.Attribute
import Mathlib.Data.List.Basic

set_option autoImplicit false

namespace ScriptMachine

/-- Apart from closures, a value has the property exactly if its parts have it. -/
class Hereditary (P : Value → Prop) : Prop where
  none : P .none
  bool (b : Bool) : P (.bool b)
  num (n : Number) : P (.num n)
  str (t : Text) : P (.str t)
  list {vs : List Value} : P (.list vs) ↔ ∀ v ∈ vs, P v
  map {es : Entries} : P (.map es) ↔ ∀ e ∈ es, P e.1 ∧ P e.2
  error {f : Fault} : P (.error f) ↔ ∀ v ∈ f.payload, P v
  range (r : Range) : P (.object (.range r))
  record {id : Nat} {shape : RecordShape} {vs : List Value} :
    P (.object (.record id shape vs)) ↔ ∀ v ∈ vs, P v
  host (id : Nat) (cls : HostClass) : P (.object (.host id cls))

variable {P : Value → Prop}

theorem Hereditary.int [Hereditary P] (n : Int) : P (.int n) := Hereditary.num _

def Gives {α : Type} (P : Value → Prop) (r : Except Fault α) (Q : α → Prop) : Prop :=
  match r with
  | .ok a => Q a
  | .error f => ∀ v ∈ f.payload, P v

namespace Gives

variable {α β : Type} {r : Except Fault α} {f : α → Except Fault β} {Q : α → Prop} {R : β → Prop}

theorem error {e : Fault} (h : e.payload = none) : Gives P (.error e : Except Fault α) Q := by
  simp [Gives, h]

theorem bind (hr : Gives P r Q) (hf : ∀ a, Q a → Gives P (f a) R) : Gives P (r >>= f) R := by
  cases r with
  | ok a => exact hf a hr
  | error e => exact hr

end Gives

namespace Entries

def All (P : Value → Prop) (es : Entries) : Prop := ∀ e ∈ es, P e.1 ∧ P e.2

theorem all_insert {k v : Value} {es : Entries} (hk : P k) (hv : P v)
    (h : All P es) : All P (insert k v es) := by
  induction es with
  | nil => simpa [insert, All] using ⟨hk, hv⟩
  | cons e es ih =>
    obtain ⟨he, hes⟩ := List.forall_mem_cons.1 h
    unfold insert
    split
    · exact List.forall_mem_cons.2 ⟨⟨he.1, hv⟩, hes⟩
    · exact List.forall_mem_cons.2 ⟨he, ih hes⟩

theorem all_erase {k : Value} {es : Entries} (h : All P es) : All P (erase k es) := by
  induction es with
  | nil => exact h
  | cons e es ih =>
    obtain ⟨he, hes⟩ := List.forall_mem_cons.1 h
    unfold erase
    split
    · exact hes
    · exact List.forall_mem_cons.2 ⟨he, ih hes⟩

theorem all_insertAll {es pairs : Entries} (h : All P es) (hp : All P pairs) :
    All P (insertAll es pairs) := by
  induction pairs generalizing es with
  | nil => exact h
  | cons p pairs ih =>
    obtain ⟨hfirst, hrest⟩ := List.forall_mem_cons.1 hp
    exact ih (all_insert hfirst.1 hfirst.2 h) hrest

theorem all_ofPairs {pairs : Entries} (hp : All P pairs) : All P (ofPairs pairs) :=
  all_insertAll (fun _ he => nomatch he) hp

theorem all_eraseAll {es : Entries} {keys : List Value} (h : All P es) :
    All P (eraseAll es keys) := by
  induction keys generalizing es with
  | nil => exact h
  | cons k keys ih => exact ih (all_erase h)

theorem all_insertMissing {es others : Entries} (h : All P es) (ho : All P others) :
    All P (insertMissing es others) := by
  induction others generalizing es with
  | nil => exact h
  | cons p others ih =>
    obtain ⟨hfirst, hrest⟩ := List.forall_mem_cons.1 ho
    refine ih ?_ hrest
    dsimp only
    split
    · exact h
    · exact all_insert hfirst.1 hfirst.2 h

theorem all_find? {k v : Value} {es : Entries} (h : All P es) (hf : find? k es = some v) :
    P v := by
  induction es with
  | nil => cases hf
  | cons e es ih =>
    obtain ⟨he, hes⟩ := List.forall_mem_cons.1 h
    unfold find? at hf
    split at hf
    · cases hf
      exact he.2
    · exact ih hes hf

end Entries

end ScriptMachine
