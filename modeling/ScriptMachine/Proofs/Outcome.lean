import Mathlib.Tactic.Common

set_option autoImplicit false

/-!
# Outcomes of actions

An action on a state ends with an answer or with an error, and in both cases leaves a state behind.
`Ensures` says what holds in either case, and passes along the steps of an action.
-/
namespace ScriptMachine

variable {ε σ α β : Type}

theorem run_bind {x : EStateM ε σ α} {f : α → EStateM ε σ β} {s t : σ} {a : α}
    (h : x s = .ok a t) : (x >>= f) s = f a t := by
  simp only [Bind.bind, EStateM.bind, h]

/-- From the state `s` the action ends in `Q` with its answer, or in `E` with its error. -/
def Ensures (x : EStateM ε σ α) (s : σ) (Q : α → σ → Prop) (E : ε → σ → Prop) : Prop :=
  match x s with
  | .ok a t => Q a t
  | .error e t => E e t

namespace Ensures

variable {x : EStateM ε σ α} {f : α → EStateM ε σ β} {s t : σ} {Q R : α → σ → Prop}
  {P : β → σ → Prop} {E F : ε → σ → Prop}

theorem of_ok {a : α} (h : Ensures x s Q E) (hx : x s = .ok a t) : Q a t := by
  simpa only [Ensures, hx] using h

theorem of_error {e : ε} (h : Ensures x s Q E) (hx : x s = .error e t) : E e t := by
  simpa only [Ensures, hx] using h

theorem of_run {a : α} (hx : x s = .ok a t) (h : Q a t) : Ensures x s Q E := by
  simpa only [Ensures, hx] using h

theorem intro (hok : ∀ a t, x s = .ok a t → Q a t) (herr : ∀ e t, x s = .error e t → E e t) :
    Ensures x s Q E := by
  unfold Ensures
  split
  · exact hok _ _ ‹_›
  · exact herr _ _ ‹_›

theorem mono (h : Ensures x s R F) (hq : ∀ a t, R a t → Q a t) (he : ∀ e t, F e t → E e t) :
    Ensures x s Q E :=
  intro (fun a t hx => hq a t (h.of_ok hx)) (fun e t hx => he e t (h.of_error hx))

theorem both (h : Ensures x s Q E) (h' : Ensures x s R F) :
    Ensures x s (fun a t => Q a t ∧ R a t) fun e t => E e t ∧ F e t :=
  intro (fun _ _ hx => ⟨h.of_ok hx, h'.of_ok hx⟩) fun _ _ hx => ⟨h.of_error hx, h'.of_error hx⟩

theorem imp (h : Ensures x s R E) (hq : ∀ a t, R a t → Q a t) : Ensures x s Q E :=
  h.mono hq fun _ _ => id

theorem pure {a : α} (h : Q a s) : Ensures (Pure.pure a) s Q E := h

theorem pure_bind {a : α} (h : Ensures (f a) s P E) : Ensures (Pure.pure a >>= f) s P E := h

theorem throw {e : ε} (h : E e s) : Ensures (MonadExcept.throw e) s Q E := h

theorem bind (hx : Ensures x s R E) (hf : ∀ a t, R a t → Ensures (f a) t P E) :
    Ensures (x >>= f) s P E := by
  cases h : x s with
  | ok a t =>
    have hf := hf a t (hx.of_ok h)
    simpa only [Ensures, Bind.bind, EStateM.bind, h] using hf
  | error e t =>
    have he := hx.of_error h
    simpa only [Ensures, Bind.bind, EStateM.bind, h] using he

theorem run {a : α} (hx : x s = .ok a t) (hf : Ensures (f a) t P E) : Ensures (x >>= f) s P E := by
  unfold Ensures
  rw [run_bind hx]
  exact hf

theorem map {g : α → β} (hx : Ensures x s (fun a t => P (g a) t) E) :
    Ensures (g <$> x) s P E := by
  cases h : x s with
  | ok a t => simpa only [Ensures, Functor.map, EStateM.map, h] using hx.of_ok h
  | error e t => simpa only [Ensures, Functor.map, EStateM.map, h] using hx.of_error h

theorem ite_bind {c : Prop} [Decidable c] {y : EStateM ε σ α}
    (hx : Ensures (if c then x else y) s R E) (hf : ∀ a t, R a t → Ensures (f a) t P E) :
    Ensures (if c then x >>= f else y >>= f) s P E := by
  split
  · rw [if_pos ‹c›] at hx
    exact hx.bind hf
  · rw [if_neg ‹¬c›] at hx
    exact hx.bind hf

theorem get {Q : σ → σ → Prop} (h : Q s s) : Ensures (MonadState.get) s Q E := h

theorem get_bind {f : σ → EStateM ε σ β} (h : Ensures (f s) s P E) :
    Ensures (MonadState.get >>= f) s P E := h

theorem set {Q : PUnit → σ → Prop} (h : Q ⟨⟩ t) : Ensures (MonadStateOf.set t) s Q E := h

theorem change {Q : PUnit → σ → Prop} {g : σ → σ} (h : Q ⟨⟩ (g s)) :
    Ensures (modify g) s Q E := h

theorem change_bind {f : PUnit → EStateM ε σ β} {g : σ → σ} (h : Ensures (f ⟨⟩) (g s) P E) :
    Ensures (modify g >>= f) s P E := h

theorem tryCatch {h : ε → EStateM ε σ α} (hx : Ensures x s Q F)
    (hh : ∀ e t, F e t → Ensures (h e) t Q E) : Ensures (MonadExcept.tryCatch x h) s Q E := by
  cases hr : x s with
  | ok a t =>
    have hq := hx.of_ok hr
    simpa only [Ensures, MonadExcept.tryCatch, tryCatchThe, MonadExceptOf.tryCatch, EStateM.tryCatch,
      hr] using hq
  | error e t =>
    have hrun : MonadExcept.tryCatch x h s = h e t := by
      simp only [MonadExcept.tryCatch, tryCatchThe, MonadExceptOf.tryCatch, EStateM.tryCatch, hr]
      rfl
    unfold Ensures
    rw [hrun]
    exact hh e t (hx.of_error hr)

end Ensures

end ScriptMachine
