import ScriptMachine.Session.Basic
import Mathlib.Tactic.Common

set_option autoImplicit false

/-!
# Events

A session that dispatches an event goes through the functions of a program once, in the order of their
declaration. Main statement: `dispatch_reaches` says which of them it calls: those whose first tag for an
event names it. A function that has several such tags is not found by the others.
-/
namespace ScriptMachine

namespace Function

/-- The tags of a function that make it a handler of events. -/
def eventTags (f : Function) : List Tag := f.tags.filter fun t => t.name == Tag.event

/-- The first tag for an event names it. A tag without arguments names the event without a name. -/
def Answers (event : Text) (f : Function) : Prop := ∃ t ∈ f.eventTags.head?, t.argument = event

/-- Some tag for an event has a first argument that is shown as the event. -/
def Hears (event : Text) (f : Function) : Prop :=
  ∃ t ∈ f.eventTags, ∃ v ∈ t.args.head?, v.display = event

instance (event : Text) (f : Function) : Decidable (f.Hears event) :=
  inferInstanceAs (Decidable (∃ t ∈ f.eventTags, ∃ v ∈ t.args.head?, v.display = event))

variable {event : Text} {f : Function}

theorem tag?_event (f : Function) : f.tag? Tag.event = f.eventTags.head? := List.head?_filter.symm

theorem names_iff {t : Tag} (h : event = [] → t.args ≠ []) :
    t.argument = event ↔ ∃ v ∈ t.args.head?, v.display = event := by
  unfold Tag.argument
  cases hargs : t.args with
  | nil =>
    simp only [List.head?_nil, Option.mem_def, reduceCtorEq, false_and, exists_false, iff_false]
    exact fun hempty => h hempty.symm hargs
  | cons v rest => simp

theorem answers_iff_hears (hone : f.eventTags.length ≤ 1)
    (hargs : event = [] → ∀ t ∈ f.eventTags, t.args ≠ []) : f.Answers event ↔ f.Hears event := by
  unfold Answers Hears
  cases htags : f.eventTags with
  | nil => simp
  | cons t rest =>
    rw [htags] at hone hargs
    cases rest with
    | nil => simpa using names_iff fun hempty => hargs hempty t List.mem_cons_self
    | cons _ _ => exact absurd hone (by simp)

end Function

namespace Session

variable {program : Program} {args : List Value} {P Q : Function → Prop} {s s' : Session}
  {fs : List Function} {results : List RunResult}

/-- Goes through functions in their order: those with the property are called, each in the session that the
ones before it leave behind, and give one result each; the others are passed over. -/
inductive Dispatched (program : Program) (args : List Value) (P : Function → Prop) :
    Session → List Function → List RunResult → Session → Prop where
  | done (s : Session) : Dispatched program args P s [] [] s
  | called {s s₁ s₂ : Session} {f : Function} {fs : List Function} {result : RunResult}
      {results : List RunResult} : P f → s.callFunction program f args = (result, s₁) →
      Dispatched program args P s₁ fs results s₂ →
      Dispatched program args P s (f :: fs) (result :: results) s₂
  | passed {s s₁ : Session} {f : Function} {fs : List Function} {results : List RunResult} :
      ¬P f → Dispatched program args P s fs results s₁ → Dispatched program args P s (f :: fs) results s₁

theorem Dispatched.congr (h : Dispatched program args P s fs results s') (hiff : ∀ f ∈ fs, P f ↔ Q f) :
    Dispatched program args Q s fs results s' := by
  induction h with
  | done => exact .done _
  | called hf hcall _ ih =>
    obtain ⟨hiff, hrest⟩ := List.forall_mem_cons.1 hiff
    exact .called (hiff.1 hf) hcall (ih hrest)
  | passed hf _ ih =>
    obtain ⟨hiff, hrest⟩ := List.forall_mem_cons.1 hiff
    exact .passed (hiff.not.1 hf) (ih hrest)

theorem callEach_dispatched (program : Program) (args : List Value) (p : Function → Bool)
    (fs : List Function) (s : Session) :
    Dispatched program args (fun f => p f = true) s fs (s.callEach program args (fs.filter p)).1
      (s.callEach program args (fs.filter p)).2 := by
  induction fs generalizing s with
  | nil => exact .done s
  | cons f fs ih =>
    cases hf : p f with
    | true =>
      rw [List.filter_cons_of_pos hf]
      exact .called hf rfl (ih _)
    | false =>
      rw [List.filter_cons_of_neg (by simp [hf])]
      exact .passed (by simp [hf]) (ih s)

theorem handles_iff (event : Text) (f : Function) : handles event f = true ↔ f.Answers event := by
  unfold handles Function.Answers
  rw [f.tag?_event]
  cases f.eventTags.head? <;> simp

end Session

/-- An event calls the functions of a program whose first tag for an event names it, each once and in the
order of declaration, and gives one result for each of them. If no function has several tags for events, and
none has one without arguments or the event has a name, these are all functions with a tag that names the
event. -/
theorem dispatch_reaches (s : Session) (program : Program) (event : Text) (args : List Value) :
    ∃ results s', s.dispatch program event args = (results, s') ∧
      s.Dispatched program args (Function.Answers event) program.modules.functions results s' ∧
      ((∀ f ∈ program.modules.functions, f.eventTags.length ≤ 1 ∧
          (event = [] → ∀ t ∈ f.eventTags, t.args ≠ [])) →
        s.Dispatched program args (Function.Hears event) program.modules.functions results s') := by
  have hanswers : s.Dispatched program args (Function.Answers event) program.modules.functions
      (s.dispatch program event args).1 (s.dispatch program event args).2 :=
    (Session.callEach_dispatched program args (Session.handles event) _ s).congr fun f _ =>
      Session.handles_iff event f
  refine ⟨_, _, rfl, hanswers, fun htags => hanswers.congr fun f hf => ?_⟩
  obtain ⟨hone, hargs⟩ := htags f hf
  exact f.answers_iff_hears hone hargs

/-- A handler of two events. -/
def doubleHandlerSource : Text := "@on(\"start\")\n@on(\"stop\")\nfn f() = 1"

theorem doubleHandler_unreached : ∃ p f, compileSource none 0 doubleHandlerSource = .ok p ∧
    p.modules.functions = [f] ∧ f.Hears "stop" ∧ ∀ (s : Session) args, s.dispatch p "stop" args = ([], s) ∧
      ¬s.Dispatched p args (Function.Hears "stop") p.modules.functions [] s := by
  have hcheck : (match compileSource none 0 doubleHandlerSource with
      | .ok p => p.modules.functions.length = 1 &&
        p.modules.functions.all fun f => f.Hears "stop" && !Session.handles "stop" f
      | .error _ => false) = true := by decide +kernel
  cases hc : compileSource none 0 doubleHandlerSource with
  | error e => simp [hc] at hcheck
  | ok p =>
    simp only [hc, Bool.and_eq_true, decide_eq_true_iff, List.length_eq_one_iff] at hcheck
    obtain ⟨⟨f, hf⟩, hall⟩ := hcheck
    simp only [hf, List.all_cons, List.all_nil, Bool.and_true, Bool.and_eq_true, decide_eq_true_iff,
      Bool.not_eq_true'] at hall
    obtain ⟨hhears, hunhandled⟩ := hall
    refine ⟨p, f, rfl, hf, hhears, fun s args => ⟨?_, ?_⟩⟩
    · rw [Session.dispatch, hf, List.filter_cons_of_neg (by simp [hunhandled])]
      rfl
    · rw [hf]
      intro hdispatched
      cases hdispatched with
      | passed hdeaf _ => exact hdeaf hhears

end ScriptMachine
