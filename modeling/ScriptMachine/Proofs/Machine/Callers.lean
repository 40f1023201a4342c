import ScriptMachine.Proofs.Machine.Recovery

set_option autoImplicit false

/-!
# What calls leave alone

While a call is under way its caller waits below, for a result in one register. Every step above
leaves it there until the frame that is to answer is left, by a return or for a handler. Main
statement: when control comes back to a frame that has called, nothing of the frame has changed but
that one register, and of the frames below nothing at all.
-/
namespace ScriptMachine

/-- The frames below the topmost one with a handler. -/
def sheltered (fs : List Frame) : List Frame := (fs.dropWhile fun f => f.handler.isNone).tail

theorem sheltered_cons {f : Frame} (hf : f.handler = none) (fs : List Frame) :
    sheltered (f :: fs) = sheltered fs := by
  simp [sheltered, hf]

theorem length_sheltered (fs : List Frame) : (sheltered fs).length ≤ fs.length - 1 := by
  have hdropped : (fs.dropWhile fun f => f.handler.isNone).length ≤ fs.length :=
    (List.dropWhile_suffix _).length_le
  rw [sheltered, List.length_tail]
  omega

theorem sheltered_split {above below : List Frame} {t : Frame} {h : Handler}
    (habove : ∀ f ∈ above, f.handler = none) (ht : t.handler = some h) :
    sheltered (above ++ t :: below) = below := by
  induction above with
  | nil => simp [sheltered, ht]
  | cons f above ih =>
    obtain ⟨hf, habove⟩ := List.forall_mem_cons.1 habove
    rw [List.cons_append, sheltered_cons hf, ih habove]

theorem sheltered_none {fs : List Frame} (hfs : ∀ f ∈ fs, f.handler = none) : sheltered fs = [] := by
  induction fs with
  | nil => rfl
  | cons f fs ih =>
    obtain ⟨hf, hfs⟩ := List.forall_mem_cons.1 hfs
    rw [sheltered_cons hf, ih hfs]

namespace Machine

/-- How many frames outlast the next step: after a fault those below the topmost handler. -/
def outlasting (s : Setup) (m : Machine) : Nat :=
  match Exec.step s m with
  | .ok _ m' => m'.frames.length
  | .error _ m' => (sheltered m'.frames).length

/-- Steps that lead back to the frame number `d`, counted from the bottom, for the first time. That
frame, from which they begin, outlasts them. -/
inductive Excursion (s : Setup) (d : Nat) : Machine → Machine → Prop where
  | back {m m' : Machine} (hkept : d ≤ m.outlasting s) (ha : m.advance s = .running m')
    (hd : m'.frames.length = d) : Excursion s d m m'
  | away {m m' m'' : Machine} (hkept : d ≤ m.outlasting s) (ha : m.advance s = .running m')
    (hd : d < m'.frames.length) (h : Excursion s d m' m'') : Excursion s d m m''

/-- The end of an excursion of so many steps at most, if there is one. -/
def comesBack (s : Setup) (d : Nat) : Nat → Machine → Option Machine
  | 0, _ => none
  | n + 1, m =>
    if d ≤ m.outlasting s then
      match m.advance s with
      | .running m' =>
        if m'.frames.length = d then some m'
        else if d < m'.frames.length then comesBack s d n m' else none
      | .finished .. => none
    else none

theorem excursion_of_comesBack {s : Setup} {d n : Nat} {m m' : Machine}
    (h : m.comesBack s d n = some m') : m.Excursion s d m' := by
  induction n generalizing m with
  | zero => cases h
  | succ n ih =>
    unfold comesBack at h
    split at h
    case isFalse => cases h
    case isTrue hkept =>
      split at h
      case h_2 => cases h
      case h_1 ha =>
        split at h
        case isTrue hd =>
          cases h
          exact .back hkept ha hd
        case isFalse =>
          split at h
          case isTrue hd => exact .away hkept ha hd (ih h)
          case isFalse => cases h

end Machine

def Awaits (out : Register) (base fs : List Frame) : Prop :=
  ∃ above f, fs = above ++ f :: base ∧ f.out = out

section Waiting

variable {s : Setup} {out : Register} {base fs fs' above below rest popped : List Frame}
  {f g t : Frame} {e : Fault} {h : Handler}

namespace Awaits

theorem length_lt (hw : Awaits out base fs) : base.length < fs.length := by
  obtain ⟨above, f, rfl, -⟩ := hw
  simp only [List.length_append, List.length_cons]
  omega

theorem push (hw : Awaits out base fs) (f : Frame) : Awaits out base (f :: fs) := by
  obtain ⟨above, g, rfl, hg⟩ := hw
  exact ⟨f :: above, g, rfl, hg⟩

theorem retop (hw : Awaits out base (f :: rest)) (hout : g.out = f.out) :
    Awaits out base (g :: rest) := by
  obtain ⟨above, k, hsplit, hk⟩ := hw
  cases above with
  | nil =>
    cases hsplit
    exact ⟨[], g, rfl, hout.trans hk⟩
  | cons l above =>
    cases hsplit
    exact ⟨g :: above, k, rfl, hk⟩

theorem receive {r : Register} (hw : Awaits out base fs) (v : Value) :
    Awaits out base (fs.modifyHead (Frame.receive r v)) := by
  cases fs with
  | nil => exact hw
  | cons f rest => exact hw.retop rfl

theorem drop (hw : Awaits out base (popped ++ f :: rest)) (hlength : base.length ≤ rest.length) :
    rest = base ∧ f.out = out ∨ Awaits out base rest := by
  obtain ⟨above, g, hsplit, hg⟩ := hw
  induction popped generalizing above with
  | nil =>
    cases above with
    | nil =>
      cases hsplit
      exact .inl ⟨rfl, hg⟩
    | cons k above =>
      cases hsplit
      exact .inr ⟨above, g, rfl, hg⟩
  | cons k popped ih =>
    cases above with
    | nil =>
      have htotal := congrArg List.length hsplit
      simp only [List.cons_append, List.nil_append, List.length_cons, List.length_append] at htotal
      omega
    | cons l above => exact ih above (List.cons.inj hsplit).2

theorem failed (hw : Awaits out base fs) (hf : Failed s fs fs') (hlength : base.length < fs'.length) :
    Awaits out base fs' := by
  cases hf with
  | within popped hg =>
    rename_i f g rest
    rcases hw.drop (Nat.le_of_lt_succ hlength) with ⟨rfl, hout⟩ | hw
    · exact ⟨[], g, rfl, hg.out.trans hout⟩
    · exact hw.push g
  | entered hg hh hn => exact (hw.retop hg.out).push _

end Awaits

theorem Moved.answers (hm : Moved s fs fs') (hw : Awaits out (f :: rest) fs)
    (hlength : (f :: rest).length ≤ fs'.length) :
    (∃ v, fs' = f.receive out v :: rest) ∨ Awaits out (f :: rest) fs' := by
  cases hm with
  | within hg => exact .inr (hw.retop hg.out)
  | entered hg hh => exact .inr ((hw.retop hg.out).push _)
  | left popped v =>
    rw [List.length_modifyHead] at hlength
    rcases hw.drop hlength with ⟨rfl, rfl⟩ | hw
    · exact .inl ⟨v, rfl⟩
    · exact .inr (hw.receive v)

theorem Caught.answers (hc : Caught s t e h below fs) (hw : Awaits out (f :: rest) (above ++ t :: below))
    (hlength : (f :: rest).length ≤ below.length) :
    (∃ v, fs = f.receive out v :: rest) ∨ Awaits out (f :: rest) fs := by
  have hdropped := hw.drop hlength
  cases hc with
  | value name hout =>
    rcases hdropped with ⟨hbase, rfl⟩ | hw
    · cases hbase
      exact .inl ⟨_, rfl⟩
    · exact .inr (hw.retop rfl)
  | block name hscope =>
    rcases hdropped with ⟨rfl, hout⟩ | hw
    · exact .inr ⟨[], _, rfl, hout⟩
    · exact .inr (hw.push _)

end Waiting

namespace Exec

variable {s : Setup} {m : Machine} {f g : Frame} {rest : List Frame} {op : Operation} {out : Register}

/-- A call answers at once, or leaves that to a frame that it has entered. -/
theorem call_begins (f₀ : Frame) (hf : m.frames = f :: rest) (hcall : op.isCall = true)
    (hout : op.out? = some out) :
    Ensures (perform s f₀ op) m
      (fun _ m' => m'.frames = f :: rest ∨ (∃ v, m'.frames = f.receive out v :: rest) ∨
        ∃ g, g.out = out ∧ m'.frames = g :: f :: rest)
      fun _ m' => (sheltered m'.frames).length < (f :: rest).length := by
  -- the frame that has been entered has no handler before the call is done
  have hlost : ∀ fs : List Frame, fs.length = (f :: rest).length →
      (sheltered fs).length < (f :: rest).length := by
    intro fs hfs
    have hle := length_sheltered fs
    rw [List.length_cons] at hfs ⊢
    omega
  by_cases htry : ∃ target handler errorName out, op = .tryCatch target handler errorName out
  · obtain ⟨target, handler, errorName, out', rfl⟩ := htry
    cases hout
    refine (tryCatch_enters f₀ target handler errorName m).mono (fun _ m' h => ?_) fun _ m' h => ?_
    · obtain ⟨-, g, hg, hm'⟩ := h
      exact .inr (.inr ⟨{ g with handler := some ⟨handler, errorName⟩ }, hg.out, hf ▸ hm'⟩)
    · rw [h, hf]
      exact hlost _ rfl
  · have hcalls := perform_calls (s := s) f₀ hcall (fun target handler errorName out h =>
      htry ⟨target, handler, errorName, out, h⟩) hout m
    rw [hf] at hcalls
    refine hcalls.mono (fun _ m' h => ?_) fun _ m' h => ?_
    · generalize m'.frames = fs at h
      cases h with
      | same => exact .inl rfl
      | answered v _ => exact .inr (.inl ⟨v, rfl⟩)
      | entered hg _ => exact .inr (.inr ⟨_, hg.out, rfl⟩)
    · generalize m'.frames = fs at h
      cases h with
      | same => exact hlost _ rfl
      | answered v _ => exact hlost _ rfl
      | entered hg _ =>
        rw [sheltered_cons hg.handler]
        exact hlost _ rfl

end Exec

namespace Machine

variable {s : Setup} {m m' : Machine} {f : Frame} {rest : List Frame}
  {out : Register}

/-- A step above frames that wait. -/
theorem advance_answers (hp : s.program.WellFormed)
    (hm : m.Sound s .nothing 0 []) (hfit : Fitted s m.frames)
    (hw : Awaits out (f :: rest) m.frames) (hkept : (f :: rest).length ≤ m.outlasting s)
    (ha : m.advance s = .running m') :
    (∃ v, m'.frames = f.receive out v :: rest) ∨ Awaits out (f :: rest) m'.frames := by
  have hne : m.frames ≠ [] := by
    intro h
    have hlt := hw.length_lt
    simp [h] at hlt
  obtain ⟨g, below, hg⟩ := List.exists_cons_of_ne_nil hne
  have hmoves := Exec.step_moves hp hg hfit
  rcases goes_on ha with hok | ⟨e, m₁, herr, hrecover⟩
  · rw [outlasting, hok] at hkept
    exact (hmoves.of_ok hok).answers hw hkept
  · rw [outlasting, herr] at hkept
    dsimp only at hkept
    have hfailed := hmoves.of_error herr
    have hm₁ := hm.step_error herr
    rcases exists_topmost m₁.frames with hnone | ⟨above, t, h, below, hf₁, habove, hh⟩
    · rw [sheltered_none hnone] at hkept
      cases hkept
    · obtain ⟨m₂, hrecover', hcaught, -⟩ := recover_caught hm₁ (hfailed.fitted hfit) hf₁ habove hh e.fault
      rw [hrecover] at hrecover'
      cases hrecover'
      rw [hf₁, sheltered_split habove hh] at hkept
      have hlonger : (f :: rest).length < m₁.frames.length := by
        rw [hf₁, List.length_append, @List.length_cons _ t below]
        omega
      have hw₁ := hw.failed hfailed hlonger
      rw [hf₁] at hw₁
      exact hcaught.answers hw₁ hkept

theorem Excursion.answers (hp : s.program.WellFormed)
    (he : m.Excursion s (f :: rest).length m') (hm : m.Sound s .nothing 0 [])
    (hfit : Fitted s m.frames) (hw : Awaits out (f :: rest) m.frames) :
    ∃ v, m'.frames = f.receive out v :: rest := by
  induction he with
  | back hkept ha hd =>
    rcases advance_answers hp hm hfit hw hkept ha with h | hw'
    · exact h
    · exact absurd hd (Nat.ne_of_gt hw'.length_lt)
  | away hkept ha hd _ ih =>
    rcases advance_answers hp hm hfit hw hkept ha with ⟨v, h⟩ | hw'
    · rw [h] at hd
      exact absurd hd (Nat.lt_irrefl _)
    · exact ih (hm.advance ha) (advance_fitted hp hm hfit ha) hw'

theorem advance_begins {scope : Scope} {i : Instruction} (hf : m.frames = f :: rest)
    (hscope : s.program.scope (some f.scope) = .ok scope) (hi : scope.code[f.pc]? = some i)
    (hcall : i.operation.isCall = true) (hout : i.operation.out? = some out)
    (hkept : m.frames.length ≤ m.outlasting s) (ha : m.advance s = .running m') :
    let caller := { f with pc := f.pc + 1 }
    m'.frames = caller :: rest ∨ (∃ v, m'.frames = caller.receive out v :: rest) ∨
      Awaits out (caller :: rest) m'.frames := by
  have hbegins := Exec.call_begins (s := s) (m := m.taken f rest i) f rfl hcall hout
  unfold Ensures at hbegins
  rw [← Exec.step_run hf hscope hi] at hbegins
  rcases goes_on ha with hok | ⟨e, m₁, herr, -⟩
  · rw [hok] at hbegins
    refine hbegins.imp id fun h => h.imp id ?_
    rintro ⟨g, hg, hm'⟩
    exact ⟨[], g, hm', hg⟩
  · rw [outlasting, herr, hf] at hkept
    rw [herr] at hbegins
    exact absurd hkept (Nat.not_le.2 hbegins)

end Machine

/-- In every run of a program that has been compiled, a frame that calls goes on at its next
instruction when control comes back to it, with another value in the register of the call at most. -/
theorem compiled_call_returns {builtins : Option Registry} {id : Nat} {source : Text} {s : Setup}
    (host : Host) (visits : List Visit) (v : Visit) {m m' : Machine} {f : Frame} {rest : List Frame}
    {scope : Scope} {i : Instruction} {out : Register}
    (hc : compileSource builtins id source = .ok s.program)
    (hr : v.Reaches s ((Machine.initial host).visited s visits) m) (hf : m.frames = f :: rest)
    (hscope : s.program.scope (some f.scope) = .ok scope) (hi : scope.code[f.pc]? = some i)
    (hcall : i.operation.isCall = true) (hout : i.operation.out? = some out)
    (he : m.Excursion s m.frames.length m') :
    ∃ registers, m'.frames = { f with pc := f.pc + 1, registers } :: rest ∧
      registers.size = f.registers.size ∧ ∀ r, r ≠ out → registers[r]? = f.registers[r]? := by
  have hp : s.program.WellFormed := by
    obtain ⟨tokens, htokens⟩ := compileSource_tokens hc
    exact compileTokens_wellFormed htokens
  have hidle := Machine.idle_visited s host visits
  have hsound := hidle.reached hr
  have hfit := hidle.reaches_fitted hp hr
  have hback : m'.frames = { f with pc := f.pc + 1 } :: rest ∨
      ∃ v, m'.frames = Frame.receive out v { f with pc := f.pc + 1 } :: rest := by
    have hdepth : m.frames.length = (f :: rest).length := congrArg List.length hf
    cases he with
    | back hkept ha hd =>
      rcases Machine.advance_begins hf hscope hi hcall hout hkept ha with h | h | hw
      · exact .inl h
      · exact .inr h
      · exact absurd (hd.trans hdepth) (Nat.ne_of_gt hw.length_lt)
    | away hkept ha hd h =>
      rcases Machine.advance_begins hf hscope hi hcall hout hkept ha with hm | ⟨v, hm⟩ | hw
      · rw [hm, hdepth] at hd
        exact absurd hd (Nat.lt_irrefl _)
      · rw [hm, hdepth] at hd
        exact absurd hd (Nat.lt_irrefl _)
      · rw [hdepth] at h
        exact .inr (Machine.Excursion.answers hp h (hsound.advance ha)
          (Machine.advance_fitted hp hsound hfit ha) hw)
  rcases hback with hm | ⟨v, hm⟩
  · exact ⟨f.registers, hm, rfl, fun _ _ => rfl⟩
  · refine ⟨f.registers.setIfInBounds out v, hm, Array.size_setIfInBounds, fun r hr => ?_⟩
    exact Array.getElem?_setIfInBounds_ne hr.symm

/-- The error that is raised in the try comes back to the top level as its value. -/
theorem triedSource_call_returns :
    ∃ p m m' f rest scope i out, compileSource none 0 triedSource = .ok p ∧
      Visit.Reaches ⟨p, none, .standard⟩ ⟨lonelyHost 0, .run⟩ (Machine.initial (lonelyHost 0)) m ∧
      m.frames = f :: rest ∧ p.scope (some f.scope) = .ok scope ∧ scope.code[f.pc]? = some i ∧
      i.operation.isCall = true ∧ i.operation.out? = some out ∧
      m.Excursion ⟨p, none, .standard⟩ m.frames.length m' ∧
      ∃ registers, m'.frames = { f with pc := f.pc + 1, registers } :: rest ∧
        registers.size = f.registers.size ∧ ∀ r, r ≠ out → registers[r]? = f.registers[r]? := by
  have hcheck : (match compileSource none 0 triedSource with
      | .ok p => match Setup.stateAfter ⟨p, none, .standard⟩ (lonelyHost 0) 0 with
        | some m => (m.comesBack ⟨p, none, .standard⟩ m.frames.length 9).isSome &&
          m.frames.head?.any fun f => (p.scope (some f.scope)).toOption.any fun scope =>
            scope.code[f.pc]?.any fun i => i.operation.isCall && i.operation.out?.isSome
        | none => false
      | .error _ => false) = true := by decide +kernel
  cases hc : compileSource none 0 triedSource with
  | error e => simp [hc] at hcheck
  | ok p =>
    cases hm : Setup.stateAfter ⟨p, none, .standard⟩ (lonelyHost 0) 0 with
    | none => simp [hc, hm] at hcheck
    | some m =>
      cases hf : m.frames with
      | nil => simp [hc, hm, hf] at hcheck
      | cons f rest =>
        cases hscope : p.scope (some f.scope) with
        | error e => simp [hc, hm, hf, hscope, Except.toOption] at hcheck
        | ok scope =>
          cases hi : scope.code[f.pc]? with
          | none => simp [hc, hm, hf, hscope, hi, Except.toOption] at hcheck
          | some i =>
            simp only [hc, hm, hf, hscope, hi, List.head?_cons, Except.toOption, Option.any_some,
              Bool.and_eq_true, Option.isSome_iff_exists] at hcheck
            obtain ⟨⟨m', hback⟩, hcall, out, hout⟩ := hcheck
            rw [← hf] at hback
            have hreaches := Setup.reaches_stateAfter hm
            have hexcursion := Machine.excursion_of_comesBack hback
            exact ⟨p, m, m', f, rest, scope, i, out, rfl, hreaches, hf, hscope, hi, hcall, hout,
              hexcursion, compiled_call_returns (lonelyHost 0) [] _ hc hreaches hf hscope hi hcall
                hout hexcursion⟩

end ScriptMachine
