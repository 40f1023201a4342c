import ScriptMachine.Proofs.Machine.Origins

set_option autoImplicit false

namespace ScriptMachine

def Except.Familiar {α : Type} (r : Except Fault α) : Prop := ∀ e, r = .error e → e.kind ≠ .unknownVariable

section
variable {α : Type} {a : Arena} {h : CellHandle} {v : Value}

theorem Except.familiar_ok {x : α} : Except.Familiar (.ok x) := nofun

theorem Except.familiar_error {e : Fault} (he : e.kind ≠ .unknownVariable) :
    Except.Familiar (.error e : Except Fault α) := by
  intro e' h
  cases h
  exact he

theorem Except.familiar_cell {k : Cell → Except Fault α} (hk : ∀ c, Except.Familiar (k c)) :
    Except.Familiar (a.cell h >>= k) := by
  unfold Arena.cell
  split
  · exact Except.familiar_error nofun
  · split
    · exact hk _
    · exact Except.familiar_error nofun

theorem Except.familiar_isBorrowed : Except.Familiar (a.isBorrowed h) := Except.familiar_cell fun _ => Except.familiar_ok

theorem Except.familiar_read : Except.Familiar (a.read h) := by
  refine Except.familiar_cell fun c => ?_
  split
  · exact Except.familiar_error nofun
  · exact Except.familiar_ok

theorem Except.familiar_borrowed : Except.Familiar (a.borrowed h) := by
  refine Except.familiar_cell fun c => ?_
  split
  · exact Except.familiar_ok
  · exact Except.familiar_error nofun

theorem Except.familiar_write : Except.Familiar (a.write h v) := by
  refine Except.familiar_cell fun c => ?_
  split
  · exact Except.familiar_error nofun
  · exact Except.familiar_ok

theorem Except.familiar_setBorrowed : Except.Familiar (a.setBorrowed h v) := by
  refine Except.familiar_cell fun c => ?_
  split
  · exact Except.familiar_ok
  · exact Except.familiar_error nofun

end

theorem Except.familiar_scope {p : Program} {target : Target} : Except.Familiar (p.scope target) := by
  unfold Program.scope
  split
  · exact Except.familiar_error nofun
  · split
    · exact Except.familiar_ok
    · exact Except.familiar_error nofun

namespace Exec

variable {α β : Type} {s : Setup} {m : Machine} {n : Text} {x : Exec α}

def Blames (c : Prop) (m : Machine) (x : Exec α) : Prop :=
  Ensures x m (fun _ _ => True) fun e _ => e.fault.kind = .unknownVariable → c

namespace Blames

variable {c : Prop}

theorem pure (a : α) : Blames c m (Pure.pure a) := Ensures.pure trivial

theorem fail {e : Fault} (h : e.kind = .unknownVariable → c) : Blames c m (Exec.fail e : Exec α) := h

theorem fail_familiar {e : Fault} (h : e.kind ≠ .unknownVariable) : Blames c m (Exec.fail e : Exec α) :=
  fail fun he => absurd he h

theorem bind {k : α → Exec β} (hx : Blames c m x) (hk : ∀ a m', Blames c m' (k a)) : Blames c m (x >>= k) :=
  Ensures.bind hx fun a m' _ => hk a m'

theorem readArena {g : Arena → Except Fault α} (hg : ∀ a, Except.Familiar (g a)) :
    Blames c m (Exec.readArena g) := by
  refine Ensures.get_bind ?_
  split
  · exact Ensures.pure trivial
  · exact Ensures.throw fun he => absurd he (hg _ _ ‹_›)

theorem onArena {g : Arena → Except Fault Arena} (hg : ∀ a, Except.Familiar (g a)) :
    Blames c m (Exec.onArena g) := (readArena hg).bind fun _ _ => Ensures.change trivial

end Blames

theorem findBinding_run (name : Text) : findBinding name m = .ok (m.finds name) m := rfl

theorem readVariable_blames (name : Text) : Blames (m.finds name = none) m (readVariable name) := by
  have hcell : ∀ {c : Prop} (h : CellHandle), Blames c m (do
      if ← readArena fun a => a.isBorrowed h then borrowedVariable name
      else readArena fun a => a.read h) := by
    intro c h
    refine (Blames.readArena fun a => Except.familiar_isBorrowed).bind fun b _ => ?_
    split
    · exact Blames.fail_familiar nofun
    · exact Blames.readArena fun a => Except.familiar_read
  refine Ensures.run (findBinding_run name) ?_
  split
  · exact Blames.fail fun _ => ‹_›
  · exact Blames.pure _
  · exact hcell _
  · exact hcell _
  · exact Blames.readArena fun a => Except.familiar_borrowed

theorem assignVariable_blames (name : Text) (v : Value) :
    Blames (m.finds name = none) m (assignVariable name v) := by
  have hcell : ∀ {c : Prop} (h : CellHandle), Blames c m (do
      if ← readArena fun a => a.isBorrowed h then borrowedVariable name
      else onArena fun a => a.write h v) := by
    intro c h
    refine (Blames.readArena fun a => Except.familiar_isBorrowed).bind fun b _ => ?_
    split
    · exact Blames.fail_familiar nofun
    · exact Blames.onArena fun a => Except.familiar_write
  refine Ensures.run (findBinding_run name) ?_
  split
  · exact Blames.fail fun _ => ‹_›
  · exact Blames.fail_familiar nofun
  · exact hcell _
  · exact hcell _
  · exact Blames.onArena fun a => Except.familiar_setBorrowed

theorem outOfRange_fails_familiar (f : Frame) (r : Register) :
    Ensures (outOfRange s f r : Exec α) m (fun _ _ => False) fun e _ => e.fault.kind ≠ .unknownVariable := by
  refine Ensures.bind (R := fun _ _ => True) ?_ fun _ _ _ => (nofun : FaultKind.runtimeError ≠ .unknownVariable)
  cases hs : s.program.scope (some f.scope) with
  | ok scope => exact Ensures.pure trivial
  | error e => exact Except.familiar_scope e hs

theorem writeRegister_blames {c : Prop} (r : Register) (v : Value) : Blames c m (writeRegister s r v) := by
  refine Ensures.bind (R := fun _ _ => True) ?_ fun f m' _ => ?_
  · refine Ensures.get_bind ?_
    split
    · exact Blames.pure _
    · exact Blames.fail_familiar nofun
  · split
    · exact Blames.fail_familiar nofun
    · split
      · exact Ensures.change trivial
      · exact (outOfRange_fails_familiar f r).mono (fun _ _ h => h.elim) fun _ _ h he => absurd he h

theorem perform_blames {op : Operation} (f : Frame) (hn : op.uses? = some n) :
    Blames (m.finds n = none) m (perform s f op) := by
  cases op with
  | getVariable name out =>
    cases hn
    exact (readVariable_blames n).bind fun v _ => writeRegister_blames out v
  | setVariable name source =>
    cases hn
    rw [perform]
    unfold readRegister
    split
    · exact assignVariable_blames _ _
    · exact Ensures.bind ((outOfRange_fails_familiar f source).mono (fun _ _ h => h) fun _ _ h he => absurd he h)
        fun _ _ h => h.elim
  | _ => cases hn

theorem step_blames {f : Frame} {rest : List Frame} {op : Operation} {sc : Scope} (hf : m.frames = f :: rest)
    (hscope : s.program.scope (some f.scope) = .ok sc)
    (hop : (s.program.codeOf f.scope)[f.pc]? = some op) (hn : op.uses? = some n) :
    Blames (m.finds n = none) m (step s) := by
  rw [Program.codeOf_eq_map hscope] at hop
  obtain ⟨i, hi, rfl⟩ := Option.map_eq_some_iff.1 hop
  unfold Blames Ensures
  rw [step_run hf hscope hi, ← Machine.finds_taken hf i]
  exact perform_blames f hn

end Exec

end ScriptMachine
