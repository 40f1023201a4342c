import ScriptMachine.Proofs.Machine.Knowledge

set_option autoImplicit false

namespace ScriptMachine

/-- `transit` are the cells made for a call that no frame has taken over yet. -/
structure Machine.Sound (s : Setup) (trust : Trust) (time : Nat) (transit : List CellHandle)
    (m : Machine) : Prop where
  custody : Keeping trust.room s.options.keepCells transit m.arena (m.frames.map Frame.holding) m.pinned
  known : m.Known trust time

/-- Why an action may stop: of all that the arena could report, only that a cell is borrowed. -/
structure Trap.Fair (trust : Trust) (m : Machine) (e : Trap) : Prop where
  within : e.fault.Within (m.Knows trust)
  cell : trust.natives → ∀ f, e = .cell f → f = Arena.conflict

namespace Exec

variable {s : Setup} {trust : Trust} {time : Nat} {transit : List CellHandle} {α β : Type}
  {m m' : Machine}

theorem fair_script {e : Fault} (he : e.Within (m.Knows trust)) : (Trap.script e).Fair trust m :=
  ⟨he, fun _ _ h => nomatch h⟩

theorem fair_plain {e : Fault} (he : e.payload = none) : (Trap.script e).Fair trust m :=
  fair_script (FaultOf.within_payload_none he)

def Reads (trust : Trust) (x : Exec α) (m : Machine) (R : α → Prop) : Prop :=
  Ensures x m (fun a m' => m' = m ∧ R a) fun e m' => m' = m ∧ e.Fair trust m

namespace Reads

variable {x : Exec α} {f : α → Exec β} {R Q : α → Prop} {P : β → Prop}

theorem pure {a : α} (h : R a) : Reads trust (Pure.pure a) m R := Ensures.pure ⟨rfl, h⟩

theorem fail {e : Fault} (h : e.Within (m.Knows trust)) : Reads trust (Exec.fail e) m R :=
  Ensures.throw ⟨rfl, fair_script h⟩

theorem imp (hx : Reads trust x m R) (h : ∀ a, R a → Q a) : Reads trust x m Q :=
  Ensures.imp hx fun a _ ha => ⟨ha.1, h a ha.2⟩

theorem bind (hx : Reads trust x m R) (hf : ∀ a, R a → Reads trust (f a) m P) :
    Reads trust (x >>= f) m P := by
  refine Ensures.bind hx fun a t ht => ?_
  obtain ⟨rfl, ha⟩ := ht
  exact hf a ha

theorem map {g : α → β} (hx : Reads trust x m fun a => P (g a)) : Reads trust (g <$> x) m P :=
  Ensures.map hx

theorem lift {r : Except Fault α} (h : Gives (Value.Within (m.Knows trust)) r R) :
    Reads trust (Exec.lift r) m R := by
  cases r with
  | ok a => exact pure h
  | error e => exact fail h

theorem get_bind {f : Machine → Exec β} (h : Reads trust (f m) m P) :
    Reads trust (get >>= f) m P := Ensures.get_bind h

theorem mapM {g : α → Exec β} {as : List α} (hg : ∀ a ∈ as, Reads trust (g a) m P) :
    Reads trust (as.mapM g) m fun bs => ∀ b ∈ bs, P b := by
  induction as with
  | nil => exact pure nofun
  | cons a as ih =>
    rw [List.mapM_cons]
    obtain ⟨hfirst, hrest⟩ := List.forall_mem_cons.1 hg
    refine hfirst.bind fun b hb => (ih hrest).bind fun bs hbs => ?_
    exact pure (List.forall_mem_cons.2 ⟨hb, hbs⟩)

end Reads

/-- An action that ends in a sound state, with the cells in transit that its answer tells, or, if it
fails, with the others. -/
def Safe (s : Setup) (trust : Trust) (time : Nat) (after : α → List CellHandle)
    (otherwise : List CellHandle) (x : Exec α) (m : Machine) (Q : α → Machine → Prop) : Prop :=
  Ensures x m (fun a m' => m'.Sound s trust time (after a) ∧ m.Later trust m' ∧ Q a m') fun e m' =>
    m'.Sound s trust time otherwise ∧ m.Later trust m' ∧ e.Fair trust m'

abbrev Keeps (s : Setup) (trust : Trust) (time : Nat) (transit : List CellHandle) (x : Exec α)
    (m : Machine) (Q : α → Machine → Prop) : Prop :=
  Safe s trust time (fun _ => transit) transit x m Q

namespace Safe

variable {x : Exec α} {f : α → Exec β} {Q R : α → Machine → Prop} {P : β → Machine → Prop}
  {after : α → List CellHandle} {further : β → List CellHandle}

theorem pure {a : α} (hm : m.Sound s trust time (after a)) (h : Q a m) :
    Safe s trust time after transit (Pure.pure a) m Q := Ensures.pure ⟨hm, .refl m, h⟩

theorem fail {e : Fault} (hm : m.Sound s trust time transit) (he : e.Within (m.Knows trust)) :
    Safe s trust time after transit (Exec.fail e) m Q :=
  Ensures.throw ⟨hm, .refl m, fair_script he⟩

theorem imp (hx : Safe s trust time after transit x m R) (h : ∀ a m', R a m' → Q a m') :
    Safe s trust time after transit x m Q :=
  Ensures.imp hx fun a m' ha => ⟨ha.1, ha.2.1, h a m' ha.2.2⟩

theorem since {m₀ : Machine} (hl : m₀.Later trust m) (hx : Safe s trust time after transit x m Q) :
    Ensures x m (fun a m' => m'.Sound s trust time (after a) ∧ m₀.Later trust m' ∧ Q a m') fun e m' =>
      m'.Sound s trust time transit ∧ m₀.Later trust m' ∧ e.Fair trust m' :=
  Ensures.mono hx (fun _ _ h => ⟨h.1, hl.trans h.2.1, h.2.2⟩) fun _ _ h =>
    ⟨h.1, hl.trans h.2.1, h.2.2⟩

theorem bind (hx : Safe s trust time after transit x m R)
    (hf : ∀ a m', m'.Sound s trust time (after a) → m.Later trust m' → R a m' →
      Safe s trust time further transit (f a) m' P) :
    Safe s trust time further transit (x >>= f) m P := by
  refine Ensures.bind hx fun a m' ha => ?_
  obtain ⟨hm', hl, hr⟩ := ha
  exact since hl (hf a m' hm' hl hr)

theorem read {R : α → Prop} (hm : m.Sound s trust time transit) (hx : Reads trust x m R)
    (hf : ∀ a, R a → Safe s trust time further transit (f a) m P) :
    Safe s trust time further transit (x >>= f) m P := by
  have hfirst : Ensures x m (fun a m' => m' = m ∧ R a) fun e m' =>
      m'.Sound s trust time transit ∧ m.Later trust m' ∧ e.Fair trust m' := by
    refine Ensures.mono hx (fun _ _ h => h) fun e m' he => ?_
    obtain ⟨rfl, he⟩ := he
    exact ⟨hm, .refl _, he⟩
  refine Ensures.bind hfirst fun a m' ha => ?_
  obtain ⟨rfl, ha⟩ := ha
  exact hf a ha

theorem of_reads {R : α → Prop} (hm : m.Sound s trust time transit) (hx : Reads trust x m R) :
    Keeps s trust time transit x m fun a m' => m' = m ∧ R a := by
  refine Ensures.mono hx (fun a m' ha => ?_) fun e m' he => ?_
  · obtain ⟨rfl, ha⟩ := ha
    exact ⟨hm, .refl _, rfl, ha⟩
  · obtain ⟨rfl, he⟩ := he
    exact ⟨hm, .refl _, he⟩

theorem get_bind {f : Machine → Exec β} (h : Safe s trust time further transit (f m) m P) :
    Safe s trust time further transit (get >>= f) m P := Ensures.get_bind h

theorem change {g : Machine → Machine} {Q : PUnit → Machine → Prop}
    {after : PUnit → List CellHandle} (hm : (g m).Sound s trust time (after ⟨⟩)) (hl : m.Later trust (g m))
    (h : Q ⟨⟩ (g m)) : Safe s trust time after transit (modify g) m Q :=
  Ensures.change ⟨hm, hl, h⟩

theorem change_bind {g : Machine → Machine} {f : PUnit → Exec β} (hl : m.Later trust (g m))
    (h : Safe s trust time further transit (f ⟨⟩) (g m) P) :
    Safe s trust time further transit (modify g >>= f) m P :=
  Ensures.change_bind (since hl h)

theorem steady {R : α → Machine → Prop} (hx : Safe s trust time after transit x m R)
    (hs : Steady x Frame.outline) :
    Safe s trust time after transit x m fun a m' => R a m' ∧ m.Tended m' Frame.outline := by
  refine Ensures.mono (Ensures.both hx (hs m)) (fun a m' h => ?_) fun e m' h => h.1
  exact ⟨h.1.1, h.1.2.1, h.1.2.2, h.2⟩

end Safe

end Exec

namespace Machine.Sound

variable {s : Setup} {trust : Trust} {time : Nat} {transit : List CellHandle} {m : Machine}
  {f f' : Frame} {rest : List Frame}

theorem custody_cons (hm : m.Sound s trust time transit) (hf : m.frames = f :: rest) :
    Keeping trust.room s.options.keepCells transit m.arena (f.holding :: rest.map Frame.holding) m.pinned := by
  have hc := hm.custody
  rwa [hf] at hc

theorem within_top (hm : m.Sound s trust time transit) (hf : m.frames = f :: rest) :
    f.Within (m.Knows trust) m.runId := hm.known.frames f (by simp [hf])

theorem retop (hm : m.Sound s trust time transit) (hf : m.frames = f :: rest)
    (hc : Keeping trust.room s.options.keepCells transit m.arena (f'.holding :: rest.map Frame.holding) m.pinned)
    (hw : f'.Within (m.Knows trust) m.runId) :
    ({ m with frames := f' :: rest } : Machine).Sound s trust time transit :=
  ⟨hc, hm.known.retop hf hw⟩

theorem withTop (hm : m.Sound s trust time transit) (hf : m.frames = f :: rest)
    (hh : f'.holding = f.holding) (hw : f'.Within (m.Knows trust) m.runId) :
    ({ m with frames := f' :: rest } : Machine).Sound s trust time transit := by
  refine hm.retop hf ?_ hw
  rw [hh]
  exact hm.custody_cons hf

theorem withHost {h : Host} (hm : m.Sound s trust time transit)
    (hn : trust.natives → m.host.nextId ≤ h.nextId) (hh : h.Within (m.Knows trust)) :
    ({ m with host := h } : Machine).Sound s trust time transit :=
  ⟨hm.custody, hm.known.withHost hn hh⟩

end Machine.Sound

end ScriptMachine
