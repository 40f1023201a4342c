import ScriptMachine.Proofs.Machine.Variables

set_option autoImplicit false

namespace ScriptMachine

/-- What the machine promises about the receiver of a call from the given frames. -/
structure Receiver.Fits (trust : Trust) (m : Machine) (callers : List Frame) (r : Receiver) : Prop where
  value : r.value.Within (m.Knows trust)
  temporary : r.temporary = true → r.borrows = true
  /-- A cell that the call finds borrowed is borrowed by a frame below. -/
  lent : ∀ h, r.cell = some h → r.borrows = false → ∃ f ∈ callers, f.borrow = some h
  /-- A cell that the call is going to borrow is held below, or pinned. -/
  held : ∀ h, r.cell = some h → r.borrows = true → r.temporary = false →
    (∃ f ∈ callers, h ∈ f.holding.mutables) ∨ m.Knows trust (m.runId, h)

theorem Receiver.Fits.later {trust : Trust} {m m' : Machine} {callers : List Frame} {r : Receiver}
    (hr : r.Fits trust m callers) (hl : m.Later trust m') : r.Fits trust m' callers := by
  refine ⟨hl.value hr.value, hr.temporary, hr.lent, fun h hc hb ht => ?_⟩
  rw [hl.run]
  exact (hr.held h hc hb ht).imp_right (hl.knows _)

namespace Exec

variable {s : Setup} {trust : Trust} {time : Nat} {transit : List CellHandle} {m : Machine}
  {f : Frame} {rest : List Frame} {v : Value} {h : CellHandle} {r : Receiver}

def inTransit (r : Option Receiver) : List CellHandle := (temporaryCell r).toList

theorem remember_keeps (hm : m.Sound s trust time transit) (key : Option Text)
    (hv : v.Within (m.Knows trust)) :
    Keeps s trust time transit (remember key v) m fun _ _ => True := by
  unfold remember
  split
  · refine Safe.change ⟨hm.custody, ?_⟩ (.of_eq rfl rfl) trivial
    refine ⟨hm.known.dated, hm.known.frames, hm.known.cells, ?_, hm.known.halted, hm.known.result,
      hm.known.host⟩
    exact List.forall_mem_cons.2 ⟨hv, fun e he => hm.known.memo e (List.mem_of_mem_filter he)⟩
  · exact Safe.pure hm trivial

theorem held_alive (hm : m.Sound s trust time transit) {callers : List Frame}
    (hcallers : ∀ f ∈ callers, f ∈ m.frames)
    (hh : (∃ f ∈ callers, h ∈ f.holding.mutables) ∨ m.Knows trust (m.runId, h)) (ht : trust.natives) :
    ∃ c, m.arena.look h = some c := by
  rcases hh with ⟨f, hf, hh⟩ | hk
  · exact mutable_alive hm (trust.ample ht) ⟨f, hcallers f hf, hh⟩
  · exact (hk.pinned ht).imp fun _ hc => hc.1

/-- A cell whose value has been changed while it was borrowed. -/
theorem returned_sound {a : Arena} {c : Cell} (hm : m.Sound s trust time transit)
    (hl : m.arena.look h = some c) (hv : v.Within (m.Knows trust)) (ha : m.arena.WellFormed → a.WellFormed)
    (hlook : ∀ k, a.look k = if k = h then some { c with value := v } else m.arena.look k) :
    m.Later trust { m with arena := a } ∧ ({ m with arena := a } : Machine).Sound s trust time transit := by
  have hlater : m.Later trust { m with arena := a } := by
    refine ⟨rfl, fun _ k d hk hp => ?_⟩
    rw [hlook]
    split
    · rename_i he
      rw [he, hl] at hk
      cases hk
      exact ⟨_, rfl, hp⟩
    · exact ⟨d, hk, hp⟩
  refine ⟨hlater, hm.custody.same ha fun k => ?_, hm.known.withArena hlater fun k d hk => ?_⟩
  · rw [hlook]
    split
    · rename_i he
      rw [he, hl]
      rfl
    · rfl
  · rw [hlook] at hk
    split at hk
    · cases hk
      exact hlater.value hv
    · exact hlater.value (hm.known.cells k d hk)

theorem inTransit_loose (hm : m.Sound s trust time (inTransit (some r))) (hroom : trust.room)
    (hc : r.cell = some h) (ht : r.temporary = true) : m.arena.Loose h := by
  obtain ⟨value, cell, borrows, temporary⟩ := r
  cases hc
  cases ht
  exact ((hm.custody.custody hroom).moving h List.mem_cons_self).1

theorem receiver_alive {callers : List Frame} (hm : m.Sound s trust time (inTransit (some r)))
    (hcallers : ∀ f ∈ callers, f ∈ m.frames) (hr : r.Fits trust m callers) (hc : r.cell = some h)
    (hb : r.borrows = true) (ht : trust.natives) : ∃ c, m.arena.look h = some c := by
  cases htemporary : r.temporary with
  | true =>
    obtain ⟨c, hl, -⟩ := inTransit_loose hm (trust.ample ht) hc htemporary
    exact ⟨c, hl⟩
  | false => exact held_alive hm hcallers (hr.held h hc hb htemporary) ht

theorem beginExclusive_reads (halive : trust.natives → ∃ c, m.arena.look h = some c) :
    Reads trust (readArena fun a => a.beginExclusive h) m fun p =>
      ∃ c, m.arena.look h = some c ∧ c.exclusive = false ∧
        p = (c.value, m.arena.setCell h.index.toNat { c with exclusive := true }) := by
  refine readArena_cell (k := fun a c => if c.exclusive then Arena.borrowFault
    else pure (c.value, a.setCell h.index.toNat { c with exclusive := true })) halive
    (fun c p hl hp => ?_) fun c e _ he => ?_
  · split at hp
    · cases hp
    · cases hp
      exact ⟨c, hl, by simpa using ‹¬c.exclusive = true›, rfl⟩
  · split at he
    · cases he
      exact ⟨rfl, fun _ => rfl⟩
    · cases he

def Closes (s : Setup) (trust : Trust) (time : Nat) (transit : List CellHandle) (m : Machine)
    (x : Exec Unit) (m₁ : Machine) : Prop :=
  Ensures x m₁ (fun _ m' => m'.Sound s trust time transit ∧ m.Later trust m') fun e m' =>
    m'.Sound s trust time transit ∧ m.Later trust m' ∧ e.Fair trust m'

/-- A cell that was borrowed for native code is given back. -/
theorem closeReceiver_lent {host : Host} {self : Option Value} {c : Cell} {temporary : Bool}
    (hm : m.Sound s trust time transit) (hn : trust.natives → m.host.nextId ≤ host.nextId)
    (hhost : host.Within (m.Knows trust)) (hself : ∀ w ∈ self, w.Within (m.Knows trust))
    (hl : m.arena.look h = some c) (hx : c.exclusive = false) :
    Closes s trust time transit m (closeReceiver (some ⟨v, some h, true, temporary⟩) self)
      { m with arena := m.arena.setCell h.index.toNat { c with exclusive := true }, host } := by
  obtain ⟨ho, -⟩ := (Arena.look_eq_some.1 hl).2
  have hlent := Arena.look_setCell (d := { c with exclusive := true }) hl ho rfl
  have hwf : m.arena.WellFormed → (m.arena.setCell h.index.toNat { c with exclusive := true }).WellFormed :=
    fun ha => Arena.wellFormed_setCell ha hl ho
  have hsound : ({ m with host } : Machine).Sound s trust time transit := hm.withHost hn hhost
  have hend : ∀ (a : Arena) (w : Value), w.Within (m.Knows trust) → (m.arena.WellFormed → a.WellFormed) →
      (∀ k, a.look k = if k = h then some { c with value := w, exclusive := true }
        else m.arena.look k) →
      Closes s trust time transit m (modify fun m => { m with arena := m.arena.endBorrow h })
        { m with arena := a, host } := by
    intro a w hw ha hlook
    obtain ⟨hlater, hsound'⟩ := returned_sound hsound hl hw (fun hm => Arena.wellFormed_endBorrow (ha hm) h)
      (Arena.endBorrow_lent hx hlook)
    exact Ensures.change ⟨hsound', ⟨rfl, hlater.pinned⟩⟩
  cases self with
  | none => exact hend _ c.value (hm.known.cells h c hl) hwf hlent
  | some w =>
    have hl' : (m.arena.setCell h.index.toNat { c with exclusive := true }).look h =
        some { c with exclusive := true } := (hlent h).trans (if_pos rfl)
    have hset := Arena.setBorrowed_of_look hl' rfl w
    refine Ensures.run (onArena_run hset) (hend _ w (hself w rfl) ?_ fun k => ?_)
    · exact fun hm => Arena.wellFormed_setCell (hwf hm) hl' ho
    · rw [Arena.look_setCell (d := { c with value := w, exclusive := true }) hl' ho rfl, hlent]
      split
      · rfl
      · rfl

/-- Opening a receiver gives native code a value that shares only known cells, and leads to a state in
which the receiver can be closed again. -/
theorem openReceiver_ensures {r : Option Receiver} (hm : m.Sound s trust time (inTransit r))
    (hr : ∀ r' ∈ r, r'.Fits trust m m.frames) :
    Ensures (openReceiver r) m
      (fun self m₁ => (∀ w ∈ self, w.Within (m.Knows trust)) ∧ m₁.host = m.host ∧
        ∀ (host : Host) (self' : Option Value), (trust.natives → m.host.nextId ≤ host.nextId) →
          host.Within (m.Knows trust) → (∀ w ∈ self', w.Within (m.Knows trust)) →
          Closes s trust time (inTransit r) m (closeReceiver r self') { m₁ with host })
      fun e m' => m'.Sound s trust time (inTransit r) ∧ m.Later trust m' ∧ e.Fair trust m' := by
  have hfail : ∀ (e : Trap) (m' : Machine), m' = m ∧ e.Fair trust m →
      m'.Sound s trust time (inTransit r) ∧ m.Later trust m' ∧ e.Fair trust m' := by
    rintro e m' ⟨rfl, he⟩
    exact ⟨hm, .refl _, he⟩
  have hplain : ∀ host : Host, (trust.natives → m.host.nextId ≤ host.nextId) → host.Within (m.Knows trust) →
      Closes s trust time (inTransit r) m (pure ()) { m with host } :=
    fun host hn hh => Ensures.pure ⟨hm.withHost hn hh, .of_eq rfl rfl⟩
  cases r with
  | none => exact Ensures.pure ⟨nofun, rfl, fun host self' hn hh _ => hplain host hn hh⟩
  | some r =>
    have hr := hr r rfl
    obtain ⟨value, cell, borrows, temporary⟩ := r
    cases cell with
    | none =>
      refine Ensures.pure ⟨fun w hw => ?_, rfl, fun host self' hn hh _ => hplain host hn hh⟩
      cases hw
      exact hr.value
    | some h =>
      cases borrows with
      | true =>
        have halive := receiver_alive hm (fun _ hf => hf) hr rfl rfl
        refine Ensures.bind ((beginExclusive_reads halive).mono (fun _ _ hp => hp) hfail) ?_
        rintro p _ ⟨rfl, c, hl, hx, rfl⟩
        refine Ensures.change_bind (Ensures.pure ⟨fun w hw => ?_, rfl, ?_⟩)
        · cases hw
          exact hm.known.cells h c hl
        · exact fun host self' hn hh hs => closeReceiver_lent hm hn hh hs hl hx
      | false =>
        have hlent := hr.lent h rfl rfl
        refine Ensures.bind ((borrowed_reads hm hlent).mono (fun _ _ hp => hp) hfail) ?_
        rintro w m₁ ⟨he, hw⟩
        rw [he]
        refine Ensures.pure ⟨fun w' hw' => ?_, rfl, fun host self' hn hh hs => ?_⟩
        · cases hw'
          exact hw
        · have hsound := hm.withHost hn hh
          cases self' with
          | none => exact Ensures.pure ⟨hsound, .of_eq rfl rfl⟩
          | some u =>
            have hset := setBorrowed_keeps hsound hlent (hs u rfl)
            have hlater : m.Later trust { m with host } := .of_eq rfl rfl
            exact Ensures.bind (Safe.since hlater hset) fun _ m' h => Ensures.pure ⟨h.1, h.2.1⟩

theorem nativeFault_within {G : SharedCell → Prop} {f : Function} {e : Failure}
    (h : ∀ x, e = .fault x → x.Within G) : (nativeFault f e).Within G := by
  cases e with
  | fault x => exact h x rfl
  | other what => exact FaultOf.within_payload_none rfl

theorem callNative_keeps {f : Function} {code : Option Native} {args : List Value}
    {r : Option Receiver} (hm : m.Sound s trust time (inTransit r))
    (hr : ∀ r' ∈ r, r'.Fits trust m m.frames) (hcode : trust.natives → ∀ run ∈ code, run.Honest time)
    (hargs : ∀ w ∈ args, w.Within (m.Knows trust)) (key : Option Text) (out : Register) :
    Keeps s trust time (inTransit r) (callNative s f code args r key out) m fun _ _ => True := by
  refine Ensures.bind (openReceiver_ensures hm hr) fun self m₁ hopen => Ensures.get_bind ?_
  obtain ⟨hself, hhost, hclose⟩ := hopen
  extract_lets outcome
  -- what native code answers, or the lack of it, knows no more cells and takes back no identity
  have ⟨hwithin, hn⟩ : outcome.Within (m.Knows trust) ∧
      (trust.natives → m.host.nextId ≤ outcome.host.nextId) := by
    unfold outcome
    split
    · rename_i run
      refine ⟨?_, fun ht => hhost ▸ (hcode ht run rfl).identities _ _⟩
      by_cases ht : trust.natives
      · refine (hcode ht run rfl).within _ _ _ (fun c hc => ?_) ⟨hself, hargs⟩
          (hhost ▸ hm.known.host)
        exact hm.known.of_dated c fun _ => hc
      · exact NativeOutcome.within_of_forall fun c => fun ht' => absurd ht' ht
    · exact ⟨⟨hhost ▸ hm.known.host, hself, nofun, nofun⟩, fun _ => Nat.le_of_eq (congrArg _ hhost.symm)⟩
  refine Ensures.change_bind ?_
  refine Ensures.bind (hclose outcome.host outcome.self hn hwithin.host hwithin.self) ?_
  rintro - m₂ ⟨hm₂, hl₂⟩
  refine Safe.since hl₂ ?_
  split
  · rename_i e he
    refine Safe.fail hm₂ (nativeFault_within fun x hx => ?_)
    exact (hwithin.fault x (hx ▸ he)).mono hl₂.knows
  · rename_i w hw
    have hw' := hl₂.value (hwithin.value w hw)
    refine Safe.read hm₂ (Reads.lift (Function.checkResult_gives w)) fun _ _ => ?_
    refine (remember_keeps hm₂ key hw').bind fun _ m₃ hm₃ hl₃ _ => ?_
    exact deliver_keeps hm₃ out (hl₃.value hw')

end Exec

end ScriptMachine
