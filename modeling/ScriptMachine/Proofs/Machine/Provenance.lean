import ScriptMachine.Proofs.Machine.Variables
import ScriptMachine.Proofs.Value.Closures

set_option autoImplicit false

namespace ScriptMachine

variable {P : Value → Prop}

namespace Arena

def All (P : Value → Prop) (a : Arena) : Prop := ∀ c ∈ a.cells, P c.value

variable {a : Arena} {h : CellHandle} {v : Value}

theorem All.setCell (ha : a.All P) (i : Nat) {c : Cell} (hc : P c.value) : (a.setCell i c).All P := by
  intro d hd
  rcases Array.mem_or_eq_of_mem_setIfInBounds hd with hold | rfl
  · exact ha d hold
  · exact hc

theorem All.cell (ha : a.All P) (h : CellHandle) : Gives P (a.cell h) fun c => P c.value := by
  cases hc : a.cell h with
  | ok c => exact ha c (Array.mem_of_getElem? (look_eq_some.1 (look_of_cell hc)).1)
  | error e => exact Gives.error (cell_error_payload hc)

theorem All.read (ha : a.All P) (h : CellHandle) : Gives P (a.read h) P := by
  refine (ha.cell h).bind fun c hc => ?_
  split
  · exact Gives.error rfl
  · exact hc

theorem All.borrowed (ha : a.All P) (h : CellHandle) : Gives P (a.borrowed h) P := by
  refine (ha.cell h).bind fun c hc => ?_
  split
  · exact hc
  · exact Gives.error rfl

theorem All.isBorrowed (ha : a.All P) (h : CellHandle) : Gives P (a.isBorrowed h) fun _ => True :=
  (ha.cell h).bind fun _ _ => trivial

theorem All.isPinned (ha : a.All P) (h : CellHandle) : Gives P (a.isPinned h) fun _ => True :=
  (ha.cell h).bind fun _ _ => trivial

theorem All.write (ha : a.All P) (h : CellHandle) (hv : P v) : Gives P (a.write h v) (All P) := by
  refine (ha.cell h).bind fun c _ => ?_
  split
  · exact Gives.error rfl
  · exact ha.setCell _ hv

theorem All.setBorrowed (ha : a.All P) (h : CellHandle) (hv : P v) :
    Gives P (a.setBorrowed h v) (All P) := by
  refine (ha.cell h).bind fun c _ => ?_
  split
  · exact ha.setCell _ hv
  · exact Gives.error rfl

theorem All.beginExclusive (ha : a.All P) (h : CellHandle) :
    Gives P (a.beginExclusive h) fun r => P r.1 ∧ r.2.All P := by
  refine (ha.cell h).bind fun c hc => ?_
  split
  · exact Gives.error rfl
  · exact ⟨hc, ha.setCell _ hc⟩

theorem All.pin (ha : a.All P) (h : CellHandle) : Gives P (a.pin h) (All P) :=
  (ha.cell h).bind fun _ hc => ha.setCell _ hc

theorem All.attempt {r : Except Fault Arena} (ha : a.All P) (hr : Gives P r (All P)) :
    (r.toOption.getD a).All P := by
  cases r with
  | ok b => exact hr
  | error e => exact ha

theorem All.endBorrow (ha : a.All P) (h : CellHandle) : (a.endBorrow h).All P :=
  ha.attempt ((ha.cell h).bind fun _ hc => ha.setCell _ hc)

variable [Hereditary P]

theorem All.allocate (ha : a.All P) (hv : P v) : (a.allocate v).2.All P := by
  have hnext : ∀ c ∈ a.nextSlot.2.2, P c.value := by
    unfold nextSlot
    split
    · exact ha
    · intro d hd
      rcases Array.mem_push.1 hd with hold | rfl
      · exact ha d hold
      · exact Hereditary.none
  intro d hd
  rcases Array.mem_or_eq_of_mem_setIfInBounds hd with hold | rfl
  · exact hnext d hold
  · exact hv

theorem All.releaseIfFree (ha : a.All P) (h : CellHandle) : (a.releaseIfFree h).All P := by
  refine ha.attempt ((ha.cell h).bind fun c _ => ?_)
  split
  · exact Gives.error rfl
  · exact ha.setCell _ Hereditary.none

theorem All.discard (ha : a.All P) (h : CellHandle) : (a.discard h).All P := by
  unfold Arena.discard
  split
  · exact ha
  · exact ha.releaseIfFree h

end Arena

/-- The values that are bound have the property. -/
structure Frame.All (P : Value → Prop) (f : Frame) : Prop where
  registers : ∀ v ∈ f.registers, P v
  bindings : ∀ e ∈ f.bindings, ∀ v, e.2 = .fixed v → P v
  loop : ∀ l ∈ f.loop, l.All P

/-- All values that a machine has to do with have the property. -/
structure Machine.All (P : Value → Prop) (m : Machine) : Prop where
  frames : ∀ f ∈ m.frames, f.All P
  arena : m.arena.All P
  memo : ∀ e ∈ m.memo, P e.2
  halted : ∀ v ∈ m.halted, P v
  result : P m.entryResult
  host : m.host.All P

section States

variable {Q : Value → Prop} {m : Machine} {f : Frame} {name : Text} {b : Binding}

theorem Frame.All.mono (hf : f.All P) (h : ∀ v, P v → Q v) : f.All Q :=
  ⟨fun v hv => h v (hf.registers v hv), fun e he v hv => h v (hf.bindings e he v hv),
    fun l hl => (hf.loop l hl).mono h⟩

theorem Machine.All.mono (hm : m.All P) (h : ∀ v, P v → Q v) : m.All Q where
  frames := fun f hf => (hm.frames f hf).mono h
  arena := fun c hc => h _ (hm.arena c hc)
  memo := fun e he => h _ (hm.memo e he)
  halted := fun v hv => h v (hm.halted v hv)
  result := h _ hm.result
  host := fun shared hs e he => h _ (hm.host shared hs e he)

namespace Frame.All

theorem unbind (hf : f.All P) (name : Text) : (f.unbind name).All P :=
  ⟨hf.registers, fun e he => hf.bindings e (List.mem_of_mem_filter he), hf.loop⟩

theorem bind (hf : f.All P) (name : Text) (hb : ∀ v, b = .fixed v → P v) : (f.bind name b).All P :=
  ⟨hf.registers, List.forall_mem_cons.2 ⟨hb, (hf.unbind name).bindings⟩, hf.loop⟩

theorem receive (hf : f.All P) (out : Register) {v : Value} (hv : P v) :
    ({ f with registers := f.registers.setIfInBounds out v } : Frame).All P := by
  refine ⟨fun w hw => ?_, hf.bindings, hf.loop⟩
  rcases Array.mem_or_eq_of_mem_setIfInBounds hw with hold | rfl
  · exact hf.registers w hold
  · exact hv

end Frame.All

namespace Machine.All

theorem withArena {a : Arena} (hm : m.All P) (ha : a.All P) : Machine.All P { m with arena := a } :=
  ⟨hm.frames, ha, hm.memo, hm.halted, hm.result, hm.host⟩

theorem withFrames {fs : List Frame} (hm : m.All P) (hfs : ∀ f ∈ fs, f.All P) :
    Machine.All P { m with frames := fs } :=
  ⟨hfs, hm.arena, hm.memo, hm.halted, hm.result, hm.host⟩

theorem withHost {h : Host} (hm : m.All P) (hh : h.All P) : Machine.All P { m with host := h } :=
  ⟨hm.frames, hm.arena, hm.memo, hm.halted, hm.result, hh⟩

variable [Hereditary P]

theorem discard (hm : m.All P) (s : Setup) (h : CellHandle) : (m.discard s h).All P := by
  unfold Machine.discard
  split
  · exact hm
  · exact hm.withArena (hm.arena.discard h)

theorem discardAll (hm : m.All P) (s : Setup) (hs : List CellHandle) : (m.discardAll s hs).All P := by
  unfold Machine.discardAll
  induction hs generalizing m with
  | nil => exact hm
  | cons h hs ih => exact ih (hm.discard s h)

theorem popFrame (hm : m.All P) (s : Setup) : (m.popFrame s).All P := by
  unfold Machine.popFrame
  split
  · exact hm
  · rename_i f rest hf
    have hrest : ∀ g ∈ rest, g.All P := fun g hg => hm.frames g (hf ▸ List.mem_cons_of_mem _ hg)
    dsimp only
    split
    · exact (discardAll (hm.withArena (hm.arena.endBorrow _)) s _).withFrames hrest
    · exact (discardAll hm s _).withFrames hrest

end Machine.All

end States

abbrev Machine.Carries (G : Closure → Prop) (m : Machine) : Prop := m.All (Value.Holds G)

namespace Exec

variable {α β : Type} {G : Closure → Prop}

def Passes (G : Closure → Prop) (x : Exec α) (R : α → Prop) : Prop :=
  ∀ m : Machine, m.Carries G → Ensures x m (fun a m' => m'.Carries G ∧ R a) fun e m' =>
    m'.Carries G ∧ ∀ v ∈ e.fault.payload, v.Holds G

namespace Passes

variable {x : Exec α} {f : α → Exec β} {R Q : α → Prop} {T : β → Prop}

theorem pure {a : α} (h : R a) : Passes G (Pure.pure a) R := fun _ hm => ⟨hm, h⟩

theorem fail {e : Fault} (h : ∀ v ∈ e.payload, v.Holds G) : Passes G (Exec.fail e) R :=
  fun _ hm => ⟨hm, h⟩

theorem fail_plain {e : Fault} (h : e.payload = none) : Passes G (Exec.fail e) R :=
  fail fun v hv => by simp [h] at hv

theorem imp (hx : Passes G x R) (h : ∀ a, R a → Q a) : Passes G x Q :=
  fun m hm => (hx m hm).imp fun a _ ha => ⟨ha.1, h a ha.2⟩

theorem bind (hx : Passes G x R) (hf : ∀ a, R a → Passes G (f a) T) : Passes G (x >>= f) T :=
  fun m hm => (hx m hm).bind fun a t ht => hf a ht.2 t ht.1

theorem map {g : α → β} (hx : Passes G x fun a => T (g a)) : Passes G (g <$> x) T :=
  fun m hm => Ensures.map (P := fun b (m' : Machine) => m'.Carries G ∧ T b) (hx m hm)

theorem get : Passes G (MonadState.get : Exec Machine) fun m => m.Carries G := fun _ hm => ⟨hm, hm⟩

theorem change {g : Machine → Machine} (hg : ∀ m : Machine, m.Carries G → (g m).Carries G) :
    Passes G (modify g : Exec PUnit) fun _ => True := fun m hm => ⟨hg m hm, trivial⟩

theorem lift {r : Except Fault α} (h : Gives (Value.Holds G) r R) : Passes G (Exec.lift r) R := by
  cases r with
  | ok a => exact pure h
  | error e => exact fail h

theorem readArena {g : Arena → Except Fault α}
    (hg : ∀ a : Arena, a.All (Value.Holds G) → Gives (Value.Holds G) (g a) R) :
    Passes G (Exec.readArena g) R := by
  refine get.bind fun m hm => ?_
  have hr := hg m.arena hm.arena
  split
  · rename_i a ha
    rw [ha] at hr
    exact pure hr
  · rename_i e he
    rw [he] at hr
    exact fun m' hm' => Ensures.throw ⟨hm', hr⟩

theorem onArena {g : Arena → Except Fault Arena}
    (hg : ∀ a : Arena, a.All (Value.Holds G) → Gives (Value.Holds G) (g a) (Arena.All (Value.Holds G))) :
    Passes G (Exec.onArena g) fun _ => True :=
  (readArena hg).bind fun _ ha => change fun _ hm => hm.withArena ha

theorem top : Passes G Exec.top (Frame.All (Value.Holds G)) := by
  refine get.bind fun m hm => ?_
  split
  · rename_i f rest hf
    exact pure (hm.frames f (by simp [hf]))
  · exact fail_plain rfl

theorem modifyTop {g : Frame → Frame}
    (hg : ∀ f : Frame, f.All (Value.Holds G) → (g f).All (Value.Holds G)) :
    Passes G (Exec.modifyTop g) fun _ => True := by
  refine change fun m hm => ?_
  split
  · rename_i f rest hf
    have hframes := hm.frames
    rw [hf] at hframes
    obtain ⟨htop, hrest⟩ := List.forall_mem_cons.1 hframes
    exact hm.withFrames (List.forall_mem_cons.2 ⟨hg f htop, hrest⟩)
  · exact hm

theorem mapM {g : α → Exec β} {as : List α} (hg : ∀ a ∈ as, Passes G (g a) T) :
    Passes G (as.mapM g) fun bs => ∀ b ∈ bs, T b := by
  induction as with
  | nil => exact pure nofun
  | cons a as ih =>
    rw [List.mapM_cons]
    obtain ⟨hfirst, hrest⟩ := List.forall_mem_cons.1 hg
    refine hfirst.bind fun b hb => (ih hrest).bind fun bs hbs => ?_
    exact pure (List.forall_mem_cons.2 ⟨hb, hbs⟩)

end Passes

variable {s : Setup} {f : Frame} {v : Value} {target : Target}

theorem outOfRange_passes {R : α → Prop} (f : Frame) (r : Register) :
    Passes G (outOfRange s f r : Exec α) R :=
  (Passes.lift (scope_gives _ _)).bind fun _ _ => Passes.fail_plain rfl

theorem readRegister_passes (hf : f.All (Value.Holds G)) (r : Register) :
    Passes G (readRegister s f r) (Value.Holds G) := by
  unfold readRegister
  split
  · exact Passes.pure (hf.registers _ (Array.mem_of_getElem? ‹_›))
  · exact outOfRange_passes f r

theorem readRegisters_passes (hf : f.All (Value.Holds G)) (rs : List Register) :
    Passes G (readRegisters s f rs) fun vs => ∀ v ∈ vs, v.Holds G :=
  Passes.mapM fun r _ => readRegister_passes hf r

theorem writeRegister_passes (r : Register) (hv : v.Holds G) :
    Passes G (writeRegister s r v) fun _ => True := by
  refine Passes.top.bind fun f _ => ?_
  split
  · exact Passes.fail_plain rfl
  · split
    · exact Passes.modifyTop fun f hf => hf.receive r hv
    · exact outOfRange_passes f r

theorem deliver_passes (out : Register) (hv : v.Holds G) :
    Passes G (deliver s v out) fun _ => True := by
  refine Passes.get.bind fun m _ => ?_
  split
  · exact Passes.change fun m hm => ⟨hm.frames, hm.arena, hm.memo, hm.halted, hv, hm.host⟩
  · exact writeRegister_passes out hv

theorem rootFrame_passes : Passes G rootFrame fun _ => True := by
  refine Passes.get.bind fun m _ => ?_
  split
  · exact Passes.pure trivial
  · exact Passes.pure trivial

theorem topIndex_passes : Passes G topIndex fun _ => True :=
  Passes.get.bind fun _ _ => Passes.pure trivial

theorem pushFrame_passes (target : Target) (parent : Option Nat) (out : Register) :
    Passes G (pushFrame s target parent out) fun _ => True := by
  refine Passes.get.bind fun m _ => ?_
  split
  · exact Passes.fail_plain rfl
  · refine (Passes.lift (scope_gives _ _)).bind fun scope _ => Passes.change fun m hm => ?_
    refine hm.withFrames (List.forall_mem_cons.2 ⟨⟨freshRegisters_inherits scope, ?_, ?_⟩, hm.frames⟩)
    · exact List.forall_mem_nil _
    · exact nofun

theorem findBinding_passes (name : Text) :
    Passes G (findBinding name) fun b => ∀ v, b = some (.fixed v) → v.Holds G := by
  refine Passes.get.bind fun m hm => Passes.pure fun v hv => ?_
  obtain ⟨f, hf, hb⟩ := findIn_mem hv
  exact (hm.frames f hf).bindings _ hb v rfl

theorem borrowedVariable_passes {R : α → Prop} (name : Text) :
    Passes G (borrowedVariable name : Exec α) R := Passes.fail_plain rfl

theorem readVariable_passes (name : Text) : Passes G (readVariable name) (Value.Holds G) := by
  have hcell : ∀ h : CellHandle, Passes G (do
      if ← readArena fun a => a.isBorrowed h then borrowedVariable name
      else readArena fun a => a.read h) (Value.Holds G) := by
    intro h
    refine (Passes.readArena fun a ha => ha.isBorrowed h).bind fun b _ => ?_
    split
    · exact borrowedVariable_passes name
    · exact Passes.readArena fun a ha => ha.read h
  refine (findBinding_passes name).bind fun b hb => ?_
  split
  · exact Passes.fail_plain rfl
  · exact Passes.pure (hb _ rfl)
  · exact hcell _
  · exact hcell _
  · exact Passes.readArena fun a ha => ha.borrowed _

theorem assignVariable_passes (name : Text) (hv : v.Holds G) :
    Passes G (assignVariable name v) fun _ => True := by
  have hcell : ∀ h : CellHandle, Passes G (do
      if ← readArena fun a => a.isBorrowed h then borrowedVariable name
      else onArena fun a => a.write h v) fun _ => True := by
    intro h
    refine (Passes.readArena fun a ha => ha.isBorrowed h).bind fun b _ => ?_
    split
    · exact borrowedVariable_passes name
    · exact Passes.onArena fun a ha => ha.write h hv
  refine (findBinding_passes name).bind fun b hb => ?_
  split
  · exact Passes.fail_plain rfl
  · exact Passes.fail_plain rfl
  · exact hcell _
  · exact hcell _
  · exact Passes.onArena fun a ha => ha.setBorrowed _ hv

theorem dropBinding_passes (name : Text) : Passes G (dropBinding s name) fun _ => True := by
  have hunbind : Passes G (modifyTop fun f => f.unbind name) fun _ => True :=
    Passes.modifyTop fun _ hf => hf.unbind name
  refine Passes.top.bind fun f _ => ?_
  split
  · exact (Passes.change fun m hm => hm.discard s _).bind fun _ _ => hunbind
  · exact hunbind

theorem bindTop_passes {b : Binding} (name : Text) (hb : ∀ v, b = .fixed v → v.Holds G) :
    Passes G (modifyTop fun f => f.bind name b) fun _ => True :=
  Passes.modifyTop fun _ hf => hf.bind name hb

theorem bindLet_passes (name : Text) (hv : v.Holds G) :
    Passes G (bindLet s name v) fun _ => True := by
  refine (dropBinding_passes name).bind fun _ _ => bindTop_passes name fun w hw => ?_
  cases hw
  exact hv

theorem bindMut_passes (name : Text) (hv : v.Holds G) :
    Passes G (bindMut s name v) fun _ => True := by
  refine (dropBinding_passes name).bind fun _ _ => Passes.get.bind fun m hm => ?_
  have harena := hm.arena.allocate hv
  split
  rename_i h arena heq
  rw [heq] at harena
  refine (Passes.change fun _ hm => hm.withArena harena).bind fun _ _ => Passes.modifyTop fun f hf => ?_
  have hbound := hf.bind (b := .cell h) name nofun
  exact ⟨hbound.registers, hbound.bindings, hbound.loop⟩

theorem bindParams_passes (names : List Text) {args : List Value} (hargs : ∀ v ∈ args, v.Holds G) :
    Passes G (bindParams s names args) fun _ => True := by
  induction names generalizing args with
  | nil => exact Passes.pure trivial
  | cons name names ih =>
    refine (bindLet_passes name ?_).bind fun _ _ => ih fun v hv => hargs v (List.mem_of_mem_tail hv)
    cases args with
    | nil => exact Hereditary.none
    | cons v vs => exact hargs v List.mem_cons_self

theorem pin_passes (h : CellHandle) : Passes G (pin h) fun _ => True := by
  refine (Passes.readArena fun a ha => ha.isPinned h).bind fun b _ => ?_
  split
  · exact Passes.pure trivial
  · refine (Passes.onArena fun _ ha => ha.pin h).bind fun _ _ => Passes.change fun m hm => ?_
    exact ⟨hm.frames, hm.arena, hm.memo, hm.halted, hm.result, hm.host⟩

end Exec

end ScriptMachine
