import ScriptMachine.Proofs.Machine.Soundness

set_option autoImplicit false

namespace ScriptMachine

namespace Exec

variable {s : Setup} {trust : Trust} {time : Nat} {transit : List CellHandle} {α : Type}
  {m : Machine} {f : Frame} {rest : List Frame} {name : Text} {v : Value} {h : CellHandle}

theorem top_reads : Reads trust top m fun f => ∃ rest, m.frames = f :: rest := by
  refine Reads.get_bind ?_
  split
  · exact Reads.pure ⟨_, ‹_›⟩
  · exact Reads.fail (FaultOf.within_payload_none rfl)

theorem modifyTop_safe {g : Frame → Frame} {Q : PUnit → Machine → Prop}
    {after : PUnit → List CellHandle} (hf : m.frames = f :: rest)
    (hl : m.Later trust { m with frames := g f :: rest })
    (hm : ({ m with frames := g f :: rest } : Machine).Sound s trust time (after ⟨⟩))
    (hq : Q ⟨⟩ { m with frames := g f :: rest }) :
    Safe s trust time after transit (modifyTop g) m Q := by
  refine Ensures.intro (fun a t h => ?_) fun e t h => ?_
  · rw [modifyTop_run hf] at h
    cases h
    exact ⟨hm, hl, hq⟩
  · rw [modifyTop_run hf] at h
    cases h

theorem modifyTop_keeps {otherwise : List CellHandle} {g : Frame → Frame} (hm : m.Sound s trust time transit)
    (hg : ∀ f, m.frames.head? = some f → (g f).holding = f.holding ∧
      (f.Within (m.Knows trust) m.runId → (g f).Within (m.Knows trust) m.runId)) :
    Safe s trust time (fun _ => transit) otherwise (modifyTop g) m fun _ _ => True := by
  refine Safe.change ?_ ?_ trivial
  · cases hf : m.frames with
    | nil => exact hm
    | cons f rest =>
      obtain ⟨hh, hw⟩ := hg f (by simp [hf])
      exact hm.withTop hf hh (hw (hm.within_top hf))
  · cases m.frames with
    | nil => exact .refl m
    | cons f rest => exact .of_eq rfl rfl

theorem scope_payload {p : Program} {target : Target} {e : Fault} (h : p.scope target = .error e) :
    e.payload = none := by
  unfold Program.scope at h
  split at h
  · cases h
    rfl
  · split at h
    · cases h
    · cases h
      rfl

theorem scope_gives {P : Value → Prop} (p : Program) (target : Target) :
    Gives P (p.scope target) fun scope => p.scope target = .ok scope := by
  cases h : p.scope target with
  | ok scope => rfl
  | error e => exact Gives.error (scope_payload h)

theorem outOfRange_reads (r : Register) {R : α → Prop} :
    Reads trust (outOfRange s f r : Exec α) m R :=
  (Reads.lift (scope_gives s.program (some f.scope))).bind fun _ _ =>
    Reads.fail (FaultOf.within_payload_none rfl)

theorem readRegister_reads (hf : f.Within (m.Knows trust) m.runId) (r : Register) :
    Reads trust (readRegister s f r) m (Value.Within (m.Knows trust)) := by
  unfold readRegister
  split
  · rename_i v hv
    exact Reads.pure (hf.registers v (Array.mem_of_getElem? hv))
  · exact outOfRange_reads r

theorem readRegisters_reads (hf : f.Within (m.Knows trust) m.runId) (rs : List Register) :
    Reads trust (readRegisters s f rs) m fun vs => ∀ v ∈ vs, v.Within (m.Knows trust) :=
  Reads.mapM fun r _ => readRegister_reads hf r

theorem writeRegister_keeps (hm : m.Sound s trust time transit) (r : Register)
    (hv : v.Within (m.Knows trust)) :
    Keeps s trust time transit (writeRegister s r v) m fun _ _ => True := by
  refine Safe.read hm top_reads fun f hf => ?_
  split
  · exact Safe.fail hm (FaultOf.within_payload_none rfl)
  · split
    · refine modifyTop_keeps hm fun f _ => ⟨rfl, fun hw => ⟨fun w hw' => ?_, hw.bindings, hw.loop⟩⟩
      rcases Array.mem_or_eq_of_mem_setIfInBounds hw' with hold | rfl
      · exact hw.registers w hold
      · exact hv
    · exact (Safe.of_reads hm (outOfRange_reads (R := fun _ => True) r)).imp fun _ _ h => h.2

theorem deliver_keeps (hm : m.Sound s trust time transit) (out : Register)
    (hv : v.Within (m.Knows trust)) :
    Keeps s trust time transit (deliver s v out) m fun _ _ => True := by
  refine Safe.get_bind ?_
  split
  · refine Safe.change ⟨hm.custody, ?_⟩ (.of_eq rfl rfl) trivial
    exact ⟨hm.known.dated, hm.known.frames, hm.known.cells, hm.known.memo, hm.known.halted, hv,
      hm.known.host⟩
  · exact writeRegister_keeps hm out hv

theorem freshRegisters_inherits {P : Value → Prop} [Hereditary P] (scope : Scope) :
    ∀ v ∈ Frame.freshRegisters scope, P v := by
  intro v hv
  rcases Array.mem_or_eq_of_mem_setIfInBounds hv with hold | rfl
  · obtain ⟨-, rfl⟩ := Array.mem_replicate.1 hold
    exact Hereditary.none
  · exact Hereditary.int 1

theorem rootFrame_reads : Reads trust rootFrame m fun _ => True := by
  refine Reads.get_bind ?_
  split
  · exact Reads.pure trivial
  · exact Reads.pure trivial

/-- The frame of a scope that has just been entered. -/
def entered (scope : Scope) (target : Target) (parent : Option Nat) (out : Register) : Frame :=
  ⟨target.getD 0, 0, Frame.freshRegisters scope, [], parent, out, none, [], none, none, none, none⟩

theorem pushFrame_ensures (target : Target) (parent : Option Nat) (out : Register) :
    Ensures (pushFrame s target parent out) m
      (fun _ m' => m.frames.length < s.options.maxDepth ∧ ∃ scope, s.program.scope target = .ok scope ∧
        m' = { m with frames := entered scope target parent out :: m.frames })
      fun e m' => m' = m ∧ ∃ f, e = .script f ∧ f.payload = none := by
  refine Ensures.get_bind ?_
  split
  · exact Ensures.throw ⟨rfl, _, rfl, rfl⟩
  · cases hs : s.program.scope target with
    | error e => exact Ensures.throw ⟨rfl, e, rfl, scope_payload hs⟩
    | ok scope => exact Ensures.change ⟨by omega, scope, rfl, rfl⟩

theorem pushFrame_keeps (hm : m.Sound s trust time transit) (target : Target) (parent : Option Nat)
    (out : Register) :
    Keeps s trust time transit (pushFrame s target parent out) m fun _ m' =>
      ∃ scope, m'.frames = entered scope target parent out :: m.frames := by
  refine Ensures.mono (pushFrame_ensures target parent out) (fun _ m' hm' => ?_) fun e m' hm' => ?_
  · obtain ⟨-, scope, -, rfl⟩ := hm'
    refine ⟨⟨hm.custody.push, ?_⟩, .of_eq rfl rfl, scope, rfl⟩
    refine hm.known.change (.of_eq rfl rfl) rfl rfl rfl rfl ?_ hm.known.cells
    exact List.forall_mem_cons.2 ⟨⟨freshRegisters_inherits scope, nofun, nofun⟩, hm.known.frames⟩
  · obtain ⟨rfl, f, rfl, hf⟩ := hm'
    exact ⟨hm, .refl _, fair_plain hf⟩

end Exec

def Machine.Offers (trust : Trust) (m : Machine) : Binding → Prop
  | .fixed v => v.Within (m.Knows trust)
  | .cell h => ∃ f ∈ m.frames, h ∈ f.holding.mutables
  | .captured h => m.Knows trust (m.runId, h)
  | .borrowed h => ∃ f ∈ m.frames, f.borrow = some h

theorem Machine.Knows.pinned {trust : Trust} {m : Machine} {h : CellHandle}
    (hk : m.Knows trust (m.runId, h)) (ht : trust.natives) :
    ∃ c, m.arena.look h = some c ∧ c.pinned = true := by
  rcases hk ht with hd | ⟨-, hp⟩
  · exact absurd hd (Nat.lt_irrefl _)
  · exact hp

namespace Exec

variable {s : Setup} {trust : Trust} {time : Nat} {transit : List CellHandle} {α : Type}
  {m : Machine} {f : Frame} {rest : List Frame} {name : Text} {v : Value} {h : CellHandle}

theorem findIn_mem {target : Option Nat} {frames : List Frame} {b : Binding}
    (hb : findIn name target frames = some b) : ∃ f ∈ frames, (name, b) ∈ f.bindings := by
  induction frames generalizing target with
  | nil => cases hb
  | cons f below ih =>
    unfold findIn at hb
    split at hb
    · split at hb
      · rename_i hl
        cases hb
        obtain ⟨front, back, hsplit, -⟩ := List.lookup_eq_some_iff.1 hl
        exact ⟨f, List.mem_cons_self, by simp [hsplit]⟩
      · obtain ⟨g, hg, hm⟩ := ih hb
        exact ⟨g, List.mem_cons_of_mem _ hg, hm⟩
    · obtain ⟨g, hg, hm⟩ := ih hb
      exact ⟨g, List.mem_cons_of_mem _ hg, hm⟩

theorem bound_offers (hm : m.Sound s trust time transit) {b : Binding} (hf : f ∈ m.frames)
    (hb : (name, b) ∈ f.bindings) : m.Offers trust b := by
  have hholding : f.holding ∈ m.frames.map Frame.holding := List.mem_map_of_mem hf
  have hwithin := (hm.known.frames f hf).bindings _ hb
  cases b with
  | fixed v => exact hwithin
  | captured h => exact hwithin
  | cell h => exact ⟨f, hf, Holding.mem_mutables.2 ⟨name, hb⟩⟩
  | borrowed h =>
    obtain ⟨_, hg, hgh⟩ :=
      hm.custody.lent.receivers hholding (Holding.mem_receivers.2 ⟨name, hb⟩)
    obtain ⟨g, hmem, rfl⟩ := List.mem_map.1 hg
    exact ⟨g, hmem, hgh⟩

theorem findBinding_reads (hm : m.Sound s trust time transit) (name : Text) :
    Reads trust (findBinding name) m fun b => ∀ b' ∈ b, m.Offers trust b' := by
  refine Reads.get_bind (Reads.pure fun b hb => ?_)
  obtain ⟨f, hf, hb⟩ := findIn_mem (Option.mem_def.1 hb)
  exact bound_offers hm hf hb

theorem mutable_alive (hm : m.Sound s trust time transit) (hr : trust.room)
    (hh : ∃ f ∈ m.frames, h ∈ f.holding.mutables) : ∃ c, m.arena.look h = some c := by
  obtain ⟨f, hf, hh⟩ := hh
  exact (hm.custody.custody hr).alive f.holding (List.mem_map_of_mem hf) h hh

theorem borrow_exclusive (hm : m.Sound s trust time transit) (hr : trust.room)
    (hb : ∃ f ∈ m.frames, f.borrow = some h) :
    ∃ c, m.arena.look h = some c ∧ c.exclusive = true := by
  obtain ⟨f, hf, hfh⟩ := hb
  exact (hm.custody.custody hr).borrows f.holding (List.mem_map_of_mem hf) h hfh

/-- Any access to a cell begins by finding it. -/
theorem readArena_cell {k : Arena → Cell → Except Fault α} {R : α → Prop}
    (halive : trust.natives → ∃ c, m.arena.look h = some c)
    (hok : ∀ c a, m.arena.look h = some c → k m.arena c = .ok a → R a)
    (herr : ∀ c e, m.arena.look h = some c → k m.arena c = .error e →
      e.payload = none ∧ (trust.natives → e = Arena.conflict)) :
    Reads trust (readArena fun a => a.cell h >>= k a) m R := by
  refine Ensures.get_bind ?_
  cases hl : m.arena.look h with
  | none =>
    obtain ⟨e, he⟩ := Arena.cell_of_none hl
    dsimp only
    rw [he]
    refine Ensures.throw ⟨rfl, FaultOf.within_payload_none (Arena.cell_error_payload he), ?_⟩
    intro ht
    obtain ⟨c, hc⟩ := halive ht
    rw [hl] at hc
    cases hc
  | some c =>
    dsimp only
    rw [Arena.cell_of_look hl]
    dsimp only [bind, Except.bind]
    split
    · exact Ensures.pure ⟨rfl, hok c _ hl ‹_›⟩
    · obtain ⟨hp, he⟩ := herr c _ hl ‹_›
      refine Ensures.throw ⟨rfl, FaultOf.within_payload_none hp, fun ht f hf => ?_⟩
      cases hf
      exact he ht

theorem isBorrowed_reads (halive : trust.natives → ∃ c, m.arena.look h = some c) :
    Reads trust (readArena fun a => a.isBorrowed h) m fun _ => True :=
  readArena_cell (k := fun _ c => pure c.exclusive) halive (fun _ _ _ _ => trivial) nofun

theorem read_reads (hm : m.Sound s trust time transit)
    (halive : trust.natives → ∃ c, m.arena.look h = some c) :
    Reads trust (readArena fun a => a.read h) m (Value.Within (m.Knows trust)) := by
  refine readArena_cell (k := fun _ c => if c.exclusive then Arena.borrowFault else pure c.value)
    halive (fun c v hl hv => ?_) fun c e _ he => ?_
  · split at hv
    · cases hv
    · cases hv
      exact hm.known.cells h c hl
  · split at he
    · cases he
      exact ⟨rfl, fun _ => rfl⟩
    · cases he

theorem borrowed_reads (hm : m.Sound s trust time transit)
    (hb : ∃ f ∈ m.frames, f.borrow = some h) :
    Reads trust (readArena fun a => a.borrowed h) m (Value.Within (m.Knows trust)) := by
  refine readArena_cell (k := fun _ c => if c.exclusive then pure c.value else Arena.notBorrowed h)
    (fun ht => (borrow_exclusive hm (trust.ample ht) hb).imp fun _ => And.left) (fun c v hl hv => ?_)
    fun c e hl he => ?_
  · split at hv
    · cases hv
      exact hm.known.cells h c hl
    · cases hv
  · split at he
    · cases he
    · rename_i hx
      cases he
      refine ⟨rfl, fun ht => ?_⟩
      obtain ⟨d, hd, hxd⟩ := borrow_exclusive hm (trust.ample ht) hb
      cases hl.symm.trans hd
      exact absurd hxd hx

theorem readVariable_reads (hm : m.Sound s trust time transit) (name : Text) :
    Reads trust (readVariable name) m (Value.Within (m.Knows trust)) := by
  have hcell : ∀ h : CellHandle, (trust.natives → ∃ c, m.arena.look h = some c) →
      Reads trust (do
        if ← readArena fun a => a.isBorrowed h then borrowedVariable name
        else readArena fun a => a.read h) m (Value.Within (m.Knows trust)) := by
    intro h halive
    refine (isBorrowed_reads halive).bind fun b _ => ?_
    split
    · exact Reads.fail (FaultOf.within_payload_none rfl)
    · exact read_reads hm halive
  refine (findBinding_reads hm name).bind fun b hb => ?_
  split
  · exact Reads.fail (FaultOf.within_payload_none rfl)
  · exact Reads.pure (hb _ rfl)
  · exact hcell _ fun ht => mutable_alive hm (trust.ample ht) (hb _ rfl)
  · exact hcell _ fun ht => ((hb _ rfl : m.Knows trust _).pinned ht).imp fun _ hc => hc.1
  · exact borrowed_reads hm (hb _ rfl)

theorem readArena_run {f : Arena → Except Fault α} {a : α} (hf : f m.arena = .ok a) :
    readArena f m = .ok a m := by
  have hget : (get : Exec Machine) m = .ok m m := rfl
  unfold readArena
  rw [run_bind hget, hf]
  rfl

theorem onArena_run {f : Arena → Except Fault Arena} {a : Arena} (hf : f m.arena = .ok a) :
    onArena f m = .ok ⟨⟩ { m with arena := a } :=
  run_bind (readArena_run hf)

theorem setValue_sound {c : Cell} (hm : m.Sound s trust time transit)
    (hl : m.arena.look h = some c) (hv : v.Within (m.Knows trust)) :
    m.Later trust { m with arena := m.arena.setCell h.index.toNat { c with value := v } } ∧
      ({ m with arena := m.arena.setCell h.index.toNat { c with value := v } } : Machine).Sound s trust time
        transit := by
  obtain ⟨ho, -⟩ := (Arena.look_eq_some.1 hl).2
  obtain ⟨hlater, hknown⟩ := hm.known.setCell (d := { c with value := v }) hl ho rfl id hv
  refine ⟨hlater, hm.custody.same (fun ha => Arena.wellFormed_setCell ha hl ho) fun k => ?_, hknown⟩
  rw [Arena.look_setCell (d := { c with value := v }) hl ho rfl]
  split
  · rename_i he
    rw [he, hl]
    rfl
  · rfl

theorem onArena_keeps {k : Arena → Cell → Except Fault Arena} (hm : m.Sound s trust time transit)
    (halive : trust.natives → ∃ c, m.arena.look h = some c) (hv : v.Within (m.Knows trust))
    (hok : ∀ c a, m.arena.look h = some c → k m.arena c = .ok a →
      a = m.arena.setCell h.index.toNat { c with value := v })
    (herr : ∀ c e, m.arena.look h = some c → k m.arena c = .error e →
      e.payload = none ∧ (trust.natives → e = Arena.conflict)) :
    Keeps s trust time transit (onArena fun a => a.cell h >>= k a) m fun _ _ => True := by
  refine Safe.read (R := fun a => ∃ c, m.arena.look h = some c ∧
    a = m.arena.setCell h.index.toNat { c with value := v }) hm ?_ fun a ha => ?_
  · exact readArena_cell halive (fun c a hl ha => ⟨c, hl, hok c a hl ha⟩) herr
  · obtain ⟨c, hl, rfl⟩ := ha
    obtain ⟨hlater, hsound⟩ := setValue_sound hm hl hv
    exact Safe.change hsound hlater trivial

theorem write_keeps (hm : m.Sound s trust time transit)
    (halive : trust.natives → ∃ c, m.arena.look h = some c) (hv : v.Within (m.Knows trust)) :
    Keeps s trust time transit (onArena fun a => a.write h v) m fun _ _ => True := by
  refine onArena_keeps (k := fun a c =>
    if c.exclusive then Arena.borrowFault else pure (a.setCell h.index.toNat { c with value := v })) hm
    halive hv (fun c a _ ha => ?_) fun c e _ he => ?_
  · split at ha
    · cases ha
    · cases ha
      rfl
  · split at he
    · cases he
      exact ⟨rfl, fun _ => rfl⟩
    · cases he

theorem setBorrowed_keeps (hm : m.Sound s trust time transit)
    (hb : ∃ f ∈ m.frames, f.borrow = some h) (hv : v.Within (m.Knows trust)) :
    Keeps s trust time transit (onArena fun a => a.setBorrowed h v) m fun _ _ => True := by
  refine onArena_keeps (k := fun a c =>
    if c.exclusive then pure (a.setCell h.index.toNat { c with value := v }) else Arena.notBorrowed h) hm
    (fun ht => (borrow_exclusive hm (trust.ample ht) hb).imp fun _ => And.left) hv (fun c a _ ha => ?_)
    fun c e hl he => ?_
  · split at ha
    · cases ha
      rfl
    · cases ha
  · split at he
    · cases he
    · rename_i hx
      cases he
      refine ⟨rfl, fun ht => ?_⟩
      obtain ⟨d, hd, hxd⟩ := borrow_exclusive hm (trust.ample ht) hb
      cases hl.symm.trans hd
      exact absurd hxd hx

theorem assignVariable_keeps (hm : m.Sound s trust time transit) (name : Text)
    (hv : v.Within (m.Knows trust)) :
    Keeps s trust time transit (assignVariable name v) m fun _ _ => True := by
  have hcell : ∀ h : CellHandle, (trust.natives → ∃ c, m.arena.look h = some c) →
      Keeps s trust time transit (do
        if ← readArena fun a => a.isBorrowed h then borrowedVariable name
        else onArena fun a => a.write h v) m fun _ _ => True := by
    intro h halive
    refine Safe.read hm (isBorrowed_reads halive) fun b _ => ?_
    split
    · exact Safe.fail hm (FaultOf.within_payload_none rfl)
    · exact write_keeps hm halive hv
  refine Safe.read hm (findBinding_reads hm name) fun b hb => ?_
  split
  · exact Safe.fail hm (FaultOf.within_payload_none rfl)
  · exact Safe.fail hm (FaultOf.within_payload_none rfl)
  · exact hcell _ fun ht => mutable_alive hm (trust.ample ht) (hb _ rfl)
  · exact hcell _ fun ht => ((hb _ rfl : m.Knows trust _).pinned ht).imp fun _ hc => hc.1
  · exact setBorrowed_keeps hm (hb _ rfl) hv

theorem unbind_within {G : SharedCell → Prop} {run : Nat} (hf : f.Within G run) :
    (f.unbind name).Within G run :=
  ⟨hf.registers, fun e he => hf.bindings e (List.mem_of_mem_filter he), hf.loop⟩

theorem bind_within {G : SharedCell → Prop} {run : Nat} {b : Binding} (hf : f.Within G run)
    (hb : b.Within G run) : (f.bind name b).Within G run :=
  ⟨hf.registers, List.forall_mem_cons.2 ⟨hb, (unbind_within hf).bindings⟩, hf.loop⟩

/-- The variable of a name is gone, with its cell if it had one of its own. -/
theorem dropBinding_keeps (hm : m.Sound s trust time transit) (name : Text) :
    Keeps s trust time transit (dropBinding s name) m fun _ m' =>
      m'.frames ≠ [] ∧ m'.arena.live ≤ m.arena.live := by
  refine Safe.read hm top_reads fun f hf => ?_
  obtain ⟨rest, hf⟩ := hf
  have hw := hm.within_top hf
  have hplain : Keeps s trust time transit (modifyTop fun f => f.unbind name) m fun _ m' =>
      m'.frames ≠ [] ∧ m'.arena.live ≤ m.arena.live := by
    refine modifyTop_safe hf (.of_eq rfl rfl) ?_ ⟨List.cons_ne_nil _ _, Nat.le_refl _⟩
    exact hm.retop hf ((hm.custody_cons hf).unbind name) (unbind_within hw)
  split
  · rename_i h hl
    cases hk : s.options.keepCells with
    | true =>
      have hsame : m.discard s h = m := by simp [Machine.discard, hk]
      refine Safe.change_bind ?_ ?_
      · rw [hsame]
        exact .refl m
      · rw [hsame]
        exact hplain
    | false =>
      have hdrop : m.discard s h = { m with arena := m.arena.discard h } := by
        simp [Machine.discard, hk]
      obtain ⟨hlater, hknown⟩ :=
        hm.known.remains (Arena.Remains.discards m.arena [h])
      refine Safe.change_bind ?_ ?_
      · rw [hdrop]
        exact hlater
      rw [hdrop]
      refine modifyTop_safe hf (.of_eq rfl rfl) ⟨?_, ?_⟩
        ⟨List.cons_ne_nil _ _, Arena.live_discard_le _ _⟩
      · have hc := hm.custody_cons hf
        rw [hk] at hc ⊢
        exact hc.drop hl
      · exact hknown.retop hf (unbind_within (hlater.frame hw))
  · exact hplain

theorem bindTop_keeps {otherwise : List CellHandle} {b : Binding}
    (hm : m.Sound s trust time transit) (name : Text) (hmutable : b.mutable? = none)
    (hreceiver : ∀ h, b.receiver? = some h → ∃ f ∈ m.frames, f.borrow = some h)
    (hb : b.Within (m.Knows trust) m.runId) :
    Safe s trust time (fun _ => transit) otherwise (modifyTop fun f => f.bind name b) m
      fun _ _ => True := by
  cases hf : m.frames with
  | nil =>
    refine modifyTop_keeps hm fun f h => ?_
    rw [hf] at h
    cases h
  | cons f rest =>
    refine modifyTop_safe hf (.of_eq rfl rfl) (hm.retop hf ?_ ?_) trivial
    · refine (hm.custody_cons hf).bind name hmutable fun h hh => ?_
      obtain ⟨g, hg, hgh⟩ := hreceiver h hh
      rw [hf] at hg
      exact ⟨g.holding, List.mem_map_of_mem (f := Frame.holding) hg, hgh⟩
    · exact bind_within (hm.within_top hf) hb

theorem bindLet_keeps (hm : m.Sound s trust time transit) (name : Text)
    (hv : v.Within (m.Knows trust)) :
    Keeps s trust time transit (bindLet s name v) m fun _ _ => True := by
  refine (dropBinding_keeps hm name).bind fun _ m' hm' hl _ => ?_
  exact bindTop_keeps hm' name rfl nofun (hl.value hv)

theorem bindMut_keeps (hm : m.Sound s trust time []) (hroom : trust.room → m.arena.Roomy) (name : Text)
    (hv : v.Within (m.Knows trust)) :
    Keeps s trust time [] (bindMut s name v) m fun _ _ => True := by
  refine (dropBinding_keeps hm name).bind fun _ m' hm' hl hdropped => Safe.get_bind ?_
  obtain ⟨f, rest, hf⟩ := List.exists_cons_of_ne_nil hdropped.1
  have hroom' : trust.room → m'.arena.Roomy := fun hr => Nat.lt_of_le_of_lt hdropped.2 (hroom hr)
  obtain ⟨hlater, hknown⟩ := hm'.known.allocate (fun hr => ⟨(hm'.custody.custody hr).arena, hroom' hr⟩)
    (hl.value hv)
  have hcustody := (hm'.custody_cons hf).declare hroom' name v
  split
  rename_i h arena heq
  rw [heq] at hlater hknown hcustody
  refine Safe.change_bind hlater ?_
  refine modifyTop_safe hf (.of_eq rfl rfl) ⟨hcustody, hknown.retop hf ?_⟩ trivial
  have hw := hlater.frame (hm'.within_top hf)
  exact ⟨hw.registers, (bind_within (b := .cell h) hw trivial).bindings, hw.loop⟩

theorem bindParams_keeps (hm : m.Sound s trust time transit) (names : List Text) {args : List Value}
    (hargs : ∀ v ∈ args, v.Within (m.Knows trust)) :
    Keeps s trust time transit (bindParams s names args) m fun _ _ => True := by
  induction names generalizing m args with
  | nil => exact Safe.pure hm trivial
  | cons name names ih =>
    have hhead : (args.headD .none).Within (m.Knows trust) := by
      cases args with
      | nil => exact Value.within_none
      | cons v vs => exact hargs v List.mem_cons_self
    refine (bindLet_keeps hm name hhead).bind fun _ m' hm' hl _ => ih hm' fun v hv => ?_
    exact hl.value (hargs v (List.mem_of_mem_tail hv))

/-- A cell that is shared with a closure stays for the rest of the run. -/
theorem pin_keeps (hm : m.Sound s trust time [])
    (halive : trust.natives → ∃ c, m.arena.look h = some c) :
    Keeps s trust time [] (pin h) m fun _ m' =>
      ∃ c, m'.arena.look h = some c ∧ c.pinned = true := by
  refine Safe.read hm (readArena_cell (k := fun _ c => pure c.pinned)
    (R := fun b => ∃ c, m.arena.look h = some c ∧ c.pinned = b) halive ?_ nofun) fun b hb => ?_
  · intro c b hl hb
    cases hb
    exact ⟨c, hl, rfl⟩
  obtain ⟨c, hl, hp⟩ := hb
  split
  · subst b
    exact Safe.pure hm ⟨c, hl, ‹_›⟩
  · obtain ⟨ho, -⟩ := (Arena.look_eq_some.1 hl).2
    obtain ⟨hlater, hknown⟩ :=
      hm.known.setCell (d := { c with pinned := true }) hl ho rfl (fun _ => rfl)
        (hm.known.cells h c hl)
    refine Ensures.run (onArena_run (Arena.pin_of_look hl))
      (Ensures.change ⟨⟨hm.custody.pin hl, ?_⟩, ⟨rfl, hlater.pinned⟩, ?_⟩)
    · exact hknown.change (.of_eq rfl rfl) rfl rfl rfl rfl hknown.frames hknown.cells
    · have hnew := Arena.look_setCell (d := { c with pinned := true }) hl ho rfl h
      rw [if_pos rfl] at hnew
      exact ⟨_, hnew, rfl⟩

end Exec

end ScriptMachine
