import ScriptMachine.Proofs.Machine.Mirroring
import ScriptMachine.Proofs.Machine.Sessions

set_option autoImplicit false

/-!
# Actions that mimic one another

Two actions mimic one another if they lead from machines that mirror one another to such machines,
with corresponding answers and faults. Of the faults that an arena reports only conflicts of borrows
are compared, since the others name cells.
-/
namespace ScriptMachine

namespace Exec

variable {ρ : Renaming} {old old' : List Text} {s : Setup} {α β γ δ : Type}

def Agree (s : Setup) (ρ : Renaming) (old old' : List Text) (R : α → β → Prop)
    (r : EStateM.Result Trap Machine α) (r' : EStateM.Result Trap Machine β) : Prop :=
  match r with
  | .ok a t => ∃ b t', r' = .ok b t' ∧ R a b ∧ t.Mirrors s ρ old old' t'
  | .error e t => e.Tame → ∃ t', r' = .error (ρ.trap e) t' ∧ t.Mirrors s ρ old old' t'

def Mimics (s : Setup) (ρ : Renaming) (old old' : List Text) (R : α → β → Prop) (x : Exec α)
    (x' : Exec β) : Prop :=
  ∀ m m', m.Mirrors s ρ old old' m' → Agree s ρ old old' R (x m) (x' m')

abbrev Maps (s : Setup) (ρ : Renaming) (old old' : List Text) (g : α → β) (x : Exec α) (x' : Exec β) : Prop :=
  Mimics s ρ old old' (fun a b => b = g a) x x'

abbrev Repeats (s : Setup) (ρ : Renaming) (old old' : List Text) (x x' : Exec Unit) : Prop :=
  Mimics s ρ old old' (fun _ _ => True) x x'

theorem Agree.bind {R : α → β → Prop} {S : γ → δ → Prop} {x : Exec α} {x' : Exec β} {f : α → Exec γ}
    {f' : β → Exec δ} {m m' : Machine} (hx : Agree s ρ old old' R (x m) (x' m'))
    (hf : ∀ a b t t', x' m' = .ok b t' → R a b → t.Mirrors s ρ old old' t' →
      Agree s ρ old old' S (f a t) (f' b t')) :
    Agree s ρ old old' S ((x >>= f) m) ((x' >>= f') m') := by
  cases hr : x m with
  | ok a t =>
    rw [hr] at hx
    obtain ⟨b, t', hr', hab, ht⟩ := hx
    rw [run_bind hr, run_bind hr']
    exact hf a b t t' hr' hab ht
  | error e t =>
    rw [hr] at hx
    simp only [Bind.bind, EStateM.bind, hr]
    intro he
    obtain ⟨t', hr', ht⟩ := hx he
    exact ⟨t', by simp only [hr'], ht⟩

namespace Mimics

variable {R : α → β → Prop} {S : γ → δ → Prop} {x : Exec α} {x' : Exec β} {f : α → Exec γ}
  {f' : β → Exec δ}

theorem pure {a : α} {b : β} (h : R a b) : Mimics s ρ old old' R (Pure.pure a) (Pure.pure b) :=
  fun _ m' hm => ⟨b, m', rfl, h, hm⟩

theorem fail (e : Fault) : Mimics s ρ old old' R (Exec.fail e) (Exec.fail (ρ.fault e)) :=
  fun _ m' hm _ => ⟨m', rfl, hm⟩

theorem fail_plain {e : Fault} (h : e.payload = none) :
    Mimics s ρ old old' R (Exec.fail e) (Exec.fail e) := by
  have hfail : Mimics s ρ old old' R (Exec.fail e) (Exec.fail (ρ.fault e)) := fail e
  rwa [Renaming.fault_of_payload_none h] at hfail

theorem bind (hx : Mimics s ρ old old' R x x')
    (hf : ∀ a b, R a b → Mimics s ρ old old' S (f a) (f' b)) :
    Mimics s ρ old old' S (x >>= f) (x' >>= f') :=
  fun m m' hm => (hx m m' hm).bind fun a b t t' _ hab ht => hf a b hab t t' ht

theorem map_bind {g : α → β} (hx : Maps s ρ old old' g x x')
    (hf : ∀ a, Mimics s ρ old old' S (f a) (f' (g a))) : Mimics s ρ old old' S (x >>= f) (x' >>= f') :=
  hx.bind fun a b hb => by
    rw [hb]
    exact hf a

theorem get_bind {f : Machine → Exec γ} {f' : Machine → Exec δ}
    (hf : ∀ m m', m.Mirrors s ρ old old' m' → Mimics s ρ old old' S (f m) (f' m')) :
    Mimics s ρ old old' S (get >>= f) (get >>= f') :=
  fun m m' hm => hf m m' hm m m' hm

theorem modify {h h' : Machine → Machine}
    (hh : ∀ m m', m.Mirrors s ρ old old' m' → (h m).Mirrors s ρ old old' (h' m')) :
    Repeats s ρ old old' (modify h) (modify h') := fun m m' hm => ⟨(), h' m', rfl, trivial, hh m m' hm⟩

theorem imp {R' : α → β → Prop} (hx : Mimics s ρ old old' R x x') (h : ∀ a b, R a b → R' a b) :
    Mimics s ρ old old' R' x x' := by
  intro m m' hm
  have hfirst := hx m m' hm
  cases hr : x m with
  | ok a t =>
    rw [hr] at hfirst
    obtain ⟨b, t', hr', hab, ht⟩ := hfirst
    exact ⟨b, t', hr', h a b hab, ht⟩
  | error e t =>
    rw [hr] at hfirst
    exact hfirst

theorem map {h : α → γ} {h' : β → δ} (hx : Mimics s ρ old old' R x x')
    (hh : ∀ a b, R a b → S (h a) (h' b)) : Mimics s ρ old old' S (h <$> x) (h' <$> x') := by
  have hbind : Mimics s ρ old old' S (x >>= fun a => Pure.pure (h a))
      (x' >>= fun b => Pure.pure (h' b)) := hx.bind fun a b hab => pure (hh a b hab)
  exact hbind

theorem lift {g : α → β} {r : Except Fault α} {r' : Except Fault β} (h : r' = ρ.result g r) :
    Maps s ρ old old' g (Exec.lift r) (Exec.lift r') := by
  subst h
  cases r with
  | ok a => exact pure rfl
  | error e => exact fail e

theorem ite {c : Prop} [Decidable c] {y : Exec α} {y' : Exec β} (hx : Mimics s ρ old old' R x x')
    (hy : Mimics s ρ old old' R y y') :
    Mimics s ρ old old' R (if c then x else y) (if c then x' else y') := by
  split
  · exact hx
  · exact hy

theorem readArena {f : Arena → Except Fault α} {f' : Arena → Except Fault β}
    (h : ∀ a a' : Arena, a.Mirrors ρ a' → Echoes R (f a) (f' a')) :
    Mimics s ρ old old' R (Exec.readArena f) (Exec.readArena f') := by
  refine get_bind fun m m' hm => ?_
  have hecho := h _ _ hm.arena
  cases hr : f m.arena with
  | ok a =>
    rw [hr] at hecho
    obtain ⟨b, hr', hab⟩ := hecho
    rw [hr']
    exact pure hab
  | error e =>
    rw [hr] at hecho
    intro t t' ht htame
    have he := htame e rfl
    rw [hecho he]
    exact ⟨t', by rw [he]; rfl, ht⟩

end Mimics

def Makes (s : Setup) (ρ : Renaming) (old old' : List Text) (R : α → β → Prop) (x : Exec α)
    (x' : Exec β) : Prop :=
  ∀ m m', m.Mirrors s ρ old old' m' → m'.arena.Ample → Agree s ρ old old' R (x m) (x' m')

def Spares (x : Exec α) : Prop :=
  ∀ m, m.arena.Ample → Ensures x m (fun _ t => t.arena.Ample) fun _ _ => True

theorem Mimics.makes {R : α → β → Prop} {x : Exec α} {x' : Exec β} (hx : Mimics s ρ old old' R x x') :
    Makes s ρ old old' R x x' := fun m m' hm _ => hx m m' hm

namespace Makes

variable {R : α → β → Prop} {S : γ → δ → Prop} {x : Exec α} {x' : Exec β} {f : α → Exec γ}
  {f' : β → Exec δ}

theorem bind (hx : Makes s ρ old old' R x x') (hf : ∀ a b, R a b → Mimics s ρ old old' S (f a) (f' b)) :
    Makes s ρ old old' S (x >>= f) (x' >>= f') :=
  fun m m' hm hample => (hx m m' hm hample).bind fun a b t t' _ hab ht => hf a b hab t t' ht

theorem after (hx : Mimics s ρ old old' R x x') (hspares : Spares x')
    (hf : ∀ a b, R a b → Makes s ρ old old' S (f a) (f' b)) :
    Makes s ρ old old' S (x >>= f) (x' >>= f') :=
  fun m m' hm hample => (hx m m' hm).bind fun a b t t' hr hab ht =>
    hf a b hab t t' ht ((hspares m' hample).of_ok hr)

theorem get_bind {f : Machine → Exec γ} {f' : Machine → Exec δ}
    (hf : ∀ m m', m.Mirrors s ρ old old' m' → m'.arena.Ample → Mimics s ρ old old' S (f m) (f' m')) :
    Makes s ρ old old' S (get >>= f) (get >>= f') :=
  fun m m' hm hample => hf m m' hm hample m m' hm

end Makes

namespace Spares

theorem pure (a : α) : Spares (Pure.pure a : Exec α) := fun _ hm => hm

theorem fail (e : Fault) : Spares (Exec.fail e : Exec α) := fun _ _ => trivial

theorem bind {x : Exec α} {f : α → Exec β} (hx : Spares x) (hf : ∀ a, Spares (f a)) : Spares (x >>= f) :=
  fun m hm => (hx m hm).bind fun a t ht => hf a t ht

theorem get_bind {f : Machine → Exec β} (hf : ∀ m, Spares (f m)) : Spares (get >>= f) :=
  fun m hm => Ensures.get_bind (hf m m hm)

theorem change {g : Machine → Machine} (hg : ∀ m, m.arena.Ample → (g m).arena.Ample) : Spares (modify g) :=
  fun m hm => hg m hm

theorem lift (r : Except Fault α) : Spares (Exec.lift r) := by
  cases r with
  | ok a => exact pure a
  | error e => exact fail e

theorem top : Spares Exec.top := by
  refine get_bind fun m => ?_
  split
  · exact pure _
  · exact fail _

theorem modifyTop (g : Frame → Frame) : Spares (Exec.modifyTop g) := by
  refine change fun m hm => ?_
  split
  · exact hm
  · exact hm

theorem readRegister (f : Frame) (r : Register) : Spares (Exec.readRegister s f r) := by
  unfold Exec.readRegister
  split
  · exact pure _
  · exact (lift _).bind fun _ => fail _

theorem readRegisters (f : Frame) (rs : List Register) : Spares (Exec.readRegisters s f rs) := by
  unfold Exec.readRegisters
  induction rs with
  | nil => exact pure _
  | cons r rs ih =>
    rw [List.mapM_cons]
    exact (readRegister f r).bind fun _ => ih.bind fun _ => pure _

theorem findBinding (name : Text) : Spares (Exec.findBinding name) := get_bind fun _ => pure _

theorem dropBinding (name : Text) : Spares (Exec.dropBinding s name) := by
  refine top.bind fun f => ?_
  split
  · refine (change fun m hm => ?_).bind fun _ => modifyTop _
    unfold Machine.discard
    split
    · exact hm
    · exact hm.discard _
  · exact modifyTop _

end Spares

theorem setArena_repeats {a a' : Arena} (h : a.Mirrors ρ a') :
    Repeats s ρ old old' (modify fun m => { m with arena := a }) (modify fun m => { m with arena := a' }) :=
  .modify fun _ _ hm => { hm with arena := h }

theorem onArena_repeats {f f' : Arena → Except Fault Arena}
    (h : ∀ a a' : Arena, a.Mirrors ρ a' → Echoes (Arena.Mirrors ρ) (f a) (f' a')) :
    Repeats s ρ old old' (onArena f) (onArena f') :=
  (Mimics.readArena h).bind fun _ _ ha => setArena_repeats ha

theorem top_maps : Maps s ρ old old' ρ.frame top top := by
  refine .get_bind fun m m' hm => ?_
  rw [hm.frames]
  cases m.frames with
  | nil => exact .fail_plain rfl
  | cons f rest => exact .pure rfl

theorem modifyTop_repeats {g g' : Frame → Frame} (h : ∀ f, g' (ρ.frame f) = ρ.frame (g f)) :
    Repeats s ρ old old' (modifyTop g) (modifyTop g') := by
  refine .modify fun m m' hm => ?_
  have hf := hm.frames
  cases hm' : m.frames with
  | nil =>
    rw [hm', List.map_nil] at hf
    rw [hf]
    exact hm
  | cons f rest =>
    rw [hm', List.map_cons] at hf
    rw [hf]
    exact { hm with frames := by simp [h] }

theorem modifyHost_repeats {g g' : Host → Host}
    (h : ∀ x x', Host.Mirrors ρ old old' x x' → Host.Mirrors ρ old old' (g x) (g' x')) :
    Repeats s ρ old old' (modifyHost g) (modifyHost g') :=
  .modify fun _ _ hm => { hm with host := h _ _ hm.host }

theorem freshId_maps : Maps s ρ old old' ρ.number freshId freshId := by
  refine .get_bind fun m m' hm => ?_
  have hnumbers := hm.host.numbers
  have hhost : Host.Mirrors ρ old old' m.host.freshId.2 m'.host.freshId.2 := by
    refine ⟨fun k => ?_, Nat.le_succ_of_le hm.host.dated, hm.host.output⟩
    have hk := hnumbers (k + 1)
    simpa [Host.freshId, Nat.add_assoc, Nat.add_comm 1] using hk
  refine Mimics.bind (R := fun _ _ => True) (.modify fun _ _ ht => { ht with host := hhost })
    fun _ _ _ => .pure ?_
  exact (hnumbers 0).symm

theorem topIndex_maps : Maps s ρ old old' (fun n => n) topIndex topIndex := by
  refine .get_bind fun m m' hm => ?_
  rw [hm.frames, List.length_map]
  exact .pure rfl

theorem liftScope_maps (target : Target) :
    Maps s ρ old old' (fun scope => scope) (lift (s.program.scope target))
      (lift (s.program.scope target)) := by
  refine .lift ?_
  cases h : s.program.scope target with
  | ok scope => rfl
  | error e => exact congrArg Except.error (Renaming.fault_of_payload_none (scope_payload h)).symm

theorem outOfRange_mimics {R : α → β → Prop} (f : Frame) (r : Register) :
    Mimics s ρ old old' R (outOfRange s f r) (outOfRange s (ρ.frame f) r) :=
  (liftScope_maps (some f.scope)).map_bind fun _ => .fail_plain rfl

theorem readRegister_maps (f : Frame) (r : Register) :
    Maps s ρ old old' ρ.value (readRegister s f r) (readRegister s (ρ.frame f) r) := by
  unfold readRegister
  rw [Renaming.frame_registers, Array.getElem?_map]
  cases f.registers[r]? with
  | some v => exact .pure rfl
  | none => exact outOfRange_mimics f r

theorem readRegisters_maps (f : Frame) (rs : List Register) :
    Maps s ρ old old' (List.map ρ.value) (readRegisters s f rs) (readRegisters s (ρ.frame f) rs) := by
  unfold readRegisters
  induction rs with
  | nil => exact .pure rfl
  | cons r rs ih =>
    rw [List.mapM_cons, List.mapM_cons]
    exact (readRegister_maps f r).map_bind fun v => ih.map_bind fun vs => .pure rfl

theorem writeRegister_repeats (r : Register) (v : Value) :
    Repeats s ρ old old' (writeRegister s r v) (writeRegister s r (ρ.value v)) := by
  refine top_maps.map_bind fun f => .ite (.fail_plain rfl) ?_
  rw [Renaming.frame_registers, Array.size_map]
  refine .ite (modifyTop_repeats fun f => ?_) (outOfRange_mimics f r)
  simp [Renaming.frame, Array.map_setIfInBounds]

theorem deliver_repeats (v : Value) (out : Register) :
    Repeats s ρ old old' (deliver s v out) (deliver s (ρ.value v) out) := by
  refine .get_bind fun m m' hm => ?_
  rw [hm.frames]
  cases m.frames with
  | nil => exact .modify fun _ _ ht => { ht with result := rfl }
  | cons f rest => exact writeRegister_repeats out v

theorem rootFrame_maps : Maps s ρ old old' (fun i => i) rootFrame rootFrame := by
  refine .get_bind fun m m' hm => ?_
  rw [hm.frames, List.getLast?_map]
  cases m.frames.getLast? with
  | none => exact .pure rfl
  | some f =>
    simp only [Option.map_some, Renaming.frame_scope]
    exact .pure rfl

@[simp] theorem freshRegisters_map (scope : Scope) :
    (Frame.freshRegisters scope).map ρ.value = Frame.freshRegisters scope := by
  simp [Frame.freshRegisters, Array.map_setIfInBounds]

theorem pushFrame_repeats (target : Target) (parent : Option Nat) (out : Register) :
    Repeats s ρ old old' (pushFrame s target parent out) (pushFrame s target parent out) := by
  refine .get_bind fun m m' hm => ?_
  rw [hm.frames, List.length_map]
  refine .ite (.fail_plain rfl) ((liftScope_maps target).map_bind fun scope => ?_)
  refine .modify fun t t' ht => { ht with frames := ?_ }
  simp [ht.frames, Renaming.frame]

end Exec

namespace Arena.Mirrors

variable {ρ : Renaming} {a a' : Arena}

theorem discards (hm : Mirrors ρ a a') (hs : List CellHandle) (hi : ∀ h ∈ hs, h.index.toNat < ρ.limit) :
    Mirrors ρ (hs.foldl Arena.discard a) ((hs.map ρ.handle).foldl Arena.discard a') := by
  induction hs generalizing a a' with
  | nil => exact hm
  | cons h hs ih =>
    obtain ⟨hh, hrest⟩ := List.forall_mem_cons.1 hi
    exact ih (hm.discard hh) hrest

theorem unborrowed (hm : Mirrors ρ a a') (borrow : Option CellHandle) :
    Mirrors ρ (Custody.unborrowed a borrow) (Custody.unborrowed a' (borrow.map ρ.handle)) := by
  cases borrow with
  | none => exact hm
  | some h => exact hm.endBorrow h

end Arena.Mirrors

namespace Machine.Mirrors

variable {ρ : Renaming} {old old' : List Text} {s : Setup} {m m' : Machine}

theorem covers (hm : m.Mirrors s ρ old old' m') (hkeep : s.options.keepCells = false) (h : CellHandle) :
    h.index.toNat < ρ.limit := by
  rw [hm.whole hkeep]
  exact h.index.toNat_lt

theorem discard (hm : m.Mirrors s ρ old old' m') (h : CellHandle) :
    (m.discard s h).Mirrors s ρ old old' (m'.discard s (ρ.handle h)) := by
  unfold Machine.discard
  split
  · exact hm
  · exact { hm with arena := hm.arena.discard (hm.covers (Bool.eq_false_iff.2 ‹_›) h) }

theorem discards {a a' : Arena} (hm : m.Mirrors s ρ old old' m') (ha : a.Mirrors ρ a') (hs : List CellHandle) :
    (Custody.discards s.options.keepCells a hs).Mirrors ρ
      (Custody.discards s.options.keepCells a' (hs.map ρ.handle)) := by
  unfold Custody.discards
  split
  · exact ha
  · exact ha.discards hs fun h _ => hm.covers (Bool.eq_false_iff.2 ‹_›) h

theorem discardAll (hm : m.Mirrors s ρ old old' m') (hs : List CellHandle) :
    (m.discardAll s hs).Mirrors s ρ old old' (m'.discardAll s (hs.map ρ.handle)) := by
  rw [discardAll_eq, discardAll_eq]
  exact { hm with arena := hm.discards hm.arena hs }

theorem popFrame (hm : m.Mirrors s ρ old old' m') :
    (m.popFrame s).Mirrors s ρ old old' (m'.popFrame s) := by
  have hf := hm.frames
  cases hm' : m.frames with
  | nil =>
    rw [hm', List.map_nil] at hf
    simpa only [Machine.popFrame, hf, hm'] using hm
  | cons f rest =>
    rw [hm', List.map_cons] at hf
    rw [popFrame_eq hm', popFrame_eq hf]
    exact { hm with
      arena := hm.discards (hm.arena.unborrowed f.borrow) f.owned
      frames := rfl }

end Machine.Mirrors

namespace Exec

variable {ρ : Renaming} {old old' : List Text} {s : Setup} {α β γ δ : Type}

theorem popFrame_repeats : Repeats s ρ old old' (popFrame s) (popFrame s) :=
  .modify fun _ _ hm => hm.popFrame

theorem resetFrame_repeats : Repeats s ρ old old' (resetFrame s) (resetFrame s) := by
  refine top_maps.map_bind fun f => (liftScope_maps (some f.scope)).map_bind fun scope => ?_
  refine Mimics.bind (.modify fun _ _ hm => hm.discardAll f.owned) fun _ _ _ => ?_
  exact modifyTop_repeats fun f => by simp [Renaming.frame]

theorem lookup_bindings (name : Text) (bs : List (Text × Binding)) :
    (bs.map fun e => (e.1, ρ.binding e.2)).lookup name = (bs.lookup name).map ρ.binding := by
  induction bs with
  | nil => rfl
  | cons e bs ih =>
    obtain ⟨n, b⟩ := e
    simp only [List.map_cons, List.lookup_cons]
    split
    · rfl
    · exact ih

theorem findIn_frames (name : Text) (target : Option Nat) (fs : List Frame) :
    findIn name target (fs.map ρ.frame) = (findIn name target fs).map ρ.binding := by
  induction fs generalizing target with
  | nil => rfl
  | cons f fs ih =>
    simp only [List.map_cons, findIn, List.length_map, Renaming.frame_bindings, lookup_bindings,
      Renaming.frame_parent]
    split
    · cases f.bindings.lookup name with
      | some b => rfl
      | none => exact ih f.parent
    · exact ih target

theorem findBinding_maps (name : Text) :
    Maps s ρ old old' (Option.map ρ.binding) (findBinding name) (findBinding name) := by
  refine .get_bind fun m m' hm => .pure ?_
  rw [hm.frames, List.length_map, findIn_frames]

theorem borrowedVariable_mimics {R : α → β → Prop} (name : Text) :
    Mimics s ρ old old' R (borrowedVariable name) (borrowedVariable name) := .fail_plain rfl

theorem isBorrowed_maps (h : CellHandle) :
    Maps s ρ old old' (fun b => b) (readArena fun a => a.isBorrowed h)
      (readArena fun a => a.isBorrowed (ρ.handle h)) :=
  (Mimics.readArena fun _ _ ha => ha.isBorrowed h).imp fun _ _ hb => hb.symm

theorem borrowed_maps (h : CellHandle) :
    Maps s ρ old old' ρ.value (readArena fun a => a.borrowed h)
      (readArena fun a => a.borrowed (ρ.handle h)) :=
  .readArena fun _ _ ha => ha.borrowed h

theorem readCell_maps (name : Text) (h : CellHandle) :
    Maps s ρ old old' ρ.value
      (do if ← readArena fun a => a.isBorrowed h then borrowedVariable name
          else readArena fun a => a.read h)
      (do if ← readArena fun a => a.isBorrowed (ρ.handle h) then borrowedVariable name
          else readArena fun a => a.read (ρ.handle h)) :=
  (isBorrowed_maps h).map_bind fun _ => .ite (borrowedVariable_mimics name)
    (.readArena fun _ _ ha => ha.read h)

theorem readVariable_maps (name : Text) :
    Maps s ρ old old' ρ.value (readVariable name) (readVariable name) := by
  refine (findBinding_maps name).map_bind fun found => ?_
  rcases found with _ | b
  · exact .fail_plain rfl
  cases b with
  | fixed v => exact .pure rfl
  | cell h => exact readCell_maps name h
  | captured h => exact readCell_maps name h
  | borrowed h => exact borrowed_maps h

theorem writeCell_repeats (name : Text) (h : CellHandle) (v : Value) :
    Repeats s ρ old old'
      (do if ← readArena fun a => a.isBorrowed h then borrowedVariable name
          else onArena fun a => a.write h v)
      (do if ← readArena fun a => a.isBorrowed (ρ.handle h) then borrowedVariable name
          else onArena fun a => a.write (ρ.handle h) (ρ.value v)) :=
  (isBorrowed_maps h).map_bind fun _ => .ite (borrowedVariable_mimics name)
    (onArena_repeats fun _ _ ha => ha.write h v)

theorem assignVariable_repeats (name : Text) (v : Value) :
    Repeats s ρ old old' (assignVariable name v) (assignVariable name (ρ.value v)) := by
  refine (findBinding_maps name).map_bind fun found => ?_
  rcases found with _ | b
  · exact .fail_plain rfl
  cases b with
  | fixed w => exact .fail_plain rfl
  | cell h => exact writeCell_repeats name h v
  | captured h => exact writeCell_repeats name h v
  | borrowed h => exact onArena_repeats fun _ _ ha => ha.setBorrowed h v

theorem unbind_frame (f : Frame) (name : Text) : (ρ.frame f).unbind name = ρ.frame (f.unbind name) := by
  simp [Frame.unbind, Renaming.frame, List.filter_map, Function.comp_def]

theorem bind_frame (f : Frame) (name : Text) (b : Binding) :
    (ρ.frame f).bind name (ρ.binding b) = ρ.frame (f.bind name b) := by
  simp [Frame.bind, Renaming.frame, List.filter_map, Function.comp_def]

theorem dropBinding_repeats (name : Text) :
    Repeats s ρ old old' (dropBinding s name) (dropBinding s name) := by
  refine top_maps.map_bind fun f => ?_
  rw [Renaming.frame_bindings, lookup_bindings]
  have hunbind : Repeats s ρ old old' (modifyTop fun f => f.unbind name)
      (modifyTop fun f => f.unbind name) := modifyTop_repeats fun f => unbind_frame f name
  rcases f.bindings.lookup name with _ | b
  · exact hunbind
  cases b with
  | cell h => exact Mimics.bind (.modify fun _ _ hm => hm.discard h) fun _ _ _ => hunbind
  | _ => exact hunbind

theorem bindName_repeats (name : Text) (b : Binding) :
    Repeats s ρ old old' (modifyTop fun f => f.bind name b)
      (modifyTop fun f => f.bind name (ρ.binding b)) :=
  modifyTop_repeats fun f => bind_frame f name b

theorem bindLet_repeats (name : Text) (v : Value) :
    Repeats s ρ old old' (bindLet s name v) (bindLet s name (ρ.value v)) :=
  (dropBinding_repeats name).bind fun _ _ _ => bindName_repeats name (.fixed v)

theorem bindMut_makes (name : Text) (v : Value) :
    Makes s ρ old old' (fun _ _ => True) (bindMut s name v) (bindMut s name (ρ.value v)) := by
  refine .after (dropBinding_repeats name) (.dropBinding name) fun _ _ _ => .get_bind fun m m' hm hample => ?_
  have hnew := hm.arena.allocate hample v
  generalize m.arena.allocate v = made at hnew ⊢
  generalize m'.arena.allocate (ρ.value v) = made' at hnew ⊢
  obtain ⟨h, a⟩ := made
  obtain ⟨h', a'⟩ := made'
  obtain ⟨rfl, -, ha⟩ := hnew
  refine (setArena_repeats ha).bind fun _ _ _ => modifyTop_repeats fun f => ?_
  have hbind := bind_frame (ρ := ρ) f name (.cell h)
  simpa [Renaming.frame, Frame.bind] using hbind

theorem bindParams_repeats (params : List Text) (args : List Value) :
    Repeats s ρ old old' (bindParams s params args) (bindParams s params (args.map ρ.value)) := by
  induction params generalizing args with
  | nil => exact .pure trivial
  | cons p params ih =>
    have hhead : (args.map ρ.value).headD .none = ρ.value (args.headD .none) := by
      cases args <;> rfl
    unfold bindParams
    rw [hhead, ← List.map_tail]
    exact (bindLet_repeats p _).bind fun _ _ _ => ih args.tail

theorem pin_repeats (h : CellHandle) : Repeats s ρ old old' (pin h) (pin (ρ.handle h)) := by
  have hpinned : Maps s ρ old old' (fun b => b) (readArena fun a => a.isPinned h)
      (readArena fun a => a.isPinned (ρ.handle h)) :=
    (Mimics.readArena fun _ _ ha => ha.isPinned h).imp fun _ _ hb => hb.symm
  refine hpinned.map_bind fun _ => .ite (.pure trivial) ?_
  refine (onArena_repeats fun _ _ ha => ha.pin h).bind fun _ _ _ => ?_
  exact .modify fun _ _ hm => { hm with pinned := by simp [hm.pinned] }

end Exec

end ScriptMachine
