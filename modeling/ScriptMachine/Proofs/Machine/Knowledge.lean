import ScriptMachine.Proofs.Machine.Lending
import ScriptMachine.Proofs.Machine.Stack
import ScriptMachine.Proofs.Value.Arguments
import ScriptMachine.Proofs.Value.Sharing

set_option autoImplicit false

/-!
# The cells that a machine knows

A value that a machine works on may share a cell with an earlier run, which nothing can use any more,
or with the run that is going on; the cell is then pinned. This is kept by everything that works on
values as long as nothing makes up closures of its own and no slot is filled that is in use. Whether
that can be relied on is a parameter: where it cannot, nothing is said about the cells that values
share.
-/
namespace ScriptMachine

/-- A cell of a run that began before the given time. -/
def Dated (time : Nat) (c : SharedCell) : Prop := c.1 < time

def Binding.Within (G : SharedCell → Prop) (run : Nat) : Binding → Prop
  | .fixed v => v.Within G
  | .captured h => G (run, h)
  | .cell _ | .borrowed _ => True

structure Frame.Within (G : SharedCell → Prop) (run : Nat) (f : Frame) : Prop where
  registers : ∀ v ∈ f.registers, v.Within G
  bindings : ∀ e ∈ f.bindings, e.2.Within G run
  loop : ∀ l ∈ f.loop, l.All (Value.Within G)

def Host.Within (G : SharedCell → Prop) (h : Host) : Prop :=
  ∀ shared ∈ h.shared, ∀ e ∈ shared.entries, e.2.Within G

section Mono

variable {G H : SharedCell → Prop} {run : Nat}

theorem Value.Within.mono {v : Value} (hv : v.Within G) (h : ∀ c, G c → H c) : v.Within H :=
  fun c hc => h c (hv c hc)

theorem FaultOf.Within.mono {f : Fault} (hf : f.Within G) (h : ∀ c, G c → H c) : f.Within H :=
  fun v hv => (hf v hv).mono h

theorem Binding.Within.mono {b : Binding} (hb : b.Within G run) (h : ∀ c, G c → H c) :
    b.Within H run := by
  cases b with
  | fixed v => exact Value.Within.mono hb h
  | captured k => exact h _ hb
  | cell k => trivial
  | borrowed k => trivial

theorem Frame.Within.mono {f : Frame} (hf : f.Within G run) (h : ∀ c, G c → H c) :
    f.Within H run :=
  ⟨fun v hv => (hf.registers v hv).mono h, fun e he => (hf.bindings e he).mono h,
    fun l hl => (hf.loop l hl).mono fun _ hv => hv.mono h⟩

theorem Host.Within.mono {x : Host} (hx : x.Within G) (h : ∀ c, G c → H c) : x.Within H :=
  fun shared hs e he => (hx shared hs e he).mono h

end Mono

structure NativeCall.Within (G : SharedCell → Prop) (c : NativeCall) : Prop where
  self : ∀ v ∈ c.self, v.Within G
  args : ∀ v ∈ c.args, v.Within G

structure NativeOutcome.Within (G : SharedCell → Prop) (o : NativeOutcome) : Prop where
  host : o.host.Within G
  self : ∀ v ∈ o.self, v.Within G
  value : ∀ v, o.result = .ok v → v.Within G
  fault : ∀ f, o.result = .error (.fault f) → f.Within G

theorem NativeOutcome.within_of_forall {G : SharedCell → Prop} (h : ∀ c, G c) {o : NativeOutcome} :
    o.Within G :=
  ⟨fun _ _ _ _ c _ => h c, fun _ _ c _ => h c, fun _ _ c _ => h c, fun _ _ _ _ c _ => h c⟩

/-- Native code makes no closures: those that it hands on it was given, or it has kept them from
before the given time. The identities that it uses up stay used. -/
structure Native.Honest (time : Nat) (code : Native) : Prop where
  within : ∀ (G : SharedCell → Prop) (c : NativeCall) (h : Host), (∀ k, Dated time k → G k) →
    c.Within G → h.Within G → (code c h).Within G
  identities : ∀ (c : NativeCall) (h : Host), h.nextId ≤ (code c h).host.nextId

structure Function.Honest (time : Nat) (f : Function) : Prop where
  defaults : ∀ p ∈ f.signature.params, ∀ v ∈ p.default, v.Within (Dated time)
  native : ∀ code, f.body = .native (some code) → code.Honest time

/-- All values and functions of a setup are of the given time or earlier. -/
structure Setup.Honest (time : Nat) (s : Setup) : Prop where
  literals : ∀ scope ∈ s.program.scopes, ∀ i ∈ scope.code, ∀ v out, i.operation = .load v out →
    v.Within (Dated time)
  closures : ∀ f ∈ s.program.closures, f.Honest time
  functions : ∀ f ∈ s.program.modules.functions, f.Honest time
  builtins : ∀ r ∈ s.builtins, ∀ f ∈ r.functions, f.Honest time

namespace Setup

variable {s : Setup} {time : Nat} {name module : Text} {v : Value} {f : Function}

/-- Where functions are looked up. -/
def functionList (s : Setup) : List Function :=
  s.program.modules.functions ++ (s.reachable.map (·.functions)).getD []

theorem Honest.of_mem (hs : s.Honest time) (hf : f ∈ s.functionList) : f.Honest time := by
  rcases List.mem_append.1 hf with hf | hf
  · exact hs.functions f hf
  · cases hr : s.reachable with
    | none => simp [hr] at hf
    | some r =>
      have hb : s.builtins = some r := by
        unfold reachable at hr
        split at hr
        · cases hr
        · exact hr
      exact hs.builtins r (by simp [hb]) f (by simpa [hr] using hf)

theorem mem_candidates {r : Registry} {accepts : Function → Bool} (hf : f ∈ r.candidates accepts) :
    f ∈ r.functions ∧ accepts f = true :=
  (List.mem_filter.1 hf).imp_left List.mem_reverse.1

theorem bestRanked_mem (p : Program) {fs : List Function} (h : p.bestRanked fs = some f) :
    f ∈ fs := by
  induction fs generalizing f with
  | nil => cases h
  | cons g fs ih =>
    unfold Program.bestRanked at h
    split at h
    · cases h
      exact List.mem_cons_self
    · split at h
      · cases h
        exact List.mem_cons_of_mem _ (ih ‹_›)
      · cases h
        exact List.mem_cons_self

theorem preferred_mem (p : Program) {own : Option Function} {fs : List Function}
    (h : p.preferred own fs = some f) : own = some f ∨ f ∈ fs := by
  unfold Program.preferred at h
  split at h
  · exact Or.inr (bestRanked_mem p h)
  · exact Or.inl h
  · split at h
    · cases h
      exact Or.inl rfl
    · cases h
      exact Or.inr (bestRanked_mem p ‹_›)

theorem preferred_listed (accepts : Function → Bool)
    (h : (match s.reachable with
      | none => (s.program.modules.candidates accepts).head?
      | some b => s.program.preferred (s.program.modules.candidates accepts).head?
          (b.candidates accepts)) = some f) : f ∈ s.functionList ∧ accepts f = true := by
  have hown : (s.program.modules.candidates accepts).head? = some f →
      f ∈ s.functionList ∧ accepts f = true :=
    fun h => (mem_candidates (List.mem_of_head? h)).imp_left (List.mem_append_left _)
  split at h
  · exact hown h
  · rename_i b hb
    rcases preferred_mem _ h with h | h
    · exact hown h
    · refine (mem_candidates h).imp_left fun hf => List.mem_append_right _ ?_
      simpa [hb] using hf

theorem either_listed (accepts : Function → Bool)
    (h : ((s.program.modules.candidates accepts).head?.or
      (s.reachable.bind fun b => (b.candidates accepts).head?)) = some f) :
    f ∈ s.functionList ∧ accepts f = true := by
  rcases Option.or_eq_some_iff.1 h with h | ⟨-, h⟩
  · exact (mem_candidates (List.mem_of_head? h)).imp_left (List.mem_append_left _)
  · obtain ⟨b, hb, h⟩ := Option.bind_eq_some_iff.1 h
    refine (mem_candidates (List.mem_of_head? h)).imp_left fun hf => List.mem_append_right _ ?_
    simpa [hb] using hf

theorem findFunction_mem (h : s.findFunction name = some f) : f ∈ s.functionList :=
  (preferred_listed (fun f => f.name == name && !f.isExtension) h).1

theorem findExtension_mem (h : s.findExtension name v = some f) : f ∈ s.functionList :=
  (preferred_listed (fun f => f.name == name && f.accepts v) h).1

theorem findModuleFunction_mem (h : s.findModuleFunction module name = some f) :
    f ∈ s.functionList :=
  (either_listed (fun f => f.module == module && f.name == name && !f.isExtension) h).1

theorem findModuleExtension_mem (h : s.findModuleExtension module name v = some f) :
    f ∈ s.functionList :=
  (either_listed (fun f => f.module == module && f.name == name && f.accepts v) h).1

end Setup

/-- What is relied on: that there is room for the cells that are made, and, only where there is, that
native code makes no closures of its own. -/
structure Trust where
  room : Prop
  natives : Prop
  ample : natives → room

namespace Trust

def nothing : Trust := ⟨False, False, id⟩

theorem no_room {P : Prop} (h : nothing.room) : P := False.elim h

theorem no_natives {P : Prop} (h : nothing.natives) : P := False.elim h

def space : Trust := ⟨True, False, False.elim⟩

def everything : Trust := ⟨True, True, id⟩

end Trust

namespace Machine

def Knows (trust : Trust) (m : Machine) (c : SharedCell) : Prop :=
  trust.natives → Dated m.runId c ∨
    c.1 = m.runId ∧ ∃ cell, m.arena.look c.2 = some cell ∧ cell.pinned = true

/-- Every value that the machine has to do with shares only cells that it knows. -/
structure Known (trust : Trust) (time : Nat) (m : Machine) : Prop where
  dated : trust.natives → time ≤ m.runId ∧ m.runId < m.host.nextId
  frames : ∀ f ∈ m.frames, f.Within (m.Knows trust) m.runId
  cells : ∀ h c, m.arena.look h = some c → c.value.Within (m.Knows trust)
  memo : ∀ e ∈ m.memo, e.2.Within (m.Knows trust)
  halted : ∀ v ∈ m.halted, v.Within (m.Knows trust)
  result : m.entryResult.Within (m.Knows trust)
  host : m.host.Within (m.Knows trust)

/-- A later state of the same run: what is pinned stays so. -/
structure Later (trust : Trust) (m m' : Machine) : Prop where
  run : m'.runId = m.runId
  pinned : trust.room → ∀ h c, m.arena.look h = some c → c.pinned = true →
    ∃ c', m'.arena.look h = some c' ∧ c'.pinned = true

variable {trust : Trust} {time : Nat} {m m' m'' : Machine} {c : SharedCell} {v : Value}

namespace Later

theorem refl (m : Machine) : Later trust m m := ⟨rfl, fun _ _ c hl hp => ⟨c, hl, hp⟩⟩

theorem trans (h : Later trust m m') (h' : Later trust m' m'') : Later trust m m'' := by
  refine ⟨h'.run.trans h.run, fun hr k c hl hp => ?_⟩
  obtain ⟨c', hl', hp'⟩ := h.pinned hr k c hl hp
  exact h'.pinned hr k c' hl' hp'

theorem of_eq (hr : m'.runId = m.runId) (ha : m'.arena = m.arena) : Later trust m m' :=
  ⟨hr, fun _ _ c hl hp => ⟨c, ha ▸ hl, hp⟩⟩

theorem knows (h : Later trust m m') (c : SharedCell) (hc : m.Knows trust c) : m'.Knows trust c := by
  intro ht
  rcases hc ht with hd | ⟨hr, cell, hl, hp⟩
  · exact Or.inl (by rwa [h.run])
  · obtain ⟨cell', hl', hp'⟩ := h.pinned (trust.ample ht) c.2 cell hl hp
    exact Or.inr ⟨hr.trans h.run.symm, cell', hl', hp'⟩

theorem value (h : Later trust m m') (hv : v.Within (m.Knows trust)) : v.Within (m'.Knows trust) :=
  hv.mono h.knows

theorem values (h : Later trust m m') {vs : List Value} (hvs : ∀ v ∈ vs, v.Within (m.Knows trust)) :
    ∀ v ∈ vs, v.Within (m'.Knows trust) := fun v hv => h.value (hvs v hv)

theorem frame (h : Later trust m m') {f : Frame} (hf : f.Within (m.Knows trust) m.runId) :
    f.Within (m'.Knows trust) m'.runId := by
  rw [h.run]
  exact hf.mono h.knows

theorem captured (h : Later trust m m') {c : Captured Value} (hc : c.Within (m.Knows trust) m.runId) :
    c.Within (m'.Knows trust) m'.runId := by
  rw [h.run]
  cases c with
  | copy v => exact h.value hc
  | cell k => exact h.knows _ hc

end Later

theorem Known.of_dated (hm : m.Known trust time) (c : SharedCell) (hc : trust.natives → Dated time c) :
    m.Knows trust c := fun ht => Or.inl (Nat.lt_of_lt_of_le (hc ht) (hm.dated ht).1)

namespace Known

theorem change (hm : m.Known trust time) (hl : Later trust m m') (hhost : m'.host = m.host)
    (hmemo : m'.memo = m.memo) (hhalted : m'.halted = m.halted)
    (hresult : m'.entryResult = m.entryResult)
    (hframes : ∀ f ∈ m'.frames, f.Within (m'.Knows trust) m'.runId)
    (hcells : ∀ h c, m'.arena.look h = some c → c.value.Within (m'.Knows trust)) :
    m'.Known trust time := by
  refine ⟨fun ht => ?_, hframes, hcells, ?_, ?_, ?_, ?_⟩
  · rw [hl.run, hhost]
    exact hm.dated ht
  · rw [hmemo]
    exact fun e he => hl.value (hm.memo e he)
  · rw [hhalted]
    exact fun v hv => hl.value (hm.halted v hv)
  · rw [hresult]
    exact hl.value hm.result
  · rw [hhost]
    exact hm.host.mono hl.knows

theorem later_frames (hm : m.Known trust time) (hl : Later trust m m') :
    ∀ f ∈ m.frames, f.Within (m'.Knows trust) m'.runId :=
  fun f hf => hl.frame (hm.frames f hf)

theorem retop {f f' : Frame} {rest : List Frame} (hm : m.Known trust time)
    (hf : m.frames = f :: rest) (hw : f'.Within (m.Knows trust) m.runId) :
    ({ m with frames := f' :: rest } : Machine).Known trust time := by
  have hframes := hm.frames
  rw [hf] at hframes
  obtain ⟨-, hrest⟩ := List.forall_mem_cons.1 hframes
  exact hm.change (.of_eq rfl rfl) rfl rfl rfl rfl (List.forall_mem_cons.2 ⟨hw, hrest⟩) hm.cells

theorem withArena {a : Arena} (hm : m.Known trust time) (hl : Later trust m { m with arena := a })
    (hcells : ∀ h c, a.look h = some c →
      c.value.Within (Knows trust { m with arena := a })) :
    ({ m with arena := a } : Machine).Known trust time :=
  hm.change hl rfl rfl rfl rfl (hm.later_frames hl) hcells

theorem remains {a : Arena} (hm : m.Known trust time) (ha : Arena.Remains trust.room m.arena a) :
    Later trust m { m with arena := a } ∧ ({ m with arena := a } : Machine).Known trust time := by
  have hl : Later trust m { m with arena := a } := ⟨rfl, ha.pinned⟩
  refine ⟨hl, hm.withArena hl fun h c hc => ?_⟩
  obtain ⟨d, hd, hv⟩ := ha.values h c hc
  rw [hv]
  exact hl.value (hm.cells h d hd)

/-- A cell that is changed keeps its pin. -/
theorem setCell {h : CellHandle} {c d : Cell} (hm : m.Known trust time)
    (hl : m.arena.look h = some c) (ho : d.occupied = true) (hg : d.generation = c.generation)
    (hp : c.pinned = true → d.pinned = true) (hv : d.value.Within (m.Knows trust)) :
    Later trust m { m with arena := m.arena.setCell h.index.toNat d } ∧
      ({ m with arena := m.arena.setCell h.index.toNat d } : Machine).Known trust time := by
  have hlook := Arena.look_setCell_cases hl ho hg
  have hlater : Later trust m { m with arena := m.arena.setCell h.index.toNat d } := by
    refine ⟨rfl, fun _ k e hk hpd => ?_⟩
    obtain ⟨-, hold, hnew⟩ | hsame := hlook k
    · cases hold.symm.trans hk
      exact ⟨d, hnew, hp hpd⟩
    · exact ⟨e, hsame.trans hk, hpd⟩
  refine ⟨hlater, hm.withArena hlater fun k e hk => ?_⟩
  obtain ⟨-, -, hnew⟩ | hsame := hlook k
  · cases hnew.symm.trans hk
    exact hlater.value hv
  · exact hlater.value (hm.cells k e (hsame.symm.trans hk))

theorem allocate (hm : m.Known trust time) (ha : trust.room → m.arena.WellFormed ∧ m.arena.Roomy)
    (hv : v.Within (m.Knows trust)) :
    Later trust m { m with arena := (m.arena.allocate v).2 } ∧
      ({ m with arena := (m.arena.allocate v).2 } : Machine).Known trust time := by
  have hlater : Later trust m { m with arena := (m.arena.allocate v).2 } := by
    refine ⟨rfl, fun hr k d hk hpd => ⟨d, ?_, hpd⟩⟩
    obtain ⟨hfresh, hnew⟩ := Arena.look_allocate (ha hr).1 (ha hr).2 v
    rw [hnew, if_neg fun he => ?_, hk]
    rw [hfresh k (congrArg CellHandle.index he)] at hk
    cases hk
  refine ⟨hlater, hm.withArena hlater fun k d hk => ?_⟩
  obtain ⟨-, rfl⟩ | ⟨-, hold⟩ := Arena.look_of_allocate hk
  · exact hlater.value hv
  · exact hlater.value (hm.cells k d hold)

theorem withHost {h : Host} (hm : m.Known trust time) (hn : trust.natives → m.host.nextId ≤ h.nextId)
    (hh : h.Within (m.Knows trust)) : ({ m with host := h } : Machine).Known trust time :=
  ⟨fun ht => ⟨(hm.dated ht).1, Nat.lt_of_lt_of_le (hm.dated ht).2 (hn ht)⟩, hm.frames, hm.cells, hm.memo,
    hm.halted, hm.result, hh⟩

end Known

end Machine

end ScriptMachine
