import ScriptMachine.Proofs.Compiler.SourcedPrograms
import ScriptMachine.Proofs.Machine.MirroredRuns

set_option autoImplicit false

namespace ScriptMachine

/-- A function that goes by what it is given, and tells objects, runs and cells apart without looking at
their numbers. -/
structure Function.Deterministic (time : Nat) (f : Function) : Prop where
  defaults : f.signature.Lasting time
  native : ∀ code, f.body = .native (some code) → ∀ ρ : Renaming, ρ.time = time →
    ∀ old old', code.Mirrored ρ old old'

/-- Some run of the program on a fresh machine calls the function by its name. -/
def Setup.Uses (time : Nat) (s : Setup) (f : Function) : Prop :=
  ∃ host m, time ≤ host.nextId ∧ Visit.Reaches s ⟨host, .run⟩ (Machine.initial host) m ∧ m.Calls s f

/-- Neither the program nor the built-in modules declare a function whose calls are remembered, and the
native functions that runs of the program use are deterministic. Of the others it is only known that
they make up no closures. -/
structure Setup.Repeatable (time : Nat) (s : Setup) : Prop where
  forgetful : ∀ f ∈ s.program.modules.functions, f.hasTag Tag.memo = false
  forgetfulBuiltins : ∀ r ∈ s.builtins, ∀ f ∈ r.functions, f.hasTag Tag.memo = false
  honest : ∀ r ∈ s.builtins, ∀ f ∈ r.functions, f.Honest time
  deterministic : ∀ r ∈ s.builtins, ∀ f ∈ r.functions, s.Uses time f → f.Deterministic time

/-- Other numbers for the cells only. -/
def Renaming.shift (time : Nat) : Renaming where
  time := time
  limit := 0
  number := id
  index := (· + 1)
  generation := fun _ => 0
  number_injective := Function.injective_id
  index_injective := fun _ _ => (UInt32.add_left_inj 1).1
  number_fixed := fun _ _ => rfl
  limit_le := Nat.zero_le _

theorem fixed_of_map_eq {α : Type} {f : α → α} {as : List α} (h : as.map f = as) : ∀ a ∈ as, f a = a :=
  List.map_inj_left.1 (h.trans (List.map_id as).symm)

/-- Whatever has its cells from after the time can be told from itself with other cells. -/
theorem Value.within_of_shift {time : Nat} (v : Value) (h : (Renaming.shift time).value v = v) :
    v.Within (Dated time) := by
  induction v using Value.induction with
  | none => exact within_none
  | bool b => exact within_bool b
  | num n => exact within_num n
  | str t => exact within_str t
  | list vs ih =>
    rw [Renaming.value_list] at h
    exact within_list.2 fun v hv => ih v hv (fixed_of_map_eq (Value.list.inj h) v hv)
  | map es ih =>
    rw [Renaming.value_map] at h
    refine within_map.2 fun e he => ?_
    have hfixed := Prod.mk.inj (fixed_of_map_eq (Value.map.inj h) e he)
    exact ⟨(ih e he).1 hfixed.1, (ih e he).2 hfixed.2⟩
  | error f ih =>
    rw [Renaming.value_error] at h
    have hpayload : f.payload.map _ = f.payload := congrArg FaultOf.payload (Value.error.inj h)
    refine within_error.2 fun v hv => ih v hv ?_
    rw [Option.mem_def.1 hv] at hpayload
    exact Option.some.inj hpayload
  | range r => exact within_range r
  | record id shape vs ih =>
    rw [Renaming.value_object, Renaming.object_record] at h
    have hvalues := (ObjectOf.record.inj (Value.object.inj h)).2.2
    exact within_record.2 fun v hv => ih v hv (fixed_of_map_eq hvalues v hv)
  | closure id code captures ih =>
    rw [Renaming.value_object, Renaming.object_closure] at h
    have hcaptures := (ObjectOf.closure.inj (Value.object.inj h)).2.2
    refine within_closure.2 fun e he => ?_
    have hfixed := congrArg Prod.snd (fixed_of_map_eq hcaptures e he)
    obtain ⟨name, v | k⟩ := e
    · exact ih _ he v rfl (Captured.copy.inj hfixed)
    · by_contra hdated
      have hcell := Captured.cell.inj hfixed
      rw [Renaming.shared, if_neg (show ¬ code.run < (Renaming.shift time).time from hdated)] at hcell
      have hindex : k.index + 1 = k.index := congrArg CellHandle.index hcell
      simp at hindex
  | host id cls => exact within_host id cls

theorem Value.Lasting.within {time : Nat} {v : Value} (h : v.Lasting time) : v.Within (Dated time) :=
  v.within_of_shift (h (.shift time) rfl)

namespace Compile

variable {time : Nat} {t : RecordType}

theorem constructRecord_honest (h : ∀ f ∈ t.fields, f.Literal) : (constructRecord t).Honest time := by
  refine ⟨fun G c host _ hc hhost => ?_, fun c host => Nat.le_succ _⟩
  have hall := constructRecord_all (P := Value.Within G) (fun f hf v hv => (h f hf v hv).all)
    ⟨hc.self, hc.args⟩ hhost
  exact ⟨hall.host, hall.self, hall.value, hall.fault⟩

theorem constructRecord_mirrored {ρ : Renaming} {old old' : List Text}
    (h : ∀ f ∈ t.fields, ∀ v ∈ f.default, ρ.value v = v) :
    (constructRecord t).Mirrored ρ old old' := by
  intro c host host' hh
  have hresult : (t.construct host'.nextId (c.args.map ρ.value)).mapError Failure.fault =
      ρ.answer ρ.value ((t.construct host.nextId c.args).mapError Failure.fault) := by
    have hnumber := hh.numbers 0
    rw [Nat.add_zero, Nat.add_zero] at hnumber
    rw [← hnumber, Renaming.construct_values h]
    cases t.construct host.nextId c.args <;> rfl
  refine ⟨⟨fun k => ?_, Nat.le_succ_of_le hh.dated, hh.output⟩, rfl, hresult⟩
  have hnext := hh.numbers (1 + k)
  rwa [← Nat.add_assoc, ← Nat.add_assoc] at hnext

end Compile

namespace Function

variable {time : Nat} {f : Function}

theorem Sourced.honest (h : f.Sourced time) : f.Honest time := by
  refine ⟨fun p hp v hv => (h.signature p hp v hv).within, fun code hcode => ?_⟩
  obtain ⟨t, ht, hfields⟩ := h.native _ hcode
  cases ht
  exact Compile.constructRecord_honest hfields

theorem Sourced.deterministic (h : f.Sourced time) : f.Deterministic time := by
  refine ⟨h.signature, fun code hcode ρ hρ old old' => ?_⟩
  obtain ⟨t, ht, hfields⟩ := h.native _ hcode
  cases ht
  exact Compile.constructRecord_mirrored fun f hf v hv => (hfields f hf v hv).lasting time ρ hρ

theorem Deterministic.mirrored (h : f.Deterministic time) (hf : f.hasTag Tag.memo = false) {ρ : Renaming}
    (hρ : ρ.time = time) (old old' : List Text) : f.Mirrored ρ old old' :=
  ⟨fun p hp v hv => h.defaults p hp v hv ρ hρ, fun code hcode => h.native code hcode ρ hρ old old', hf⟩

end Function

namespace Setup

variable {s : Setup} {time : Nat} {name module : Text} {v : Value} {args : List Value} {g : Function}

theorem findFunction_listed (h : s.findFunction name = some g) : g ∈ s.functionList ∧ g.name = name := by
  refine (preferred_listed (fun f => f.name == name && !f.isExtension) h).imp_right fun ha => ?_
  exact eq_of_beq (Bool.and_eq_true_iff.1 ha).1

theorem findExtension_listed (h : s.findExtension name v = some g) :
    g ∈ s.functionList ∧ g.name = name := by
  refine (preferred_listed (fun f => f.name == name && f.accepts v) h).imp_right fun ha => ?_
  exact eq_of_beq (Bool.and_eq_true_iff.1 ha).1

theorem functionCalled_listed (h : s.functionCalled name args = some g) :
    g ∈ s.functionList ∧ g.name = name := by
  unfold functionCalled at h
  split at h
  · exact findFunction_listed (‹s.findFunction name = some _›.trans h)
  · split at h
    · cases h
    · split at h
      · cases h
      · exact findExtension_listed h

theorem methodCalled_listed (h : s.methodCalled name v args = some g) :
    g ∈ s.functionList ∧ g.name = name := by
  unfold methodCalled at h
  split at h
  · cases h
  · rcases Option.or_eq_some_iff.1 h with h | ⟨-, h⟩
    · exact findExtension_listed h
    · exact findFunction_listed h

theorem moduleCalled_listed (h : s.moduleCalled module name args = some g) :
    g ∈ s.functionList ∧ g.name = name := by
  unfold moduleCalled at h
  split at h
  · rename_i f hf
    cases h
    refine (either_listed (fun f => f.module == module && f.name == name && !f.isExtension) hf).imp_right ?_
    intro ha
    simp only [Bool.and_eq_true] at ha
    exact eq_of_beq ha.1.2
  · split at h
    · cases h
    · rename_i self others
      refine (either_listed (fun f => f.module == module && f.name == name && f.accepts self) h).imp_right ?_
      intro ha
      simp only [Bool.and_eq_true] at ha
      exact eq_of_beq ha.1.2

end Setup

def Operation.callee? : Operation → Option Text
  | .callFunction name _ _ | .callMethod name _ _ _ _ | .callModule _ name _ _ => some name
  | _ => none

/-- A function that is called stands on the list, under a name that the program calls. -/
theorem Machine.Calls.listed {s : Setup} {m : Machine} {g : Function} (h : m.Calls s g) :
    g ∈ s.functionList ∧ ∃ scope ∈ s.program.scopes, ∃ i ∈ scope.code,
      i.operation.callee? = some g.name := by
  obtain ⟨f, -, scope, hscope, i, hi, hcalls⟩ := h
  have hlisted : g ∈ s.functionList ∧ i.operation.callee? = some g.name := by
    cases hop : i.operation with
    | callFunction name args out =>
      rw [hop] at hcalls
      obtain ⟨vs, -, hg⟩ := hcalls
      obtain ⟨hmem, rfl⟩ := Setup.functionCalled_listed hg
      exact ⟨hmem, rfl⟩
    | callMethod name receiver variableName args out =>
      rw [hop] at hcalls
      obtain ⟨v, -, vs, -, hg⟩ := hcalls
      obtain ⟨hmem, rfl⟩ := Setup.methodCalled_listed hg
      exact ⟨hmem, rfl⟩
    | callModule module name args out =>
      rw [hop] at hcalls
      obtain ⟨vs, -, hg⟩ := hcalls
      obtain ⟨hmem, rfl⟩ := Setup.moduleCalled_listed hg
      exact ⟨hmem, rfl⟩
    | _ =>
      rw [hop] at hcalls
      exact hcalls.elim
  exact ⟨hlisted.1, scope, Exec.scope_mem hscope, i, Array.mem_of_getElem? hi, hlisted.2⟩

namespace Program.Sourced

variable {s : Setup} {time : Nat} {ρ : Renaming} {old old' : List Text}

theorem honest (hp : s.program.Sourced time)
    (hb : ∀ r ∈ s.builtins, ∀ f ∈ r.functions, f.Honest time) : s.Honest time where
  literals scope hscope i hi v out hload := ((hp.code scope hscope i hi).literal v out hload).all
  closures f hf := (hp.closures f hf).1.honest
  functions f hf := (hp.functions f hf).honest
  builtins := hb

theorem mirrored (hp : s.program.Sourced time) (hρ : ρ.time = time) : s.Mirrored ρ old old' where
  literals scope hscope i hi v out hload :=
    ((hp.code scope hscope i hi).literal v out hload).lasting time ρ hρ
  closures f hf := by
    have hforgetful : f.hasTag Tag.memo = false := by
      simp [Function.hasTag, Function.tag?, (hp.closures f hf).2]
    exact (hp.closures f hf).1.deterministic.mirrored hforgetful hρ old old'

theorem calls_mirrored (hp : s.program.Sourced time) (hs : s.Repeatable time) {g : Function}
    (hg : s.Uses time g) (hρ : ρ.time = time) : g.Mirrored ρ old old' := by
  have ⟨_, _, _, _, hcalls⟩ := hg
  rcases List.mem_append.1 hcalls.listed.1 with hmem | hmem
  · exact (hp.functions g hmem).deterministic.mirrored (hs.forgetful g hmem) hρ old old'
  · cases hr : s.reachable with
    | none => simp [hr] at hmem
    | some r =>
      have hb : r ∈ s.builtins := by
        unfold Setup.reachable at hr
        split at hr
        · cases hr
        · exact hr
      have hmem : g ∈ r.functions := by simpa [hr] using hmem
      exact (hs.deterministic r hb g hmem hg).mirrored (hs.forgetfulBuiltins r hb g hmem) hρ old old'

theorem startsPlaced (hp : s.program.Sourced time) (hw : s.program.WellFormed) :
    Machine.StartsPlaced s := by
  obtain ⟨scope, r, hscope, -, hlast⟩ := hw.main
  have hrun : s.program.scope (some 0) = .ok scope := by simp [Program.scope, hscope]
  cases hi : scope.code[0]? with
  | none =>
    have hempty : scope.code = #[] := by simpa using hi
    simp [Scope.last?, Scope.operations, hempty] at hlast
  | some i =>
    have hplaced := (hp.code scope (Array.mem_of_getElem? hscope) i (Array.mem_of_getElem? hi)).placed
    exact ⟨scope, i, hrun, hi, hplaced⟩

end Program.Sourced

end ScriptMachine
