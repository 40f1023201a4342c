import ScriptMachine.Proofs.Machine.Entrances
import ScriptMachine.Proofs.Program.Naming

set_option autoImplicit false

namespace ScriptMachine

namespace Setup

variable {s : Setup} {name module : Text} {v : Value} {f : Function}

theorem Function.isExtension_of_accepts (h : f.accepts v = true) : f.isExtension = true := by
  unfold Function.accepts at h
  unfold Function.isExtension
  split at h
  · rw [‹f.signature.receiver = _›]
    rfl
  · cases h

theorem findFunction_plain (h : s.findFunction name = some f) : f.isExtension = false := by
  have haccepts := (preferred_listed (fun f => f.name == name && !f.isExtension) h).2
  simpa using (Bool.and_eq_true_iff.1 haccepts).2

theorem findExtension_extends (h : s.findExtension name v = some f) : f.isExtension = true := by
  have haccepts := (preferred_listed (fun f => f.name == name && f.accepts v) h).2
  exact Function.isExtension_of_accepts (Bool.and_eq_true_iff.1 haccepts).2

theorem findModuleFunction_plain (h : s.findModuleFunction module name = some f) :
    f.isExtension = false := by
  have haccepts :=
    (either_listed (fun f => f.module == module && f.name == name && !f.isExtension) h).2
  simpa using (Bool.and_eq_true_iff.1 haccepts).2

theorem findModuleExtension_extends (h : s.findModuleExtension module name v = some f) :
    f.isExtension = true := by
  have haccepts :=
    (either_listed (fun f => f.module == module && f.name == name && f.accepts v) h).2
  exact Function.isExtension_of_accepts (Bool.and_eq_true_iff.1 haccepts).2

end Setup

def EntersFunction (s : Setup) (fs : List Frame) (h : Frame) : Prop :=
  ∃ fn ∈ s.functionList, h.Entering s fn none fn.isExtension fs

def EntersClosure (s : Setup) (v : Value) (fs : List Frame) (h : Frame) : Prop :=
  ∃ (id : Nat) (c : Closure) (fn : Function), v = .object (.closure id c.1 c.2) ∧
    c.1.program = s.program.id ∧ s.program.closures[c.1.function]? = some fn ∧
    h.Entering s fn (some (v, c.2)) false fs

/-- The frame of a block that the operation enters, entered from the given stack. -/
structure EntersBlock (s : Setup) (op : Operation) (fs : List Frame) (h : Frame) : Prop where
  parent : h.parent = some (fs.length - 1)
  handler : ∀ k, h.handler = some k → (k.scope, fun _ => k.errorName.toList) ∈ op.entries
  body : ∃ e ∈ op.entries, ∃ sc, e.1 = some h.scope ∧ s.program.scopes[h.scope]? = some sc ∧
    h.Opened (e.2 sc.params) [] ∧ (h.loop.isSome = true → e.2 sc.params = sc.params.take 2)

/-- The register of the value that an operation calls, if it calls one. -/
def Operation.calledValue? : Operation → Option Register
  | .callValue callee _ _ => some callee
  | .callMethod name receiver _ _ _ => if name == "call" then some receiver else none
  | _ => none

/-- What an operation of the frame enters from the given stack. -/
inductive Operation.Entered (s : Setup) (f : Frame) (op : Operation) (fs : List Frame) (h : Frame) :
    Prop where
  | block (hb : EntersBlock s op fs h)
  | function (hf : EntersFunction s fs h)
  | closure {r : Register} {v : Value} (hr : op.calledValue? = some r) (hv : f.registers[r]? = some v)
    (hc : EntersClosure s v fs h)

namespace Exec

variable {s : Setup} {fn : Function} {out : Register}

theorem callNative_still (fn : Function) (code : Option Native) (args : List Value)
    (r : Option Receiver) (key : Option Text) {Q : List Frame → Frame → Prop} :
    Opens Q (callNative s fn code args r key out) :=
  Opens.of_steady (callNative_steady s fn code args r key out)

theorem invokeBody_opens (fn : Function) (args : List Value) (r : Option Receiver)
    (closure : Option ClosureCall) :
    Opens (Frame.Entering s fn closure r.isSome) (invokeBody s fn args r out closure) := by
  refine Opens.after (Steady.lift _) fun args => Opens.after Steady.get fun m => ?_
  dsimp only
  split
  · exact (Opens.of_steady (deliver_steady s _ out)).before fun _ => Steady.pure _
  · split
    · exact (callNative_still fn _ args r _).before fun _ => Steady.pure _
    · rename_i hbody
      have hn : fn.isNative = false := by simp [Function.isNative, hbody]
      exact (enter_opens fn hn args r _ closure out).before fun _ => Steady.pure _

theorem invoke_opens (fn : Function) (args : List Value) (r : Option Receiver)
    (closure : Option ClosureCall) :
    Opens (Frame.Entering s fn closure r.isSome) (invoke s fn args r out closure) := by
  have hbody : Opens (Frame.Entering s fn closure r.isSome) (invokeBody s fn args r out closure) :=
    invokeBody_opens fn args r closure
  unfold invoke
  split
  · exact hbody.before fun _ => Steady.pure _
  · rename_i h _
    have hcaught : Opens (Frame.Entering s fn closure r.isSome)
        (tryCatch (invokeBody s fn args r out closure) fun e => do
          (modify fun m => { m with arena := m.arena.releaseIfFree h } : Exec Unit)
          throw e) := fun m =>
      Ensures.tryCatch (hbody m) fun e m₁ _ => Ensures.change_bind (Ensures.throw trivial)
    refine hcaught.before fun handedOver => ?_
    split
    · exact Steady.change fun _ => rfl
    · exact Steady.pure _

theorem invokeFunction_opens (hfn : fn ∈ s.functionList) (hplain : fn.isExtension = false)
    (args : List Value) : Opens (EntersFunction s) (invoke s fn args none out none) := by
  refine (invoke_opens fn args none none).imp fun fs h hh => ⟨fn, hfn, ?_⟩
  rwa [hplain]

theorem invokeExtension_opens (hfn : fn ∈ s.functionList) (hext : fn.isExtension = true)
    (self : Value) (args : List Value) (variableName : Option Text) :
    Opens (EntersFunction s) (invokeExtension s fn self args variableName out) := by
  refine Opens.after (resolveReceiver_steady fn self variableName) fun r => ?_
  refine (invoke_opens fn args (some r) none).imp fun fs h hh => ⟨fn, hfn, ?_⟩
  rwa [hext]

theorem invokeClosure_opens (v : Value) (args : List Value) :
    Opens (EntersClosure s v) (invokeClosure s v args out) := by
  unfold invokeClosure
  split
  · rename_i id code captures
    split
    · exact Opens.fail _
    · rename_i hprogram
      refine Opens.after Steady.get fun m => ?_
      dsimp only
      split
      · exact Opens.fail _
      · split
        · rename_i f hf
          refine (invoke_opens f args none _).imp fun fs h hh => ?_
          exact ⟨id, (code, captures), f, rfl, by simpa using hprogram, hf, hh⟩
        · exact Opens.fail _
  · exact Opens.fail _

theorem writeRegister_opens {Q : List Frame → Frame → Prop} (v : Value) :
    Opens Q (writeRegister s out v) := Opens.of_steady (writeRegister_steady s .outline out v)

theorem callFunction_opens (name : Text) (args : List Value) :
    Opens (EntersFunction s) (callFunction s name args out) := by
  unfold callFunction
  split
  · exact invokeFunction_opens (Setup.findFunction_mem ‹_›) (Setup.findFunction_plain ‹_›) args
  · split
    · exact Opens.fail _
    · refine Opens.after (objectAttribute_steady _ name _) fun v => ?_
      split
      · exact writeRegister_opens _
      · split
        · exact invokeExtension_opens (Setup.findExtension_mem ‹_›) (Setup.findExtension_extends ‹_›)
            _ _ none
        · exact Opens.fail _

/-- A method may be the call of a closure. -/
theorem callMethod_opens (name : Text) (receiver : Value) (variableName : Option Text)
    (args : List Value) : Opens (fun fs h => EntersFunction s fs h ∨
      (name == "call") = true ∧ EntersClosure s receiver fs h)
    (callMethod s name receiver variableName args out) := by
  unfold callMethod
  split
  · rename_i hcall
    exact (invokeClosure_opens receiver args).imp fun _ _ h => .inr ⟨(Bool.and_eq_true_iff.1 hcall).1, h⟩
  · refine Opens.imp (Q := EntersFunction s) ?_ fun _ _ => .inl
    refine Opens.after (objectAttribute_steady receiver name args) fun v => ?_
    split
    · exact writeRegister_opens _
    · split
      · exact writeRegister_opens _
      · split
        · exact invokeExtension_opens (Setup.findExtension_mem ‹_›) (Setup.findExtension_extends ‹_›)
            _ _ _
        · split
          · exact invokeFunction_opens (Setup.findFunction_mem ‹_›) (Setup.findFunction_plain ‹_›) _
          · exact Opens.fail _

theorem callModule_opens (module name : Text) (args : List Value) :
    Opens (EntersFunction s) (callModule s module name args out) := by
  unfold callModule
  split
  · exact invokeFunction_opens (Setup.findModuleFunction_mem ‹_›)
      (Setup.findModuleFunction_plain ‹_›) args
  · split
    · exact Opens.fail _
    · split
      · exact invokeExtension_opens (Setup.findModuleExtension_mem ‹_›)
          (Setup.findModuleExtension_extends ‹_›) _ _ none
      · exact Opens.fail _

variable {op : Operation} {f : Frame} {target : Target} {names : List Text}

theorem Binds.opens {V : Text → Binding → Prop} {x : Exec Unit} {m : Machine} {g : Frame}
    {fs : List Frame} (hx : Binds names V x) (hm : m.frames = g :: fs) (hpc : g.pc = 0)
    (hempty : g.bindings = []) :
    Ensures x m (fun _ m' => ∀ h, m'.frames = h :: fs → h.footing = g.footing ∧ h.Opened names [])
      fun _ _ => True := by
  refine (hx m g fs hm).imp fun _ m' h' h hh => ?_
  obtain ⟨g', hm', hfooting, hbound, hfree⟩ := h'
  obtain rfl : g' = h := by
    rw [hm'] at hh
    exact (List.cons.inj hh).1
  refine ⟨hfooting, (congrArg Frame.pc hfooting :).trans hpc, fun n hn => ?_, fun n hn _ => ?_⟩
  · have hn : n ∈ names := hn.resolve_right List.not_mem_nil
    obtain ⟨b, hb, -⟩ := hbound n hn
    exact ⟨b, hb, .inl hn⟩
  · rw [hfree n hn, hempty]
    rfl

theorem enterBlock_ensures (m : Machine) :
    Ensures (enterBlock s target out) m (fun _ m' => ∃ i sc, target = some i ∧
      s.program.scopes[i]? = some sc ∧
      m'.frames = entered sc (some i) (some (m.frames.length - 1)) out :: m.frames) fun _ _ => True := by
  refine Ensures.get_bind ((pushFrame_ensures target _ out).mono (fun _ m' h => ?_)
    fun _ _ _ => trivial)
  obtain ⟨-, sc, hsc, rfl⟩ := h
  obtain ⟨i, rfl, hi⟩ := Program.scope_eq_ok.1 hsc
  exact ⟨i, sc, rfl, hi, rfl⟩

theorem opened_entered (sc : Scope) (i : Target) (parent : Option Nat) :
    (entered sc i parent out).Opened [] [] := ⟨rfl, by simp, fun _ _ _ => rfl⟩

theorem enterBlock_opens (he : (target, fun _ => []) ∈ op.entries) :
    Opens (EntersBlock s op) (enterBlock s target out) := by
  refine fun m => (enterBlock_ensures m).imp fun _ m' h h' hh => ?_
  obtain ⟨i, sc, rfl, hi, hm'⟩ := h
  rw [hm'] at hh
  obtain rfl := (List.cons.inj hh).1
  exact ⟨rfl, nofun, _, he, sc, rfl, hi, opened_entered sc _ _, nofun⟩

theorem tryCatch_opens (f : Frame) (target handler : Target) (errorName : Option Text) :
    Opens (EntersBlock s (.tryCatch target handler errorName out))
      (perform s f (.tryCatch target handler errorName out)) := by
  refine fun m => (enterBlock_ensures m).bind fun _ m₁ h₁ => ?_
  obtain ⟨i, sc, rfl, hi, hm₁⟩ := h₁
  refine Ensures.of_run (modifyTop_run hm₁) fun h hh => ?_
  obtain rfl := (List.cons.inj hh).1
  have hopened : (entered sc (some i) (some (m.frames.length - 1)) out).Opened [] [] := opened_entered ..
  refine ⟨rfl, fun k hk => ?_, _, List.mem_cons_self, sc, rfl, hi,
    ⟨hopened.pc, hopened.bound, hopened.free⟩, nofun⟩
  cases hk
  exact List.mem_cons_of_mem _ List.mem_cons_self

theorem callScope_opens (f : Frame) (args : List Register)
    (hblock : ∀ i, target = some i → s.program.HasKind .block i) :
    Opens (EntersBlock s (.call target args out)) (callScope s f target args out) := by
  intro m
  refine ((lift_ensures _ m).mono (fun _ _ h => h) fun _ _ _ => trivial).bind fun sc m₁ h₁ => ?_
  obtain ⟨rfl, hsc⟩ := h₁
  obtain ⟨i, rfl, hi⟩ := Program.scope_eq_ok.1 hsc
  have hkind : sc.kind = .block := by
    have hblock := hblock i rfl
    rw [Program.HasKind, hi] at hblock
    exact Option.some.inj hblock
  have hread := (readRegisters_steady (π := id) s f args m₁).mono (fun _ _ h => h.eq) fun _ _ _ => trivial
  refine hread.bind fun values m₂ hm₂ => ?_
  rw [hkind, ← hm₂]
  refine Ensures.get_bind ?_
  refine ((pushFrame_ensures _ _ out).mono (fun _ _ h => h) fun _ _ _ => trivial).bind fun _ m₃ h₃ => ?_
  obtain ⟨-, sc', hsc', rfl⟩ := h₃
  rw [hsc] at hsc'
  cases hsc'
  have hbinds : Binds sc.params (fun _ _ => True) (bindParams s sc.params values) :=
    bindParams_binds sc.params values fun _ _ _ => trivial
  refine (hbinds.opens rfl rfl rfl).imp fun _ m' h h' hh => ?_
  obtain ⟨hfooting, hopened⟩ := h h' hh
  have hscope : h'.scope = i := (congrArg Frame.scope hfooting :)
  refine ⟨(congrArg Frame.parent hfooting :), fun k hk => ?_, (some i, id), List.mem_cons_self, sc,
    by rw [hscope], by rw [hscope, hi], hopened, fun hl => ?_⟩
  · rw [show h'.handler = none from (congrArg Frame.handler hfooting :)] at hk
    cases hk
  · rw [show h'.loop = none from (congrArg Frame.loop hfooting :)] at hl
    cases hl

theorem bindLoopVariables_opens {m : Machine} {g : Frame} {fs : List Frame} {sc : Scope} (l : Loop)
    (hm : m.frames = g :: fs) (hpc : g.pc = 0) (hempty : g.bindings = [])
    (hsc : s.program.scopes[g.scope]? = some sc) :
    Ensures (bindLoopVariables s l) m
      (fun _ m' => ∀ h, m'.frames = h :: fs →
        h.footing = g.footing ∧ h.Opened (sc.params.take 2) []) fun _ _ => True := by
  refine Ensures.run (top_run hm) ?_
  refine ((lift_ensures _ m).mono (fun _ _ h => h) fun _ _ _ => trivial).bind fun sc' m₁ h₁ => ?_
  obtain ⟨rfl, hsc'⟩ := h₁
  rw [Program.scope_eq_ok.2 ⟨_, rfl, hsc⟩] at hsc'
  cases hsc'
  have hbinds : Binds (sc.params.take 2) (fun _ _ => True)
      (bindParams s (sc.params.take 2) (l.variableValues (2 ≤ sc.params.length))) :=
    bindParams_binds _ _ fun _ _ _ => trivial
  exact hbinds.opens hm hpc hempty

theorem startLoop_opens (toMap : Bool) (source : Register) (v : Value) :
    Opens (EntersBlock s (.collect toMap source target out)) (startLoop s toMap v target out) := by
  refine Opens.after (Steady.lift _) fun count => ?_
  dsimp only
  split
  · exact writeRegister_opens _
  · refine fun m => Ensures.get_bind (((pushFrame_ensures target _ out).mono (fun _ _ h => h)
      fun _ _ _ => trivial).bind fun _ m₁ h₁ => ?_)
    obtain ⟨-, sc, hsc, rfl⟩ := h₁
    obtain ⟨i, rfl, hi⟩ := Program.scope_eq_ok.1 hsc
    refine Ensures.run (modifyTop_run rfl) ?_
    refine (bindLoopVariables_opens _ rfl rfl rfl hi).imp fun _ m' h h' hh => ?_
    obtain ⟨hfooting, hopened⟩ := h h' hh
    have hscope : h'.scope = i := (congrArg Frame.scope hfooting :)
    refine ⟨(congrArg Frame.parent hfooting :), fun k hk => ?_, (some i, List.take 2),
      List.mem_cons_self, sc, by rw [hscope], by rw [hscope, hi], hopened, fun _ => rfl⟩
    rw [show h'.handler = none from (congrArg Frame.handler hfooting :)] at hk
    cases hk

theorem opens_register {r : Register} {k : Value → Exec Unit} {Q : List Frame → Frame → Prop}
    (hk : ∀ v, f.registers[r]? = some v → Opens Q (k v)) : Opens Q (readRegister s f r >>= k) := by
  cases hr : f.registers[r]? with
  | none =>
    have hread : readRegister s f r = outOfRange s f r := by simp [readRegister, hr]
    rw [hread]
    exact fun m => ((outOfRange_fails f r m).mono (fun _ _ h => h) fun _ _ _ => trivial).bind
      fun _ _ h => h.elim
  | some v =>
    have hread : readRegister s f r = pure v := by simp [readRegister, hr]
    rw [hread, pure_bind]
    exact hk v hr

theorem perform_opens (f : Frame) (hcall : op.isCall = true) (hadmits : s.program.Admits op) :
    Opens (op.Entered s f) (perform s f op) := by
  have hread : ∀ (r : Register) {Q : List Frame → Frame → Prop} {k : Value → Exec Unit},
      (∀ v, Opens Q (k v)) → Opens Q (readRegister s f r >>= k) :=
    fun r Q k hk => Opens.after (readRegister_steady s f r) hk
  have hreads : ∀ (rs : List Register) {Q : List Frame → Frame → Prop} {k : List Value → Exec Unit},
      (∀ vs, Opens Q (k vs)) → Opens Q (readRegisters s f rs >>= k) :=
    fun rs Q k hk => Opens.after (readRegisters_steady s f rs) hk
  cases op with
  | call target args out =>
    refine (callScope_opens f args fun i hi => ?_).imp fun _ _ => .block
    obtain ⟨j, hj, hkind⟩ := hadmits.entered target List.mem_cons_self
    rw [hi] at hj
    cases hj
    exact hkind
  | callCompared equal left right target out =>
    refine hread left fun a => hread right fun b => ?_
    split
    · exact (enterBlock_opens List.mem_cons_self).imp fun _ _ => .block
    · exact Opens.pure _
  | ifElse condition target otherwise out =>
    refine hread condition fun v => ?_
    split
    · exact writeRegister_opens _
    · refine (enterBlock_opens ?_).imp fun _ _ => .block
      split
      · exact List.mem_cons_self
      · exact List.mem_cons_of_mem _ List.mem_cons_self
  | branch truth condition target out =>
    refine hread condition fun v => ?_
    split
    · exact (enterBlock_opens List.mem_cons_self).imp fun _ _ => .block
    · exact writeRegister_opens _
  | callFunction name args out =>
    exact hreads args fun vs => (callFunction_opens name vs).imp fun _ _ => .function
  | callMethod name receiver variableName args out =>
    refine opens_register fun v hv => hreads args fun vs => ?_
    refine (callMethod_opens name v variableName vs).imp fun fs h hh => ?_
    rcases hh with hh | ⟨hname, hh⟩
    · exact .function hh
    · exact .closure (if_pos hname) hv hh
  | callModule module name args out =>
    exact hreads args fun vs => (callModule_opens module name vs).imp fun _ _ => .function
  | callValue callee args out =>
    refine opens_register fun v hv => hreads args fun vs => ?_
    exact (invokeClosure_opens v vs).imp fun _ _ => .closure rfl hv
  | collect toMap source target out =>
    exact hread source fun v => (startLoop_opens toMap source v).imp fun _ _ => .block
  | tryCatch target handler errorName out =>
    exact (tryCatch_opens f target handler errorName).imp fun _ _ => .block
  | _ => cases hcall

end Exec

end ScriptMachine
