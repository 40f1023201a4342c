import ScriptMachine.Proofs.Machine.Mimicry

set_option autoImplicit false

namespace ScriptMachine

namespace Renaming

variable (ρ : Renaming)

@[simps]
def receiver (r : Receiver) : Receiver :=
  { r with value := ρ.value r.value, cell := r.cell.map ρ.handle }

def handed : Captured Value → Captured Value
  | .copy v => .copy (ρ.value v)
  | .cell h => .cell (ρ.handle h)

def handedOver (captures : List (Text × Captured Value)) : List (Text × Captured Value) :=
  captures.map fun c => (c.1, ρ.handed c.2)

def closureCall (c : Exec.ClosureCall) : Exec.ClosureCall := (ρ.value c.1, ρ.handedOver c.2)

def nativeCall (c : NativeCall) : NativeCall :=
  { c with self := c.self.map ρ.value, args := c.args.map ρ.value }

def failure : Failure → Failure
  | .fault e => .fault (ρ.fault e)
  | .other what => .other what

def answer {α β : Type} (g : α → β) : Except Failure α → Except Failure β
  | .ok a => .ok (g a)
  | .error e => .error (ρ.failure e)

variable {ρ}

theorem captures_handedOver {run : Nat} {captures : List (Text × Captured Value)}
    (h : ∀ c ∈ captures, ∀ k, c.2 = .cell k → ρ.time ≤ run) :
    (captures.map fun c => (c.1, ρ.capture run c.2)) = ρ.handedOver captures := by
  refine List.map_congr_left fun c hc => ?_
  have hcell := h c hc
  obtain ⟨name, v | k⟩ := c
  · rfl
  · have hrun := Nat.not_lt.2 (hcell k rfl)
    simp [capture, handed, shared, hrun]

end Renaming

/-- Outcomes of native code that are the same but for the numbers. -/
structure NativeOutcome.Mirrors (ρ : Renaming) (old old' : List Text) (o o' : NativeOutcome) : Prop where
  host : o.host.Mirrors ρ old old' o'.host
  self : o'.self = o.self.map ρ.value
  result : o'.result = ρ.answer ρ.value o.result

/-- Native code that does the same whatever the numbers are, on hosts that go on alike. -/
def Native.Mirrored (ρ : Renaming) (old old' : List Text) (code : Native) : Prop :=
  ∀ c h h', h.Mirrors ρ old old' h' → (code c h).Mirrors ρ old old' (code (ρ.nativeCall c) h')

/-- A function that does the same whatever the numbers are. Nothing is remembered of its calls. -/
structure Function.Mirrored (ρ : Renaming) (old old' : List Text) (f : Function) : Prop where
  defaults : ∀ p ∈ f.signature.params, ∀ v ∈ p.default, ρ.value v = v
  native : ∀ code, f.body = .native (some code) → code.Mirrored ρ old old'
  forgetful : f.hasTag Tag.memo = false

/-- Whether an attribute of an object answers a call by name. -/
def Exec.answersCall (receiver : Value) (name : Text) (args : List Value) : Bool :=
  match receiver with
  | .object o => o.hasMethod name || (o.hasMember name && args.isEmpty)
  | _ => false

namespace Setup

/-- The function that a call by name runs, if it runs one. -/
def functionCalled (s : Setup) (name : Text) (args : List Value) : Option Function :=
  match s.findFunction name with
  | some f => some f
  | none =>
    match args with
    | [] => none
    | self :: others =>
      if Exec.answersCall self name others then none else s.findExtension name self

def methodCalled (s : Setup) (name : Text) (receiver : Value) (args : List Value) : Option Function :=
  if (name == "call" && Exec.isClosure receiver) || Exec.answersCall receiver name args ||
      (Exec.mapMember receiver name args).isSome then none
  else (s.findExtension name receiver).or (s.findFunction name)

def moduleCalled (s : Setup) (module name : Text) (args : List Value) : Option Function :=
  match s.findModuleFunction module name with
  | some f => some f
  | none =>
    match args with
    | [] => none
    | self :: _ => s.findModuleExtension module name self

end Setup

namespace Exec

variable {ρ : Renaming} {old old' : List Text} {s : Setup} {α β γ δ : Type}

/-- An action and what is done when it fails, before the fault goes on. -/
theorem cleanup_mimics {R : α → β → Prop} {x : Exec α} {x' : Exec β} {g g' : Machine → Machine}
    (hx : Mimics s ρ old old' R x x')
    (hg : ∀ m m', m.Mirrors s ρ old old' m' → (g m).Mirrors s ρ old old' (g' m')) :
    Mimics s ρ old old' R
      (tryCatch x fun e => do
        modify g
        throw e)
      (tryCatch x' fun e => do
        modify g'
        throw e) := by
  intro m m' hm
  have hfirst := hx m m' hm
  simp only [tryCatch, tryCatchThe, MonadExceptOf.tryCatch, EStateM.tryCatch]
  cases hr : x m with
  | ok a t =>
    rw [hr] at hfirst
    obtain ⟨b, t', hr', hab, ht⟩ := hfirst
    exact ⟨b, t', by simp only [hr'], hab, ht⟩
  | error e t =>
    rw [hr] at hfirst
    intro he
    obtain ⟨t', hr', ht⟩ := hfirst he
    exact ⟨g' t', by simp only [hr']; rfl, hg t t' ht⟩

theorem Mimics.forM {f : γ → Exec Unit} {f' : δ → Exec Unit} {g : γ → δ}
    (hf : ∀ a, Repeats s ρ old old' (f a) (f' (g a))) (as : List γ) :
    Repeats s ρ old old' (as.forM f) ((as.map g).forM f') := by
  induction as with
  | nil => exact .pure trivial
  | cons a as ih => exact (hf a).bind fun _ _ _ => ih

theorem remember_repeats (key : Option Text) (v : Value) :
    Repeats s ρ old old' (remember key v) (remember key (ρ.value v)) := by
  cases key with
  | none => exact .pure trivial
  | some k => exact .modify fun _ _ hm => { hm with }

def Received (ρ : Renaming) (r r' : Receiver) : Prop :=
  r' = ρ.receiver r ∧ ∀ h ∈ temporaryCell (some r), h.index.toNat < ρ.limit

theorem resolveReceiver_makes (f : Function) (v : Value) (variableName : Option Text) :
    Makes s ρ old old' (Received ρ) (resolveReceiver f v variableName)
      (resolveReceiver f (ρ.value v) variableName) := by
  have hgiven : ∀ (cell : Option CellHandle) (borrows : Bool), Received ρ ⟨v, cell, borrows, false⟩
      ⟨ρ.value v, cell.map ρ.handle, borrows, false⟩ := by
    refine fun cell borrows => ⟨rfl, ?_⟩
    cases cell <;> exact nofun
  have hmade : Makes s ρ old old' (Received ρ)
      (do
        let made := (← get).arena.allocate v
        modify fun m => { m with arena := made.2 }
        return (⟨v, some made.1, true, true⟩ : Receiver))
      (do
        let made := (← get).arena.allocate (ρ.value v)
        modify fun m => { m with arena := made.2 }
        return (⟨ρ.value v, some made.1, true, true⟩ : Receiver)) := by
    refine .get_bind fun m m' hm hample => ?_
    have hnew := hm.arena.allocate hample v
    generalize m.arena.allocate v = made at hnew ⊢
    generalize m'.arena.allocate (ρ.value v) = made' at hnew ⊢
    obtain ⟨h, a⟩ := made
    obtain ⟨h', a'⟩ := made'
    obtain ⟨rfl, hi, ha⟩ := hnew
    refine (setArena_repeats ha).bind fun _ _ _ => .pure ⟨rfl, ?_⟩
    rintro _ ⟨⟩
    exact hi
  unfold resolveReceiver
  split
  · exact (Mimics.pure (hgiven none false)).makes
  cases variableName with
  | none => exact hmade
  | some name =>
    refine .after (findBinding_maps name) (.findBinding name) ?_
    rintro (_ | b) _ rfl
    · exact hmade
    cases b with
    | fixed w => exact hmade
    | cell h => exact (Mimics.pure (hgiven (some h) true)).makes
    | captured h => exact (Mimics.pure (hgiven (some h) true)).makes
    | borrowed h => exact (Mimics.pure (hgiven (some h) false)).makes

theorem openReceiver_maps (r : Option Receiver) :
    Maps s ρ old old' (Option.map ρ.value) (openReceiver r) (openReceiver (r.map ρ.receiver)) := by
  rcases r with _ | ⟨v, _ | h, borrows, temporary⟩
  · exact .pure rfl
  · exact .pure rfl
  cases borrows with
  | true =>
    refine (Mimics.readArena fun _ _ ha => ha.beginExclusive h).bind ?_
    rintro ⟨w, a⟩ ⟨w', a'⟩ ⟨rfl, ha⟩
    exact (setArena_repeats ha).bind fun _ _ _ => .pure rfl
  | false => exact (borrowed_maps h).map_bind fun w => .pure rfl

theorem closeReceiver_repeats (r : Option Receiver) (self : Option Value) :
    Repeats s ρ old old' (closeReceiver r self) (closeReceiver (r.map ρ.receiver) (self.map ρ.value)) := by
  rcases r with _ | ⟨v, _ | h, borrows, temporary⟩
  · exact .pure trivial
  · exact .pure trivial
  have hend : Repeats s ρ old old'
      (if borrows then modify fun m => { m with arena := m.arena.endBorrow h } else pure ())
      (if borrows then modify fun m => { m with arena := m.arena.endBorrow (ρ.handle h) }
        else pure ()) :=
    .ite (.modify fun _ _ hm => { hm with arena := hm.arena.endBorrow h }) (.pure trivial)
  cases self with
  | none => exact hend
  | some w => exact (onArena_repeats fun _ _ ha => ha.setBorrowed h w).bind fun _ _ _ => hend

theorem nativeFault_failure (f : Function) (e : Failure) :
    nativeFault f (ρ.failure e) = ρ.fault (nativeFault f e) := by
  cases e <;> rfl

theorem checkResult_maps (f : Function) (v : Value) :
    Maps s ρ old old' (fun u => u) (lift (f.checkResult v)) (lift (f.checkResult (ρ.value v))) :=
  .lift (Renaming.checkResult_value v)

theorem callNative_repeats {f : Function} {code : Option Native}
    (hcode : ∀ run ∈ code, run.Mirrored ρ old old') (args : List Value) (r : Option Receiver)
    (out : Register) :
    Repeats s ρ old old' (callNative s f code args r none out)
      (callNative s f code (args.map ρ.value) (r.map ρ.receiver) none out) := by
  unfold callNative
  refine (openReceiver_maps r).map_bind fun self => .get_bind fun m m' hm => ?_
  rw [hm.frames, List.length_map]
  extract_lets o o'
  have ho : o.Mirrors ρ old old' o' := by
    cases code with
    | some run => exact hcode run rfl ⟨self, args, m.frames.length⟩ _ _ hm.host
    | none => exact ⟨hm.host, rfl, rfl⟩
  clear_value o o'
  obtain ⟨h, self, result⟩ := o
  obtain ⟨h', self', result'⟩ := o'
  obtain ⟨hhost, rfl, rfl⟩ := ho
  refine Mimics.bind (.modify fun _ _ ht => { ht with host := hhost }) fun _ _ _ => ?_
  refine (closeReceiver_repeats r self).bind fun _ _ _ => ?_
  cases result with
  | error e =>
    have hfail : Repeats s ρ old old' (fail (nativeFault f e)) (fail (ρ.fault (nativeFault f e))) :=
      .fail _
    rwa [← nativeFault_failure] at hfail
  | ok v =>
    refine (checkResult_maps f v).bind fun _ _ _ => ?_
    exact (remember_repeats none v).bind fun _ _ _ => deliver_repeats v out

theorem bindCaptures_repeats (scope : Scope) (closure : Value)
    (captures : List (Text × Captured Value)) :
    Repeats s ρ old old' (bindCaptures s scope closure captures)
      (bindCaptures s scope (ρ.value closure) (ρ.handedOver captures)) := by
  have hall : Repeats s ρ old old'
      (captures.forM fun c => do
        dropBinding s c.1
        modifyTop fun f => f.bind c.1
          (match c.2 with
            | .copy v => .fixed v
            | .cell h => .captured h))
      ((ρ.handedOver captures).forM fun c => do
        dropBinding s c.1
        modifyTop fun f => f.bind c.1
          (match c.2 with
            | .copy v => .fixed v
            | .cell h => .captured h)) := by
    refine Mimics.forM (fun c => ?_) captures
    refine (dropBinding_repeats c.1).bind fun _ _ _ => ?_
    obtain ⟨name, v | h⟩ := c
    · exact bindName_repeats name (.fixed v)
    · exact bindName_repeats name (.captured h)
  unfold bindCaptures
  cases scope.selfName with
  | none => exact hall
  | some name => exact (bindLet_repeats name closure).bind fun _ _ _ => hall

theorem bindReceiver_repeats (r : Receiver) :
    Repeats s ρ old old' (bindReceiver s r) (bindReceiver s (ρ.receiver r)) := by
  obtain ⟨v, _ | h, borrows, temporary⟩ := r
  · exact bindLet_repeats _ v
  have hself : Repeats s ρ old old' (modifyTop fun f => f.bind "self" (.borrowed h))
      (modifyTop fun f => f.bind "self" (.borrowed (ρ.handle h))) :=
    bindName_repeats _ (.borrowed h)
  have hborrow : Repeats s ρ old old'
      (do
        let r ← readArena fun a => a.beginExclusive h
        modify fun m => { m with arena := r.2 }
        modifyTop fun f => { f with borrow := some h }
        modifyTop fun f => f.bind "self" (.borrowed h))
      (do
        let r ← readArena fun a => a.beginExclusive (ρ.handle h)
        modify fun m => { m with arena := r.2 }
        modifyTop fun f => { f with borrow := some (ρ.handle h) }
        modifyTop fun f => f.bind "self" (.borrowed (ρ.handle h))) := by
    refine (Mimics.readArena fun _ _ ha => ha.beginExclusive h).bind ?_
    rintro ⟨w, a⟩ ⟨w', a'⟩ ⟨-, ha⟩
    refine (setArena_repeats ha).bind fun _ _ _ => ?_
    exact Mimics.bind (R := fun _ _ => True) (modifyTop_repeats fun f => rfl) fun _ _ _ => hself
  have hown : Repeats s ρ old old' (modifyTop fun f => { f with owned := f.owned ++ [h] })
      (modifyTop fun f => { f with owned := f.owned ++ [ρ.handle h] }) :=
    modifyTop_repeats fun f => by simp [Renaming.frame]
  cases temporary <;> cases borrows
  · exact hself
  · exact hborrow
  · exact hown.bind fun _ _ _ => hself
  · exact hown.bind fun _ _ _ => hborrow

theorem enter_repeats (f : Function) (args : List Value) (r : Option Receiver)
    (closure : Option ClosureCall) (out : Register) :
    Repeats s ρ old old' (enter s f args r none closure out)
      (enter s f (args.map ρ.value) (r.map ρ.receiver) none (closure.map ρ.closureCall) out) := by
  refine rootFrame_maps.map_bind fun root => (pushFrame_repeats _ root out).bind fun _ _ _ => ?_
  refine Mimics.bind (R := fun _ _ => True) (modifyTop_repeats fun g => rfl) fun _ _ _ => ?_
  refine (liftScope_maps (some f.scope)).map_bind fun scope => ?_
  have hargs : Repeats s ρ old old'
      (bindParams s scope.params args >>= fun _ => r.elim (pure ()) (bindReceiver s))
      (bindParams s scope.params (args.map ρ.value) >>= fun _ =>
        (r.map ρ.receiver).elim (pure ()) (bindReceiver s)) := by
    refine (bindParams_repeats scope.params args).bind fun _ _ _ => ?_
    cases r with
    | none => exact .pure trivial
    | some r => exact bindReceiver_repeats r
  cases closure with
  | none => cases r <;> exact hargs
  | some c => cases r <;> exact (bindCaptures_repeats scope c.1 c.2).bind fun _ _ _ => hargs

theorem invokeBody_maps {f : Function} (hf : f.Mirrored ρ old old') (args : List Value)
    (r : Option Receiver) (out : Register) (closure : Option ClosureCall) :
    Maps s ρ old old' (fun b => b) (invokeBody s f args r out closure)
      (invokeBody s f (args.map ρ.value) (r.map ρ.receiver) out (closure.map ρ.closureCall)) := by
  refine Mimics.map_bind (.lift (Renaming.acceptArgs_values hf.defaults args)) fun args => ?_
  rw [hf.forgetful]
  refine .get_bind fun m m' _ => ?_
  dsimp only [Option.bind_none]
  cases hb : f.body with
  | native code =>
    have hcode : ∀ run ∈ code, run.Mirrored ρ old old' := by
      rintro run ⟨⟩
      exact hf.native run hb
    exact (callNative_repeats hcode args r out).bind fun _ _ _ => .pure rfl
  | interpreted => exact (enter_repeats f args r closure out).bind fun _ _ _ => .pure rfl

theorem temporaryCell_receiver (r : Option Receiver) :
    temporaryCell (r.map ρ.receiver) = (temporaryCell r).map ρ.handle := by
  rcases r with _ | ⟨v, _ | h, borrows, _ | _⟩ <;> rfl

theorem invoke_repeats {f : Function} (hf : f.Mirrored ρ old old') (args : List Value)
    {r : Option Receiver} (hr : ∀ h ∈ temporaryCell r, h.index.toNat < ρ.limit) (out : Register)
    (closure : Option ClosureCall) :
    Repeats s ρ old old' (invoke s f args r out closure)
      (invoke s f (args.map ρ.value) (r.map ρ.receiver) out (closure.map ρ.closureCall)) := by
  have hbody := invokeBody_maps (s := s) hf args r out closure
  unfold invoke
  rw [temporaryCell_receiver]
  cases hcell : temporaryCell r with
  | none => exact hbody.bind fun _ _ _ => .pure trivial
  | some h =>
    have hrelease : ∀ m m' : Machine, m.Mirrors s ρ old old' m' →
        Machine.Mirrors s ρ old old' { m with arena := m.arena.releaseIfFree h }
          { m' with arena := m'.arena.releaseIfFree (ρ.handle h) } :=
      fun _ _ hm => { hm with arena := hm.arena.releaseIfFree (hr h hcell) }
    refine Mimics.map_bind (cleanup_mimics hbody hrelease) fun handedOver => ?_
    exact .ite (.modify hrelease) (.pure trivial)

theorem any_captures {run : Nat} {captures : List (Text × Captured Value)}
    {p : Text × Captured Value → Bool}
    (hcopy : ∀ name v, p (name, .copy (ρ.value v)) = p (name, .copy v))
    (hcell : ∀ name h, p (name, .cell (ρ.shared run h)) = p (name, .cell h)) :
    (captures.map fun c => (c.1, ρ.capture run c.2)).any p = captures.any p := by
  rw [List.any_map]
  refine congrArg (fun q => captures.any q) (funext fun c => ?_)
  obtain ⟨name, v | h⟩ := c
  · exact hcopy name v
  · exact hcell name h

/-- A closure is called if it shares no cells, or shares those of the run that is going on. -/
theorem invokeClosure_repeats (hs : ∀ f ∈ s.program.closures, f.Mirrored ρ old old') (callee : Value)
    (args : List Value) (out : Register) :
    Repeats s ρ old old' (invokeClosure s callee args out)
      (invokeClosure s (ρ.value callee) (args.map ρ.value) out) := by
  have hother : ∀ v : Value, Repeats s ρ old old'
      (fail (.typeError ("Cannot call a value of type " ++ v.typeName)))
      (fail (.typeError ("Cannot call a value of type " ++ (ρ.value v).typeName))) := by
    intro v
    rw [Renaming.typeName_value]
    exact .fail_plain rfl
  cases callee with
  | object o =>
    cases o with
    | closure id code captures =>
      rw [Renaming.value_object, Renaming.object_closure]
      refine Mimics.ite (.fail_plain rfl) (.get_bind fun m m' hm => ?_)
      dsimp only
      rw [any_captures, Renaming.code_run, hm.run]
      · simp only [ne_eq, Renaming.number_inj]
        split
        · exact .fail_plain rfl
        rename_i hown
        have hrun : ∀ c ∈ captures, ∀ k, c.2 = .cell k → ρ.time ≤ code.run := by
          rintro ⟨name, _⟩ hc k rfl
          have heq : code.run = m.runId := by
            by_contra hne
            refine hown (Bool.and_eq_true_iff.2 ⟨?_, decide_eq_true hne⟩)
            exact List.any_eq_true.2 ⟨_, hc, rfl⟩
          rw [heq]
          exact hm.dated
        rw [Renaming.captures_handedOver hrun, Renaming.code_function]
        cases hf : s.program.closures[code.function]? with
        | none => exact .fail_plain rfl
        | some f =>
          have hnone : ∀ h ∈ temporaryCell none, h.index.toNat < ρ.limit := fun h hh =>
            absurd hh (Option.not_mem_none h)
          have hinvoke := invoke_repeats (s := s) (hs f (Array.mem_of_getElem? hf)) args hnone out
            (some (.object (.closure id code captures), captures))
          rw [Option.map_some, Renaming.closureCall, Renaming.value_object, Renaming.object_closure,
            Renaming.captures_handedOver hrun] at hinvoke
          exact hinvoke
      · exact fun _ _ => rfl
      · exact fun _ _ => rfl
    | _ => exact hother _
  | _ => exact hother _

theorem captureVariable_maps (name : Text) :
    Maps s ρ old old' (Option.map fun c => (c.1, ρ.handed c.2)) (captureVariable name)
      (captureVariable name) := by
  refine (findBinding_maps name).map_bind fun found => ?_
  rcases found with _ | b
  · exact .pure rfl
  cases b with
  | fixed v => exact .pure rfl
  | cell h => exact (pin_repeats h).bind fun _ _ _ => .pure rfl
  | captured h => exact (pin_repeats h).bind fun _ _ _ => .pure rfl
  | borrowed h => exact (borrowed_maps h).map_bind fun v => .pure rfl

theorem captureVariables_maps (names : List Text) :
    Maps s ρ old old' ρ.handedOver (names.filterMapM captureVariable)
      (names.filterMapM captureVariable) := by
  induction names with
  | nil => exact .pure rfl
  | cons name names ih =>
    rw [List.filterMapM_cons]
    refine (captureVariable_maps name).map_bind fun c => ?_
    cases c with
    | none => exact ih
    | some c => exact ih.map_bind fun cs => .pure rfl

theorem makeClosure_repeats (function : Nat) (out : Register) :
    Repeats s ρ old old' (makeClosure s function out) (makeClosure s function out) := by
  unfold makeClosure
  cases s.program.closures[function]? with
  | none => exact .fail_plain rfl
  | some f =>
    refine (liftScope_maps (some f.scope)).map_bind fun body => ?_
    refine (captureVariables_maps body.captures).map_bind fun captures => ?_
    refine freshId_maps.map_bind fun id => .get_bind fun m m' hm => ?_
    have hwrite : ∀ v, Repeats s ρ old old' (writeRegister s out v) (writeRegister s out (ρ.value v)) :=
      writeRegister_repeats out
    have hwrite := hwrite (.object (.closure id ⟨s.program.id, function, f.name,
      f.signature.params.length, f.signature.display f.name, m.runId⟩ captures))
    rw [Renaming.value_object, Renaming.object_closure,
      Renaming.captures_handedOver fun _ _ _ _ => hm.dated] at hwrite
    rw [hm.run]
    exact hwrite

theorem findExtension_value (name : Text) (v : Value) :
    s.findExtension name (ρ.value v) = s.findExtension name v := by
  simp [Setup.findExtension, Registry.resolveExtension, Registry.extensionCandidates]

theorem findModuleExtension_value (module name : Text) (v : Value) :
    s.findModuleExtension module name (ρ.value v) = s.findModuleExtension module name v := by
  simp [Setup.findModuleExtension, Registry.resolveModuleExtension]

theorem invokeExtension_makes {f : Function} (hf : f.Mirrored ρ old old') (self : Value)
    (args : List Value) (variableName : Option Text) (out : Register) :
    Makes s ρ old old' (fun _ _ => True) (invokeExtension s f self args variableName out)
      (invokeExtension s f (ρ.value self) (args.map ρ.value) variableName out) := by
  refine (resolveReceiver_makes f self variableName).bind ?_
  rintro r _ ⟨rfl, hr⟩
  exact invoke_repeats hf args hr out none

theorem unknownFunction_mimics (what name : Text) :
    Repeats s ρ old old' (fail (s.unknownFunction what name)) (fail (s.unknownFunction what name)) :=
  .fail_plain rfl

theorem answersCall_value (receiver : Value) (name : Text) (args : List Value) :
    answersCall (ρ.value receiver) name (args.map ρ.value) = answersCall receiver name args := by
  cases receiver with
  | object o => simp [answersCall, Renaming.hasMethod_object, Renaming.hasMember_object]
  | _ => rfl

theorem objectAttribute_none {receiver : Value} {name : Text} {args : List Value}
    (h : answersCall receiver name args = false) : objectAttribute receiver name args = pure none := by
  cases receiver with
  | object o =>
    simp only [answersCall, Bool.or_eq_false_iff] at h
    simp [objectAttribute, h.1, h.2]
  | _ => rfl

theorem objectAttribute_mimics {receiver : Value} {name : Text} {args : List Value}
    (h : answersCall receiver name args = true) :
    Mimics s ρ old old' (fun a b => ∃ v, a = some v ∧ b = some (ρ.value v))
      (objectAttribute receiver name args) (objectAttribute (ρ.value receiver) name (args.map ρ.value)) := by
  cases receiver with
  | object o =>
    rw [Renaming.value_object]
    simp only [objectAttribute, Renaming.hasMethod_object, Renaming.hasMember_object,
      List.isEmpty_map]
    split
    · exact Mimics.map (Mimics.lift (Renaming.callMethod_object o name args)) fun v _ h => ⟨v, rfl, by rw [h]⟩
    · split
      · exact Mimics.map (Mimics.lift (Renaming.getMember_object o name)) fun v _ h => ⟨v, rfl, by rw [h]⟩
      · simp_all [answersCall]
  | _ => cases h

theorem attribute_repeats {receiver : Value} {name : Text} {args : List Value} {rest rest' : Exec Unit}
    (h : answersCall receiver name args = true) (out : Register) :
    Repeats s ρ old old'
      (do
        match ← objectAttribute receiver name args with
        | some v => writeRegister s out v
        | none => rest)
      (do
        match ← objectAttribute (ρ.value receiver) name (args.map ρ.value) with
        | some v => writeRegister s out v
        | none => rest') := by
  refine (objectAttribute_mimics h).bind ?_
  rintro _ _ ⟨v, rfl, rfl⟩
  exact writeRegister_repeats out v

theorem callFunction_makes {name : Text} {args : List Value}
    (hcalled : ∀ f, s.functionCalled name args = some f → f.Mirrored ρ old old') (out : Register) :
    Makes s ρ old old' (fun _ _ => True) (callFunction s name args out)
      (callFunction s name (args.map ρ.value) out) := by
  unfold Setup.functionCalled at hcalled
  unfold callFunction
  cases hf : s.findFunction name with
  | some f =>
    rw [hf] at hcalled
    exact (invoke_repeats (r := none) (hcalled f rfl) args nofun out none).makes
  | none =>
    rw [hf] at hcalled
    cases args with
    | nil => exact (unknownFunction_mimics _ _).makes
    | cons self others =>
      cases ha : answersCall self name others with
      | true => exact (attribute_repeats ha out).makes
      | false =>
        simp only [ha, Bool.false_eq_true, if_false] at hcalled
        simp only [List.map_cons, objectAttribute_none ha,
          objectAttribute_none ((answersCall_value self name others).trans ha), pure_bind]
        rw [findExtension_value]
        cases he : s.findExtension name self with
        | some f => exact invokeExtension_makes (hcalled f he) self others none out
        | none => exact (unknownFunction_mimics _ _).makes

theorem isClosure_value (v : Value) : isClosure (ρ.value v) = isClosure v := by
  cases v with
  | object o => cases o <;> simp [isClosure]
  | _ => simp [isClosure]

theorem callMethod_makes {name : Text} {receiver : Value} {args : List Value}
    (hs : ∀ f ∈ s.program.closures, f.Mirrored ρ old old')
    (hcalled : ∀ f, s.methodCalled name receiver args = some f → f.Mirrored ρ old old')
    (variableName : Option Text) (out : Register) :
    Makes s ρ old old' (fun _ _ => True) (callMethod s name receiver variableName args out)
      (callMethod s name (ρ.value receiver) variableName (args.map ρ.value) out) := by
  unfold Setup.methodCalled at hcalled
  unfold callMethod
  rw [isClosure_value, Renaming.typeName_value]
  cases hc : name == "call" && isClosure receiver with
  | true => exact (invokeClosure_repeats hs receiver args out).makes
  | false =>
    cases ha : answersCall receiver name args with
    | true => exact (attribute_repeats ha out).makes
    | false =>
      rw [objectAttribute_none ha,
        objectAttribute_none ((answersCall_value receiver name args).trans ha)]
      simp only [Bool.false_eq_true, if_false, pure_bind]
      rw [Renaming.mapMember_value]
      cases hm : mapMember receiver name args with
      | some v => exact (writeRegister_repeats out v).makes
      | none =>
        dsimp only [Option.map_none]
        simp only [hc, ha, hm, Option.isSome_none, Bool.or_self, Bool.false_eq_true, if_false] at hcalled
        rw [findExtension_value]
        cases he : s.findExtension name receiver with
        | some f =>
          refine invokeExtension_makes (hcalled f ?_) receiver args variableName out
          rw [he, Option.some_or]
        | none =>
          rw [he, Option.none_or] at hcalled
          cases hf : s.findFunction name with
          | some f => exact (invoke_repeats (r := none) (hcalled f hf) (receiver :: args) nofun out none).makes
          | none => exact (unknownFunction_mimics _ _).makes

theorem callModule_makes {module name : Text} {args : List Value}
    (hcalled : ∀ f, s.moduleCalled module name args = some f → f.Mirrored ρ old old')
    (out : Register) :
    Makes s ρ old old' (fun _ _ => True) (callModule s module name args out)
      (callModule s module name (args.map ρ.value) out) := by
  unfold Setup.moduleCalled at hcalled
  unfold callModule
  cases hf : s.findModuleFunction module name with
  | some f =>
    rw [hf] at hcalled
    exact (invoke_repeats (r := none) (hcalled f rfl) args nofun out none).makes
  | none =>
    rw [hf] at hcalled
    cases args with
    | nil => exact (unknownFunction_mimics _ _).makes
    | cons self others =>
      simp only [List.map_cons, findModuleExtension_value]
      cases he : s.findModuleExtension module name self with
      | some f => exact invokeExtension_makes (hcalled f he) self others none out
      | none => exact (unknownFunction_mimics _ _).makes

end Exec

end ScriptMachine
