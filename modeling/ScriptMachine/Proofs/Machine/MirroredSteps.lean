import ScriptMachine.Proofs.Machine.MirroredCalls
import ScriptMachine.Machine.Run

set_option autoImplicit false

namespace ScriptMachine

/-- The values in some registers of a frame, if it has all of them. -/
def Frame.valuesIn (f : Frame) (rs : List Register) : Option (List Value) :=
  rs.mapM fun r => f.registers[r]?

/-- The function that an operation of a frame calls by its name. -/
def Operation.Calls (s : Setup) (f : Frame) (g : Function) : Operation → Prop
  | .callFunction name args _ => ∃ vs ∈ f.valuesIn args, s.functionCalled name vs = some g
  | .callMethod name receiver _ args _ =>
    ∃ v ∈ f.registers[receiver]?, ∃ vs ∈ f.valuesIn args, s.methodCalled name v vs = some g
  | .callModule module name args _ => ∃ vs ∈ f.valuesIn args, s.moduleCalled module name vs = some g
  | _ => False

/-- The function that the next step of a machine calls by its name. -/
def Machine.Calls (s : Setup) (m : Machine) (g : Function) : Prop :=
  ∃ f ∈ m.frames.head?, ∃ scope, s.program.scope (some f.scope) = .ok scope ∧
    ∃ i ∈ scope.code[f.pc]?, i.operation.Calls s f g

def Operation.MakesCell : Operation → Prop
  | .loadMut _ _ | .callFunction _ _ _ | .callMethod _ _ _ _ _ | .callModule _ _ _ _ => True
  | _ => False

/-- Everything that is in the program itself does the same whatever the numbers are. -/
structure Setup.Mirrored (ρ : Renaming) (old old' : List Text) (s : Setup) : Prop where
  literals : ∀ scope ∈ s.program.scopes, ∀ i ∈ scope.code, ∀ v out, i.operation = .load v out →
    ρ.value v = v
  closures : ∀ f ∈ s.program.closures, f.Mirrored ρ old old'

namespace Exec

variable {ρ : Renaming} {old old' : List Text} {s : Setup}

theorem bindLoopVariables_repeats (l : Loop) :
    Repeats s ρ old old' (bindLoopVariables s l) (bindLoopVariables s (ρ.loop l)) := by
  refine top_maps.map_bind fun f => (liftScope_maps (some f.scope)).map_bind fun scope => ?_
  rw [Renaming.variableValues_loop]
  exact bindParams_repeats _ _

theorem startLoop_repeats (toMap : Bool) (source : Value) (target : Target) (out : Register) :
    Repeats s ρ old old' (startLoop s toMap source target out)
      (startLoop s toMap (ρ.value source) target out) := by
  refine Mimics.map_bind (.lift (Renaming.elementCount_value source)) fun count => ?_
  have hloop : Loop.start (ρ.value source) count toMap = ρ.loop (Loop.start source count toMap) := rfl
  dsimp only
  rw [hloop, Renaming.result_loop]
  refine .ite (writeRegister_repeats out _) (topIndex_maps.map_bind fun i => ?_)
  refine (pushFrame_repeats target (some i) out).bind fun _ _ _ => ?_
  refine Mimics.bind (R := fun _ _ => True) (modifyTop_repeats fun f => rfl) fun _ _ _ => ?_
  exact bindLoopVariables_repeats _

theorem complete_repeats (f : Frame) (v : Value) :
    Repeats s ρ old old' (complete s f v) (complete s (ρ.frame f) (ρ.value v)) := by
  have hleave : Repeats s ρ old old' (do popFrame s; deliver s v f.out)
      (do popFrame s; deliver s (ρ.value v) f.out) :=
    popFrame_repeats.bind fun _ _ _ => deliver_repeats v f.out
  unfold complete
  rw [Renaming.frame_function]
  cases f.function with
  | none => exact hleave
  | some fn =>
    refine (checkResult_maps fn v).bind fun _ _ _ => ?_
    exact (remember_repeats f.memoKey v).bind fun _ _ _ => hleave

theorem returnFrom_repeats (v : Value) :
    Repeats s ρ old old' (returnFrom s v) (returnFrom s (ρ.value v)) := by
  refine top_maps.map_bind fun f => ?_
  rw [Renaming.frame_loop]
  have hround : ∀ l : Loop, Repeats s ρ old old'
      (do
        modifyTop fun f => { f with loop := some l }
        if l.next < l.count then
          resetFrame s
          bindLoopVariables s l
        else complete s f l.result)
      (do
        modifyTop fun f => { f with loop := some (ρ.loop l) }
        if (ρ.loop l).next < (ρ.loop l).count then
          resetFrame s
          bindLoopVariables s (ρ.loop l)
        else complete s (ρ.frame f) (ρ.loop l).result) := by
    intro l
    refine Mimics.bind (R := fun _ _ => True) (modifyTop_repeats fun f => rfl) fun _ _ _ => ?_
    rw [Renaming.result_loop]
    exact .ite (resetFrame_repeats.bind fun _ _ _ => bindLoopVariables_repeats l)
      (complete_repeats f l.result)
  cases f.loop with
  | none => exact complete_repeats f v
  | some l =>
    refine Mimics.map_bind (.lift (Renaming.accumulate_loop l v)) fun l => ?_
    exact hround { l with next := l.next + 1 }

theorem unwindBlocks_mirrors {m m' : Machine} (hm : m.Mirrors s ρ old old' m') (fs : List Frame) :
    (unwindBlocks s fs m).Mirrors s ρ old old' (unwindBlocks s (fs.map ρ.frame) m') := by
  induction fs generalizing m m' with
  | nil => exact hm
  | cons f fs ih =>
    cases fs with
    | nil => exact hm
    | cons g fs =>
      simp only [List.map_cons, unwindBlocks] at ih ⊢
      have hinner : isInnerBlock s (ρ.frame f) = isInnerBlock s f := rfl
      rw [hinner]
      split
      · exact ih hm.popFrame
      · exact hm

theorem leave_repeats (v : Value) : Repeats s ρ old old' (leave s v) (leave s (ρ.value v)) := by
  refine Mimics.bind (R := fun _ _ => True) (.modify fun m m' hm => ?_) fun _ _ _ =>
    returnFrom_repeats v
  rw [hm.frames]
  exact unwindBlocks_mirrors hm m.frames

theorem readPairs_maps (f : Frame) (rs : List Register) :
    Maps s ρ old old' (List.map ρ.entry) (readPairs s f rs) (readPairs s (ρ.frame f) rs) := by
  fun_induction readPairs s f rs with
  | case1 k v rest ih =>
    refine (readRegister_maps f v).map_bind fun value => ?_
    refine (readRegister_maps f k).map_bind fun key => ih.map_bind fun entries => .pure rfl
  | case2 rs h =>
    rcases rs with _ | ⟨k, _ | ⟨v, rest⟩⟩
    · exact .pure rfl
    · exact .pure rfl
    · exact absurd rfl (h k v rest)

theorem write_mirrors {h h' : Host} (hh : h.Mirrors ρ old old' h') (t : Text) :
    (h.write t).Mirrors ρ old old' (h'.write t) := by
  obtain ⟨new, hnew, hnew'⟩ := hh.output
  refine ⟨hh.numbers, hh.dated, t :: new, ?_, ?_⟩
  · simp [Host.write, Console.write, hnew]
  · simp [Host.write, Console.write, hnew']

theorem log_mirrors {h h' : Host} (hh : h.Mirrors ρ old old' h') (level : LogLevel) (t : Text) :
    (h.log level t).Mirrors ρ old old' (h'.log level t) := by
  have hout : ∀ h : Host, (h.log level t).console.out = h.console.out := by
    intro h
    unfold Host.log Console.mirror
    split <;> rfl
  refine ⟨hh.numbers, hh.dated, ?_⟩
  rw [hout, hout]
  exact hh.output

theorem applyUnary_maps (op : UnaryOp) (v : Value) :
    Maps s ρ old old' ρ.value (applyUnary op v) (applyUnary op (ρ.value v)) := by
  have happly : Maps s ρ old old' ρ.value (lift (op.apply v)) (lift (op.apply (ρ.value v))) :=
    .lift (Renaming.apply_unary v op)
  unfold applyUnary
  rw [Renaming.printed?_value]
  cases op.printed? v with
  | none => exact happly
  | some printed =>
    cases printed with
    | out t => exact (modifyHost_repeats fun _ _ hh => write_mirrors hh t).bind fun _ _ _ => happly
    | err t =>
      refine Mimics.bind (R := fun _ _ => True) (modifyHost_repeats fun _ _ hh => ?_) fun _ _ _ => happly
      exact ⟨hh.numbers, hh.dated, hh.output⟩

theorem applyBinary_maps (op : BinaryOp) (a b : Value) :
    Maps s ρ old old' ρ.value (applyBinary op a b) (applyBinary op (ρ.value a) (ρ.value b)) := by
  unfold applyBinary recordId
  split
  · exact freshId_maps.map_bind fun i => .lift (Renaming.apply_binary i op a b)
  · have happly := Renaming.apply_binary (ρ := ρ) 0 op a b
    rw [BinaryOp.apply_identity _ 0 _ _ ‹_›] at happly
    exact Mimics.map_bind (g := fun i => i) (.pure rfl) fun i => by
      rw [BinaryOp.apply_identity i 0 _ _ ‹_›, BinaryOp.apply_identity i 0 _ _ ‹_›]
      exact .lift happly

theorem enterBlock_repeats (target : Target) (out : Register) :
    Repeats s ρ old old' (enterBlock s target out) (enterBlock s target out) :=
  topIndex_maps.map_bind fun i => pushFrame_repeats target (some i) out

theorem callScope_repeats (f : Frame) (target : Target) (args : List Register) (out : Register) :
    Repeats s ρ old old' (callScope s f target args out) (callScope s (ρ.frame f) target args out) := by
  refine (liftScope_maps target).map_bind fun scope => (readRegisters_maps f args).map_bind fun args => ?_
  have henter : ∀ parent, Repeats s ρ old old'
      (do pushFrame s target parent out; bindParams s scope.params args)
      (do pushFrame s target parent out; bindParams s scope.params (args.map ρ.value)) :=
    fun parent => (pushFrame_repeats target parent out).bind fun _ _ _ =>
      bindParams_repeats scope.params args
  refine .ite (rootFrame_maps.map_bind henter) ?_
  exact Mimics.map_bind (Mimics.map topIndex_maps fun _ _ h => congrArg some h) henter

theorem castRegister_repeats (f : Frame) (source out : Register) (type : DeclaredType) :
    Repeats s ρ old old' (castRegister s f source out type)
      (castRegister s (ρ.frame f) source out type) := by
  refine (readRegister_maps f source).map_bind fun v => ?_
  rw [Renaming.cast_value]
  cases type.cast v with
  | ok w => exact writeRegister_repeats out w
  | error e =>
    refine .ite (.get_bind fun m m' hm => ?_) (.fail e)
    have hwrite : ∀ v, Repeats s ρ old old' (writeRegister s out v) (writeRegister s out (ρ.value v)) :=
      writeRegister_repeats out
    have hwrite := hwrite (.error { e with location := m.location })
    rw [hm.location]
    rwa [Renaming.value_error] at hwrite

theorem raise_repeats (v : Value) : Repeats s ρ old old' (raise v) (raise (ρ.value v)) := by
  have hraise : ∀ v : Value, Repeats s ρ old old'
      (do
        let location := (← get).location
        fail { kind := .userRaised, message := v.display, payload := some v, location })
      (do
        let location := (← get).location
        fail { kind := .userRaised, message := (ρ.value v).display, payload := some (ρ.value v),
               location }) := by
    refine fun v => .get_bind fun m m' hm => ?_
    rw [hm.location, Renaming.display_value]
    exact .fail _
  cases v with
  | error e =>
    rw [Renaming.value_error]
    exact .fail e
  | _ => exact hraise _

theorem displays_values (vs : List Value) :
    (vs.map ρ.value).map Value.display = vs.map Value.display := by
  simp

theorem puts_repeats (vs : List Value) : Repeats s ρ old old' (puts vs) (puts (vs.map ρ.value)) := by
  unfold puts
  rw [displays_values]
  exact modifyHost_repeats fun _ _ hh => write_mirrors hh _

theorem log_repeats (f : Frame) (level : LogLevel) (template : Text) (args : List Register) :
    Repeats s ρ old old' (log s f level template args) (log s (ρ.frame f) level template args) := by
  refine .ite ((readRegisters_maps f args).map_bind fun values => ?_) (.pure trivial)
  rw [displays_values]
  exact modifyHost_repeats fun _ _ hh => log_mirrors hh level _

theorem readRegister_mimics (f : Frame) (r : Register) :
    Mimics s ρ old old' (fun v w => w = ρ.value v ∧ v ∈ f.registers[r]?) (readRegister s f r)
      (readRegister s (ρ.frame f) r) := by
  unfold readRegister
  rw [Renaming.frame_registers, Array.getElem?_map]
  cases f.registers[r]? with
  | some v => exact .pure ⟨rfl, rfl⟩
  | none => exact outOfRange_mimics f r

theorem readRegisters_mimics (f : Frame) (rs : List Register) :
    Mimics s ρ old old' (fun vs ws => ws = vs.map ρ.value ∧ vs ∈ f.valuesIn rs) (readRegisters s f rs)
      (readRegisters s (ρ.frame f) rs) := by
  unfold readRegisters Frame.valuesIn
  induction rs with
  | nil => exact .pure ⟨rfl, rfl⟩
  | cons r rs ih =>
    simp only [List.mapM_cons]
    refine (readRegister_mimics f r).bind ?_
    rintro v _ ⟨rfl, hv⟩
    refine ih.bind ?_
    rintro vs _ ⟨rfl, hvs⟩
    refine .pure ⟨rfl, ?_⟩
    rw [Option.mem_def.1 hv, Option.mem_def.1 hvs]
    rfl

theorem perform_repeats (hs : s.Mirrored ρ old old') (f : Frame) {op : Operation}
    (hload : ∀ v out, op = .load v out → ρ.value v = v) (hkeeps : ¬op.MakesCell) :
    Repeats s ρ old old' (perform s f op) (perform s (ρ.frame f) op) := by
  have hhalt : ∀ v, Repeats s ρ old old' (modify fun m => { m with halted := some v })
      (modify fun m => { m with halted := some (ρ.value v) }) :=
    fun v => .modify fun _ _ hm => { hm with halted := rfl }
  cases op with
  | halt source => exact (readRegister_maps f source).map_bind hhalt
  | haltIfError source =>
    refine (readRegister_maps f source).map_bind fun v => ?_
    rw [Renaming.isError_value]
    exact .ite (hhalt v) (.pure trivial)
  | load literal out =>
    have hwrite : Repeats s ρ old old' (writeRegister s out literal) (writeRegister s out (ρ.value literal)) :=
      writeRegister_repeats out literal
    rwa [hload literal out rfl] at hwrite
  | copy source out => exact (readRegister_maps f source).map_bind (writeRegister_repeats out)
  | loadLet name source => exact (readRegister_maps f source).map_bind (bindLet_repeats name)
  | setVariable name source => exact (readRegister_maps f source).map_bind (assignVariable_repeats name)
  | getVariable name out => exact (readVariable_maps name).map_bind (writeRegister_repeats out)
  | unary op source out =>
    refine (readRegister_maps f source).map_bind fun v => ?_
    exact (applyUnary_maps op v).map_bind (writeRegister_repeats out)
  | binary op left right out =>
    refine (readRegister_maps f right).map_bind fun b => (readRegister_maps f left).map_bind fun a => ?_
    exact (applyBinary_maps op a b).map_bind (writeRegister_repeats out)
  | makeList items out =>
    refine (readRegisters_maps f items).map_bind fun vs => ?_
    rw [← Renaming.value_list]
    exact writeRegister_repeats out _
  | makeMap pairs out =>
    refine .ite (.fail_plain rfl) ((readPairs_maps f pairs).map_bind fun entries => ?_)
    rw [Renaming.ofPairs_entries, ← Renaming.value_map]
    exact writeRegister_repeats out _
  | call target args out => exact callScope_repeats f target args out
  | callCompared equal left right target out =>
    refine (readRegister_maps f left).map_bind fun a => (readRegister_maps f right).map_bind fun b => ?_
    rw [Renaming.looseEquals_value]
    exact .ite (enterBlock_repeats target out) (.pure trivial)
  | ifElse condition target otherwise out =>
    refine (readRegister_maps f condition).map_bind fun v => ?_
    rw [Renaming.truthy_value]
    cases if v.truthy then target else otherwise with
    | none => exact writeRegister_repeats out .none
    | some i => exact enterBlock_repeats (some i) out
  | branch truth condition target out =>
    refine (readRegister_maps f condition).map_bind fun v => ?_
    rw [Renaming.truthy_value]
    exact .ite (enterBlock_repeats target out) (writeRegister_repeats out .none)
  | tryCatch target handler errorName out =>
    exact (enterBlock_repeats target out).bind fun _ _ _ => modifyTop_repeats fun f => rfl
  | raise source => exact (readRegister_maps f source).map_bind raise_repeats
  | cast source out type => exact castRegister_repeats f source out type
  | ret source => exact (readRegister_maps f source).map_bind returnFrom_repeats
  | leave source => exact (readRegister_maps f source).map_bind leave_repeats
  | makeClosure function out => exact makeClosure_repeats function out
  | callValue callee args out =>
    refine (readRegister_maps f callee).map_bind fun v => (readRegisters_maps f args).map_bind fun args => ?_
    exact invokeClosure_repeats hs.closures v args out
  | makeRange start stop inclusive out =>
    refine (readRegister_maps f stop).map_bind fun b => (readRegister_maps f start).map_bind fun a => ?_
    exact Mimics.map_bind (.lift (Renaming.makeRange_value a b inclusive)) (writeRegister_repeats out)
  | collect toMap source target out =>
    exact (readRegister_maps f source).map_bind fun v => startLoop_repeats toMap v target out
  | puts args => exact (readRegisters_maps f args).map_bind puts_repeats
  | log level template args => exact log_repeats f level template args
  | loadMut | callFunction | callMethod | callModule => exact absurd trivial hkeeps

/-- Every operation does the same on both machines, if the second one has a slot for the cell that it makes. -/
theorem perform_mirrors (hs : s.Mirrored ρ old old') (f : Frame) {op : Operation}
    (hload : ∀ v out, op = .load v out → ρ.value v = v)
    (hcalls : ∀ g, op.Calls s f g → g.Mirrored ρ old old') :
    Makes s ρ old old' (fun _ _ => True) (perform s f op) (perform s (ρ.frame f) op) := by
  by_cases hmakes : op.MakesCell
  · cases op with
    | loadMut name source =>
      refine .after (readRegister_maps f source) (.readRegister _ source) ?_
      rintro v _ rfl
      exact bindMut_makes name v
    | callFunction name args out =>
      refine .after (readRegisters_mimics f args) (.readRegisters _ args) ?_
      rintro vs _ ⟨rfl, hvs⟩
      exact callFunction_makes (fun g hg => hcalls g ⟨vs, hvs, hg⟩) out
    | callMethod name receiver variableName args out =>
      refine .after (readRegister_mimics f receiver) (.readRegister _ receiver) ?_
      rintro v _ ⟨rfl, hv⟩
      refine .after (readRegisters_mimics f args) (.readRegisters _ args) ?_
      rintro vs _ ⟨rfl, hvs⟩
      exact callMethod_makes hs.closures (fun g hg => hcalls g ⟨v, hv, vs, hvs, hg⟩) variableName out
    | callModule module name args out =>
      refine .after (readRegisters_mimics f args) (.readRegisters _ args) ?_
      rintro vs _ ⟨rfl, hvs⟩
      exact callModule_makes (fun g hg => hcalls g ⟨vs, hvs, hg⟩) out
    | _ => exact hmakes.elim
  · exact (perform_repeats hs f hload hmakes).makes

theorem scope_mem {target : Target} {scope : Scope} (h : s.program.scope target = .ok scope) :
    scope ∈ s.program.scopes := by
  unfold Program.scope at h
  split at h
  · cases h
  · split at h
    · cases h
      exact Array.mem_of_getElem? ‹_›
    · cases h

theorem taken_mirrors {m m' : Machine} (hm : m.Mirrors s ρ old old' m') (f : Frame) (rest : List Frame)
    (i : Instruction) :
    (m.taken f rest i).Mirrors s ρ old old' (m'.taken (ρ.frame f) (rest.map ρ.frame) i) := by
  unfold Machine.taken
  rw [hm.location]
  exact { hm with frames := rfl, location := rfl }

theorem step_run_nil {m : Machine} (hf : m.frames = []) :
    step s m = fail (.runtimeError "No frame") m := by
  have htop : top m = fail (.runtimeError "No frame") m := by
    have hget : (get : Exec Machine) m = .ok m m := rfl
    unfold top
    rw [run_bind hget, hf]
  simp only [step, Bind.bind, EStateM.bind, htop]
  rfl

theorem step_run_lost {m : Machine} {f : Frame} {rest : List Frame} {e : Fault}
    (hf : m.frames = f :: rest) (hscope : s.program.scope (some f.scope) = .error e) :
    step s m = fail e m := by
  unfold step
  rw [run_bind (top_run hf), hscope]
  rfl

/-- A step does the same on both machines, if the function that it calls does. -/
theorem step_agree (hs : s.Mirrored ρ old old') {m m' : Machine} (hm : m.Mirrors s ρ old old' m')
    (hcalls : ∀ g, m.Calls s g → g.Mirrored ρ old old') (hample : m'.arena.Ample) :
    Agree s ρ old old' (fun _ _ => True) (step s m) (step s m') := by
  cases hf : m.frames with
  | nil =>
    have hf' : m'.frames = [] := by rw [hm.frames, hf, List.map_nil]
    rw [step_run_nil hf, step_run_nil hf']
    exact Mimics.fail_plain rfl m m' hm
  | cons f rest =>
    have hf' : m'.frames = ρ.frame f :: rest.map ρ.frame := by rw [hm.frames, hf, List.map_cons]
    cases hscope : s.program.scope (some f.scope) with
    | error e =>
      rw [step_run_lost hf hscope, step_run_lost hf' hscope]
      exact Mimics.fail_plain (scope_payload hscope) m m' hm
    | ok scope =>
      cases hi : scope.code[f.pc]? with
      | none =>
        rw [step_run_end hf hscope hi, step_run_end hf' hscope hi]
        exact returnFrom_repeats .none m m' hm
      | some i =>
        rw [step_run hf hscope hi, step_run hf' hscope hi]
        refine perform_mirrors hs f (hs.literals scope (scope_mem hscope) i (Array.mem_of_getElem? hi))
          (fun g hg => hcalls g ⟨f, ?_, scope, hscope, i, hi, hg⟩) _ _ (taken_mirrors hm f rest i) hample
        rw [hf]
        rfl

end Exec

end ScriptMachine
