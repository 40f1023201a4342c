import ScriptMachine.Proofs.Machine.Capturing
import ScriptMachine.Proofs.Program.Naming

set_option autoImplicit false

namespace ScriptMachine

theorem Program.codeOf_eq_map {p : Program} {i : Nat} {scope : Scope}
    (h : p.scope (some i) = .ok scope) (k : Nat) :
    (p.codeOf i)[k]? = (scope.code[k]?).map Instruction.operation := by
  obtain ⟨j, hj, hs⟩ := Program.scope_eq_ok.1 h
  cases hj
  rw [Program.codeOf_eq hs]
  simp [Scope.operations]

theorem Operation.made_of_ne {op : Operation} (h : ∀ j out, op ≠ .makeClosure j out) :
    op.made = [] := by
  cases op with
  | makeClosure j out => exact absurd rfl (h j out)
  | _ => rfl

theorem Machine.All.taken {P : Value → Prop} {m : Machine} {f : Frame} {rest : List Frame}
    (hm : m.All P) (hf : m.frames = f :: rest) (i : Instruction) : (m.taken f rest i).All P := by
  have hframes := hm.frames
  rw [hf] at hframes
  obtain ⟨htop, hrest⟩ := List.forall_mem_cons.1 hframes
  have hmoved : Frame.All P { f with pc := f.pc + 1 } := ⟨htop.registers, htop.bindings, htop.loop⟩
  exact ⟨List.forall_mem_cons.2 ⟨hmoved, hrest⟩, hm.arena, hm.memo, hm.halted, hm.result, hm.host⟩

namespace Exec

variable {G : Closure → Prop} {s : Setup} {f : Frame} {v : Value} {l : Loop}

theorem resetFrame_passes : Passes G (resetFrame s) fun _ => True := by
  refine Passes.top.bind fun f _ => (Passes.lift (scope_gives _ _)).bind fun scope _ => ?_
  refine (Passes.change fun _ hm => hm.discardAll s _).bind fun _ _ => Passes.modifyTop fun f hf => ?_
  exact ⟨freshRegisters_inherits scope, List.forall_mem_nil _, hf.loop⟩

theorem bindLoopVariables_passes (hl : l.All (Value.Holds G)) :
    Passes G (bindLoopVariables s l) fun _ => True :=
  Passes.top.bind fun _ _ => (Passes.lift (scope_gives _ _)).bind fun _ _ =>
    bindParams_passes _ (variableValues_inherits hl _)

theorem modifyLoop_passes (hl : l.All (Value.Holds G)) :
    Passes G (modifyTop fun f => { f with loop := some l }) fun _ => True := by
  refine Passes.modifyTop fun f hf => ⟨hf.registers, hf.bindings, fun l' hl' => ?_⟩
  cases hl'
  exact hl

theorem startLoop_passes (toMap : Bool) (hv : v.Holds G) (target : Target) (out : Register) :
    Passes G (startLoop s toMap v target out) fun _ => True := by
  refine (Passes.lift (elementCount_gives v)).bind fun count _ => ?_
  have hstart : (Loop.start v count toMap).All (Value.Holds G) := ⟨hv, nofun, nofun⟩
  dsimp only
  split
  · exact writeRegister_passes out (result_inherits hstart)
  · refine topIndex_passes.bind fun i _ => (pushFrame_passes target _ out).bind fun _ _ => ?_
    exact (modifyLoop_passes hstart).bind fun _ _ => bindLoopVariables_passes hstart

theorem complete_passes (f : Frame) (hv : v.Holds G) :
    Passes G (complete s f v) fun _ => True := by
  have hrest : Passes G (do
      popFrame s
      deliver s v f.out) fun _ => True :=
    (Passes.change fun _ hm => hm.popFrame s).bind fun _ _ => deliver_passes f.out hv
  unfold complete
  dsimp only
  split
  · refine (Passes.lift (Function.checkResult_gives v)).bind fun _ _ => ?_
    exact (remember_passes _ hv).bind fun _ _ => hrest
  · exact hrest

theorem returnFrom_passes (hv : v.Holds G) : Passes G (returnFrom s v) fun _ => True := by
  refine Passes.top.bind fun f hf => ?_
  split
  · exact complete_passes f hv
  · rename_i l hl
    refine (Passes.lift (accumulate_gives (hf.loop l hl) hv)).bind fun l' hl' => ?_
    have hnext : Loop.All (Value.Holds G) { l' with next := l'.next + 1 } :=
      ⟨hl'.source, hl'.items, hl'.entries⟩
    refine (modifyLoop_passes hnext).bind fun _ _ => ?_
    dsimp only
    split
    · exact resetFrame_passes.bind fun _ _ => bindLoopVariables_passes hnext
    · exact complete_passes f (result_inherits hnext)

theorem unwindBlocks_carries {m : Machine} (hm : m.Carries G) (frames : List Frame) :
    (unwindBlocks s frames m).Carries G := by
  fun_induction unwindBlocks s frames m with
  | case1 f g rest m _ ih => exact ih (hm.popFrame s)
  | case2 => exact hm
  | case3 => exact hm

theorem leave_passes (hv : v.Holds G) : Passes G (leave s v) fun _ => True :=
  (Passes.change fun m hm => unwindBlocks_carries hm m.frames).bind fun _ _ => returnFrom_passes hv

theorem readPairs_passes (hf : f.All (Value.Holds G)) (rs : List Register) :
    Passes G (readPairs s f rs) (Entries.All (Value.Holds G)) := by
  fun_induction readPairs s f rs with
  | case1 k w rest ih =>
    refine (readRegister_passes hf w).bind fun value hvalue => ?_
    refine (readRegister_passes hf k).bind fun key hkey => ih.bind fun es hes => ?_
    exact Passes.pure (List.forall_mem_cons.2 ⟨⟨hkey, hvalue⟩, hes⟩)
  | case2 => exact Passes.pure (List.forall_mem_nil _)

theorem modifyHost_passes {g : Host → Host} (hg : ∀ h, (g h).shared = h.shared) :
    Passes G (modifyHost g) fun _ => True := by
  refine Passes.change fun m hm => hm.withHost ?_
  unfold Host.All
  rw [hg]
  exact hm.host

theorem applyUnary_passes (op : UnaryOp) (hv : v.Holds G) :
    Passes G (applyUnary op v) (Value.Holds G) := by
  have hrest : Passes G (lift (op.apply v)) (Value.Holds G) := Passes.lift (op.apply_gives hv)
  unfold applyUnary
  dsimp only
  split
  · exact (modifyHost_passes (g := fun h => h.write _) fun _ => rfl).bind fun _ _ => hrest
  · exact (modifyHost_passes (g := fun h => h.complain _) fun _ => rfl).bind fun _ _ => hrest
  · exact hrest

theorem recordId_passes (op : BinaryOp) : Passes G (recordId op) fun _ => True := by
  unfold recordId
  split
  · exact freshId_passes
  · exact Passes.pure trivial

theorem applyBinary_passes {a b : Value} (op : BinaryOp) (ha : a.Holds G) (hb : b.Holds G) :
    Passes G (applyBinary op a b) (Value.Holds G) :=
  (recordId_passes op).bind fun id _ => Passes.lift (BinaryOp.apply_gives id op ha hb)

theorem enterBlock_passes (target : Target) (out : Register) :
    Passes G (enterBlock s target out) fun _ => True :=
  topIndex_passes.bind fun _ _ => pushFrame_passes target _ out

theorem callScope_passes (hf : f.All (Value.Holds G)) (target : Target) (args : List Register)
    (out : Register) : Passes G (callScope s f target args out) fun _ => True := by
  refine (Passes.lift (scope_gives _ _)).bind fun scope _ => ?_
  refine (readRegisters_passes hf args).bind fun values hvalues => ?_
  have hrest : ∀ parent : Option Nat, Passes G (do
      pushFrame s target parent out
      bindParams s scope.params values) fun _ => True := fun parent =>
    (pushFrame_passes target parent out).bind fun _ _ => bindParams_passes _ hvalues
  dsimp only
  split
  · exact rootFrame_passes.bind fun parent _ => hrest parent
  · exact (Passes.map (T := fun _ => True) topIndex_passes).bind fun parent _ => hrest parent

theorem castRegister_passes (hf : f.All (Value.Holds G)) (source out : Register)
    (type : DeclaredType) : Passes G (castRegister s f source out type) fun _ => True := by
  refine (readRegister_passes hf source).bind fun w hw => ?_
  have hcast := DeclaredType.cast_gives type hw
  split
  · rename_i u hu
    rw [hu] at hcast
    exact writeRegister_passes out hcast
  · rename_i e he
    rw [he] at hcast
    split
    · exact Passes.get.bind fun m _ => writeRegister_passes out (Hereditary.error.2 hcast)
    · exact Passes.fail hcast

theorem raise_passes (hv : v.Holds G) : Passes G (raise v) fun _ => True := by
  unfold raise
  split
  · exact Passes.fail (Hereditary.error.1 hv)
  · refine Passes.get.bind fun m _ => Passes.fail fun w hw => ?_
    cases hw
    exact hv

theorem log_passes (hf : f.All (Value.Holds G)) (level : LogLevel) (template : Text)
    (args : List Register) : Passes G (log s f level template args) fun _ => True := by
  unfold log
  split
  · exact (readRegisters_passes hf args).bind fun _ _ => modifyHost_passes fun _ => rfl
  · exact Passes.pure trivial

theorem halt_passes (hv : v.Holds G) :
    Passes G (modify fun m => { m with halted := some v }) fun _ => True := by
  refine Passes.change fun m hm => ⟨hm.frames, hm.arena, hm.memo, fun w hw => ?_, hm.result, hm.host⟩
  cases hw
  exact hv

theorem perform_passes (hs : s.Inert) (hf : f.All (Value.Holds G)) {op : Operation}
    (hliteral : ∀ v ∈ op.literal?, v.Holds G) (hmade : op.made = []) :
    Passes G (perform s f op) fun _ => True := by
  have hread := fun r => readRegister_passes (s := s) hf r
  have hreads := fun rs => readRegisters_passes (s := s) hf rs
  cases op with
  | halt source => exact (hread source).bind fun v hv => halt_passes hv
  | haltIfError source =>
    refine (hread source).bind fun v hv => ?_
    split
    · exact halt_passes hv
    · exact Passes.pure trivial
  | load literal out => exact writeRegister_passes out (hliteral literal rfl)
  | copy source out => exact (hread source).bind fun v hv => writeRegister_passes out hv
  | loadLet name source => exact (hread source).bind fun v hv => bindLet_passes name hv
  | loadMut name source => exact (hread source).bind fun v hv => bindMut_passes name hv
  | setVariable name source => exact (hread source).bind fun v hv => assignVariable_passes name hv
  | getVariable name out =>
    exact (readVariable_passes name).bind fun v hv => writeRegister_passes out hv
  | unary op source out =>
    refine (hread source).bind fun v hv => ?_
    exact (applyUnary_passes op hv).bind fun w hw => writeRegister_passes out hw
  | binary op left right out =>
    refine (hread right).bind fun b hb => (hread left).bind fun a ha => ?_
    exact (applyBinary_passes op ha hb).bind fun w hw => writeRegister_passes out hw
  | makeList items out =>
    exact (hreads items).bind fun vs hvs => writeRegister_passes out (Hereditary.list.2 hvs)
  | makeMap pairs out =>
    rw [perform]
    split
    · exact Passes.fail_plain rfl
    · refine (readPairs_passes hf pairs).bind fun es hes => ?_
      exact writeRegister_passes out (Hereditary.map.2 (Entries.all_ofPairs hes))
  | call target args out => exact callScope_passes hf target args out
  | callCompared equal left right target out =>
    refine (hread left).bind fun a _ => (hread right).bind fun b _ => ?_
    split
    · exact enterBlock_passes target out
    · exact Passes.pure trivial
  | ifElse condition target otherwise out =>
    refine (hread condition).bind fun v _ => ?_
    split
    · exact writeRegister_passes out Hereditary.none
    · exact enterBlock_passes _ out
  | branch truth condition target out =>
    refine (hread condition).bind fun v _ => ?_
    split
    · exact enterBlock_passes target out
    · exact writeRegister_passes out Hereditary.none
  | callFunction name args out =>
    exact (hreads args).bind fun vs hvs => callFunction_passes hs hvs name out
  | callMethod name receiver variableName args out =>
    refine (hread receiver).bind fun v hv => (hreads args).bind fun vs hvs => ?_
    exact callMethod_passes hs hv hvs name variableName out
  | callModule module name args out =>
    exact (hreads args).bind fun vs hvs => callModule_passes hs hvs module name out
  | tryCatch target handler errorName out =>
    refine (enterBlock_passes target out).bind fun _ _ => Passes.modifyTop fun f hf => ?_
    exact ⟨hf.registers, hf.bindings, hf.loop⟩
  | raise source => exact (hread source).bind fun v hv => raise_passes hv
  | cast source out type => exact castRegister_passes hf source out type
  | ret source => exact (hread source).bind fun v hv => returnFrom_passes hv
  | leave source => exact (hread source).bind fun v hv => leave_passes hv
  | makeClosure function out => cases hmade
  | callValue callee args out =>
    refine (hread callee).bind fun v hv => (hreads args).bind fun vs hvs => ?_
    exact invokeClosure_passes hs hv hvs out
  | makeRange start stop inclusive out =>
    refine (hread stop).bind fun b _ => (hread start).bind fun a _ => ?_
    exact (Passes.lift (Range.make_gives inclusive)).bind fun v hv => writeRegister_passes out hv
  | collect toMap source target out =>
    exact (hread source).bind fun v hv => startLoop_passes toMap hv target out
  | puts args => exact (hreads args).bind fun vs _ => modifyHost_passes fun _ => rfl
  | log level template args => exact log_passes hf level template args

variable {m m' : Machine} {rest : List Frame}

/-- What a step makes or loads is the only thing that comes in. -/
theorem step_passes (hs : s.Inert) (hm : m.Carries G) (hf : m.frames = f :: rest)
    (hliteral : ∀ op, (s.program.codeOf f.scope)[f.pc]? = some op → ∀ v ∈ op.literal?, v.Holds G)
    (hmade : ∀ j out, (s.program.codeOf f.scope)[f.pc]? = some (.makeClosure j out) →
      Answers out m.frames ∧ ∀ m' g id c, step s m = .ok ⟨⟩ m' → m'.frames = g :: rest →
        g.registers[out]? = some (.object (.closure id c.1 c.2)) → G c) :
    Ensures (step s) m (fun _ m' => m'.Carries G) fun e m' =>
      m'.Carries G ∧ ∀ v ∈ e.fault.payload, v.Holds G := by
  have hframes := hm.frames
  rw [hf] at hframes
  obtain ⟨htop, hrest⟩ := List.forall_mem_cons.1 hframes
  cases hscope : s.program.scope (some f.scope) with
  | error e =>
    refine Ensures.run (top_run hf) ?_
    rw [hscope]
    exact Ensures.throw ⟨hm, fun v hv => by simp [Trap.fault, scope_payload hscope] at hv⟩
  | ok scope =>
    cases hi : scope.code[f.pc]? with
    | none =>
      unfold Ensures
      rw [step_run_end hf hscope hi]
      exact (returnFrom_passes Hereditary.none m hm).imp fun _ _ h => h.1
    | some i =>
      have hop : (s.program.codeOf f.scope)[f.pc]? = some i.operation := by
        rw [Program.codeOf_eq_map hscope, hi]
        rfl
      have htaken : (m.taken f rest i).Carries G := hm.taken hf i
      have hrun := step_run hf hscope hi
      by_cases hmakes : ∃ j out, i.operation = .makeClosure j out
      · obtain ⟨j, out, hj⟩ := hmakes
        rw [hj] at hop hrun
        obtain ⟨hout, hG⟩ := hmade j out hop
        rw [hf] at hout
        have hmake : Ensures (perform s f (.makeClosure j out)) (m.taken f rest i) _ _ :=
          makeClosure_ensures j htaken rfl hout
        rw [← hj] at hrun hmake
        refine Ensures.intro (fun _ m' hx => ?_) fun e m' hx => ?_
        · obtain ⟨id, c, -, hm', hcarries⟩ := hmake.of_ok (hrun ▸ hx)
          refine hcarries (hG m' _ id c hx hm' ?_)
          exact Array.getElem?_setIfInBounds_self_of_lt hout.2
        · exact hmake.of_error (hrun ▸ hx)
      · unfold Ensures
        rw [hrun]
        refine (perform_passes hs htop (hliteral _ hop) ?_ _ htaken).imp fun _ _ h => h.1
        exact Operation.made_of_ne fun j out h => hmakes ⟨j, out, h⟩

theorem handle_passes {error : Fault} (f : Frame) (h : Handler)
    (he : ∀ v ∈ error.payload, v.Holds G) : Passes G (handle s f h error) fun _ => True := by
  unfold handle
  split
  · exact deliver_passes f.out (Hereditary.error.2 he)
  · refine (pushFrame_passes _ f.parent f.out).bind fun _ _ => ?_
    split
    · exact bindLet_passes _ (Hereditary.error.2 he)
    · exact Passes.pure trivial

end Exec

namespace Machine

variable {G : Closure → Prop} {s : Setup} {m m' : Machine}

theorem All.unwind {error : Fault} (hm : m.Carries G) (frames : List Frame)
    (he : ∀ v ∈ error.payload, v.Holds G) (trace : List Text) :
    (m.unwind s frames error trace).2.Carries G := by
  induction frames generalizing m error trace with
  | nil => exact ⟨hm.frames, hm.arena, hm.memo, hm.halted, hm.result, hm.host⟩
  | cons f below ih =>
    rw [Machine.unwind]
    split
    · exact ih (hm.popFrame s) he trace
    · rename_i h _
      have hhandle := Exec.handle_passes (s := s) f h he _ (hm.popFrame s)
      split
      · exact (hhandle.of_ok ‹_›).1
      · obtain ⟨hm', he'⟩ := hhandle.of_error ‹_›
        refine ih hm' ?_ _
        exact he'

theorem All.recover {error : Fault} (hm : m.Carries G) (s : Setup)
    (he : ∀ v ∈ error.payload, v.Holds G) : (m.recover s error).2.Carries G := by
  have he' : ∀ v ∈ (error.locatedAt m.location).payload, v.Holds G := he
  exact hm.unwind _ he' _

theorem All.settle (hm : m.Carries G) (s : Setup) : (m.settle s).Carries G := by
  have hpops : ∀ (fs : List Frame) (m : Machine), m.Carries G →
      (fs.foldl (fun m _ => m.popFrame s) m).Carries G := by
    intro fs
    induction fs with
    | nil => exact fun m hm => hm
    | cons f fs ih => exact fun m hm => ih _ (hm.popFrame s)
  have hreleases : ∀ (hs : List CellHandle) (a : Arena), a.All (Value.Holds G) →
      (hs.foldl (fun a h => a.releaseIfFree h) a).All (Value.Holds G) := by
    intro hs
    induction hs with
    | nil => exact fun a ha => ha
    | cons h hs ih => exact fun a ha => ih _ (ha.releaseIfFree h)
  have hpopped := hpops m.frames m hm
  refine ⟨hpopped.frames, ?_, hpopped.memo, nofun, hpopped.result, hpopped.host⟩
  change Arena.All _ (if s.options.keepCells then _ else _)
  split
  · exact hpopped.arena
  · exact hreleases _ _ hpopped.arena

theorem All.begin (hm : m.Carries G) (s : Setup) : (m.begin s).Carries G := by
  have hsettled := hm.settle s
  exact ⟨hsettled.frames, hsettled.arena, hsettled.memo, hsettled.halted, Hereditary.none,
    hsettled.host⟩

/-- The closure that the next step makes, as it stands in its register afterwards. -/
def Makes (s : Setup) (m : Machine) (c : Closure) : Prop :=
  ∃ f rest j out g m' id, m.frames = f :: rest ∧
    (s.program.codeOf f.scope)[f.pc]? = some (.makeClosure j out) ∧
    Exec.step s m = .ok ⟨⟩ m' ∧ m'.frames = g :: rest ∧
    g.registers[out]? = some (.object (.closure id c.1 c.2))

def Progress.state : Progress → Machine
  | .running m => m
  | .finished _ m => m

/-- A step brings in no closure but the one that it makes. -/
theorem advance_carries (hs : s.Inert) (hm : m.Carries G)
    (hliteral : ∀ f ∈ m.frames, ∀ op ∈ s.program.codeOf f.scope, ∀ v ∈ op.literal?, v.Holds G)
    (hanswers : ∀ f ∈ m.frames.head?, ∀ op ∈ s.program.codeOf f.scope, ∀ out, op.out? = some out →
      Answers out m.frames)
    (hmade : ∀ c, m.Makes s c → G c) : (m.advance s).state.Carries G := by
  unfold advance
  split
  · exact hm.settle s
  · rename_i hgoes
    obtain ⟨hne, hh⟩ : m.frames ≠ [] ∧ m.halted = none := by
      rw [Bool.or_eq_true, not_or] at hgoes
      exact ⟨by simpa using hgoes.1, by simpa using hgoes.2⟩
    obtain ⟨f, rest, hf⟩ := List.exists_cons_of_ne_nil hne
    have hstep : Ensures (Exec.step s) m (fun _ m' => m'.Carries G) fun e m' =>
        m'.Carries G ∧ ∀ v ∈ e.fault.payload, v.Holds G := by
      refine Exec.step_passes hs hm hf (fun op hop => ?_) fun j out hop => ⟨?_, ?_⟩
      · exact hliteral f (by simp [hf]) op (List.mem_of_getElem? hop)
      · exact hanswers f (by simp [hf]) _ (List.mem_of_getElem? hop) out rfl
      · intro m' g id c hok hm' hg
        exact hmade c ⟨f, rest, j, out, g, m', id, hf, hop, hok, hm', hg⟩
    split
    · exact hstep.of_ok ‹_›
    · obtain ⟨hm₁, he⟩ := hstep.of_error ‹_›
      have hrecovered := hm₁.recover s he
      split
      · rename_i hr
        rwa [hr] at hrecovered
      · rename_i hr
        rw [hr] at hrecovered
        exact All.settle hrecovered s

end Machine

end ScriptMachine
