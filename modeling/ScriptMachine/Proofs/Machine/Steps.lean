import ScriptMachine.Proofs.Machine.Rounds

set_option autoImplicit false

namespace ScriptMachine

namespace Exec

variable {s : Setup} {trust : Trust} {time : Nat} {transit : List CellHandle} {m : Machine}
  {f : Frame} {v : Value}

theorem readPairs_reads (hf : f.Within (m.Knows trust) m.runId) (rs : List Register) :
    Reads trust (readPairs s f rs) m (Entries.All (Value.Within (m.Knows trust))) := by
  fun_induction readPairs s f rs with
  | case1 k w rest ih =>
    refine (readRegister_reads hf w).bind fun value hvalue => ?_
    refine (readRegister_reads hf k).bind fun key hkey => ih.bind fun es hes => ?_
    exact Reads.pure (List.forall_mem_cons.2 ⟨⟨hkey, hvalue⟩, hes⟩)
  | case2 => exact Reads.pure (List.forall_mem_nil _)

theorem modifyHost_keeps {g : Host → Host} (hm : m.Sound s trust time transit)
    (hn : (g m.host).nextId = m.host.nextId) (hs : (g m.host).shared = m.host.shared) :
    Keeps s trust time transit (modifyHost g) m fun _ _ => True := by
  refine Safe.change (hm.withHost (fun _ => Nat.le_of_eq hn.symm) ?_) (.of_eq rfl rfl) trivial
  unfold Host.Within
  rw [hs]
  exact hm.known.host

theorem applyUnary_keeps (hm : m.Sound s trust time transit) (op : UnaryOp)
    (hv : v.Within (m.Knows trust)) :
    Keeps s trust time transit (applyUnary op v) m fun w m' => w.Within (m'.Knows trust) := by
  have hrest : ∀ m' : Machine, m'.Sound s trust time transit → m.Later trust m' →
      Keeps s trust time transit (lift (op.apply v)) m' fun w m' => w.Within (m'.Knows trust) := by
    intro m' hm' hl'
    refine (Safe.of_reads hm' (Reads.lift (op.apply_gives (hl'.value hv)))).imp ?_
    rintro w m'' ⟨rfl, hw⟩
    exact hw
  unfold applyUnary
  dsimp only
  split
  · exact (modifyHost_keeps hm rfl rfl).bind fun _ m' hm' hl' _ => hrest m' hm' hl'
  · exact (modifyHost_keeps hm rfl rfl).bind fun _ m' hm' hl' _ => hrest m' hm' hl'
  · exact hrest m hm (.refl m)

theorem recordId_keeps (hm : m.Sound s trust time transit) (op : BinaryOp) :
    Keeps s trust time transit (recordId op) m fun _ _ => True := by
  unfold recordId
  split
  · exact (freshId_keeps hm).imp fun _ _ _ => trivial
  · exact Safe.pure hm trivial

theorem applyBinary_keeps {a b : Value} (hm : m.Sound s trust time transit) (op : BinaryOp)
    (ha : a.Within (m.Knows trust)) (hb : b.Within (m.Knows trust)) :
    Keeps s trust time transit (applyBinary op a b) m fun w m' => w.Within (m'.Knows trust) := by
  refine (recordId_keeps hm op).bind fun id m' hm' hl' _ => ?_
  have hshares := BinaryOp.apply_gives id op (hl'.value ha) (hl'.value hb)
  refine (Safe.of_reads hm' (Reads.lift hshares)).imp ?_
  rintro w m'' ⟨rfl, hw⟩
  exact hw

theorem enterBlock_keeps (hm : m.Sound s trust time transit) (target : Target) (out : Register) :
    Keeps s trust time transit (enterBlock s target out) m fun _ m' => m'.frames ≠ [] := by
  refine Safe.get_bind ((pushFrame_keeps hm target _ out).imp fun _ m' ⟨scope, hf⟩ => ?_)
  simp [hf]

theorem callScope_keeps (hm : m.Sound s trust time transit)
    (hf : f.Within (m.Knows trust) m.runId) (target : Target) (args : List Register)
    (out : Register) : Keeps s trust time transit (callScope s f target args out) m fun _ _ => True := by
  refine Safe.read hm (Reads.lift (scope_gives _ _)) fun scope _ => ?_
  refine Safe.read hm (readRegisters_reads hf args) fun values hvalues => ?_
  have hrest : ∀ parent : Option Nat, Keeps s trust time transit (do
      pushFrame s target parent out
      bindParams s scope.params values) m fun _ _ => True := by
    intro parent
    refine (pushFrame_keeps hm target parent out).bind fun _ m' hm' hl' _ => ?_
    exact bindParams_keeps hm' scope.params (hl'.values hvalues)
  dsimp only
  split
  · exact Safe.read hm rootFrame_reads fun parent _ => hrest parent
  · refine Safe.read (R := fun _ => True) hm ?_ fun parent _ => hrest parent
    exact Reads.map (Reads.get_bind (Reads.pure trivial))

theorem castRegister_keeps (hm : m.Sound s trust time transit)
    (hf : f.Within (m.Knows trust) m.runId) (source out : Register) (type : DeclaredType) :
    Keeps s trust time transit (castRegister s f source out type) m fun _ _ => True := by
  refine Safe.read hm (readRegister_reads hf source) fun w hw => ?_
  have hcast := DeclaredType.cast_gives type hw
  split
  · rename_i u hu
    rw [hu] at hcast
    exact writeRegister_keeps hm out hcast
  · rename_i e he
    rw [he] at hcast
    split
    · exact Safe.get_bind (writeRegister_keeps hm out (Value.within_error.2 hcast))
    · exact Safe.fail hm hcast

theorem raise_reads (hv : v.Within (m.Knows trust)) : Reads trust (raise v) m fun _ => True := by
  unfold raise
  split
  · exact Reads.fail (Value.within_error.1 hv)
  · refine Reads.get_bind (Reads.fail fun w hw => ?_)
    cases hw
    exact hv

theorem log_keeps (hm : m.Sound s trust time transit) (hf : f.Within (m.Knows trust) m.runId)
    (level : LogLevel) (template : Text) (args : List Register) :
    Keeps s trust time transit (log s f level template args) m fun _ _ => True := by
  unfold log
  split
  · refine Safe.read hm (readRegisters_reads hf args) fun values _ => ?_
    exact modifyHost_keeps hm rfl rfl
  · exact Safe.pure hm trivial

theorem halt_keeps (hm : m.Sound s trust time transit) (hv : v.Within (m.Knows trust)) :
    Keeps s trust time transit (modify fun m => { m with halted := some v }) m fun _ _ => True := by
  refine Safe.change ⟨hm.custody, ?_⟩ (.of_eq rfl rfl) trivial
  refine ⟨hm.known.dated, hm.known.frames, hm.known.cells, hm.known.memo, fun w hw => ?_,
    hm.known.result, hm.known.host⟩
  cases hw
  exact hv

/-- An operation is safe; only the value that it may load has to be known. -/
theorem perform_keeps (hs : trust.natives → s.Honest time) (hm : m.Sound s trust time [])
    (hroom : trust.room → m.arena.Roomy) (hf : f.Within (m.Knows trust) m.runId) (op : Operation)
    (hliteral : ∀ w out, op = .load w out → w.Within (m.Knows trust)) :
    Keeps s trust time [] (perform s f op) m fun _ _ => True := by
  have hread := fun r => readRegister_reads (s := s) hf r
  have hreads := fun rs => readRegisters_reads (s := s) hf rs
  cases op with
  | halt source => exact Safe.read hm (hread source) fun v hv => halt_keeps hm hv
  | haltIfError source =>
    refine Safe.read hm (hread source) fun v hv => ?_
    split
    · exact halt_keeps hm hv
    · exact Safe.pure hm trivial
  | load literal out => exact writeRegister_keeps hm out (hliteral literal out rfl)
  | copy source out => exact Safe.read hm (hread source) fun v hv => writeRegister_keeps hm out hv
  | loadLet name source => exact Safe.read hm (hread source) fun v hv => bindLet_keeps hm name hv
  | loadMut name source => exact Safe.read hm (hread source) fun v hv => bindMut_keeps hm hroom name hv
  | setVariable name source =>
    exact Safe.read hm (hread source) fun v hv => assignVariable_keeps hm name hv
  | getVariable name out =>
    exact Safe.read hm (readVariable_reads hm name) fun v hv => writeRegister_keeps hm out hv
  | unary op source out =>
    refine Safe.read hm (hread source) fun v hv => ?_
    exact (applyUnary_keeps hm op hv).bind fun w m' hm' _ hw => writeRegister_keeps hm' out hw
  | binary op left right out =>
    refine Safe.read hm (hread right) fun b hb => Safe.read hm (hread left) fun a ha => ?_
    exact (applyBinary_keeps hm op ha hb).bind fun w m' hm' _ hw => writeRegister_keeps hm' out hw
  | makeList items out =>
    refine Safe.read hm (hreads items) fun vs hvs => ?_
    exact writeRegister_keeps hm out (Value.within_list.2 hvs)
  | makeMap pairs out =>
    rw [perform]
    split
    · exact Safe.fail hm (FaultOf.within_payload_none rfl)
    · refine Safe.read hm (readPairs_reads hf pairs) fun es hes => ?_
      exact writeRegister_keeps hm out (Value.within_map.2 (Entries.all_ofPairs hes))
  | call target args out => exact callScope_keeps hm hf target args out
  | callCompared equal left right target out =>
    refine Safe.read hm (hread left) fun a ha => Safe.read hm (hread right) fun b hb => ?_
    split
    · exact (enterBlock_keeps hm target out).imp fun _ _ _ => trivial
    · exact Safe.pure hm trivial
  | ifElse condition target otherwise out =>
    refine Safe.read hm (hread condition) fun v hv => ?_
    split
    · exact writeRegister_keeps hm out Value.within_none
    · exact (enterBlock_keeps hm _ out).imp fun _ _ _ => trivial
  | branch truth condition target out =>
    refine Safe.read hm (hread condition) fun v hv => ?_
    split
    · exact (enterBlock_keeps hm target out).imp fun _ _ _ => trivial
    · exact writeRegister_keeps hm out Value.within_none
  | callFunction name args out =>
    exact Safe.read hm (hreads args) fun vs hvs => callFunction_safe hs hm hroom hvs name out
  | callMethod name receiver variableName args out =>
    refine Safe.read hm (hread receiver) fun v hv => Safe.read hm (hreads args) fun vs hvs => ?_
    exact callMethod_safe hs hm hroom hv hvs name variableName out
  | callModule module name args out =>
    exact Safe.read hm (hreads args) fun vs hvs => callModule_safe hs hm hroom hvs module name out
  | tryCatch target handler errorName out =>
    refine (enterBlock_keeps hm target out).bind fun _ m' hm' _ _ => ?_
    exact modifyTop_keeps hm' fun f _ => ⟨rfl, fun hw => ⟨hw.registers, hw.bindings, hw.loop⟩⟩
  | raise source =>
    refine Safe.read hm (hread source) fun v hv => ?_
    exact (Safe.of_reads hm (raise_reads hv)).imp fun _ _ _ => trivial
  | cast source out type => exact castRegister_keeps hm hf source out type
  | ret source => exact Safe.read hm (hread source) fun v hv => returnFrom_keeps hm hv
  | leave source => exact Safe.read hm (hread source) fun v hv => leave_keeps hm hv
  | makeClosure function out => exact makeClosure_keeps hm function out
  | callValue callee args out =>
    refine Safe.read hm (hread callee) fun v hv => Safe.read hm (hreads args) fun vs hvs => ?_
    exact invokeClosure_safe hs hm hv hvs out
  | makeRange start stop inclusive out =>
    refine Safe.read hm (hread stop) fun b hb => Safe.read hm (hread start) fun a ha => ?_
    refine Safe.read hm (Reads.lift (Range.make_gives inclusive)) fun v hv => ?_
    exact writeRegister_keeps hm out hv
  | collect toMap source target out =>
    exact Safe.read hm (hread source) fun v hv => startLoop_keeps hm toMap hv target out
  | puts args =>
    exact Safe.read hm (hreads args) fun vs _ => modifyHost_keeps hm rfl rfl
  | log level template args => exact log_keeps hm hf level template args

theorem step_keeps (hs : trust.natives → s.Honest time) (hm : m.Sound s trust time [])
    (hroom : trust.room → m.arena.Roomy) :
    Keeps s trust time [] (step s) m fun _ _ => True := by
  refine Safe.read hm top_reads fun f ⟨rest, hf⟩ => ?_
  have hw := hm.within_top hf
  refine Safe.read hm (Reads.lift (scope_gives _ _)) fun scope hscope => ?_
  split
  · exact returnFrom_keeps hm Value.within_none
  · rename_i i hi
    have hmoved : Keeps s trust time [] (modifyTop fun f => { f with pc := f.pc + 1 }) m
        fun _ m' => m'.arena = m.arena :=
      modifyTop_safe hf (.of_eq rfl rfl) (hm.withTop hf rfl ⟨hw.registers, hw.bindings, hw.loop⟩) rfl
    have hperform : ∀ m' : Machine, m'.Sound s trust time [] → m.Later trust m' → m'.arena = m.arena →
        Keeps s trust time [] (perform s f i.operation) m' fun _ _ => True := by
      intro m' hm' hl' harena
      rw [← harena] at hroom
      refine perform_keeps hs hm' hroom (hl'.frame hw) i.operation fun w out hload c hc => ?_
      refine hm'.known.of_dated c fun ht => ?_
      have hmem : scope ∈ s.program.scopes := by
        simp only [Program.scope] at hscope
        split at hscope
        · cases hscope
          exact Array.mem_of_getElem? ‹_›
        · cases hscope
      exact (hs ht).literals scope hmem i (Array.mem_of_getElem? hi) w out hload c hc
    refine hmoved.bind fun _ m₁ hm₁ hl₁ harena => ?_
    dsimp only
    split
    · refine Safe.change_bind (.of_eq rfl rfl)
        (hperform _ ⟨hm₁.custody, ?_⟩ ⟨hl₁.run, hl₁.pinned⟩ harena)
      exact ⟨hm₁.known.dated, hm₁.known.frames, hm₁.known.cells, hm₁.known.memo, hm₁.known.halted,
        hm₁.known.result, hm₁.known.host⟩
    · exact hperform m₁ hm₁ hl₁ harena

theorem handle_keeps {error : Fault} (hm : m.Sound s trust time []) (f : Frame) (h : Handler)
    (he : error.Within (m.Knows trust)) :
    Keeps s trust time [] (handle s f h error) m fun _ _ => True := by
  unfold handle
  split
  · exact deliver_keeps hm f.out (Value.within_error.2 he)
  · refine (pushFrame_keeps hm _ f.parent f.out).bind fun _ m' hm' hl' _ => ?_
    split
    · exact bindLet_keeps hm' _ (Value.within_error.2 (he.mono hl'.knows))
    · exact Safe.pure hm' trivial

end Exec

namespace Machine

variable {s : Setup} {trust : Trust} {time : Nat} {m : Machine}

theorem unwind_sound {error : Fault} (hm : m.Sound s trust time []) (frames : List Frame)
    (he : error.Within (m.Knows trust)) (trace : List Text) :
    m.Later trust (m.unwind s frames error trace).2 ∧
      (m.unwind s frames error trace).2.Sound s trust time [] := by
  induction frames generalizing m error trace with
  | nil =>
    refine ⟨.of_eq rfl rfl, hm.custody, ?_⟩
    exact ⟨hm.known.dated, hm.known.frames, hm.known.cells, hm.known.memo, hm.known.halted,
      hm.known.result, hm.known.host⟩
  | cons f below ih =>
    obtain ⟨hlater, hsound⟩ := popFrame_sound hm
    have he' := he.mono hlater.knows
    rw [unwind]
    split
    · obtain ⟨hlater', hsound'⟩ := ih hsound he' trace
      exact ⟨hlater.trans hlater', hsound'⟩
    · rename_i h _
      have hhandle := Exec.handle_keeps hsound f h he'
      split
      · rename_i m' hok
        obtain ⟨hsound', hlater', -⟩ := hhandle.of_ok hok
        exact ⟨hlater.trans hlater', hsound'⟩
      · rename_i e m' herr
        obtain ⟨hsound', hlater', hfair⟩ := hhandle.of_error herr
        obtain ⟨hlater'', hsound''⟩ :=
          ih hsound' (FaultOf.within_locatedAt m'.location hfair.within) (below.map (Frame.label s))
        exact ⟨(hlater.trans hlater').trans hlater'', hsound''⟩

theorem recover_sound {error : Fault} (hm : m.Sound s trust time [])
    (he : error.Within (m.Knows trust)) :
    m.Later trust (m.recover s error).2 ∧ (m.recover s error).2.Sound s trust time [] :=
  unwind_sound hm m.frames (FaultOf.within_locatedAt m.location he) _

theorem advance_sound {m' : Machine} (hs : trust.natives → s.Honest time) (hm : m.Sound s trust time [])
    (hroom : trust.room → m.arena.Roomy) (ha : m.advance s = .running m') :
    m.Later trust m' ∧ m'.Sound s trust time [] := by
  have hstep := Exec.step_keeps hs hm hroom
  unfold advance at ha
  split at ha
  · cases ha
  · split at ha
    · rename_i m₁ hok
      cases ha
      obtain ⟨hsound, hlater, -⟩ := hstep.of_ok hok
      exact ⟨hlater, hsound⟩
    · rename_i e m₁ herr
      obtain ⟨hsound, hlater, hfair⟩ := hstep.of_error herr
      obtain ⟨hlater', hsound'⟩ := recover_sound hsound hfair.within
      split at ha
      · rename_i m₂ hrecover
        cases ha
        rw [hrecover] at hlater' hsound'
        exact ⟨hlater.trans hlater', hsound'⟩
      · cases ha

end Machine

end ScriptMachine
