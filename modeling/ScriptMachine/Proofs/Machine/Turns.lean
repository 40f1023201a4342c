import ScriptMachine.Proofs.Machine.Flow
import ScriptMachine.Proofs.Machine.Openings
import ScriptMachine.Proofs.Machine.Recovery

set_option autoImplicit false

namespace ScriptMachine

theorem Operation.declares?_of_isCall {op : Operation} (h : op.isCall = true) : op.declares? = none := by
  cases op with
  | loadLet _ _ | loadMut _ _ => cases h
  | _ => rfl

theorem Operation.declares?_of_isReturn {op : Operation} (h : op.isReturn = true) :
    op.declares? = none := by
  cases op with
  | loadLet _ _ | loadMut _ _ => cases h
  | _ => rfl

/-- What a return makes of a stack: another round begins, or frames are left. -/
inductive Returned (s : Setup) : List Frame → List Frame → Prop where
  | round {f g : Frame} {rest : List Frame} {sc : Scope} (hloop : f.loop.isSome = true)
    (hsc : s.program.scopes[f.scope]? = some sc) (hg : f.Stays g)
    (hopened : g.Opened (sc.params.take 2) []) : Returned s (f :: rest) (g :: rest)
  | left (popped : List Frame) (f : Frame) (rest : List Frame) (out : Register) (v : Value) :
    Returned s (popped ++ f :: rest) (rest.modifyHead (Frame.receive out v))

/-- What a step makes of a stack, and of the variables in it. -/
inductive Turned (s : Setup) : List Frame → List Frame → Prop where
  | within {f g : Frame} {rest : List Frame} {op : Operation}
    (hop : (s.program.codeOf f.scope)[f.pc]? = some op)
    (hg : g.footing = Frame.footing { f with pc := f.pc + 1 })
    (hbound : ∀ n, op.declares? = some n → ∃ b, g.bindings.lookup n = some b)
    (hfree : ∀ n, op.declares? ≠ some n → g.bindings.lookup n = f.bindings.lookup n) :
    Turned s (f :: rest) (g :: rest)
  | entered {f h : Frame} {rest : List Frame} {op : Operation}
    (hop : (s.program.codeOf f.scope)[f.pc]? = some op) (hdeclares : op.declares? = none)
    (hh : op.Entered s f ({ f with pc := f.pc + 1 } :: rest) h) :
    Turned s (f :: rest) (h :: { f with pc := f.pc + 1 } :: rest)
  | returned {fs fs' : List Frame} (hdeclares : ∀ f ∈ fs.head?,
    declaredAt (s.program.codeOf f.scope) f.pc = none) (h : Returned s fs fs') : Turned s fs fs'

theorem Returned.since {s : Setup} {f g : Frame} {rest fs : List Frame} (h : Returned s (g :: rest) fs)
    (hg : f.Stays g) : Returned s (f :: rest) fs := by
  generalize hs : g :: rest = gs at h
  cases h with
  | round hloop hsc hk hopened =>
    cases hs
    exact .round (hg.rounds ▸ hloop) (hg.scope ▸ hsc) (hg.trans hk) hopened
  | left popped k below out v =>
    cases popped with
    | nil =>
      cases hs
      exact .left [] f _ out v
    | cons k' popped =>
      cases hs
      exact .left (f :: popped) k below out v

namespace Exec

variable {s : Setup} {m : Machine} {f f₀ : Frame} {rest : List Frame} {op : Operation} {sc : Scope}

/-- If a return begins another round, then with the loop variables alone. -/
theorem returnFrom_opens (v : Value) (hf : m.frames = f :: rest) (hanswers : Answers f.out rest)
    (hsc : s.program.scopes[f.scope]? = some sc) :
    Ensures (returnFrom s v) m
      (fun _ m' => ∀ g, m'.frames = g :: rest → g.Opened (sc.params.take 2) []) fun _ _ => True := by
  have hcomplete : ∀ (k : Frame) (w : Value) (m₁ : Machine), m₁.frames = k :: rest → 
      Ensures (complete s f w) m₁
        (fun _ m' => ∀ g, m'.frames = g :: rest → g.Opened (sc.params.take 2) []) fun _ _ => True := by
    intro k w m₁ hm₁
    refine (complete_hands f w hm₁ hanswers).mono (fun _ m' h g hg => ?_) fun _ _ _ => trivial
    have hlength := congrArg List.length (h.symm.trans hg)
    simp at hlength
  refine Ensures.run (top_run hf) ?_
  split
  · exact hcomplete f v m hf
  · refine ((lift_ensures _ m).mono (fun _ _ h => h) fun _ _ _ => trivial).bind fun l' m₁ h₁ => ?_
    obtain ⟨rfl, -⟩ := h₁
    dsimp only
    refine Ensures.run (modifyTop_run hf) ?_
    split
    · refine ((resetFrame_rewinds rfl).mono (fun _ _ h => h) fun _ _ _ => trivial).bind
        fun _ m₂ h₂ => ?_
      obtain ⟨sc', -, hm₂⟩ := h₂
      refine (bindLoopVariables_opens _ hm₂ rfl rfl hsc).imp fun _ m' h g hg => ?_
      exact (h g hg).2
    · exact hcomplete _ _ _ rfl

theorem returnFrom_turns (v : Value) (hf : m.frames = f :: rest) (hfit : f.Fits s rest) :
    Ensures (returnFrom s v) m (fun _ m' => Returned s (f :: rest) m'.frames) fun _ _ => True := by
  obtain ⟨sc, hsc, -⟩ := hfit.housed
  obtain ⟨i, hi, hsc⟩ := Program.scope_eq_ok.1 hsc
  cases hi
  have hhands := (returnFrom_hands (s := s) v hf hfit).mono (fun _ _ h => h)
    fun _ _ _ => (trivial : True)
  refine (Ensures.both hhands (returnFrom_opens v hf hfit.answers hsc)).mono (fun _ m' h => ?_)
    fun _ _ _ => trivial
  obtain ⟨⟨w, hm'⟩ | ⟨hloop, g, hg, hm'⟩, hopened⟩ := h
  · rw [hm']
    exact .left [] f rest f.out w
  · rw [hm']
    exact .round hloop hsc hg (hopened g hm')

theorem declare_binds (hdeclares : op.declares?.isSome) :
    Binds op.declares?.toList (fun _ _ => True) (perform s f₀ op) := by
  cases op with
  | loadLet name source =>
    exact Binds.after (readRegister_steady s f₀ source) fun v => bindLet_binds name trivial
  | loadMut name source =>
    exact Binds.after (readRegister_steady s f₀ source) fun v => bindMut_binds name v
  | _ => cases hdeclares

/-- A return leaves frames, or begins another round in the frame that it returns from. -/
theorem return_turns (f₀ : Frame) (hf : m.frames = f :: rest) (hfit : Fitted s m.frames)
    (hreturn : op.isReturn = true) :
    Ensures (perform s f₀ op) m (fun _ m' => Returned s (f :: rest) m'.frames) fun _ _ => True := by
  have hread : ∀ (source : Register) (x : Value → Exec Unit), (∀ v m', m'.frames = m.frames →
      Ensures (x v) m' (fun _ m'' => Returned s (f :: rest) m''.frames) fun _ _ => True) →
      Ensures (readRegister s f₀ source >>= x) m (fun _ m' => Returned s (f :: rest) m'.frames)
        fun _ _ => True := by
    intro source x hx
    have hstill : Steady (readRegister s f₀ source) id := readRegister_steady s f₀ source
    exact ((hstill m).mono (fun _ _ h => h.eq) fun _ _ _ => trivial).bind hx
  cases op with
  | ret source =>
    refine hread source _ fun v m' hm' => returnFrom_turns v (hm'.trans hf) ?_
    exact (hf ▸ hfit : Fitted s (f :: rest)).1
  | leave source =>
    refine hread source _ fun v m' hm' => ?_
    obtain ⟨popped, g, below, hsplit, hands⟩ := leave_hands (s := s) (m := m') v (hm' ▸ hfit) (by simp [hm', hf])
    rw [hm', hf] at hsplit
    rw [hsplit]
    refine hands.mono (fun _ m'' h => ?_) fun _ _ _ => trivial
    obtain ⟨w, hm''⟩ := h
    rw [hm'']
    exact .left popped g below g.out w
  | _ => cases hreturn

/-- A call answers at once, or enters a frame. -/
theorem call_turns (f₀ : Frame) (hf : m.frames = { f with pc := f.pc + 1 } :: rest)
    (hcall : op.isCall = true) :
    Ensures (perform s f₀ op) m (fun _ m' =>
      (∃ g, m'.frames = g :: rest ∧ g.footing = Frame.footing { f with pc := f.pc + 1 } ∧
        g.bindings = f.bindings) ∨
      ∃ h, m'.frames = h :: { f with pc := f.pc + 1 } :: rest) fun _ _ => True := by
  by_cases htry : ∃ target handler errorName out, op = .tryCatch target handler errorName out
  · obtain ⟨target, handler, errorName, out, rfl⟩ := htry
    refine (tryCatch_enters f₀ target handler errorName m).mono (fun _ m' h => ?_) fun _ _ _ => trivial
    obtain ⟨-, g, -, hm'⟩ := h
    exact .inr ⟨_, by rw [hm', hf]⟩
  · obtain ⟨out, hout⟩ := Operation.out?_of_isCall hcall
    have hcalls := perform_calls (s := s) f₀ hcall (fun target handler errorName out h =>
      htry ⟨target, handler, errorName, out, h⟩) hout m
    refine hcalls.mono (fun _ m' h => ?_) fun _ _ _ => trivial
    rw [hf] at h
    generalize m'.frames = fs at h
    cases h with
    | same => exact .inl ⟨_, rfl, rfl, rfl⟩
    | answered v hanswers =>
      refine .inl ⟨_, rfl, ?_, rfl⟩
      rw [← Frame.footing_outline, Frame.outline_receive hanswers.1, Frame.footing_outline]
    | entered _ _ => exact .inr ⟨_, rfl⟩

theorem perform_turns (hp : s.program.WellFormed) (hf : m.frames = { f with pc := f.pc + 1 } :: rest)
    (hfit : Fitted s m.frames) (hscope : s.program.scope (some f.scope) = .ok sc)
    (hop : (s.program.codeOf f.scope)[f.pc]? = some op) (hmem : op ∈ sc.operations)
    (hreturn : op.isReturn = false) :
    Ensures (perform s f op) m (fun _ m' => Turned s (f :: rest) m'.frames) fun _ _ => True := by
  have hfit' : Fitted s ({ f with pc := f.pc + 1 } :: rest) := hf ▸ hfit
  cases hcall : op.isCall with
  | true =>
    have hadmits : s.program.Admits op := by
      obtain ⟨out, hout⟩ := Operation.out?_of_isCall hcall
      exact (call_allowed hp hscope hmem hfit'.1.housed hout : Answers out (_ :: rest) ∧ _).2
    refine (Ensures.both (call_turns f hf hcall) (perform_opens f hcall hadmits m)).mono (fun _ m' h => ?_)
      fun _ _ _ => trivial
    obtain ⟨⟨g, hm', hfooting, hbindings⟩ | ⟨h, hm'⟩, hopens⟩ := h
    · rw [hm']
      refine .within hop hfooting (fun n hn => ?_) fun n _ => by rw [hbindings]
      rw [Operation.declares?_of_isCall hcall] at hn
      cases hn
    · rw [hm']
      rw [hf] at hopens
      exact .entered hop (Operation.declares?_of_isCall hcall) (hopens h hm')
  | false =>
    cases hdeclares : op.declares? with
    | none =>
      refine (perform_blind .setting f hcall hreturn hdeclares m).mono (fun _ m' h => ?_) fun _ _ _ => trivial
      obtain ⟨g, hm', hg⟩ := h.cons hf
      obtain ⟨hfooting, hbindings⟩ := Prod.mk.inj hg
      rw [hm']
      refine .within hop hfooting (by simp [hdeclares]) fun n _ => ?_
      rw [hbindings]
    | some name =>
      have hbinds : Binds op.declares?.toList (fun _ _ => True) (perform s f op) :=
        declare_binds (by simp [hdeclares])
      refine (hbinds m _ rest hf).imp fun _ m' h => ?_
      obtain ⟨g, hm', hfooting, hbound, hfree⟩ := h
      rw [hm']
      refine .within hop hfooting (fun n hn => ?_) fun n hn => ?_
      · obtain ⟨b, hb, -⟩ := hbound n (by simp [hn])
        exact ⟨b, hb⟩
      · exact hfree n (by simpa using hn)

/-- What a step does to variables. -/
theorem step_turns (hp : s.program.WellFormed) (hf : m.frames = f :: rest) (hfit : Fitted s m.frames) :
    Ensures (step s) m (fun _ m' => Turned s m.frames m'.frames) fun _ _ => True := by
  have hfit' : Fitted s (f :: rest) := hf ▸ hfit
  obtain ⟨sc, hscope, -⟩ := hfit'.1.housed
  rw [hf]
  cases hi : sc.code[f.pc]? with
  | none =>
    unfold Ensures
    rw [step_run_end hf hscope hi]
    have hend : (s.program.codeOf f.scope)[f.pc]? = none := by
      rw [Program.codeOf_eq_map hscope, hi]
      rfl
    exact (returnFrom_turns .none hf hfit'.1).imp fun _ _ h => .returned (by simp [declaredAt, hend]) h
  | some i =>
    have hop : (s.program.codeOf f.scope)[f.pc]? = some i.operation := by
      rw [Program.codeOf_eq_map hscope, hi]
      rfl
    have hmem : i.operation ∈ sc.operations :=
      List.mem_map_of_mem (Array.mem_toList_iff.2 (Array.mem_of_getElem? hi))
    have htaken : f.Stays { f with pc := f.pc + 1 } := ⟨rfl, rfl, rfl, rfl, rfl, rfl, rfl⟩
    unfold Ensures
    rw [step_run hf hscope hi]
    cases hreturn : i.operation.isReturn with
    | false => exact perform_turns hp (m := m.taken f rest i) rfl (hfit'.stays htaken) hscope hop hmem hreturn
    | true =>
      refine (return_turns f (m := m.taken f rest i) rfl (hfit'.stays htaken) hreturn).imp fun _ m' h => ?_
      refine .returned ?_ (h.since htaken)
      simp [declaredAt, hop, Operation.declares?_of_isReturn hreturn]

end Exec

end ScriptMachine
