import ScriptMachine.Proofs.Machine.Termination

set_option autoImplicit false

namespace ScriptMachine

namespace Frame

variable {s : Setup} {f g h : Frame} {below : List Frame} {out : Register}

/-- What a frame keeps until it is left. -/
structure Stays (f g : Frame) : Prop where
  scope : g.scope = f.scope
  registers : g.registers.size = f.registers.size
  parent : g.parent = f.parent
  out : g.out = f.out
  handler : g.handler = f.handler
  function : g.function = f.function
  rounds : g.loop.isSome = f.loop.isSome

namespace Stays

theorem refl (f : Frame) : f.Stays f := ⟨rfl, rfl, rfl, rfl, rfl, rfl, rfl⟩

theorem trans (hf : f.Stays g) (hg : g.Stays h) : f.Stays h :=
  ⟨hg.scope.trans hf.scope, hg.registers.trans hf.registers, hg.parent.trans hf.parent,
    hg.out.trans hf.out, hg.handler.trans hf.handler, hg.function.trans hf.function,
    hg.rounds.trans hf.rounds⟩

theorem of_outline (ho : g.outline = f.outline) : f.Stays g := by
  have hloop : g.loop = f.loop := (congrArg Frame.loop ho :)
  exact ⟨(congrArg Frame.scope ho :), (registers_of_outline ho).1, (congrArg Frame.parent ho :), (congrArg Frame.out ho :),
    (congrArg Frame.handler ho :), (congrArg Frame.function ho :), by rw [hloop]⟩

theorem receive (v : Value) (f : Frame) : f.Stays (f.receive out v) :=
  ⟨rfl, Array.size_setIfInBounds, rfl, rfl, rfl, rfl, rfl⟩

theorem isInnerBlock (hf : f.Stays g) : Exec.isInnerBlock s g = Exec.isInnerBlock s f := by
  simp only [Exec.isInnerBlock, hf.function, hf.scope]

end Stays

/-- A frame and those below it go together. -/
structure Fits (s : Setup) (below : List Frame) (f : Frame) : Prop where
  housed : f.Housed s
  answers : Answers f.out below
  handler : ∀ h, f.handler = some h → below ≠ [] ∧
    ∀ i, h.scope = some i → ∃ scope, s.program.scope (some i) = .ok scope
  rounds : f.loop.isSome = true → Exec.isInnerBlock s f = true ∧ below ≠ []
  depth : below.length < s.options.maxDepth

theorem Fits.stays (hf : f.Fits s below) (hg : f.Stays g) : g.Fits s below := by
  refine ⟨?_, hg.out ▸ hf.answers, hg.handler ▸ hf.handler, ?_, hf.depth⟩
  · simpa only [Housed, hg.scope, hg.registers] using hf.housed
  · rw [hg.isInnerBlock, hg.rounds]
    exact hf.rounds

end Frame

def Fitted (s : Setup) : List Frame → Prop
  | [] => True
  | f :: below => f.Fits s below ∧ Fitted s below

/-- What a step makes of a stack. -/
inductive Moved (s : Setup) : List Frame → List Frame → Prop where
  | within {f g : Frame} {rest : List Frame} (hg : f.Stays g) : Moved s (f :: rest) (g :: rest)
  | entered {f g h : Frame} {rest : List Frame} (hg : f.Stays g) (hh : h.Fits s (g :: rest)) :
    Moved s (f :: rest) (h :: g :: rest)
  | left (popped : List Frame) {f : Frame} {rest : List Frame} (v : Value) :
    Moved s (popped ++ f :: rest) (rest.modifyHead (Frame.receive f.out v))

/-- The stack at which a step fails. -/
inductive Failed (s : Setup) : List Frame → List Frame → Prop where
  | within (popped : List Frame) {f g : Frame} {rest : List Frame} (hg : f.Stays g) :
    Failed s (popped ++ f :: rest) (g :: rest)
  | entered {f g h : Frame} {rest : List Frame} (hg : f.Stays g) (hh : h.Fits s (g :: rest))
    (hn : h.handler = none) : Failed s (f :: rest) (h :: g :: rest)

section Stack

variable {s : Setup} {f g : Frame} {fs fs' above rest : List Frame} {out : Register}

theorem Fitted.suffix (h : Fitted s (above ++ fs)) : Fitted s fs := by
  induction above with
  | nil => exact h
  | cons f above ih => exact ih h.2

theorem Fitted.stays (h : Fitted s (f :: rest)) (hg : f.Stays g) : Fitted s (g :: rest) :=
  ⟨h.1.stays hg, h.2⟩

theorem Fitted.receive (h : Fitted s fs) (v : Value) :
    Fitted s (fs.modifyHead (Frame.receive out v)) := by
  cases fs with
  | nil => trivial
  | cons f rest => exact h.stays (.receive v f)

theorem Moved.fitted (hm : Moved s fs fs') (h : Fitted s fs) : Fitted s fs' := by
  cases hm with
  | within hg => exact h.stays hg
  | entered hg hh => exact ⟨hh, h.stays hg⟩
  | left popped v => exact (h.suffix.2).receive v

theorem Failed.fitted (hm : Failed s fs fs') (h : Fitted s fs) : Fitted s fs' := by
  cases hm with
  | within popped hg => exact h.suffix.stays hg
  | entered hg hh => exact ⟨hh, h.stays hg⟩

theorem Moved.since (h : Moved s (g :: rest) fs) (hg : f.Stays g) : Moved s (f :: rest) fs := by
  generalize hs : g :: rest = gs at h
  cases h with
  | within hk =>
    cases hs
    exact .within (hg.trans hk)
  | entered hk hh =>
    cases hs
    exact .entered (hg.trans hk) hh
  | left popped v =>
    cases popped with
    | nil =>
      cases hs
      rw [hg.out]
      exact .left [] v
    | cons k popped =>
      cases hs
      exact .left (f :: popped) v

theorem Failed.since (h : Failed s (g :: rest) fs) (hg : f.Stays g) : Failed s (f :: rest) fs := by
  generalize hs : g :: rest = gs at h
  cases h with
  | within popped hk =>
    cases popped with
    | nil =>
      cases hs
      exact .within [] (hg.trans hk)
    | cons k popped =>
      cases hs
      exact .within (f :: popped) hk
  | entered hk hh hn =>
    cases hs
    exact .entered (hg.trans hk) hh hn

theorem Frame.Begun.fits {targets : List Target} (hf : f.Begun s out targets)
    (hout : Answers out fs) (hdepth : fs.length < s.options.maxDepth)
    (htargets : ∀ t ∈ targets, fs ≠ [] ∧ ∃ i, t = some i ∧ s.program.HasKind .block i) :
    f.Fits s fs := by
  refine ⟨hf.housed, hf.out ▸ hout, fun h hh => ?_, fun hl => ?_, hdepth⟩
  · rw [hf.handler] at hh
    cases hh
  · rcases hf.rounds with hnone | ⟨hfunction, hscope⟩
    · rw [hnone] at hl
      cases hl
    · obtain ⟨hne, i, hi, hkind⟩ := htargets _ hscope
      cases hi
      obtain ⟨scope, hat, hblock⟩ := Option.map_eq_some_iff.1 hkind
      have hat : s.program.scope (some f.scope) = .ok scope := Program.scope_eq_ok.2 ⟨_, rfl, hat⟩
      refine ⟨?_, hne⟩
      simp [Exec.isInnerBlock, hfunction, hat, hblock]

theorem Called.moves {targets : List Target} (h : Called s out targets (f :: rest) fs')
    (hout : Answers out (f :: rest))
    (htargets : ∀ t ∈ targets, ∃ i, t = some i ∧ s.program.HasKind .block i) :
    Moved s (f :: rest) fs' ∧ Failed s (f :: rest) fs' := by
  cases h with
  | same => exact ⟨.within (.refl f), .within [] (.refl f)⟩
  | answered v _ => exact ⟨.within (.receive v f), .within [] (.receive v f)⟩
  | entered hg hdepth =>
    have hfits := hg.fits hout hdepth fun t ht => ⟨List.cons_ne_nil _ _, htargets t ht⟩
    exact ⟨.entered (.refl f) hfits, .entered (.refl f) hfits hg.handler⟩

end Stack

namespace Exec

variable {s : Setup} {m : Machine} {f g : Frame} {rest : List Frame}

theorem complete_hands (g : Frame) (v : Value) (hf : m.frames = f :: rest)
    (hout : Answers g.out rest) :
    Ensures (complete s g v) m (fun _ m' => m'.frames = rest.modifyHead (Frame.receive g.out v))
      fun _ m' => m'.frames = f :: rest := by
  have hrest : ∀ m₁ : Machine, m₁.frames = f :: rest → Ensures (do
        popFrame s
        deliver s v g.out) m₁ (fun _ m' => m'.frames = rest.modifyHead (Frame.receive g.out v))
      fun _ m' => m'.frames = f :: rest := by
    intro m₁ hm₁
    have hpopped : (m₁.popFrame s).frames = rest := by
      rw [Machine.popFrame_frames, hm₁, List.tail_cons]
    refine Ensures.change_bind ((deliver_ensures v _).mono (fun _ m' h => ?_) fun _ m' h => ?_)
    · rw [h.2, hpopped]
    · exact absurd (hpopped ▸ hout) h.2
  unfold complete
  dsimp only
  split
  · rename_i fn _
    have hchecked : Steady (do
        lift (fn.checkResult v)
        remember g.memoKey v) id := (Steady.lift _).bind fun _ => remember_steady _ _
    have hbefore := (hchecked m).mono (fun _ _ h => h.eq.trans hf) fun _ _ h => h.eq.trans hf
    have hall := hbefore.bind fun _ m₁ hm₁ => hrest m₁ hm₁
    rwa [bind_assoc] at hall
  · exact hrest m hf

/-- A round begins with the registers that the frame was entered with. -/
theorem nextRound_stays (l : Loop) (hf : m.frames = g :: rest) (hg : f.Stays g)
    (hhoused : g.Housed s) :
    Ensures (do
        resetFrame s
        bindLoopVariables s l) m (fun _ m' => ∃ h, f.Stays h ∧ m'.frames = h :: rest)
      fun _ m' => ∃ h, f.Stays h ∧ m'.frames = h :: rest := by
  obtain ⟨scope, hscope, hsize⟩ := hhoused
  refine ((resetFrame_rewinds hf).mono (fun _ _ h => h) fun _ m₁ hm₁ => ?_).bind fun _ m₁ hm₁ => ?_
  · exact ⟨g, hg, by rw [hm₁, hf]⟩
  · obtain ⟨scope', hscope', hm₁⟩ := hm₁
    rw [hscope] at hscope'
    cases hscope'
    have hrewound : g.Stays { g with
        owned := [], bindings := [], registers := Frame.freshRegisters scope, pc := 0 } :=
      ⟨rfl, (Frame.size_freshRegisters scope).trans hsize.symm, rfl, rfl, rfl, rfl, rfl⟩
    have hagain : ∀ m', m₁.Tended m' Frame.outline → ∃ h, f.Stays h ∧ m'.frames = h :: rest := by
      intro m' h
      obtain ⟨k, hm', hk⟩ := h.cons hm₁
      exact ⟨k, (hg.trans hrewound).trans (.of_outline hk), hm'⟩
    exact (bindLoopVariables_steady _ m₁).mono (fun _ => hagain) fun _ => hagain

/-- A return hands its result on, or begins another round in the same frame. -/
theorem returnFrom_hands (v : Value) (hf : m.frames = f :: rest) (hfit : f.Fits s rest) :
    Ensures (returnFrom s v) m
      (fun _ m' => (∃ w, m'.frames = rest.modifyHead (Frame.receive f.out w)) ∨
        f.loop.isSome = true ∧ ∃ g, f.Stays g ∧ m'.frames = g :: rest)
      fun _ m' => ∃ g, f.Stays g ∧ m'.frames = g :: rest := by
  have hsame : ∀ m' : Machine, m'.frames = f :: rest → ∃ g, f.Stays g ∧ m'.frames = g :: rest :=
    fun m' h => ⟨f, .refl f, h⟩
  refine Ensures.run (top_run hf) ?_
  split
  · exact (complete_hands f v hf hfit.answers).mono (fun _ m' h => .inl ⟨v, h⟩) fun _ m' => hsame m'
  · rename_i l hloop
    have hsome : f.loop.isSome = true := by rw [hloop]; rfl
    refine ((lift_ensures _ m).mono (fun _ _ h => h) fun _ m' h => hsame m' (h ▸ hf)).bind
      fun l' m₁ hm₁ => ?_
    rw [hm₁.1]
    have hround : f.Stays { f with loop := some { l' with next := l'.next + 1 } } :=
      ⟨rfl, rfl, rfl, rfl, rfl, rfl, hsome.symm⟩
    dsimp only
    refine Ensures.run (modifyTop_run hf) ?_
    split
    · refine Ensures.imp (nextRound_stays _ rfl hround ?_) fun _ m' h => .inr ⟨hsome, h⟩
      exact (hfit.stays hround).housed
    · refine (complete_hands f _ rfl hfit.answers).mono (fun _ m' h => .inl ⟨_, h⟩) fun _ m' h => ?_
      exact ⟨_, hround, h⟩

theorem unwindBlocks_frames (frames : List Frame) (hf : m.frames = frames) (hne : frames ≠ []) :
    ∃ popped g below, frames = popped ++ g :: below ∧
      (unwindBlocks s frames m).frames = g :: below ∧ (isInnerBlock s g = true → below = []) := by
  induction frames generalizing m with
  | nil => exact absurd rfl hne
  | cons f rest ih =>
    cases rest with
    | nil => exact ⟨[], f, [], rfl, hf, fun _ => rfl⟩
    | cons g rest =>
      rw [unwindBlocks]
      split
      · have hpopped : (m.popFrame s).frames = g :: rest := by
          rw [Machine.popFrame_frames, hf, List.tail_cons]
        obtain ⟨popped, h, below, hsplit, hrest⟩ := ih hpopped (List.cons_ne_nil _ _)
        exact ⟨f :: popped, h, below, by rw [hsplit, List.cons_append], hrest⟩
      · exact ⟨[], f, g :: rest, rfl, hf, fun h => absurd h ‹_›⟩

theorem leave_hands (v : Value) (hfit : Fitted s m.frames) (hne : m.frames ≠ []) :
    ∃ popped g below, m.frames = popped ++ g :: below ∧ Ensures (leave s v) m
      (fun _ m' => ∃ w, m'.frames = below.modifyHead (Frame.receive g.out w))
      fun _ m' => ∃ h, g.Stays h ∧ m'.frames = h :: below := by
  obtain ⟨popped, g, below, hsplit, hg, hlast⟩ := unwindBlocks_frames (s := s) m.frames rfl hne
  have hgfit := (hsplit ▸ hfit : Fitted s (popped ++ g :: below)).suffix.1
  refine ⟨popped, g, below, hsplit, ?_⟩
  refine Ensures.change_bind ((returnFrom_hands v hg hgfit).imp fun _ m' h => ?_)
  rcases h with h | ⟨hl, -⟩
  · exact h
  · -- a frame with rounds is a block that is not at the bottom, so that the search has passed it
    obtain ⟨hblock, hbelow⟩ := hgfit.rounds hl
    exact absurd (hlast hblock) hbelow

theorem leave_moves (v : Value) (hfit : Fitted s m.frames) (hne : m.frames ≠ []) :
    Ensures (leave s v) m (fun _ m' => Moved s m.frames m'.frames) fun _ m' =>
      Failed s m.frames m'.frames := by
  obtain ⟨popped, g, below, hsplit, hands⟩ := leave_hands (s := s) v hfit hne
  rw [hsplit]
  refine hands.mono (fun _ m' h => ?_) fun _ m' h => ?_
  · obtain ⟨w, hm'⟩ := h
    rw [hm']
    exact .left popped w
  · obtain ⟨h, hstays, hm'⟩ := h
    rw [hm']
    exact .within popped hstays

theorem returnFrom_moves (v : Value) (hfit : Fitted s m.frames) (hf : m.frames = f :: rest) :
    Ensures (returnFrom s v) m (fun _ m' => Moved s m.frames m'.frames) fun _ m' =>
      Failed s m.frames m'.frames := by
  rw [hf] at hfit ⊢
  refine (returnFrom_hands v hf hfit.1).mono (fun _ m' h => ?_) fun _ m' h => ?_
  · rcases h with ⟨w, hm'⟩ | ⟨-, g, hg, hm'⟩
    · rw [hm']
      exact .left [] w
    · rw [hm']
      exact .within hg
  · obtain ⟨g, hg, hm'⟩ := h
    rw [hm']
    exact .within [] hg

theorem call_allowed (hp : s.program.WellFormed) {scope : Scope} {op : Operation} {out : Register}
    (hscope : s.program.scope (some f.scope) = .ok scope) (hop : op ∈ scope.operations)
    (hf : f.Housed s) (hout : op.out? = some out) :
    Answers out (f :: rest) ∧ s.program.Admits op := by
  obtain ⟨i, hi, hat⟩ := Program.scope_eq_ok.1 hscope
  have hmem : scope ∈ s.program.scopes := Array.mem_of_getElem? hat
  refine ⟨?_, hp.admits op ?_⟩
  · obtain ⟨scope', hscope', hsize⟩ := hf
    rw [hscope] at hscope'
    cases hscope'
    obtain ⟨hlow, hhigh⟩ := hp.writes scope hmem op hop out hout
    exact ⟨hlow, hsize ▸ Nat.lt_of_lt_of_le hhigh (Nat.le_max_left _ _)⟩
  · exact List.mem_flatMap.2 ⟨scope, Array.mem_toList_iff.2 hmem, hop⟩

theorem tryCatch_moves {target handler : Target} {errorName : Option Text} {out : Register}
    (f₀ : Frame) (hf : m.frames = f :: rest) (hanswers : Answers out (f :: rest))
    (hadmits : s.program.Admits (.tryCatch target handler errorName out)) :
    Ensures (perform s f₀ (.tryCatch target handler errorName out)) m
      (fun _ m' => Moved s m.frames m'.frames) fun _ m' => Failed s m.frames m'.frames := by
  refine (tryCatch_enters f₀ target handler errorName m).mono (fun _ m' h => ?_) fun _ m' h => ?_
  · obtain ⟨hdepth, g, hg, hm'⟩ := h
    rw [hf] at hdepth hm' ⊢
    rw [hm']
    have hfits := hg.fits hanswers hdepth nofun
    refine .entered (.refl f) ⟨hfits.housed, hfits.answers, fun h hh => ?_, hfits.rounds, hfits.depth⟩
    cases hh
    refine ⟨List.cons_ne_nil _ _, fun i hi => ?_⟩
    have hspare : some i ∈ Operation.spare (.tryCatch target handler errorName out) :=
      List.mem_singleton.2 hi.symm
    obtain ⟨caught, hcaught, -⟩ := Option.map_eq_some_iff.1 (hadmits.spare i hspare)
    exact ⟨caught, Program.scope_eq_ok.2 ⟨i, rfl, hcaught⟩⟩
  · rw [h, hf]
    exact .within [] (.refl f)

theorem return_moves {op : Operation} (f₀ : Frame) (hf : m.frames = f :: rest)
    (hfit : Fitted s m.frames) (hreturn : op.isReturn = true) :
    Ensures (perform s f₀ op) m (fun _ m' => Moved s m.frames m'.frames) fun _ m' =>
      Failed s m.frames m'.frames := by
  have hread : ∀ (source : Register) (x : Value → Exec Unit),
      (∀ v m', m'.frames = m.frames → Ensures (x v) m' (fun _ m'' => Moved s m'.frames m''.frames)
        fun _ m'' => Failed s m'.frames m''.frames) →
      Ensures (readRegister s f₀ source >>= x) m (fun _ m' => Moved s m.frames m'.frames)
        fun _ m' => Failed s m.frames m'.frames := by
    intro source x hx
    have hstill : Steady (readRegister s f₀ source) id := readRegister_steady s f₀ source
    refine ((hstill m).mono (fun _ _ h => h.eq) fun _ m' h => ?_).bind fun v m' hm' => ?_
    · rw [h.eq, hf]
      exact .within [] (.refl f)
    · rw [← hm']
      exact hx v m' hm'
  cases op with
  | ret source =>
    exact hread source _ fun v m' hm' => returnFrom_moves v (hm' ▸ hfit) (hm'.trans hf)
  | leave source =>
    refine hread source _ fun v m' hm' => leave_moves v (hm' ▸ hfit) ?_
    rw [hm', hf]
    exact List.cons_ne_nil _ _
  | _ => cases hreturn

theorem perform_shifts (hp : s.program.WellFormed) {scope : Scope} {op : Operation} (f₀ : Frame)
    (hf : m.frames = f :: rest) (hfit : Fitted s m.frames)
    (hscope : s.program.scope (some f.scope) = .ok scope) (hop : op ∈ scope.operations) :
    Ensures (perform s f₀ op) m (fun _ m' => Moved s m.frames m'.frames) fun _ m' =>
      Failed s m.frames m'.frames := by
  cases hcall : op.isCall with
  | true =>
    obtain ⟨out, hout⟩ := Operation.out?_of_isCall hcall
    have hhoused : f.Housed s := (hf ▸ hfit : Fitted s (f :: rest)).1.housed
    obtain ⟨hanswers, hadmits⟩ : Answers out (f :: rest) ∧ s.program.Admits op :=
      call_allowed hp hscope hop hhoused hout
    by_cases htry : ∃ target handler errorName out, op = .tryCatch target handler errorName out
    · obtain ⟨target, handler, errorName, out', rfl⟩ := htry
      cases hout
      exact tryCatch_moves f₀ hf hanswers hadmits
    · have hcalls := perform_calls (s := s) f₀ hcall (fun target handler errorName out h =>
        htry ⟨target, handler, errorName, out, h⟩) hout m
      rw [hf] at hcalls ⊢
      exact hcalls.mono (fun _ _ h => (h.moves hanswers hadmits.entered).1)
        fun _ _ h => (h.moves hanswers hadmits.entered).2
  | false =>
    cases hreturn : op.isReturn with
    | true => exact return_moves f₀ hf hfit hreturn
    | false =>
      refine (perform_steady f₀ hcall hreturn m).mono (fun _ m' h => ?_) fun _ m' h => ?_
      · obtain ⟨g, hm', hg⟩ := h.cons hf
        rw [hf, hm']
        exact .within (.of_outline hg)
      · obtain ⟨g, hm', hg⟩ := h.cons hf
        rw [hf, hm']
        exact .within [] (.of_outline hg)

theorem step_moves (hp : s.program.WellFormed) (hf : m.frames = f :: rest)
    (hfit : Fitted s m.frames) :
    Ensures (step s) m (fun _ m' => Moved s m.frames m'.frames) fun _ m' =>
      Failed s m.frames m'.frames := by
  have hfit' : Fitted s (f :: rest) := hf ▸ hfit
  obtain ⟨scope, hscope, -⟩ := hfit'.1.housed
  cases hi : scope.code[f.pc]? with
  | none =>
    unfold Ensures
    rw [step_run_end hf hscope hi]
    exact returnFrom_moves .none hfit hf
  | some i =>
    have htaken : f.Stays { f with pc := f.pc + 1 } := ⟨rfl, rfl, rfl, rfl, rfl, rfl, rfl⟩
    have hop : i.operation ∈ scope.operations :=
      List.mem_map_of_mem (Array.mem_toList_iff.2 (Array.mem_of_getElem? hi))
    unfold Ensures
    rw [step_run hf hscope hi, hf]
    exact (perform_shifts hp f (m := m.taken f rest i) rfl (hfit'.stays htaken) hscope hop).mono
      (fun _ _ h => h.since htaken) fun _ _ h => h.since htaken

end Exec

end ScriptMachine
