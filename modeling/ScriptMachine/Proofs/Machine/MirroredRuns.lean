import ScriptMachine.Proofs.Machine.MirroredSteps
import ScriptMachine.Proofs.Machine.Recovery

set_option autoImplicit false

namespace ScriptMachine

theorem Trap.script_tame (f : Fault) : (Trap.script f).Tame := by
  intro e h
  cases h

namespace Renaming

def runResult (ρ : Renaming) : RunResult → RunResult
  | .ok v => .ok (ρ.value v)
  | .fault e => .fault (ρ.fault e)
  | .unfinished => .unfinished

theorem trap_fault {ρ : Renaming} {e : Trap} (he : e.Tame) : (ρ.trap e).fault = ρ.fault e.fault := by
  cases e with
  | script e => rfl
  | cell e =>
    rw [he e rfl]
    rfl

end Renaming

inductive Machine.Progress.Mirrors (s : Setup) (ρ : Renaming) (old old' : List Text) :
    Machine.Progress → Machine.Progress → Prop where
  | running {m m' : Machine} (h : m.Mirrors s ρ old old' m') : Mirrors s ρ old old' (.running m) (.running m')
  | finished (r : RunResult) {m m' : Machine} (h : m.Mirrors s ρ old old' m') :
      Mirrors s ρ old old' (.finished r m) (.finished (ρ.runResult r) m')

namespace Exec

variable {ρ : Renaming} {old old' : List Text} {s : Setup}

theorem handle_repeats (f : Frame) (h : Handler) (error : Fault) :
    Repeats s ρ old old' (handle s f h error) (handle s (ρ.frame f) h (ρ.fault error)) := by
  have herror : ρ.value (.error error) = .error (ρ.fault error) := Renaming.value_error error
  obtain ⟨target, name⟩ := h
  cases target with
  | none =>
    have hdeliver : Repeats s ρ old old' (deliver s (.error error) f.out)
        (deliver s (ρ.value (.error error)) f.out) := deliver_repeats (.error error) f.out
    rwa [herror] at hdeliver
  | some i =>
    refine (pushFrame_repeats (some i) f.parent f.out).bind fun _ _ _ => ?_
    cases name with
    | none => exact .pure trivial
    | some n =>
      have hbind : Repeats s ρ old old' (bindLet s n (.error error))
          (bindLet s n (ρ.value (.error error))) := bindLet_repeats n (.error error)
      rwa [herror] at hbind

end Exec

namespace Machine

variable {ρ : Renaming} {old old' : List Text} {s : Setup} {time : Nat} {m m' : Machine}

theorem labels_frames (fs : List Frame) :
    (fs.map ρ.frame).map (Frame.label s) = fs.map (Frame.label s) := by
  rw [List.map_map]
  rfl

/-- The next step calls no function that would do something else if the numbers were others, and has
no report of the arena to make but a conflict. -/
structure Faithful (ρ : Renaming) (old old' : List Text) (s : Setup) (m : Machine) : Prop where
  calls : ∀ g, m.Calls s g → g.Mirrored ρ old old'
  tame : ∀ e t, Exec.step s m = .error e t → e.Tame

namespace Mirrors

theorem unwind (hm : m.Mirrors s ρ old old' m') (fs : List Frame) (error : Fault) (trace : List Text) :
    (m'.unwind s (fs.map ρ.frame) (ρ.fault error) trace).1 =
        (m.unwind s fs error trace).1.map ρ.fault ∧
      (m.unwind s fs error trace).2.Mirrors s ρ old old'
        (m'.unwind s (fs.map ρ.frame) (ρ.fault error) trace).2 := by
  induction fs generalizing error trace m m' with
  | nil => exact ⟨rfl, { hm with trace := rfl }⟩
  | cons f below ih =>
    rw [List.map_cons, Machine.unwind, Machine.unwind, Renaming.frame_handler]
    cases f.handler with
    | none => exact ih hm.popFrame error trace
    | some h =>
      have hhandle := Exec.handle_repeats (s := s) f h error _ _ (hm.popFrame (s := s))
      dsimp only
      cases hr : Exec.handle s f h error (m.popFrame s) with
      | ok a t =>
        rw [hr] at hhandle
        obtain ⟨b, t', hr', -, ht⟩ := hhandle
        rw [hr']
        exact ⟨rfl, ht⟩
      | error e t =>
        rw [hr] at hhandle
        obtain ⟨x, rfl⟩ := (Exec.handle_plain s f h error _).of_error hr
        obtain ⟨t', hr', ht⟩ := hhandle (Trap.script_tame x)
        rw [hr']
        dsimp only
        rw [labels_frames, ht.location]
        exact ih ht (x.locatedAt t.location) (below.map (Frame.label s))

theorem recover (hm : m.Mirrors s ρ old old' m') (error : Fault) :
    (m'.recover s (ρ.fault error)).1 = (m.recover s error).1.map ρ.fault ∧
      (m.recover s error).2.Mirrors s ρ old old' (m'.recover s (ρ.fault error)).2 := by
  unfold Machine.recover
  rw [hm.frames, hm.location, labels_frames]
  exact hm.unwind m.frames (error.locatedAt m.location) (m.frames.map (Frame.label s))

theorem popAll (hm : m.Mirrors s ρ old old' m') :
    (m.popAll s).Mirrors s ρ old old' (m'.popAll s) := by
  unfold Machine.popAll
  rw [hm.frames]
  generalize m.frames = fs
  induction fs generalizing m m' with
  | nil => exact hm
  | cons f fs ih => exact ih hm.popFrame

theorem settle (hm : m.Mirrors s ρ old old' m') : (m.settle s).Mirrors s ρ old old' (m'.settle s) := by
  have hpop := hm.popAll (s := s)
  have harena : s.options.keepCells = false → ∀ (hs : List CellHandle) (a a' : Arena), a.Mirrors ρ a' →
      Arena.Mirrors ρ (hs.foldl (fun a h => a.releaseIfFree h) a)
        ((hs.map ρ.handle).foldl (fun a h => a.releaseIfFree h) a') := by
    intro hkeep hs
    induction hs with
    | nil => exact fun _ _ ha => ha
    | cons h hs ih => exact fun _ _ ha => ih _ _ (ha.releaseIfFree (hm.covers hkeep h))
  refine { hpop with arena := ?_, pinned := rfl, halted := rfl }
  unfold Machine.settle releasePinned
  dsimp only
  rw [hpop.pinned]
  split
  · exact hpop.arena
  · exact harena (Bool.eq_false_iff.2 ‹_›) _ _ _ hpop.arena

theorem outcome (hm : m.Mirrors s ρ old old' m') : m'.outcome = ρ.runResult m.outcome := by
  unfold Machine.outcome
  rw [hm.halted, hm.result]
  cases m.halted <;> rfl

/-- One step, and the recovery from its fault. -/
theorem advance (hs : s.Mirrored ρ old old') (hm : m.Mirrors s ρ old old' m') (hm₀ : m.Faithful ρ old old' s)
    (hample : m'.arena.Ample) :
    Progress.Mirrors s ρ old old' (m.advance s) (m'.advance s) := by
  have hstep := Exec.step_agree hs hm hm₀.calls hample
  have hdone : (m'.frames.isEmpty || m'.halted.isSome) = (m.frames.isEmpty || m.halted.isSome) := by
    rw [hm.frames, hm.halted, List.isEmpty_map, Option.isSome_map]
  unfold Machine.advance
  rw [hdone, hm.outcome]
  split
  · exact .finished _ hm.settle
  cases hr : Exec.step s m with
  | ok a t =>
    rw [hr] at hstep
    obtain ⟨b, t', hr', -, ht⟩ := hstep
    rw [hr']
    exact .running ht
  | error e t =>
    rw [hr] at hstep
    have he := hm₀.tame e t hr
    obtain ⟨t', hr', ht⟩ := hstep he
    rw [hr']
    dsimp only
    rw [Renaming.trap_fault he]
    obtain ⟨hfault, hrecovered⟩ := ht.recover (s := s) e.fault
    generalize t.recover s e.fault = r at hfault hrecovered ⊢
    generalize t'.recover s (ρ.fault e.fault) = r' at hfault hrecovered ⊢
    obtain ⟨left, t₁⟩ := r
    obtain ⟨left', t₁'⟩ := r'
    dsimp only at hfault hrecovered
    subst hfault
    cases left with
    | none => exact .running hrecovered
    | some e => exact .finished (.fault e) hrecovered.settle

/-- A run of both machines. The first one has room for a cell wherever the second one has. -/
theorem runFor (hs : s.Mirrored ρ old old') (hhonest : s.Honest time) (hm : m.Mirrors s ρ old old' m')
    (hsound : m.Sound s .everything time [])
    (hcalls : ∀ t, m.Runs s t → ∀ g, t.Calls s g → g.Mirrored ρ old old')
    (hroom : ∀ t', m'.Runs s t' → t'.arena.WellFormed ∧ t'.arena.Roomy) (n : Nat) :
    (m'.runFor s n).1 = ρ.runResult (m.runFor s n).1 ∧
      (m.runFor s n).2.Mirrors s ρ old old' (m'.runFor s n).2 := by
  induction n generalizing m m' with
  | zero => exact ⟨rfl, hm.settle⟩
  | succ n ih =>
    obtain ⟨hwellFormed, hroomy'⟩ := hroom m' (.refl m')
    have hroomy : m.arena.Roomy := Nat.lt_of_le_of_lt hm.arena.live hroomy'
    have hfaithful : m.Faithful ρ old old' s := by
      refine ⟨hcalls m (.refl m), fun e t herr => ?_⟩
      have hstep := Exec.step_keeps (fun _ => hhonest) hsound fun _ => hroomy
      exact (hstep.of_error herr).2.2.cell trivial
    have hadvance := hm.advance hs hfaithful (hwellFormed.size_lt hroomy')
    unfold Machine.runFor
    cases ha : m.advance s with
    | running t =>
      have hsound := (advance_sound (fun _ => hhonest) hsound (fun _ => hroomy) ha).2
      rw [ha] at hadvance
      cases ha' : m'.advance s with
      | running t' =>
        rw [ha'] at hadvance
        cases hadvance with
        | running ht => exact ih ht hsound (fun u hu => hcalls u (hu.first ha)) fun u hu => hroom u (hu.first ha')
      | finished r t' =>
        rw [ha'] at hadvance
        cases hadvance
    | finished r t =>
      rw [ha] at hadvance
      generalize m'.advance s = p' at hadvance
      cases hadvance with
      | finished r ht => exact ⟨rfl, ht⟩

end Mirrors

/-- Idle machines begin their runs alike, whatever place each of them noted last. -/
theorem begin_mirrors {trust trust' : Trust} {time' : Nat} (hm : m.Idle s trust time)
    (hm' : m'.Idle s trust' time') (hwhole : s.options.keepCells = false → ρ.limit = 2 ^ 32)
    (ha : m.arena.Mirrors ρ m'.arena) (hh : m.host.Mirrors ρ old old' m'.host) :
    (m.begin s).Mirrors s ρ old old' { m'.begin s with location := m.location } := by
  have hnumbers : ∀ k, ρ.number (m.host.nextId + 1 + k) = m'.host.nextId + 1 + k := by
    intro k
    have hk := hh.numbers (1 + k)
    rwa [← Nat.add_assoc, ← Nat.add_assoc] at hk
  unfold begin
  rw [hm.settle_eq, hm'.settle_eq]
  exact
    { whole := hwhole
      frames := by simp [hm.frames, hm'.frames]
      arena := ha
      halted := by simp [hm.halted, hm'.halted]
      result := rfl
      location := rfl
      trace := rfl
      pinned := by simp [hm.pinned, hm'.pinned]
      run := (hh.numbers 0).symm
      dated := hh.dated
      host := ⟨hnumbers, Nat.le_succ_of_le hh.dated, hh.output⟩ }

def StartsPlaced (s : Setup) : Prop :=
  ∃ scope i, s.program.scope (some 0) = .ok scope ∧ scope.code[0]? = some i ∧ i.location.known = true

/-- What an entry leaves behind for all to see is the same on both machines. -/
structure SameEnd (ρ : Renaming) (old old' : List Text) (p p' : RunResult × Machine) : Prop where
  result : p'.1 = ρ.runResult p.1
  trace : p'.2.faultTrace = p.2.faultTrace
  output : ∃ new, p.2.host.console.out = new ++ old ∧ p'.2.host.console.out = new ++ old'

section Relocated

variable {f : Frame} {rest : List Frame} {scope : Scope} {i : Instruction}

theorem advance_relocated (hf : m.frames = f :: rest) (hh : m.halted = none)
    (hscope : s.program.scope (some f.scope) = .ok scope) (hi : scope.code[f.pc]? = some i)
    (hknown : i.location.known = true) (l : Location) :
    advance s { m with location := l } = m.advance s := by
  have hstep : Exec.step s { m with location := l } = Exec.step s m := by
    rw [Exec.step_run hf hscope hi, Exec.step_run (m := { m with location := l }) hf hscope hi]
    simp [taken, hknown]
  unfold advance
  rw [hstep]
  simp [hf, hh]

theorem runs_relocated (hf : m.frames = f :: rest) (hh : m.halted = none)
    (hscope : s.program.scope (some f.scope) = .ok scope) (hi : scope.code[f.pc]? = some i)
    (hknown : i.location.known = true) {l : Location} (hr : Runs s { m with location := l } m') :
    m' = { m with location := l } ∨ m.Runs s m' := by
  induction hr with
  | refl => exact .inl rfl
  | next _ ha ih =>
    rcases ih with rfl | hr
    · rw [advance_relocated hf hh hscope hi hknown] at ha
      exact .inr (.next (.refl m) ha)
    · exact .inr (.next hr ha)

theorem settle_keeps (m : Machine) :
    (m.settle s).faultTrace = m.faultTrace ∧ (m.settle s).host = m.host := by
  have hpop : ∀ m : Machine, (m.popFrame s).faultTrace = m.faultTrace ∧ (m.popFrame s).host = m.host := by
    intro m
    cases hf : m.frames with
    | nil => simp [popFrame, hf]
    | cons f rest =>
      rw [popFrame_eq hf]
      exact ⟨rfl, rfl⟩
  have hall : ∀ (fs : List Frame) (m : Machine),
      (fs.foldl (fun m _ => m.popFrame s) m).faultTrace = m.faultTrace ∧
        (fs.foldl (fun m _ => m.popFrame s) m).host = m.host := by
    intro fs
    induction fs with
    | nil => exact fun m => ⟨rfl, rfl⟩
    | cons f fs ih => exact fun m => ⟨(ih _).1.trans (hpop m).1, (ih _).2.trans (hpop m).2⟩
  exact hall m.frames m

/-- Runs of machines that mirror one another but for the place noted last, where the next instruction
has a known place. -/
theorem runFor_sameEnd (m m' : Machine) (hs : s.Mirrored ρ old old') {l : Location}
    (hm : m.Mirrors s ρ old old' { m' with location := l }) (hf : m'.frames = f :: rest)
    (hh : m'.halted = none) (hscope : s.program.scope (some f.scope) = .ok scope)
    (hi : scope.code[f.pc]? = some i) (hknown : i.location.known = true) (hhonest : s.Honest time)
    (hsound : m.Sound s .everything time [])
    (hcalls : ∀ t, m.Runs s t → ∀ g, t.Calls s g → g.Mirrored ρ old old')
    (hroom : ∀ t', m'.Runs s t' → t'.arena.WellFormed ∧ t'.arena.Roomy) (n : Nat) :
    SameEnd ρ old old' (m.runFor s n) (m'.runFor s n) := by
  cases n with
  | zero =>
    obtain ⟨htrace, hhost⟩ := settle_keeps (s := s) m
    obtain ⟨htrace', hhost'⟩ := settle_keeps (s := s) m'
    refine ⟨rfl, htrace'.trans (hm.trace.trans htrace.symm), ?_⟩
    simp only [runFor, hhost, hhost']
    exact hm.host.output
  | succ n =>
    have hsame : runFor s (n + 1) { m' with location := l } = runFor s (n + 1) m' := by
      unfold runFor
      rw [advance_relocated hf hh hscope hi hknown]
    have hroom' : ∀ t', Runs s { m' with location := l } t' → t'.arena.WellFormed ∧ t'.arena.Roomy := by
      intro t' hr
      rcases runs_relocated hf hh hscope hi hknown hr with rfl | hr
      · exact hroom m' (.refl m')
      · exact hroom t' hr
    obtain ⟨hresult, hend⟩ := hm.runFor hs hhonest hsound hcalls hroom' (n + 1)
    rw [hsame] at hresult hend
    exact ⟨hresult, hend.trace, hend.host.output⟩

end Relocated

/-- A run of the top level enters its scope, if the stack may hold one frame. -/
theorem run_eq {trust : Trust} {scope : Scope} (hm : m.Idle s trust time)
    (hscope : s.program.scope (some 0) = .ok scope) :
    m.run s =
      if s.options.maxDepth ≤ 0 then
        (.fault (.runtimeError ("Stack overflow: exceeded " ++ Text.ofNat s.options.maxDepth)),
          m.begin s)
      else
        runFor s s.options.budget
          { m.begin s with frames := [Exec.entered scope (some 0) none noneRegister] } := by
  have hbegin : m.begin s =
      { m with faultTrace := [], entryResult := .none, runId := m.host.nextId,
               host := m.host.freshId.2 } := by
    unfold begin
    rw [hm.settle_eq]
    rfl
  have hframes : (m.begin s).frames = [] := by
    rw [hbegin]
    exact hm.frames
  unfold run start
  split_ifs with hdepth
  · have hget : (get : Exec Machine) (m.begin s) = .ok (m.begin s) (m.begin s) := rfl
    unfold Exec.pushFrame
    have hfail : ∀ e t, (Exec.fail e : Exec Unit) t = .error (.script e) t := fun _ _ => rfl
    rw [run_bind hget, hframes, List.length_nil, if_pos hdepth, hbegin, hfail]
    simp [settle, popAll, releasePinned, hm.frames, hm.pinned, hm.halted, Trap.fault]
  · have hroom : (m.begin s).frames.length < s.options.maxDepth := by
      rw [hframes]
      exact Nat.lt_of_not_le hdepth
    rw [Exec.pushFrame_run hroom hscope, hframes]

/-- A run of the top level ends alike on idle machines whose arenas and hosts correspond, if the second one
has room for every cell. -/
theorem run_sameEnd (hs : s.Mirrored ρ old old') (hhonest : s.Honest time) (hplaced : StartsPlaced s)
    (hm : m.Idle s .everything time) (hm' : m'.Idle s .space 0)
    (hwhole : s.options.keepCells = false → ρ.limit = 2 ^ 32) (ha : m.arena.Mirrors ρ m'.arena)
    (hh : m.host.Mirrors ρ old old' m'.host)
    (hcalls : ∀ t, Visit.Reaches s ⟨m.host, .run⟩ m t → ∀ g, t.Calls s g → g.Mirrored ρ old old')
    (hroom : Visit.Roomy s m' ⟨m'.host, .run⟩) : SameEnd ρ old old' (m.run s) (m'.run s) := by
  obtain ⟨scope, i, hscope, hi, hknown⟩ := hplaced
  have hbegin := begin_mirrors hm hm' hwhole ha hh
  rw [run_eq hm hscope, run_eq hm' hscope]
  split_ifs with hdepth
  · exact ⟨rfl, hbegin.trace, hbegin.host.output⟩
  have hentered : Machine.Mirrors s ρ old old'
      { m.begin s with frames := [Exec.entered scope (some 0) none noneRegister] }
      { m'.begin s with
        frames := [Exec.entered scope (some 0) none noneRegister]
        location := m.location } :=
    { hbegin with frames := by simp [Renaming.frame, Exec.entered] }
  have hhalted : (m'.begin s).halted = none := by
    unfold begin
    rw [hm'.settle_eq]
    exact hm'.halted
  have henters : ∀ {trust : Trust} {time : Nat} {m : Machine}, m.Idle s trust time →
      Exec.pushFrame s (some 0) none noneRegister (m.begin s) =
        .ok ⟨⟩ { m.begin s with frames := [Exec.entered scope (some 0) none noneRegister] } := by
    intro trust time m hm
    have hframes : (m.begin s).frames = [] := by
      unfold begin
      rw [hm.settle_eq]
      exact hm.frames
    have hdepth : (m.begin s).frames.length < s.options.maxDepth := by
      rw [hframes]
      exact Nat.lt_of_not_le hdepth
    rw [Exec.pushFrame_run hdepth hscope, hframes]
  have hsound := (Exec.pushFrame_keeps hm.begin_sound _ none noneRegister).of_ok (henters hm)
  have hreaches : ∀ t', Runs s { m'.begin s with frames := [Exec.entered scope (some 0) none noneRegister] } t' →
      t'.arena.WellFormed ∧ t'.arena.Roomy := by
    intro t' hr
    have hreached : Visit.Reaches s ⟨m'.host, .run⟩ m' t' := ⟨_, _, rfl, henters hm', hr⟩
    have hkept := hm'.reaches False.elim False.elim (fun _ => hroom) hreached
    exact ⟨(hkept.custody.custody trivial).arena, hroom.between t' hreached⟩
  exact runFor_sameEnd _
    { m'.begin s with frames := [Exec.entered scope (some 0) none noneRegister] } hs hentered rfl hhalted
    hscope hi hknown hhonest hsound.1 (fun t ht => hcalls t ⟨_, _, rfl, henters hm, ht⟩) hreaches _

end Machine

end ScriptMachine
