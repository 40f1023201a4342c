import ScriptMachine.Proofs.Machine.Stacks
import ScriptMachine.Proofs.Compiler.Compiled

set_option autoImplicit false

/-!
# Recovery from faults

A fault leaves all frames down to the topmost one with a handler, and that one too. Their borrows end
and what they own is released; nothing else happens to the cells, and nothing at all to the frames
below but that the error comes in, as a value or in the frame of a block that catches it. Main
statement: so it is for every fault of every run of a program that has been compiled.
-/
namespace ScriptMachine

/-- What is left of the cells when frames have been left: their borrows have ended, and what they
owned is gone unless it is pinned or kept. All other cells are as they were. -/
structure Arena.Cleared (keep : Bool) (lost : List Frame) (a a' : Arena) : Prop where
  ended : ∀ f ∈ lost, ∀ h, f.borrow = some h → ∀ c, a'.look h = some c → c.exclusive = false
  released : keep = false → ∀ f ∈ lost, ∀ h ∈ f.owned, ∀ c, a'.look h = some c → c.pinned = true
  old : ∀ h c', a'.look h = some c' → ∃ c, a.look h = some c ∧ c'.value = c.value ∧
    c'.pinned = c.pinned ∧ (c'.exclusive = true → c.exclusive = true)
  others : ∀ h c, a.look h = some c →
    keep = true ∨ c.pinned = true ∨ (∀ f ∈ lost, h ∉ f.owned) →
    ∃ c', a'.look h = some c' ∧ c'.value = c.value ∧ c'.pinned = c.pinned ∧
      ((∀ f ∈ lost, f.borrow ≠ some h) → c'.exclusive = c.exclusive)

namespace Arena.Cleared

variable {keep : Bool} {lost lost' : List Frame} {a a' a'' : Arena}

theorem refl (keep : Bool) (a : Arena) : Cleared keep [] a a where
  ended := List.forall_mem_nil _
  released _ := List.forall_mem_nil _
  old _ c hl := ⟨c, hl, rfl, rfl, id⟩
  others _ c hl _ := ⟨c, hl, rfl, rfl, fun _ => rfl⟩

theorem trans (h : Cleared keep lost a a') (h' : Cleared keep lost' a' a'') :
    Cleared keep (lost ++ lost') a a'' := by
  refine ⟨fun f hf k hb c hl => ?_, fun hk f hf k ho c hl => ?_, fun k c hl => ?_,
    fun k c hl hstays => ?_⟩
  · rcases List.mem_append.1 hf with hf | hf
    · obtain ⟨c', hl', -, -, hx⟩ := h'.old k c hl
      have hended := h.ended f hf k hb c' hl'
      by_contra hc
      rw [hx (by simpa using hc)] at hended
      cases hended
    · exact h'.ended f hf k hb c hl
  · rcases List.mem_append.1 hf with hf | hf
    · obtain ⟨c', hl', -, hp, -⟩ := h'.old k c hl
      exact hp.trans (h.released hk f hf k ho c' hl')
    · exact h'.released hk f hf k ho c hl
  · obtain ⟨c', hl', hv', hp', hx'⟩ := h'.old k c hl
    obtain ⟨c'', hl'', hv'', hp'', hx''⟩ := h.old k c' hl'
    exact ⟨c'', hl'', hv'.trans hv'', hp'.trans hp'', fun hx => hx'' (hx' hx)⟩
  · have hfirst : keep = true ∨ c.pinned = true ∨ ∀ f ∈ lost, k ∉ f.owned :=
      hstays.imp id fun h => h.imp id fun h f hf => h f (List.mem_append_left _ hf)
    obtain ⟨c', hl', hv', hp', hx'⟩ := h.others k c hl hfirst
    have hsecond : keep = true ∨ c'.pinned = true ∨ ∀ f ∈ lost', k ∉ f.owned := by
      rw [hp']
      exact hstays.imp id fun h => h.imp id fun h f hf => h f (List.mem_append_right _ hf)
    obtain ⟨c'', hl'', hv'', hp'', hx''⟩ := h'.others k c' hl' hsecond
    refine ⟨c'', hl'', hv''.trans hv', hp''.trans hp', fun hb => ?_⟩
    rw [hx'' fun f hf => hb f (List.mem_append_right _ hf),
      hx' fun f hf => hb f (List.mem_append_left _ hf)]

end Arena.Cleared

namespace Custody

variable {keep : Bool} {a : Arena} {fs : List Holding}

theorem look_unborrowed (a : Arena) (b : Option CellHandle) :
    (∀ k c, (unborrowed a b).look k = some c → ∃ d, a.look k = some d ∧ c.value = d.value ∧
        c.pinned = d.pinned ∧ (c.exclusive = true → d.exclusive = true)) ∧
      ∀ k d, a.look k = some d → ∃ c, (unborrowed a b).look k = some c ∧ c.value = d.value ∧
        c.pinned = d.pinned ∧ (b ≠ some k → c.exclusive = d.exclusive) := by
  cases b with
  | none => exact ⟨fun k c hl => ⟨c, hl, rfl, rfl, id⟩, fun k d hl => ⟨d, hl, rfl, rfl, fun _ => rfl⟩⟩
  | some h =>
    refine ⟨fun k c hl => ?_, fun k d hl => ?_⟩
    · rw [unborrowed, Arena.look_endBorrow] at hl
      split at hl
      · rename_i hk
        obtain ⟨d, hd, rfl⟩ := Option.map_eq_some_iff.1 hl
        exact ⟨d, hk ▸ hd, rfl, rfl, nofun⟩
      · exact ⟨c, hl, rfl, rfl, id⟩
    · rw [unborrowed, Arena.look_endBorrow]
      split
      · rename_i hk
        rw [← hk, hl]
        exact ⟨_, rfl, rfl, rfl, fun hb => absurd rfl hb⟩
      · exact ⟨d, hl, rfl, rfl, fun _ => rfl⟩

theorem look_discards (keep : Bool) (a : Arena) (owned : List CellHandle) :
    (∀ k c, (discards keep a owned).look k = some c →
      a.look k = some c ∧ (keep = false → k ∈ owned → ¬a.Loose k)) ∧
      ∀ k c, a.look k = some c → keep = true ∨ c.pinned = true ∨ k ∉ owned →
        (discards keep a owned).look k = some c := by
  cases keep with
  | true => exact ⟨fun k c hl => ⟨hl, nofun⟩, fun k c hl _ => hl⟩
  | false =>
    obtain ⟨hstay, hgone⟩ := Arena.look_discards a owned
    refine ⟨fun k c hl => ⟨(hstay k c hl).1, fun _ => (hstay k c hl).2⟩, fun k c hl hk => ?_⟩
    cases hl' : (discards false a owned).look k with
    | none =>
      obtain ⟨hmem, d, hd, -, hp⟩ := hgone k c hl hl'
      rw [hl] at hd
      cases hd
      simp [hp, hmem] at hk
    | some d => rw [← hl, (hstay k d hl').1]

/-- A frame that is left clears its own cells and no others. -/
theorem cleared {f : Frame} (hlent : Lent a [] (f.holding :: fs)) :
    Arena.Cleared keep [f] a (discards keep (unborrowed a f.borrow) f.owned) := by
  obtain ⟨hback, hforth⟩ := look_unborrowed a f.borrow
  obtain ⟨hstay, hkept⟩ := look_discards keep (unborrowed a f.borrow) f.owned
  -- what is still borrowed is not a cell of the frame
  have hlent : ∀ k c, (discards keep (unborrowed a f.borrow) f.owned).look k = some c →
      c.exclusive = true → f.borrow ≠ some k ∧ k ∉ f.owned := by
    intro k c hl hx
    obtain ⟨hold, hne⟩ := exclusive_of_unborrowed (exclusive_of_discards ⟨c, hl, hx⟩)
    refine ⟨hne, fun ho => hne (Option.mem_toList.1 ?_)⟩
    have hborrowed := hlent.2.2.1 k ho hold
    rwa [List.append_nil] at hborrowed
  refine ⟨?_, ?_, fun k c hl => hback k c (hstay k c hl).1, fun k d hl hk => ?_⟩
  · simp only [List.mem_singleton, forall_eq]
    intro k hb c hl
    by_contra hx
    exact (hlent k c hl (by simpa using hx)).1 hb
  · simp only [List.mem_singleton, forall_eq]
    intro hkeep k ho c hl
    obtain ⟨hbefore, hfirm⟩ := hstay k c hl
    by_contra hp
    refine hfirm hkeep ho ⟨c, hbefore, ?_, by simpa using hp⟩
    by_contra hx
    exact (hlent k c hl (by simpa using hx)).2 ho
  · obtain ⟨c, hc', hv, hp, hx⟩ := hforth k d hl
    refine ⟨c, hkept k c hc' ?_, hv, hp, fun hb => hx (hb f (List.mem_singleton_self f))⟩
    rw [hp]
    exact hk.imp id fun h => h.imp id fun h => h f (List.mem_singleton_self f)

end Custody

namespace Machine

variable {s : Setup} {trust : Trust} {time : Nat} {m : Machine} {f t : Frame}
  {fs above below : List Frame}

/-- Several frames are left, top first. -/
theorem pops_clear (lost : List Frame) (hm : m.Sound s trust time []) (hf : m.frames = lost ++ fs) :
    (Machine.popFrame s)^[lost.length] m =
        { m with frames := fs, arena := ((Machine.popFrame s)^[lost.length] m).arena } ∧
      Arena.Cleared s.options.keepCells lost m.arena ((Machine.popFrame s)^[lost.length] m).arena := by
  induction lost generalizing m with
  | nil =>
    refine ⟨?_, .refl _ _⟩
    obtain ⟨frames⟩ := m
    cases hf
    rfl
  | cons f lost ih =>
    obtain ⟨hlater, hsound⟩ := popFrame_sound hm
    have hframes : (m.popFrame s).frames = lost ++ fs := by
      rw [popFrame_frames, hf, List.cons_append, List.tail_cons]
    obtain ⟨hrest, hcleared⟩ := ih hsound hframes
    rw [List.length_cons, Function.iterate_succ_apply]
    have hfirst : Arena.Cleared s.options.keepCells [f] m.arena (m.popFrame s).arena := by
      rw [popFrame_eq hf]
      exact Custody.cleared (hm.custody_cons hf).lent
    refine ⟨?_, hfirst.trans hcleared⟩
    rw [hrest]
    simp only [popFrame_eq hf]

end Machine

/-- The frame of a block that catches an error in the place of another frame. -/
def Frame.catching (f : Frame) (scope : Scope) (i : Nat) (name : Option Text) (error : Fault) : Frame :=
  { Exec.entered scope (some i) f.parent f.out with
    bindings := name.toList.map fun n => (n, .fixed (.error error)) }

/-- What a stack becomes when a handler takes an error in the place of its frame: the error is the
result of the frame, or a block begins in its place, with the error under a name if it has one. -/
inductive Caught (s : Setup) (f : Frame) (error : Fault) : Handler → List Frame → List Frame → Prop where
  | value (name : Option Text) {g : Frame} {rest : List Frame} (hout : Answers f.out (g :: rest)) :
    Caught s f error ⟨none, name⟩ (g :: rest) (g.receive f.out (.error error) :: rest)
  | block {i : Nat} (name : Option Text) {scope : Scope} {below : List Frame}
    (hscope : s.program.scope (some i) = .ok scope) :
    Caught s f error ⟨some i, name⟩ below (f.catching scope i name error :: below)

section Handling

variable {s : Setup} {m : Machine} {f t : Frame} {h : Handler} {fs above below rest : List Frame}
  {error : Fault}

theorem Caught.fitted (hc : Caught s f error h below fs) (hf : f.Fits s below)
    (hfit : Fitted s below) : Fitted s fs := by
  cases hc with
  | value name hout => exact hfit.stays (.receive _ _)
  | block name hscope =>
    refine ⟨⟨⟨_, hscope, Frame.size_freshRegisters _⟩, hf.answers, nofun, nofun, hf.depth⟩, hfit⟩

theorem Exec.pushFrame_run {target : Target} {scope : Scope} {parent : Option Nat} {out : Register}
    (hdepth : m.frames.length < s.options.maxDepth) (hscope : s.program.scope target = .ok scope) :
    Exec.pushFrame s target parent out m =
      .ok ⟨⟩ { m with frames := Exec.entered scope target parent out :: m.frames } := by
  have hget : (get : Exec Machine) m = .ok m m := rfl
  have hlift : Exec.lift (s.program.scope target) m = .ok scope m := by
    rw [hscope]
    rfl
  unfold Exec.pushFrame
  rw [run_bind hget, if_neg (Nat.not_le.2 hdepth), run_bind hlift]
  rfl

theorem Exec.bindLet_run (name : Text) (v : Value) (hf : m.frames = f :: rest)
    (hnew : ∀ e ∈ f.bindings, e.1 ≠ name) : Exec.bindLet s name v m =
      .ok ⟨⟩ { m with frames := { f with bindings := (name, .fixed v) :: f.bindings } :: rest } := by
  have hfilter : (f.bindings.filter fun e => e.1 != name) = f.bindings :=
    List.filter_eq_self.2 fun e he => bne_iff_ne.2 (hnew e he)
  have hlookup : f.bindings.lookup name = none :=
    List.lookup_eq_none_iff.2 fun e he => bne_iff_ne.2 (hnew e he).symm
  have hdrop : Exec.dropBinding s name m = .ok ⟨⟩ m := by
    unfold Exec.dropBinding
    rw [run_bind (Exec.top_run hf), hlookup]
    have hsame : f.unbind name = f := by
      unfold Frame.unbind
      rw [hfilter]
    refine (Exec.modifyTop_run hf).trans ?_
    rw [hsame, ← hf]
  unfold Exec.bindLet
  rw [run_bind hdrop, Exec.modifyTop_run hf, Frame.bind, hfilter]

/-- A handler of a frame that fits takes any error. -/
theorem Exec.handle_run (error : Fault) (hf : f.Fits s m.frames) (hh : f.handler = some h) :
    ∃ fs, Exec.handle s f h error m = .ok ⟨⟩ { m with frames := fs } ∧
      Caught s f error h m.frames fs := by
  obtain ⟨hne, hblock⟩ := hf.handler h hh
  obtain ⟨target, name⟩ := h
  cases target with
  | none =>
    obtain ⟨g, rest, hg⟩ := List.exists_cons_of_ne_nil hne
    refine ⟨_, deliver_run _ hg hf.answers, ?_⟩
    rw [hg]
    exact .value name (hg ▸ hf.answers)
  | some i =>
    obtain ⟨scope, hscope⟩ := hblock i rfl
    refine ⟨_, ?_, .block name hscope⟩
    unfold Exec.handle
    dsimp only
    rw [run_bind (pushFrame_run hf.depth hscope)]
    cases name with
    | none => rfl
    | some n => exact bindLet_run n _ rfl (List.forall_mem_nil _)

theorem Machine.unwind_skips (habove : ∀ f ∈ above, f.handler = none) (trace : List Text) :
    m.unwind s (above ++ fs) error trace =
      ((Machine.popFrame s)^[above.length] m).unwind s fs error trace := by
  induction above generalizing m with
  | nil => rfl
  | cons f above ih =>
    obtain ⟨hf, habove⟩ := List.forall_mem_cons.1 habove
    rw [List.cons_append, Machine.unwind, hf]
    exact ih habove

/-- An error is caught where there is a handler, in a stack that fits. -/
theorem Machine.recover_caught {trust : Trust} {time : Nat} (hm : m.Sound s trust time [])
    (hfit : Fitted s m.frames) (hf : m.frames = above ++ t :: below)
    (habove : ∀ f ∈ above, f.handler = none) (hh : t.handler = some h) (error : Fault) :
    ∃ m', m.recover s error = (none, m') ∧
      Caught s t (error.locatedAt m.location) h below m'.frames ∧
      Arena.Cleared s.options.keepCells (above ++ [t]) m.arena m'.arena ∧
      m' = { m with frames := m'.frames, arena := m'.arena } := by
  have hlost : m.frames = (above ++ [t]) ++ below := by rw [hf, List.append_cons]
  obtain ⟨hpops, hcleared⟩ := Machine.pops_clear (above ++ [t]) hm hlost
  rw [List.length_append, List.length_singleton, Function.iterate_succ_apply'] at hpops hcleared
  generalize hp : ((Machine.popFrame s)^[above.length] m).popFrame s = popped at hpops hcleared
  have hframes : popped.frames = below := by rw [hpops]
  have htfit : t.Fits s popped.frames := hframes ▸ (hf ▸ hfit : Fitted s (above ++ t :: below)).suffix.1
  obtain ⟨fs, hrun, hcaught⟩ := Exec.handle_run (error.locatedAt m.location) htfit hh
  refine ⟨{ popped with frames := fs }, ?_, hframes ▸ hcaught, hcleared, by rw [hpops]⟩
  rw [Machine.recover]
  nth_rewrite 1 [hf]
  rw [Machine.unwind_skips habove, Machine.unwind, hh, hp]
  dsimp only
  rw [hrun]

theorem Machine.recover_uncaught {trust : Trust} {time : Nat} (hm : m.Sound s trust time [])
    (hnone : ∀ f ∈ m.frames, f.handler = none) (error : Fault) :
    ∃ m', m.recover s error = (some (error.locatedAt m.location), m') ∧ m'.frames = [] := by
  have hall : m.frames = m.frames ++ [] := (List.append_nil _).symm
  obtain ⟨hpops, -⟩ := Machine.pops_clear m.frames hm hall
  rw [Machine.recover]
  nth_rewrite 1 [hall]
  rw [Machine.unwind_skips hnone, hpops]
  exact ⟨_, rfl, rfl⟩

theorem exists_topmost (fs : List Frame) :
    (∀ f ∈ fs, f.handler = none) ∨ ∃ above t h below, fs = above ++ t :: below ∧
      (∀ f ∈ above, f.handler = none) ∧ t.handler = some h := by
  induction fs with
  | nil => exact .inl (List.forall_mem_nil _)
  | cons f fs ih =>
    cases hh : f.handler with
    | some h => exact .inr ⟨[], f, h, fs, rfl, List.forall_mem_nil _, hh⟩
    | none =>
      rcases ih with hnone | ⟨above, t, h, below, rfl, habove, ht⟩
      · exact .inl (List.forall_mem_cons.2 ⟨hh, hnone⟩)
      · exact .inr ⟨f :: above, t, h, below, rfl, List.forall_mem_cons.2 ⟨hh, habove⟩, ht⟩

end Handling

namespace Machine

variable {s : Setup} {m m' : Machine} {v : Visit}

theorem goes_on (ha : m.advance s = .running m') :
    Exec.step s m = .ok ⟨⟩ m' ∨
      ∃ e m₁, Exec.step s m = .error e m₁ ∧ m₁.recover s e.fault = (none, m') := by
  unfold advance at ha
  split at ha
  · cases ha
  · split at ha
    · cases ha
      exact .inl ‹_›
    · rename_i e m₁ herr
      split at ha
      · cases ha
        exact .inr ⟨e, m₁, herr, ‹_›⟩
      · cases ha

/-- A run goes on after a step that succeeds, or from the handler of its error. -/
theorem running_cases (hp : s.program.WellFormed)
    (hm : m.Sound s .nothing 0 []) (hfit : Fitted s m.frames) (ha : m.advance s = .running m') :
    Exec.step s m = .ok ⟨⟩ m' ∨ ∃ (m₁ : Machine) (above below : List Frame) (t : Frame)
      (h : Handler) (error : Fault), Failed s m.frames m₁.frames ∧ m₁.frames = above ++ t :: below ∧
      t.handler = some h ∧ Caught s t error h below m'.frames := by
  rcases goes_on ha with hok | ⟨e, m₁, herr, hrecover⟩
  · exact .inl hok
  · have hne : m.frames ≠ [] := by
      intro h
      simp [advance, h] at ha
    obtain ⟨f, rest, hf⟩ := List.exists_cons_of_ne_nil hne
    have hfailed := (Exec.step_moves hp hf hfit).of_error herr
    have hm₁ := hm.step_error herr
    rcases exists_topmost m₁.frames with hnone | ⟨above, t, h, below, hf₁, habove, hh⟩
    · obtain ⟨m₂, hrecover', -⟩ := recover_uncaught hm₁ hnone e.fault
      rw [hrecover] at hrecover'
      cases hrecover'
    · obtain ⟨m₂, hrecover', hcaught, -⟩ := recover_caught hm₁ (hfailed.fitted hfit) hf₁ habove hh e.fault
      rw [hrecover] at hrecover'
      cases hrecover'
      exact .inr ⟨m₁, above, below, t, h, _, hfailed, hf₁, hh, hcaught⟩

theorem advance_fitted (hp : s.program.WellFormed)
    (hm : m.Sound s .nothing 0 []) (hfit : Fitted s m.frames) (ha : m.advance s = .running m') :
    Fitted s m'.frames := by
  have hne : m.frames ≠ [] := by
    intro h
    simp [advance, h] at ha
  obtain ⟨f, rest, hf⟩ := List.exists_cons_of_ne_nil hne
  rcases running_cases hp hm hfit ha with hok | ⟨m₁, _, _, t, h, e, hfailed, hf₁, -, hcaught⟩
  · exact ((Exec.step_moves hp hf hfit).of_ok hok).fitted hfit
  · have hfit₁ := hfailed.fitted hfit
    rw [hf₁] at hfit₁
    exact hcaught.fitted hfit₁.suffix.1 hfit₁.suffix.2

theorem Runs.fitted (hp : s.program.WellFormed) (h : m.Runs s m') (hm : m.Sound s .nothing 0 [])
    (hfit : Fitted s m.frames) : Fitted s m'.frames := by
  induction h with
  | refl => exact hfit
  | next hr ha ih => exact advance_fitted hp (hr.kept hm) ih ha

/-- An entry begins like a call. -/
theorem entry_called {e : Entry} {action : Exec Unit} (ha : e.action s = some action)
    (hf : m.frames = []) (hok : action m = .ok ⟨⟩ m') : Called s noneRegister [] [] m'.frames := by
  have hcall : ∀ (f : Function) (args : List Value),
      Exec.Calls s noneRegister [] (Entry.callAction s f args) := by
    intro f args
    unfold Entry.callAction
    split
    · split
      · exact Exec.Calls.fail _
      · exact Exec.invokeExtension_calls f _ _ none
    · exact Exec.invoke_calls f args none none
  have hcalls : Exec.Calls s noneRegister [] action := by
    cases e with
    | run =>
      cases ha
      exact (Exec.pushFrame_enters _ none).calls
    | named name args =>
      obtain ⟨f, -, rfl⟩ := Option.map_eq_some_iff.1 ha
      exact hcall f args
    | function f args =>
      cases ha
      exact hcall f args
    | closure callee args =>
      cases ha
      exact Exec.invokeClosure_calls callee args
  have hcalled := (hcalls m).of_ok hok
  rwa [hf] at hcalled

theorem entry_fitted {e : Entry} {action : Exec Unit} (ha : e.action s = some action)
    (hf : m.frames = []) (hok : action m = .ok ⟨⟩ m') : Fitted s m'.frames := by
  have hcalled := entry_called ha hf hok
  generalize m'.frames = fs at hcalled
  cases hcalled with
  | same => trivial
  | answered v => trivial
  | entered hg hdepth => exact ⟨hg.fits trivial hdepth (List.forall_mem_nil _), trivial⟩

theorem Idle.reaches_fitted (hp : s.program.WellFormed) (hm : m.Idle s .nothing 0) (hr : v.Reaches s m m') :
    Fitted s m'.frames := by
  obtain ⟨action, m₁, ha, hok, hruns⟩ := hr
  have hm' := hm.anyHost v.host
  have hkeeps := hm'.action_keeps Trust.no_natives Trust.no_room Trust.no_natives ha
  have hbegun : (Machine.begin s { m with host := v.host }).frames = [] := by
    unfold begin
    rw [hm'.settle_eq]
    exact hm.frames
  exact hruns.fitted hp (hkeeps.of_ok hok).1 (entry_fitted ha hbegun hok)

/-- The machine after a number of steps, if the run goes on so long. -/
def after (s : Setup) : Nat → Machine → Option Machine
  | 0, m => some m
  | n + 1, m =>
    match m.advance s with
    | .running m' => after s n m'
    | .finished .. => none

theorem runs_after {n : Nat} (h : m.after s n = some m') : m.Runs s m' := by
  induction n generalizing m with
  | zero =>
    cases h
    exact .refl _
  | succ n ih =>
    unfold after at h
    split at h
    · rename_i ha
      exact (ih h).first ha
    · cases h

theorem advance_caught {trap : Trap} {m₁ : Machine} (hne : m.frames ≠ []) (hh : m.halted = none)
    (hstep : Exec.step s m = .error trap m₁) (hr : m₁.recover s trap.fault = (none, m')) :
    m.advance s = .running m' := by
  simp [advance, hne, hh, hstep, hr]

theorem advance_uncaught {trap : Trap} {e : Fault} {m₁ : Machine} (hne : m.frames ≠ [])
    (hh : m.halted = none) (hstep : Exec.step s m = .error trap m₁)
    (hr : m₁.recover s trap.fault = (some e, m')) :
    m.advance s = .finished (.fault e) (m'.settle s) := by
  simp [advance, hne, hh, hstep, hr]

/-- The machine makes a step that ends with the error, in the state `m₁`. The error is placed where
the step is, unless it has a place. -/
def Raises (s : Setup) (m : Machine) (e : Fault) (m₁ : Machine) : Prop :=
  m.frames ≠ [] ∧ m.halted = none ∧
    ∃ trap, Exec.step s m = .error trap m₁ ∧ e = trap.fault.locatedAt m₁.location

/-- What becomes of an error that a step has ended with in the state `m₁`. The topmost handler takes
it: all frames down to its own are left, and those below are as they were before the step. If there is
no handler the run ends with the error. -/
structure Recovers (s : Setup) (m : Machine) (e : Fault) (m₁ : Machine) : Prop where
  caught : ∀ above t h below, m₁.frames = above ++ t :: below → (∀ f ∈ above, f.handler = none) →
    t.handler = some h →
      below <:+ m.frames.tail ∧ ∃ m₂, m.advance s = .running m₂ ∧
        Caught s t e h below m₂.frames ∧
        Arena.Cleared s.options.keepCells (above ++ [t]) m₁.arena m₂.arena ∧
        m₂ = { m₁ with frames := m₂.frames, arena := m₂.arena }
  uncaught : (∀ f ∈ m₁.frames, f.handler = none) →
    ∃ m₂, m.advance s = .finished (.fault e) m₂ ∧ m₂.frames = []

end Machine

/-- The frame of a handler, and those below it, were on the stack before the step that failed. -/
theorem Failed.origin {s : Setup} {fs fs' above below : List Frame} {t : Frame} {h : Handler}
    (hfail : Failed s fs fs') (hsplit : fs' = above ++ t :: below) (ht : t.handler = some h) :
    ∃ popped f, fs = popped ++ f :: below ∧ f.Stays t := by
  -- the frames below the one on top are as they were
  have hcons : ∀ {f g : Frame} {popped rest above : List Frame}, f.Stays g →
      g :: rest = above ++ t :: below → ∃ popped' f', popped ++ f :: rest = popped' ++ f' :: below ∧
        f'.Stays t := by
    intro f g popped rest above hg hsplit
    cases above with
    | nil =>
      cases hsplit
      exact ⟨popped, f, rfl, hg⟩
    | cons k above =>
      cases hsplit
      exact ⟨popped ++ f :: above, t, by simp, .refl t⟩
  cases hfail with
  | within popped hg => exact hcons hg hsplit
  | entered hg hh hn =>
    cases above with
    | nil =>
      cases hsplit
      rw [hn] at ht
      cases ht
    | cons k above =>
      rw [List.cons_append] at hsplit
      exact @hcons _ _ [] _ _ hg (List.cons.inj hsplit).2

theorem Failed.below {s : Setup} {fs fs' above below : List Frame} {t : Frame} {h : Handler}
    (hfail : Failed s fs fs') (hsplit : fs' = above ++ t :: below) (ht : t.handler = some h) :
    below <:+ fs.tail := by
  obtain ⟨popped, f, rfl, -⟩ := hfail.origin hsplit ht
  cases popped with
  | nil => exact List.suffix_refl _
  | cons k popped => exact (List.suffix_cons f below).trans (List.suffix_append popped _)

/-- In every run of a program that has been compiled, every error is recovered from, whatever step
it comes from. -/
theorem compiled_error_recovered {builtins : Option Registry} {id : Nat} {source : Text} {s : Setup}
    (host : Host) (visits : List Visit) (v : Visit) {m m₁ : Machine} {e : Fault}
    (hc : compileSource builtins id source = .ok s.program)
    (hr : v.Reaches s ((Machine.initial host).visited s visits) m) (he : m.Raises s e m₁) :
    m.Recovers s e m₁ := by
  have hp : s.program.WellFormed := by
    obtain ⟨tokens, htokens⟩ := compileSource_tokens hc
    exact compileTokens_wellFormed htokens
  have hidle := Machine.idle_visited s host visits
  have hsound := hidle.reached hr
  have hfit := hidle.reaches_fitted hp hr
  obtain ⟨hne, hhalted, trap, hstep, rfl⟩ := he
  obtain ⟨f, rest, hf⟩ := List.exists_cons_of_ne_nil hne
  have hfailed := (Exec.step_moves hp hf hfit).of_error hstep
  have hsound₁ := hsound.step_error hstep
  refine ⟨fun above t h below hsplit habove hh => ?_, fun hnone => ?_⟩
  · obtain ⟨m₂, hrecover, hrest⟩ := Machine.recover_caught hsound₁ (hfailed.fitted hfit) hsplit habove
      hh trap.fault
    exact ⟨hfailed.below hsplit hh, m₂, Machine.advance_caught hne hhalted hstep hrecover, hrest⟩
  · obtain ⟨m₂, hrecover, hempty⟩ := Machine.recover_uncaught hsound₁ hnone trap.fault
    refine ⟨m₂.settle s, Machine.advance_uncaught hne hhalted hstep hrecover, ?_⟩
    simp [Machine.settle, Machine.popAll, Machine.releasePinned, hempty]

def Setup.stateAfter (s : Setup) (host : Host) (n : Nat) : Option Machine :=
  match Exec.pushFrame s (some 0) none noneRegister ((Machine.initial host).begin s) with
  | .ok _ m => m.after s n
  | .error .. => none

theorem Setup.reaches_stateAfter {s : Setup} {host : Host} {n : Nat} {m : Machine}
    (h : s.stateAfter host n = some m) :
    Visit.Reaches s ⟨host, .run⟩ (Machine.initial host) m := by
  unfold stateAfter at h
  split at h
  · exact ⟨_, _, rfl, ‹_›, Machine.runs_after h⟩
  · cases h

/-- A function that raises its argument, called in a block that is tried. -/
def triedSource : Text := "fn f(x) = raise x\nlet y = try f(1) catch e e end"

theorem triedSource_recovered :
    ∃ p m m₁ e, compileSource none 0 triedSource = .ok p ∧
      Visit.Reaches ⟨p, none, .standard⟩ ⟨lonelyHost 0, .run⟩ (Machine.initial (lonelyHost 0)) m ∧
      m.Raises ⟨p, none, .standard⟩ e m₁ ∧ (∃ f ∈ m₁.frames, f.handler.isSome = true) ∧
      m.Recovers ⟨p, none, .standard⟩ e m₁ := by
  have hcheck : (match compileSource none 0 triedSource with
      | .ok p => match Setup.stateAfter ⟨p, none, .standard⟩ (lonelyHost 0) 4 with
        | some m => !m.frames.isEmpty && m.halted.isNone &&
          match Exec.step ⟨p, none, .standard⟩ m with
          | .error _ m₁ => m₁.frames.any fun f => f.handler.isSome
          | .ok .. => false
        | none => false
      | .error _ => false) = true := by decide +kernel
  cases hc : compileSource none 0 triedSource with
  | error e => simp [hc] at hcheck
  | ok p =>
    cases hm : Setup.stateAfter ⟨p, none, .standard⟩ (lonelyHost 0) 4 with
    | none => simp [hc, hm] at hcheck
    | some m =>
      cases hstep : Exec.step ⟨p, none, .standard⟩ m with
      | ok _ m₁ => simp [hc, hm, hstep] at hcheck
      | error trap m₁ =>
        simp only [hc, hm, hstep, Bool.and_eq_true, Bool.not_eq_true', List.isEmpty_eq_false_iff,
          Option.isNone_iff_eq_none, List.any_eq_true] at hcheck
        have hreaches := Setup.reaches_stateAfter hm
        have hraises : m.Raises ⟨p, none, .standard⟩ _ m₁ := ⟨hcheck.1.1, hcheck.1.2, trap, hstep, rfl⟩
        exact ⟨p, m, m₁, _, rfl, hreaches, hraises, hcheck.2,
          compiled_error_recovered (lonelyHost 0) [] _ hc hreaches hraises⟩

end ScriptMachine
