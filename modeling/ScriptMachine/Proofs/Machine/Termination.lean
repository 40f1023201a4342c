import ScriptMachine.Proofs.Machine.Ascent
import ScriptMachine.Proofs.Machine.Sessions

set_option autoImplicit false

/-!
# Termination

A return leaves its frame or uses up a round of it, and every other step has moved past its
instruction before it enters a frame. When a fault is caught the frame of the handler is gone, and
what takes its place has no handler yet. So the stack goes down with every step. Main statement:
every entry comes to an end.
-/
namespace ScriptMachine

def Machine.Lowers (s : Setup) (m m' : Machine) : Prop :=
  m'.weights s = m.weights s ∨ m.Falls s m'

namespace Machine

variable {s : Setup} {m m' m'' : Machine}

theorem Falls.congr (h : m'.Falls s m'') (hw : m'.weights s = m.weights s) : m.Falls s m'' := by
  have hsinks := h.sinks
  have hdepth := h.depth
  rw [hw] at hsinks
  rw [length_of_weights hw] at hdepth
  exact ⟨hsinks, hdepth⟩

theorem Lowers.falls (h : m.Lowers s m') (h' : m'.Falls s m'') : m.Falls s m'' := by
  rcases h with hw | hfalls
  · exact h'.congr hw
  · exact hfalls.trans h'

theorem Lowers.trans (h : m.Lowers s m') (h' : m'.Lowers s m'') : m.Lowers s m'' := by
  rcases h' with hw | hfalls
  · rcases h with hw' | hfalls'
    · exact Or.inl (hw.trans hw')
    · refine Or.inr ⟨hw ▸ hfalls'.sinks, ?_⟩
      rw [length_of_weights hw]
      exact hfalls'.depth
  · exact Or.inr (h.falls hfalls)

theorem lowers_of_suffix {above : List Weight} (h : m.weights s = above ++ m'.weights s) :
    m.Lowers s m' := by
  cases above with
  | nil => exact Or.inl h.symm
  | cons w above => exact Or.inr (.of_suffix h (List.cons_ne_nil _ _))

theorem weights_popFrame (m : Machine) : (m.popFrame s).weights s = (m.weights s).tail := by
  rw [weights, popFrame_frames, List.map_tail, weights]

end Machine

namespace Exec

variable {s : Setup} {m : Machine} {f : Frame} {rest : List Frame} {α : Type}

theorem Steady.weights {x : Exec α} (hx : Steady x Frame.outline) (m : Machine) :
    Ensures x m (fun _ m' => m'.weights s = m.weights s) fun _ m' => m'.weights s = m.weights s :=
  (hx m).mono (fun _ _ => Machine.weights_of_tended) fun _ _ => Machine.weights_of_tended

theorem complete_leaves (f : Frame) (v : Value) (m : Machine) :
    Ensures (complete s f v) m (fun _ m' => m'.weights s = (m.weights s).tail) fun _ m' =>
      m'.weights s = m.weights s ∨ m'.weights s = (m.weights s).tail := by
  have hrest : ∀ m₁ : Machine, m₁.weights s = m.weights s → Ensures (do
        popFrame s
        deliver s v f.out) m₁ (fun _ m' => m'.weights s = (m.weights s).tail) fun _ m' =>
      m'.weights s = m.weights s ∨ m'.weights s = (m.weights s).tail := by
    intro m₁ hm₁
    have hpopped : (m₁.popFrame s).weights s = (m.weights s).tail := by
      rw [Machine.weights_popFrame, hm₁]
    refine Ensures.change_bind ?_
    exact ((deliver_steady s v f.out).weights _).mono (fun _ _ h => h.trans hpopped)
      fun _ _ h => Or.inr (h.trans hpopped)
  unfold complete
  dsimp only
  split
  · rename_i fn _
    have hchecked : Steady (do
        lift (fn.checkResult v)
        remember f.memoKey v) Frame.outline := (Steady.lift _).bind fun _ => remember_steady _ _
    have hbefore := (hchecked.weights m).mono (fun _ _ h => h) fun _ m' h =>
      (Or.inl h : m'.weights s = m.weights s ∨ m'.weights s = (m.weights s).tail)
    have hall := hbefore.bind fun _ m₁ hm₁ => hrest m₁ hm₁
    rwa [bind_assoc] at hall
  · exact hrest m rfl

theorem accumulate_counts {l l' : Loop} {v : Value} (h : l.accumulate v = .ok l') :
    l'.count = l.count ∧ l'.next = l.next := by
  unfold Loop.accumulate at h
  split at h <;> cases h <;> exact ⟨rfl, rfl⟩

theorem resetFrame_rewinds (hf : m.frames = f :: rest) :
    Ensures (resetFrame s) m (fun _ m' => ∃ scope, s.program.scope (some f.scope) = .ok scope ∧
      m'.frames = { f with
        owned := [], bindings := [], registers := Frame.freshRegisters scope, pc := 0 } :: rest)
      fun _ m' => m' = m := by
  refine Ensures.run (top_run hf) ?_
  refine (lift_ensures _ m).bind fun scope m' ⟨hm', hscope⟩ => ?_
  rw [hm']
  refine Ensures.change_bind ?_
  have hframes : (m.discardAll s f.owned).frames = f :: rest := by
    rw [Machine.discardAll_eq]
    exact hf
  exact Ensures.of_run (modifyTop_run hframes) ⟨scope, hscope, rfl⟩

theorem rounds_of_loop {g : Frame} {l : Loop} (h : g.loop = some l) :
    g.rounds = l.count - l.next := by
  rw [Frame.rounds, h]

/-- A return leaves the top frame, or a round of it; a frame that cannot be left stays. -/
theorem returnFrom_falls (v : Value) (m : Machine) :
    Ensures (returnFrom s v) m (fun _ m' => m.Falls s m') fun _ m' => m.Lowers s m' := by
  have hsame : ∀ m' : Machine, m' = m → m.Lowers s m' := fun m' h => Or.inl (by rw [h])
  refine ((top_ensures m).mono (fun _ _ h => h) fun _ m' => hsame m').bind fun f m' hm' => ?_
  obtain ⟨hm', rest, hf⟩ := hm'
  rw [hm']
  have hweights : m.weights s = f.weight s :: rest.map (Frame.weight s) := Machine.weights_cons hf
  have hleft : ∀ m' : Machine, m'.weights s = rest.map (Frame.weight s) → m.Falls s m' := by
    intro m' h
    have hsplit : m.weights s = [f.weight s] ++ m'.weights s := by
      rw [hweights, h, List.singleton_append]
    exact .of_suffix hsplit (List.cons_ne_nil _ _)
  split
  · refine (complete_leaves f v m).mono (fun _ m' h => ?_) fun _ m' h => ?_
    · exact hleft m' (by rw [h, hweights, List.tail_cons])
    · exact h.imp id fun h => hleft m' (by rw [h, hweights, List.tail_cons])
  · rename_i l hloop
    refine ((lift_ensures _ m).mono (fun _ _ h => h) fun _ m' => hsame m').bind fun l' m' hm' => ?_
    obtain ⟨hm', hl'⟩ := hm'
    rw [hm']
    obtain ⟨hcount, hnext⟩ := accumulate_counts hl'
    have hrounds := rounds_of_loop hloop
    dsimp only
    refine Ensures.run (modifyTop_run hf) ?_
    split
    · rename_i hmore
      -- the rounds that are left count for more than the instructions of a new round
      have hlighter : ∀ g : Frame, g.handler = f.handler →
          g.loop = some { l' with next := l'.next + 1 } → g.weight s < f.weight s := by
        intro g hhandler hg
        refine Frame.weight_lt_iff.2 (Or.inr ⟨by rw [hhandler], Or.inl ?_⟩)
        rw [rounds_of_loop hg, hrounds]
        dsimp only
        omega
      refine ((resetFrame_rewinds rfl).mono (fun _ _ h => h) fun _ m₂ hm₂ => ?_).bind
        fun _ m₂ hm₂ => ?_
      · rw [hm₂]
        refine Or.inr (.of_lighter hweights rfl (hlighter _ ?_ ?_) (.of_weights rfl))
        · rfl
        · rfl
      · obtain ⟨scope, -, hg⟩ := hm₂
        have hfalls : ∀ m', m₂.Tended m' Frame.outline → m.Falls s m' := fun m' h =>
          .of_lighter hweights (Machine.weights_cons hg) (hlighter _ rfl rfl) (.of_tended h)
        exact (bindLoopVariables_steady _ m₂).mono (fun _ m' => hfalls m') fun _ m' h => Or.inr (hfalls m' h)
    · have hle : ({ f with loop := some { l' with next := l'.next + 1 } } : Frame).weight s ≤
          f.weight s := by
        refine Frame.weight_le_of_rounds rfl rfl ?_
        rw [rounds_of_loop rfl, hrounds]
        dsimp only
        omega
      refine (complete_leaves f _ _).mono (fun _ m' h => hleft m' h) fun _ m' h => ?_
      rcases h with h | h
      · rcases hle.lt_or_eq with hlt | heq
        · exact Or.inr (.of_lighter hweights rfl hlt (.of_weights h))
        · exact Or.inl (by rw [h, hweights, ← heq]; rfl)
      · exact Or.inr (hleft m' h)

theorem unwindBlocks_lowers (frames : List Frame) (m : Machine) :
    m.Lowers s (unwindBlocks s frames m) := by
  induction frames generalizing m with
  | nil => exact Or.inl rfl
  | cons f rest ih =>
    cases rest with
    | nil => exact Or.inl rfl
    | cons g rest =>
      rw [unwindBlocks]
      split
      · have hpopped : m.Lowers s (m.popFrame s) := by
          have hsplit : m.weights s = (m.weights s).take 1 ++ (m.popFrame s).weights s := by
            rw [Machine.weights_popFrame, ← List.drop_one, List.take_append_drop]
          exact Machine.lowers_of_suffix hsplit
        exact hpopped.trans (ih (m.popFrame s))
      · exact Or.inl rfl

theorem leave_falls (v : Value) (m : Machine) :
    Ensures (leave s v) m (fun _ m' => m.Falls s m') fun _ m' => m.Lowers s m' := by
  have hblocks := unwindBlocks_lowers (s := s) m.frames m
  refine Ensures.change_bind ?_
  exact (returnFrom_falls v _).mono (fun _ _ h => hblocks.falls h) fun _ _ h => hblocks.trans h

theorem perform_moves (f : Frame) (op : Operation) (m : Machine) :
    Ensures (perform s f op) m (fun _ m' => m.Climbs s m' ∨ m.Falls s m') fun _ m' =>
      m.Climbs s m' ∨ m.Falls s m' := by
  have hlowers : ∀ m' : Machine, m.Lowers s m' → m.Climbs s m' ∨ m.Falls s m' :=
    fun m' h => h.imp .of_weights id
  have hreturn : ∀ (source : Register) (x : Value → Exec Unit),
      (∀ v m, Ensures (x v) m (fun _ m' => m.Falls s m') fun _ m' => m.Lowers s m') →
      Ensures (readRegister s f source >>= x) m (fun _ m' => m.Climbs s m' ∨ m.Falls s m')
        fun _ m' => m.Climbs s m' ∨ m.Falls s m' := by
    intro source x hx
    have hread := ((readRegister_steady s f source).weights (s := s) m).mono
      (fun _ _ h => h) fun _ m' h => hlowers m' (Or.inl h)
    refine hread.bind fun v m₁ hm₁ => (hx v m₁).mono (fun _ m' h => ?_) fun _ m' h => ?_
    · exact Or.inr (h.congr hm₁)
    · exact hlowers m' (Machine.Lowers.trans (Or.inl hm₁) h)
  cases hr : op.isReturn with
  | false => exact (perform_climbs f hr m).mono (fun _ _ => Or.inl) fun _ _ => Or.inl
  | true =>
    cases op with
    | ret source => exact hreturn source _ returnFrom_falls
    | leave source => exact hreturn source _ leave_falls
    | _ => cases hr

theorem step_falls (m : Machine) :
    Ensures (step s) m (fun _ m' => m.Falls s m') fun _ m' => m.Lowers s m' := by
  have hsame : ∀ m' : Machine, m' = m → m.Lowers s m' := fun m' h => Or.inl (by rw [h])
  refine ((top_ensures m).mono (fun _ _ h => h) fun _ m' => hsame m').bind fun f m' hm' => ?_
  obtain ⟨hm', rest, hf⟩ := hm'
  rw [hm']
  refine ((lift_ensures _ m).mono (fun _ _ h => h) fun _ m' => hsame m').bind fun scope m' hm' => ?_
  obtain ⟨hm', hscope⟩ := hm'
  rw [hm']
  split
  · exact returnFrom_falls _ m
  · rename_i i hi
    have hlt : ({ f with pc := f.pc + 1 } : Frame).weight s < f.weight s := by
      refine Frame.weight_lt_iff.2 (Or.inr ⟨rfl, Or.inr ⟨rfl, ?_⟩⟩)
      obtain ⟨hpc, -⟩ := Array.getElem?_eq_some_iff.1 hi
      simp only [Frame.remaining, hscope]
      omega
    have hperform : ∀ m₁ : Machine, m₁.frames = { f with pc := f.pc + 1 } :: rest →
        Ensures (perform s f i.operation) m₁ (fun _ m' => m.Falls s m') fun _ m' =>
          m.Lowers s m' := by
      intro m₁ hm₁
      have hlighter : ∀ m', m₁.Climbs s m' → m.Falls s m' := fun m' =>
        .of_lighter (Machine.weights_cons hf) (Machine.weights_cons hm₁) hlt
      have hpast : ∀ m', m₁.Climbs s m' ∨ m₁.Falls s m' → m.Falls s m' := by
        rintro m' (hclimbs | hfalls)
        · exact hlighter m' hclimbs
        · exact (hlighter m₁ (.of_weights rfl)).trans hfalls
      exact (perform_moves f i.operation m₁).mono (fun _ m' h => hpast m' h)
        fun _ m' h => Or.inr (hpast m' h)
    refine Ensures.run (modifyTop_run hf) ?_
    dsimp only
    split
    · exact Ensures.change_bind (hperform _ rfl)
    · exact hperform _ rfl

theorem bindLet_succeeds (name : Text) (v : Value) (hf : m.frames ≠ []) :
    Ensures (bindLet s name v) m (fun _ m' => m.Tended m' Frame.outline) fun _ _ => False := by
  have hdropped : Ensures (dropBinding s name) m (fun _ _ => True) fun _ _ => False := by
    refine Ensures.bind (R := fun _ _ => True) (Ensures.get_bind ?_) fun f m' _ => ?_
    · split
      · exact Ensures.pure trivial
      · exact absurd ‹_› hf
    · split
      · exact Ensures.change_bind (Ensures.change trivial)
      · exact Ensures.change trivial
  have hbound : Ensures (bindLet s name v) m (fun _ _ => True) fun _ _ => False :=
    hdropped.bind fun _ _ _ => Ensures.change trivial
  exact ((bindLet_steady s name v m).both hbound).mono (fun _ _ h => h.1) fun _ _ h => h.2

/-- A handler takes up no room, or enters a frame that has none yet. -/
theorem handle_enters (f : Frame) (h : Handler) (error : Fault) (m : Machine) :
    Ensures (handle s f h error) m (fun _ m' => m'.weights s = m.weights s ∨
      ∃ g : Frame, g.handler = none ∧ m'.weights s = g.weight s :: m.weights s) fun _ m' =>
      m'.weights s = m.weights s := by
  unfold handle
  split
  · exact ((deliver_steady s _ f.out).weights m).mono (fun _ _ => Or.inl) fun _ _ h => h
  · rename_i target _
    refine ((pushFrame_ensures _ f.parent f.out).mono (fun _ _ h => h) fun _ _ h => ?_).bind
      fun _ m₁ hm₁ => ?_
    · rw [h.1]
    · obtain ⟨-, scope, -, rfl⟩ := hm₁
      have hentered : ∀ m' : Machine,
          m'.weights s = (entered scope (some target) f.parent f.out).weight s :: m.weights s →
          m'.weights s = m.weights s ∨
            ∃ g : Frame, g.handler = none ∧ m'.weights s = g.weight s :: m.weights s :=
        fun m' h => Or.inr ⟨_, rfl, h⟩
      split
      · refine (bindLet_succeeds _ _ (List.cons_ne_nil _ _)).mono (fun _ m' h => ?_) fun _ _ h => ?_
        · exact hentered m' (Machine.weights_of_tended h)
        · exact h.elim
      · exact Ensures.pure (hentered _ rfl)

end Exec

namespace Machine

variable {s : Setup} {m m' : Machine}

/-- A fault that is caught has cost a handler. -/
theorem unwind_falls (frames : List Frame) (error : Fault) (trace : List Text)
    (hm : m.weights s = frames.map (Frame.weight s))
    (hcaught : (m.unwind s frames error trace).1 = none) :
    m.Falls s (m.unwind s frames error trace).2 := by
  induction frames generalizing m error trace with
  | nil => cases hcaught
  | cons f below ih =>
    have hpopped : (m.popFrame s).weights s = below.map (Frame.weight s) := by
      rw [weights_popFrame, hm, List.map_cons, List.tail_cons]
    have hleft : ∀ m' : Machine, m'.weights s = below.map (Frame.weight s) → m.Falls s m' := by
      intro m' h
      have hsplit : m.weights s = [f.weight s] ++ m'.weights s := by
        rw [hm, h, List.map_cons, List.singleton_append]
      exact .of_suffix hsplit (List.cons_ne_nil _ _)
    cases hh : f.handler with
    | none =>
      have hskip : m.unwind s (f :: below) error trace =
          (m.popFrame s).unwind s below error trace := by simp only [unwind, hh]
      rw [hskip] at hcaught ⊢
      exact (hleft _ hpopped).trans (ih error trace hpopped hcaught)
    | some h =>
      have hhandle := Exec.handle_enters (s := s) f h error (m.popFrame s)
      cases hr : Exec.handle s f h error (m.popFrame s) with
      | ok _ m₁ =>
        have hdone : m.unwind s (f :: below) error trace = (none, m₁) := by
          simp only [unwind, hh, hr]
        rw [hdone]
        rcases hhandle.of_ok hr with hw | ⟨g, hg, hw⟩
        · exact hleft m₁ (hw.trans hpopped)
        · have hlt : g.weight s < f.weight s := by
            refine Frame.weight_lt_iff.2 (Or.inl ?_)
            rw [hg, hh, Option.isSome_none, Option.isSome_some]
            exact Bool.false_lt_true
          rw [hpopped] at hw
          exact .of_lighter hm hw hlt (.of_weights rfl)
      | error e m₁ =>
        have hfailed : m.unwind s (f :: below) error trace =
            m₁.unwind s below (e.fault.locatedAt m₁.location) (below.map (Frame.label s)) := by
          simp only [unwind, hh, hr]
        rw [hfailed] at hcaught ⊢
        have hw := (hhandle.of_error hr).trans hpopped
        exact (hleft m₁ hw).trans (ih _ _ hw hcaught)

theorem advance_falls (ha : m.advance s = .running m') : m.Falls s m' := by
  have hstep := Exec.step_falls (s := s) m
  unfold advance at ha
  split at ha
  · cases ha
  · split at ha
    · rename_i m₁ hok
      cases ha
      exact hstep.of_ok hok
    · rename_i e m₁ herr
      split at ha
      · rename_i m₂ hrecover
        cases ha
        have hcaught := unwind_falls (s := s) (m := m₁) m₁.frames _ _ rfl (congrArg Prod.fst hrecover)
        rw [show (m₁.unwind s m₁.frames _ _).2 = m' from congrArg Prod.snd hrecover] at hcaught
        exact (hstep.of_error herr).falls hcaught
      · cases ha

theorem advance_finished {r : RunResult} (ha : m.advance s = .finished r m') : r ≠ .unfinished := by
  unfold advance at ha
  split at ha
  · cases ha
    exact nofun
  · split at ha
    · cases ha
    · split at ha
      · cases ha
      · cases ha
        exact nofun

/-- Enough steps lead to the end of a run, and more steps change nothing. -/
theorem runFor_ends (s : Setup) (m : Machine) :
    ∃ n r m', r ≠ .unfinished ∧ ∀ k, n ≤ k → m.runFor s k = (r, m') := by
  have hgeneral : ∀ d, s.options.maxDepth ≤ d → ∀ m : Machine, m.frames.length ≤ d →
      ∃ n r m', r ≠ .unfinished ∧ ∀ k, n ≤ k → m.runFor s k = (r, m') := by
    intro d hd m
    induction m using (falls_wellFounded s d).induction with
    | _ m ih =>
      intro hm
      cases ha : m.advance s with
      | running m₁ =>
        have hfalls := advance_falls ha
        have hm₁ : m₁.frames.length ≤ d := hfalls.depth.trans (Nat.max_le.2 ⟨hd, hm⟩)
        obtain ⟨n, r, m', hr, hn⟩ := ih m₁ ⟨hm₁, hfalls⟩ hm₁
        refine ⟨n + 1, r, m', hr, fun k hk => ?_⟩
        obtain ⟨k, rfl⟩ := Nat.exists_eq_add_of_le' (Nat.le_of_add_left_le hk)
        rw [runFor, ha]
        exact hn k (Nat.le_of_succ_le_succ hk)
      | finished r m₁ =>
        refine ⟨1, r, m₁, advance_finished ha, fun k hk => ?_⟩
        obtain ⟨k, rfl⟩ := Nat.exists_eq_add_of_le' hk
        rw [runFor, ha]
  exact hgeneral (max s.options.maxDepth m.frames.length) (Nat.le_max_left _ _) m (Nat.le_max_right _ _)

end Machine

namespace Entry

/-- An entry that may take the given number of steps. -/
def performFor (s : Setup) (n : Nat) (m : Machine) (e : Entry) : RunResult × Machine :=
  match e.action s with
  | none => e.perform s m
  | some action =>
    match action (m.begin s) with
    | .ok _ m => m.runFor s n
    | .error e m => (.fault e.fault, m.settle s)

theorem performFor_budget (s : Setup) (m : Machine) (e : Entry) :
    e.performFor s s.options.budget m = e.perform s m := by
  unfold performFor
  rcases perform_eq s m e with ⟨hnone, -⟩ | ⟨action, ha, hp⟩
  · rw [hnone]
  · rw [ha, hp]
    rfl

end Entry

/-- Every entry ends, whatever the program, the options and the state of the machine: there is a
number of steps from which on it has the same result, which is a value or a fault. -/
theorem entry_ends (s : Setup) (m : Machine) (e : Entry) :
    ∃ n r m', r ≠ .unfinished ∧ (∀ k, n ≤ k → e.performFor s k m = (r, m')) ∧
      (n ≤ s.options.budget → e.perform s m = (r, m')) := by
  suffices h : ∃ n r m', r ≠ .unfinished ∧ ∀ k, n ≤ k → e.performFor s k m = (r, m') by
    obtain ⟨n, r, m', hr, hn⟩ := h
    exact ⟨n, r, m', hr, hn, fun hb => (e.performFor_budget s m).symm.trans (hn _ hb)⟩
  unfold Entry.performFor
  split
  · rename_i hnone
    rcases Entry.perform_eq s m e with ⟨-, f, hp⟩ | ⟨action, ha, -⟩
    · refine ⟨0, _, _, ?_, fun _ _ => hp⟩
      exact nofun
    · rw [hnone] at ha
      cases ha
  · split
    · exact Machine.runFor_ends s _
    · refine ⟨0, _, _, ?_, fun _ _ => rfl⟩
      exact nofun

end ScriptMachine
