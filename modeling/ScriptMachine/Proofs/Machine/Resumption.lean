import ScriptMachine.Proofs.Machine.Recovery
import ScriptMachine.Proofs.Machine.Suspension

set_option autoImplicit false

namespace ScriptMachine

variable {s : Setup} {m m' : Machine} {f : Frame} {rest above : List Frame}

/-- The frames differ in their registers at most. -/
def Frame.Twins (f g : Frame) : Prop := g = { f with registers := g.registers }

theorem Frame.Twins.withLoop {f g : Frame} (h : f.Twins g) (l : Option Loop) :
    Frame.Twins { f with loop := l } { g with loop := l } := by
  have hloop := congrArg (fun k : Frame => { k with loop := l }) h
  exact hloop

/-- Machines that differ at most in the registers of the frame on top. -/
structure Machine.Twins (m m' : Machine) (f g : Frame) (rest : List Frame) : Prop where
  same : f.Twins g
  frames : m.frames = f :: rest
  eq : m' = { m with frames := g :: rest }

namespace Machine.Twins

variable {g : Frame}

theorem twin (h : m.Twins m' f g rest) : m'.frames = g :: rest := by
  rw [h.eq]

theorem pop (h : m.Twins m' f g rest) : m'.popFrame s = m.popFrame s := by
  rw [popFrame_eq h.frames, popFrame_eq h.twin, h.eq, h.same]

theorem labels (h : m.Twins m' f g rest) :
    m'.frames.map (Frame.label s) = m.frames.map (Frame.label s) := by
  rw [h.frames, h.twin, h.same]
  rfl

theorem unwind (h : m.Twins m' f g rest) (error : Fault) (trace : List Text) :
    m'.unwind s m'.frames error trace = m.unwind s m.frames error trace := by
  rw [h.frames, h.twin]
  unfold Machine.unwind
  simp only [h.pop]
  rw [h.same]
  rfl

theorem recover (h : m.Twins m' f g rest) (error : Fault) :
    m'.recover s error = m.recover s error := by
  unfold Machine.recover
  rw [h.unwind, h.labels, h.eq]

end Machine.Twins

namespace Waiting

variable {p : Waiting} {c : Frame} {α β : Type}

/-- What becomes of two machines while a frame waits, or when it does no longer: it waits still, it has
been given an answer, or it is gone, and with it all that the machines differed in. -/
inductive Resumes (p : Waiting) (m m' : Machine) : Prop
  | covered (h : p.Covered m m')
  | answered (v : Value) (hf : m.frames = p.frame.receive p.out v :: p.below)
    (eq : m' = { m with frames := p.twin.receive p.out v :: p.below })
  | left (eq : m' = m)

/-- Where a step may fail. -/
inductive Broken (p : Waiting) (m m' : Machine) : Prop
  | covered (h : p.Covered m m')
  | twins {f g : Frame} {rest : List Frame} (h : m.Twins m' f g rest)
  | left (eq : m' = m)

theorem Swapped.twins (h : p.Swapped [] m m') : m.Twins m' p.frame p.twin p.below :=
  ⟨rfl, h.frames, h.eq⟩

theorem Swapped.broken (h : p.Swapped above m m') : p.Broken m m' := by
  cases above with
  | nil => exact .twins h.twins
  | cons c above => exact .covered ⟨c, above, h⟩

theorem Swapped.pop (h : p.Swapped (c :: above) m m') :
    p.Swapped above (m.popFrame s) (m'.popFrame s) := by
  have hsecond : m'.frames = c :: (above ++ p.twin :: p.below) := by
    rw [h.eq]
    rfl
  rw [Machine.popFrame_eq h.frames, Machine.popFrame_eq hsecond, h.eq]
  exact ⟨rfl, rfl, h.tail⟩

theorem ends_left (r : EStateM.Result Trap Machine α) : Ends p.Resumes p.Broken r r := by
  cases r with
  | ok a t => exact .ok (.left rfl)
  | error e t => exact .error (.left rfl)

theorem Ends.bind {Q E Q' E' : Machine → Machine → Prop} {x x' : Exec α} {k k' : α → Exec β}
    (h : Ends Q E (x m) (x' m')) (hE : ∀ t t', E t t' → E' t t')
    (hk : ∀ a t t', Q t t' → Ends Q' E' (k a t) (k' a t')) :
    Ends Q' E' ((x >>= k) m) ((x' >>= k') m') := by
  simp only [Bind.bind, EStateM.bind]
  generalize x m = r at h
  generalize x' m' = r' at h
  cases h with
  | ok h => exact hk _ _ _ h
  | error h => exact .error (hE _ _ h)

def Resumed (p : Waiting) (x : Exec α) : Prop :=
  ∀ m m', p.Covered m m' → Ends p.Resumes p.Broken (x m) (x m')

theorem Matches.resumed {x : Exec α} (hx : p.Overlooks x) : p.Resumed x := by
  intro m m' h
  have hends := hx m m' h
  generalize x m = r at hends
  generalize x m' = r' at hends
  cases hends with
  | ok h => exact .ok (.covered h)
  | error h => exact .error (.covered h)

theorem Matches.then {x : Exec α} {k : α → Exec β} (hx : p.Overlooks x) (hk : ∀ a, p.Resumed (k a)) :
    p.Resumed (x >>= k) :=
  fun m m' h => (hx m m' h).bind (fun _ _ => .covered) fun a t t' ht => hk a t t' ht

end Waiting

namespace Exec

open Waiting

variable {p : Waiting} {c g : Frame}

theorem deliver_resumes (v : Value) {out : Register} (h : p.Swapped above m m')
    (hout : above = [] → out = p.out) :
    Ends p.Resumes p.Broken (deliver s v out m) (deliver s v out m') := by
  cases above with
  | cons c above => exact (deliver_overlooks s v out).resumed m m' ⟨c, above, h⟩
  | nil =>
    rw [hout rfl]
    have hfirst : Answers p.out m.frames := by
      rw [h.frames]
      exact ⟨p.scratch, p.fits⟩
    have hsecond : Answers p.out m'.frames := by
      rw [h.eq]
      exact ⟨p.scratch, p.size ▸ p.fits⟩
    have hframes : m'.frames = p.twin :: p.below := by
      rw [h.eq]
      rfl
    rw [deliver_run v h.frames hfirst, deliver_run v hframes hsecond, h.eq]
    exact .ok (.answered v rfl rfl)

theorem complete_resumes (v : Value) (h : p.Swapped (c :: above) m m') (hout : f.out = c.out) :
    Ends p.Resumes p.Broken (complete s f v m) (complete s f v m') := by
  have hrest : ∀ t t', p.Swapped (c :: above) t t' → Ends p.Resumes p.Broken
      ((do popFrame s; deliver s v f.out : Exec Unit) t) ((do popFrame s; deliver s v f.out : Exec Unit) t') := by
    intro t t' ht
    refine deliver_resumes (m := t.popFrame s) v ht.pop fun hnil => ?_
    rw [hout]
    subst hnil
    exact h.answers c rfl
  unfold complete
  dsimp only
  cases f.function with
  | none => exact hrest m m' h
  | some fn =>
    dsimp only
    cases fn.checkResult v with
    | error e => exact .error h.broken
    | ok u =>
      cases f.memoKey with
      | none => exact hrest m m' h
      | some key =>
        exact hrest _ _ (h.change
          (k := fun t => { t with memo := (key, v) :: t.memo.filter fun e => e.1 != key })
          (fun _ => rfl) fun _ _ => rfl)

/-- A frame that ends, above the one that waits. -/
theorem returnFrom_resumed (v : Value) : p.Resumed (returnFrom s v) := by
  rintro m m' ⟨c, above, h⟩
  have hfirst : m.frames = c :: (above ++ p.frame :: p.below) := h.frames
  have hsecond : m'.frames = c :: (above ++ p.twin :: p.below) := by
    rw [h.eq]
    rfl
  unfold returnFrom
  rw [run_bind (top_run hfirst), run_bind (top_run hsecond)]
  cases c.loop with
  | none => exact complete_resumes v h rfl
  | some l =>
    dsimp only
    cases l.accumulate v with
    | error e => exact .error h.broken
    | ok l' =>
      have hlift : ∀ t : Machine, lift (Except.ok l') t = .ok l' t := fun _ => rfl
      rw [run_bind (hlift m), run_bind (hlift m'), run_bind (modifyTop_run hfirst),
        run_bind (modifyTop_run hsecond), h.eq]
      have hround := h.retop (d := { c with loop := some { l' with next := l'.next + 1 } }) rfl m
      dsimp only
      split
      · refine ((resetFrame_overlooks s).bind fun _ => ?_).resumed _ _ ⟨_, _, hround⟩
        exact bindLoopVariables_overlooks s _
      · exact complete_resumes _ hround rfl

/-- Where the machines differ only in the frame on top, the difference goes with it. -/
theorem complete_twins (v : Value) (h : m.Twins m' f g rest) {k k' : Frame} (hk : k.Twins k') :
    Ends p.Resumes p.Broken (complete s k v m) (complete s k' v m') := by
  have hfunction : k'.function = k.function := by rw [hk]
  have hmemo : k'.memoKey = k.memoKey := by rw [hk]
  have hout : k'.out = k.out := by rw [hk]
  have hrest : ∀ t t' : Machine, t.Twins t' f g rest → Ends p.Resumes p.Broken
      ((do popFrame s; deliver s v k.out : Exec Unit) t) ((do popFrame s; deliver s v k.out : Exec Unit) t') := by
    intro t t' ht
    change Ends _ _ (deliver s v k.out (t.popFrame s)) (deliver s v k.out (t'.popFrame s))
    rw [ht.pop]
    exact ends_left _
  unfold complete
  rw [hfunction, hmemo, hout]
  dsimp only
  cases k.function with
  | none => exact hrest m m' h
  | some fn =>
    dsimp only
    cases fn.checkResult v with
    | error e => exact .error (.twins h)
    | ok u =>
      cases k.memoKey with
      | none => exact hrest m m' h
      | some key =>
        refine hrest _ _ ⟨h.same, h.frames, ?_⟩
        rw [h.eq]

theorem resetFrame_run {scope : Scope} (hf : m.frames = f :: rest)
    (hscope : s.program.scope (some f.scope) = .ok scope) :
    resetFrame s m = .ok ⟨⟩ { m with
      arena := Custody.discards s.options.keepCells m.arena f.owned
      frames := { f with owned := [], bindings := [], registers := Frame.freshRegisters scope, pc := 0 } ::
        rest } := by
  have hlift : lift (s.program.scope (some f.scope)) m = .ok scope m := by
    rw [hscope]
    rfl
  have hdiscard : (modify fun m => m.discardAll s f.owned : Exec Unit) m =
      .ok ⟨⟩ { m with arena := Custody.discards s.options.keepCells m.arena f.owned } := by
    rw [← Machine.discardAll_eq]
    rfl
  unfold resetFrame
  rw [run_bind (top_run hf), run_bind hlift, run_bind hdiscard]
  exact modifyTop_run hf

theorem resetFrame_twins (h : m.Twins m' f g rest) :
    Ends (fun t t' => t' = t) p.Broken (resetFrame s m) (resetFrame s m') := by
  have hscope : g.scope = f.scope := by rw [h.same]
  cases hr : s.program.scope (some f.scope) with
  | ok scope =>
    rw [resetFrame_run h.frames hr, resetFrame_run h.twin (hscope ▸ hr), h.eq, h.same]
    exact .ok rfl
  | error e =>
    unfold resetFrame
    rw [run_bind (top_run h.frames), run_bind (top_run h.twin), hscope, hr]
    exact .error (.twins h)

theorem returnFrom_twins (v : Value) (h : m.Twins m' f g rest) :
    Ends p.Resumes p.Broken (returnFrom s v m) (returnFrom s v m') := by
  have hloop : g.loop = f.loop := by rw [h.same]
  unfold returnFrom
  rw [run_bind (top_run h.frames), run_bind (top_run h.twin), hloop]
  cases f.loop with
  | none => exact complete_twins v h h.same
  | some l =>
    dsimp only
    cases l.accumulate v with
    | error e => exact .error (.twins h)
    | ok l' =>
      have hlift : ∀ t : Machine, lift (Except.ok l') t = .ok l' t := fun _ => rfl
      rw [run_bind (hlift m), run_bind (hlift m'), run_bind (modifyTop_run h.frames),
        run_bind (modifyTop_run h.twin), h.eq]
      have hround : Machine.Twins
          { m with frames := { f with loop := some { l' with next := l'.next + 1 } } :: rest }
          { m with frames := { g with loop := some { l' with next := l'.next + 1 } } :: rest } _ _ rest :=
        ⟨h.same.withLoop _, rfl, rfl⟩
      dsimp only
      split
      · refine (resetFrame_twins hround).bind (fun _ _ => id) fun _ t t' ht => ?_
        rw [ht]
        exact ends_left _
      · exact complete_twins _ hround h.same

/-- Frames that a return leaves on its way. -/
theorem unwindBlocks_resumes (h : p.Swapped above m m') :
    (∃ above', p.Swapped above' (unwindBlocks s m.frames m) (unwindBlocks s m'.frames m')) ∨
      unwindBlocks s m'.frames m' = unwindBlocks s m.frames m := by
  induction above generalizing m m' with
  | nil =>
    have hframes : m'.frames = p.twin :: p.below := by
      rw [h.eq]
      rfl
    rw [h.frames, hframes, List.nil_append]
    cases hbelow : p.below with
    | nil => exact .inl ⟨[], h⟩
    | cons g rest =>
      have hblock : isInnerBlock s p.twin = isInnerBlock s p.frame := rfl
      simp only [unwindBlocks, hblock]
      split
      · rw [h.twins.pop]
        exact .inr rfl
      · exact .inl ⟨[], h⟩
  | cons c above ih =>
    have hframes : m'.frames = c :: (above ++ p.twin :: p.below) := by
      rw [h.eq]
      rfl
    have hstep : ∀ (g : Frame) (t : Machine), t.frames = c :: (above ++ g :: p.below) →
        unwindBlocks s t.frames t = if isInnerBlock s c then
          unwindBlocks s (t.popFrame s).frames (t.popFrame s) else t := by
      intro g t ht
      obtain ⟨d, others, hd⟩ := List.exists_cons_of_ne_nil
        (List.append_ne_nil_of_right_ne_nil above (List.cons_ne_nil g p.below))
      rw [Machine.popFrame_frames, ht, List.tail_cons, hd, unwindBlocks]
    rw [hstep p.frame m h.frames, hstep p.twin m' hframes]
    split
    · exact ih h.pop
    · exact .inl ⟨c :: above, h⟩

theorem leave_resumed (v : Value) : p.Resumed (leave s v) := by
  rintro m m' ⟨c, above, h⟩
  change Ends _ _ (returnFrom s v (unwindBlocks s m.frames m)) (returnFrom s v (unwindBlocks s m'.frames m'))
  rcases unwindBlocks_resumes (s := s) h with ⟨above', h'⟩ | hsame
  · cases above' with
    | nil => exact returnFrom_twins v h'.twins
    | cons c above' => exact returnFrom_resumed v _ _ ⟨c, above', h'⟩
  · rw [hsame]
    exact ends_left _

theorem perform_resumed (f : Frame) (op : Operation) : p.Resumed (perform s f op) := by
  cases op with
  | ret source => exact (readRegister_overlooks s f source).then fun v => returnFrom_resumed v
  | leave source => exact (readRegister_overlooks s f source).then fun v => leave_resumed v
  | _ => exact (perform_overlooks s f rfl).resumed

theorem step_resumed : p.Resumed (step s) := by
  refine Matches.top.then fun f => (Matches.lift _).then fun scope => ?_
  split
  · exact returnFrom_resumed .none
  · rename_i i _
    refine Matches.then (Matches.modifyTop fun _ => rfl) fun _ => ?_
    dsimp only
    split
    · exact Matches.then (Matches.change (fun _ => rfl) fun _ _ => rfl) fun _ =>
        perform_resumed f i.operation
    · exact perform_resumed f i.operation

/-- A frame above the one that waits, or the first to stand there. -/
theorem pushFrame_swapped {target : Target} {parent : Option Nat} {out : Register}
    (h : p.Swapped above m m') (hout : above = [] → out = p.out) :
    Ends p.Covered p.Broken (pushFrame s target parent out m) (pushFrame s target parent out m') := by
  have hget : ∀ t : Machine, (get : Exec Machine) t = .ok t t := fun _ => rfl
  have hlength : m'.frames.length = m.frames.length := by
    rw [h.eq, h.frames]
    exact length_twin above
  unfold pushFrame
  rw [run_bind (hget m), run_bind (hget m'), hlength]
  split
  · exact .error h.broken
  · cases s.program.scope target with
    | error e => exact .error h.broken
    | ok scope =>
      refine .ok ⟨entered scope target parent out, above, congrArg (entered scope target parent out :: ·) h.frames, ?_, ?_⟩
      · rw [h.eq]
        rfl
      · intro c hc
        cases above with
        | nil =>
          cases hc
          exact hout rfl
        | cons b above => exact h.answers c hc

theorem handle_resumes (k : Handler) (error : Fault) (h : p.Swapped above m m')
    (hout : above = [] → c.out = p.out) :
    Ends p.Resumes p.Broken (handle s c k error m) (handle s c k error m') := by
  unfold handle
  cases k.scope with
  | none => exact deliver_resumes _ h hout
  | some target =>
    refine (pushFrame_swapped h hout).bind (fun _ _ => id) fun _ t t' ht => ?_
    cases k.errorName with
    | none => exact .ok (.covered ht)
    | some name => exact (bindLet_overlooks s name _).resumed t t' ht

theorem handle_fails (k : Handler) (error : Fault) :
    Ensures (handle s c k error) m (fun _ _ => True) fun _ m' => m' = m := by
  unfold handle
  split
  · exact (deliver_ensures _ m).mono (fun _ _ _ => trivial) fun _ _ h => h.1
  · refine Ensures.bind (R := fun _ t => t.frames ≠ []) ?_ fun _ t ht => ?_
    · refine (pushFrame_ensures _ _ _).mono (fun _ t h => ?_) fun _ _ h => h.1
      obtain ⟨-, scope, -, rfl⟩ := h
      exact List.cons_ne_nil _ _
    · split
      · exact (bindLet_succeeds _ _ ht).mono (fun _ _ _ => trivial) fun _ _ => False.elim
      · exact Ensures.pure trivial

end Exec

namespace Waiting

open Exec

variable {p : Waiting} {c : Frame}

theorem labels_twin (above : List Frame) : (above ++ p.twin :: p.below).map (Frame.label s) =
    (above ++ p.frame :: p.below).map (Frame.label s) := by
  rw [List.map_append, List.map_append]
  rfl

/-- An error is handled alike, or not at all. -/
theorem Swapped.unwind (h : p.Swapped above m m') (error : Fault) (trace : List Text) :
    (∃ t t', m.unwind s (above ++ p.frame :: p.below) error trace = (none, t) ∧
      m'.unwind s (above ++ p.twin :: p.below) error trace = (none, t') ∧ p.Resumes t t') ∨
    m'.unwind s (above ++ p.twin :: p.below) error trace =
      m.unwind s (above ++ p.frame :: p.below) error trace := by
  induction above generalizing m m' error trace with
  | nil =>
    refine .inr ?_
    have hunwind := h.twins.unwind (s := s) error trace
    rwa [h.twins.twin, h.twins.frames] at hunwind
  | cons c above ih =>
    have hpop := h.pop (s := s)
    simp only [List.cons_append, Machine.unwind]
    cases hh : c.handler with
    | none => exact ih hpop error trace
    | some k =>
      have hout : above = [] → c.out = p.out := by
        rintro rfl
        exact h.answers c rfl
      have hends := handle_resumes (s := s) (c := c) k error hpop hout
      have hfirst := handle_fails (s := s) (c := c) (m := m.popFrame s) k error
      have hsecond := handle_fails (s := s) (c := c) (m := m'.popFrame s) k error
      dsimp only
      cases hr : handle s c k error (m.popFrame s) with
      | ok u t =>
        rw [hr] at hends
        cases hr' : handle s c k error (m'.popFrame s) with
        | error e t' =>
          rw [hr'] at hends
          cases hends
        | ok u t' =>
          rw [hr'] at hends
          cases hends with
          | ok hresumes => exact .inl ⟨t, t', rfl, rfl, hresumes⟩
      | error e t =>
        rw [hr] at hends
        cases hr' : handle s c k error (m'.popFrame s) with
        | ok u t' =>
          rw [hr'] at hends
          cases hends
        | error e' t' =>
          rw [hr'] at hends
          cases hends with
          | error _ =>
            obtain rfl := hfirst.of_error hr
            obtain rfl := hsecond.of_error hr'
            have hlocation : (m'.popFrame s).location = (m.popFrame s).location := by rw [hpop.eq]
            dsimp only
            rw [hlocation, labels_twin]
            exact ih hpop _ _

theorem Swapped.recover (h : p.Swapped above m m') (error : Fault) :
    (∃ t t', m.recover s error = (none, t) ∧ m'.recover s error = (none, t') ∧ p.Resumes t t') ∨
      m'.recover s error = m.recover s error := by
  have hframes : m'.frames = above ++ p.twin :: p.below := by rw [h.eq]
  have hlocation : m'.location = m.location := by rw [h.eq]
  unfold Machine.recover
  rw [h.frames, hframes, hlocation, labels_twin]
  exact h.unwind _ _

theorem Swapped.settle (h : p.Swapped above m m') : m'.settle s = m.settle s := by
  have hpops : m'.popAll s = m.popAll s := by
    have hgeneral : ∀ (above : List Frame) (t t' : Machine), p.Swapped above t t' →
        (above ++ p.twin :: p.below).foldl (fun m _ => m.popFrame s) t' =
          (above ++ p.frame :: p.below).foldl (fun m _ => m.popFrame s) t := by
      intro above
      induction above with
      | nil =>
        intro t t' ht
        simp only [List.nil_append, List.foldl_cons, ht.twins.pop]
      | cons c above ih => exact fun t t' ht => ih _ _ ht.pop
    have hframes : m'.frames = above ++ p.twin :: p.below := by rw [h.eq]
    unfold Machine.popAll
    rw [h.frames, hframes]
    exact hgeneral above m m' h
  unfold Machine.settle
  rw [hpops]

/-- A step of both machines while the frame waits, with the recovery from its error. -/
theorem Covered.advance (h : p.Covered m m') :
    (∃ t t', m.advance s = .running t ∧ m'.advance s = .running t' ∧ p.Resumes t t') ∨
      ∃ r t, m.advance s = .finished r t ∧ m'.advance s = .finished r t := by
  have hends := step_resumed (s := s) m m' h
  obtain ⟨c, above, h⟩ := h
  have hempty : ∀ f : Frame, (c :: above ++ f :: p.below).isEmpty = false := fun _ => rfl
  have hframes : m'.frames = c :: above ++ p.twin :: p.below := by rw [h.eq]
  have houtcome : m'.outcome = m.outcome ∧ m'.halted = m.halted := by rw [h.eq]; exact ⟨rfl, rfl⟩
  have hcaught : ∀ (t t' : Machine) (e : Trap), p.Broken t t' →
      (∃ u u', t.recover s e.fault = (none, u) ∧ t'.recover s e.fault = (none, u') ∧ p.Resumes u u') ∨
        t'.recover s e.fault = t.recover s e.fault := by
    intro t t' e hbroken
    cases hbroken with
    | covered hcovered =>
      obtain ⟨c, above, hcovered⟩ := hcovered
      exact hcovered.recover e.fault
    | twins htwins => exact .inr (htwins.recover e.fault)
    | left hsame => exact .inr (hsame ▸ rfl)
  unfold Machine.advance
  rw [h.frames, hframes, hempty, hempty, houtcome.1, houtcome.2, h.settle]
  simp only [Bool.false_or]
  cases m.halted with
  | some v => exact .inr ⟨_, _, rfl, rfl⟩
  | none =>
    simp only [Option.isSome_none, Bool.false_eq_true, if_false]
    generalize step s m = r at hends
    generalize step s m' = r' at hends
    cases hends with
    | ok hresumes => exact .inl ⟨_, _, rfl, rfl, hresumes⟩
    | error hbroken =>
      rename_i e t t'
      dsimp only
      rcases hcaught t t' e hbroken with ⟨u, u', hu, hu', hresumes⟩ | hsame
      · rw [hu, hu']
        exact .inl ⟨u, u', rfl, rfl, hresumes⟩
      · rw [hsame]
        rcases hrec : t.recover s e.fault with ⟨_ | error, u⟩
        · exact .inl ⟨u, u, rfl, rfl, .left rfl⟩
        · exact .inr ⟨_, _, rfl, rfl⟩

end Waiting

/-- Both machines make so many steps, and are then related. -/
def Machine.BothAfter (s : Setup) (n : Nat) (R : Machine → Machine → Prop) (m m' : Machine) : Prop :=
  ∃ t t', m.after s n = some t ∧ m'.after s n = some t' ∧ R t t'

theorem Machine.BothAfter.first {R : Machine → Machine → Prop} {n : Nat} {t t' : Machine}
    (ha : m.advance s = .running t) (ha' : m'.advance s = .running t') (h : t.BothAfter s n R t') :
    m.BothAfter s (n + 1) R m' := by
  obtain ⟨u, u', hu, hu', hr⟩ := h
  refine ⟨u, u', ?_, ?_, hr⟩
  · rw [after, ha]
    exact hu
  · rw [after, ha']
    exact hu'

namespace Waiting

variable {p : Waiting}

/-- How the wait ends: with an answer, or because the frame is left, or the run ends. -/
inductive Ended (s : Setup) (p : Waiting) (m m' : Machine) : Prop
  | answered (v : Value) (hf : m.frames = p.frame.receive p.out v :: p.below)
    (eq : m' = { m with frames := p.twin.receive p.out v :: p.below })
  | left (eq : m' = m)
  | finished (r : RunResult) (t : Machine) (ha : m.advance s = .finished r t)
    (ha' : m'.advance s = .finished r t)

theorem Covered.runs (h : p.Covered m m') (n : Nat) : m.BothAfter s n p.Covered m' ∨
    ∃ k ≤ n, m.BothAfter s k (p.Ended s) m' := by
  induction n generalizing m m' with
  | zero => exact .inl ⟨m, m', rfl, rfl, h⟩
  | succ n ih =>
    rcases h.advance (s := s) with ⟨t, t', ha, ha', hresumes⟩ | ⟨r, t, ha, ha'⟩
    · have hone : ∀ {R : Machine → Machine → Prop}, R t t' → m.BothAfter s 1 R m' := fun hr =>
        .first (n := 0) ha ha' ⟨t, t', rfl, rfl, hr⟩
      cases hresumes with
      | covered hcovered =>
        rcases ih hcovered with hafter | ⟨k, hk, hafter⟩
        · exact .inl (hafter.first ha ha')
        · exact .inr ⟨k + 1, Nat.succ_le_succ hk, hafter.first ha ha'⟩
      | answered v hf eq => exact .inr ⟨1, Nat.succ_le_succ (Nat.zero_le n), hone (.answered v hf eq)⟩
      | left eq => exact .inr ⟨1, Nat.succ_le_succ (Nat.zero_le n), hone (.left eq)⟩
    · exact .inr ⟨0, Nat.zero_le _, m, m', rfl, rfl, .finished r t ha ha'⟩

end Waiting

end ScriptMachine
