import ScriptMachine.Proofs.Machine.Openings
import ScriptMachine.Proofs.Machine.Recovery

set_option autoImplicit false

/-!
# The frames of any program

Nothing is asked of the program here: its code may name registers and scopes that are not there, and
its scopes may end anywhere. The frames of a machine are intact all the same. A step that fails may
leave one frame on top of which less is known; it has no handler, so that no error is handled in its
place.
-/
namespace ScriptMachine

variable {s : Setup} {m m' : Machine} {f g h : Frame} {fs fs' above below rest : List Frame}
  {out : Register} {targets : List Target}

def Frame.Linked (below : List Frame) (f : Frame) : Prop := ∀ i, f.parent = some i → i < below.length

/-- What holds of a frame and those below it, whatever the program. -/
structure Frame.Intact (s : Setup) (below : List Frame) (f : Frame) : Prop where
  scope : ∃ scope, s.program.scope (some f.scope) = .ok scope ∧
    f.registers.size = scope.fileSize ∧ f.pc ≤ scope.code.size
  reserved : f.Reserved
  linked : f.Linked below
  depth : below.length < s.options.maxDepth

theorem Frame.Intact.of_outline (hf : f.Intact s below) (hg : g.outline = f.outline) :
    g.Intact s below := by
  obtain ⟨hsize, hsame⟩ := registers_of_outline hg
  refine ⟨?_, hf.reserved.of_same hsame, ?_, hf.depth⟩
  · rw [show g.scope = f.scope from (congrArg Frame.scope hg :),
      show g.pc = f.pc from (congrArg Frame.pc hg :), hsize]
    exact hf.scope
  · unfold Linked
    rw [show g.parent = f.parent from (congrArg Frame.parent hg :)]
    exact hf.linked

theorem Frame.Begun.intact (hf : f.Begun s out targets) (hlinked : f.Linked below)
    (hdepth : below.length < s.options.maxDepth) : f.Intact s below := by
  obtain ⟨scope, hscope, hsize⟩ := hf.housed
  exact ⟨⟨scope, hscope, hsize, hf.pc ▸ Nat.zero_le _⟩, hf.reserved, hlinked, hdepth⟩

def Intact (s : Setup) : List Frame → Prop
  | [] => True
  | f :: below => f.Intact s below ∧ Intact s below

def Failing (s : Setup) (fs : List Frame) : Prop :=
  Intact s fs ∨ ∃ f below, fs = f :: below ∧ f.handler = none ∧ Intact s below

theorem Intact.suffix (h : Intact s (above ++ fs)) : Intact s fs := by
  induction above with
  | nil => exact h
  | cons f above ih => exact ih h.2

theorem Intact.tail (h : Intact s fs) : Intact s fs.tail := by
  cases fs with
  | nil => exact h
  | cons f rest => exact h.2

theorem Intact.tended (h : Intact s m.frames) (ht : m.Tended m' Frame.outline) :
    Intact s m'.frames := by
  cases hf : m.frames with
  | nil =>
    have hview := ht.view
    rw [hf, List.map_nil, List.map_eq_nil_iff] at hview
    rw [hview]
    trivial
  | cons f rest =>
    obtain ⟨g, hm', hg⟩ := ht.cons hf
    rw [hf] at h
    rw [hm']
    exact ⟨h.1.of_outline hg, h.2⟩

theorem Intact.receive (h : Intact s fs) (hout : Answers out fs) (v : Value) :
    Intact s (fs.modifyHead (Frame.receive out v)) := by
  cases fs with
  | nil => trivial
  | cons f rest => exact ⟨h.1.of_outline (Frame.outline_receive hout.1 v f), h.2⟩

theorem Intact.depth (h : Intact s fs) : fs.length ≤ s.options.maxDepth := by
  cases fs with
  | nil => exact Nat.zero_le _
  | cons f rest => exact h.1.depth

theorem Called.intact (hc : Called s out targets fs fs') (h : Intact s fs)
    (hlinked : ∀ g, fs' = g :: fs → g.Linked fs) : Intact s fs' := by
  cases hc with
  | same => exact h
  | answered v hout => exact h.receive hout v
  | entered hg hdepth => exact ⟨hg.intact (hlinked _ rfl) hdepth, h⟩

theorem Called.failing (hc : Called s out targets fs fs') (h : Intact s fs) : Failing s fs' := by
  cases hc with
  | same => exact .inl h
  | answered v hout => exact .inl (h.receive hout v)
  | entered hg hdepth => exact .inr ⟨_, _, rfl, hg.handler, h⟩

namespace Exec

theorem linked_of_root (hg : g.parent = root fs) : g.Linked fs := by
  intro i hi
  rw [hg, root] at hi
  split at hi
  · rename_i f hlast
    split at hi
    · cases hi
      exact List.length_pos_of_mem (List.mem_of_getLast? hlast)
    · cases hi
  · cases hi

theorem linked_of_top (hne : fs ≠ []) (hg : g.parent = some (fs.length - 1)) : g.Linked fs := by
  intro i hi
  rw [hg] at hi
  cases hi
  exact Nat.sub_lt (List.length_pos_iff.2 hne) Nat.one_pos

theorem linked_of_none (hg : g.parent = none) : g.Linked fs := by
  intro i hi
  rw [hg] at hi
  cases hi

theorem enters_linked (v : Value) : (EntersFunction s fs g → g.Linked fs) ∧
    (EntersClosure s v fs g → g.Linked fs) := by
  constructor
  · rintro ⟨fn, -, hg⟩
    exact linked_of_root hg.parent
  · rintro ⟨_, _, fn, -, -, -, hg⟩
    exact linked_of_root hg.parent

theorem pushFrame_links {parent : Option Nat} {target : Target} {k : Unit → Exec Unit} (m : Machine)
    (hparent : ∀ g : Frame, g.parent = parent → g.Linked m.frames)
    (hk : ∀ u, Steady (k u) Frame.outline) :
    Ensures (pushFrame s target parent out >>= k) m
      (fun _ m' => ∀ g, m'.frames = g :: m.frames → g.Linked m.frames) fun _ _ => True := by
  refine ((pushFrame_ensures target parent out).mono (fun _ _ h => h) fun _ _ _ => trivial).bind
    fun u m₁ h₁ => ?_
  obtain ⟨-, scope, -, rfl⟩ := h₁
  refine (hk u _).mono (fun _ m' h g hg => hparent g ?_) fun _ _ _ => trivial
  obtain ⟨g', hm', hg'⟩ := h.cons rfl
  rw [hm'] at hg
  cases hg
  exact (congrArg Frame.parent hg' :)

theorem callScope_links (f : Frame) (target : Target) (args : List Register) (hne : m.frames ≠ []) :
    Ensures (callScope s f target args out) m
      (fun _ m' => ∀ g, m'.frames = g :: m.frames → g.Linked m.frames) fun _ _ => True := by
  have hstill : ∀ {α : Type} {x : Exec α} (m₁ : Machine), Steady x id → m₁.frames = m.frames →
      Ensures x m₁ (fun _ m' => m'.frames = m.frames) fun _ _ => True := fun m₁ hx h₁ =>
    (hx m₁).mono (fun _ _ h => h.eq.trans h₁) fun _ _ _ => trivial
  refine (hstill m (Steady.lift _) rfl).bind fun scope m₁ h₁ => ?_
  refine (hstill m₁ (readRegisters_steady s f args) h₁).bind fun values m₂ h₂ => ?_
  have hbind : ∀ _ : Unit, Steady (bindParams s scope.params values) Frame.outline :=
    fun _ => bindParams_steady s _ _
  rw [← h₂]
  dsimp only
  split
  · exact Ensures.run (rootFrame_run m₂) (pushFrame_links m₂ (fun _ => linked_of_root) hbind)
  · exact Ensures.get_bind (pushFrame_links m₂ (fun _ => linked_of_top (h₂ ▸ hne)) hbind)

/-- Whatever an operation enters, it is linked. -/
theorem perform_links {op : Operation} (f : Frame) (hcall : op.isCall = true) (hne : m.frames ≠ []) :
    Ensures (perform s f op) m
      (fun _ m' => ∀ g, m'.frames = g :: m.frames → g.Linked m.frames) fun _ _ => True := by
  have hreads : ∀ (rs : List Register) {Q : List Frame → Frame → Prop} {k : List Value → Exec Unit},
      (∀ vs, Opens Q (k vs)) → Opens Q (readRegisters s f rs >>= k) :=
    fun rs Q k hk => Opens.after (readRegisters_steady s f rs) hk
  have hread : ∀ (r : Register) {Q : List Frame → Frame → Prop} {k : Value → Exec Unit},
      (∀ v, Opens Q (k v)) → Opens Q (readRegister s f r >>= k) :=
    fun r Q k hk => Opens.after (readRegister_steady s f r) hk
  have hfunction : ∀ {x : Exec Unit}, Opens (EntersFunction s) x → Opens (fun fs g => g.Linked fs) x :=
    fun hx => hx.imp fun _ _ => (enters_linked .none).1
  have hclosure : ∀ {v : Value} {x : Exec Unit}, Opens (EntersClosure s v) x →
      Opens (fun fs g => g.Linked fs) x := fun hx => hx.imp fun _ _ => (enters_linked _).2
  have hblock : ∀ {x : Exec Unit}, Opens (EntersBlock s op) x → Ensures x m
      (fun _ m' => ∀ g, m'.frames = g :: m.frames → g.Linked m.frames) fun _ _ => True :=
    fun hx => (hx m).imp fun _ _ h g hg => linked_of_top hne (h g hg).parent
  cases op with
  | call target args out => exact callScope_links f target args hne
  | callCompared equal left right target out =>
    refine hblock (hread left fun a => hread right fun b => ?_)
    split
    · exact enterBlock_opens List.mem_cons_self
    · exact Opens.pure _
  | ifElse condition target otherwise out =>
    refine hblock (hread condition fun v => ?_)
    split
    · exact writeRegister_opens _
    · refine enterBlock_opens ?_
      split
      · exact List.mem_cons_self
      · exact List.mem_cons_of_mem _ List.mem_cons_self
  | branch truth condition target out =>
    refine hblock (hread condition fun v => ?_)
    split
    · exact enterBlock_opens List.mem_cons_self
    · exact writeRegister_opens _
  | callFunction name args out => exact hreads args (fun vs => hfunction (callFunction_opens name vs)) m
  | callMethod name receiver variableName args out =>
    refine hread receiver (fun v => hreads args fun vs => ?_) m
    refine (callMethod_opens name v variableName vs).imp fun _ _ h => ?_
    exact h.elim (enters_linked v).1 fun h => (enters_linked v).2 h.2
  | callModule module name args out =>
    exact hreads args (fun vs => hfunction (callModule_opens module name vs)) m
  | callValue callee args out =>
    exact hread callee (fun v => hreads args fun vs => hclosure (invokeClosure_opens v vs)) m
  | collect toMap source target out => exact hblock (hread source fun v => startLoop_opens toMap source v)
  | tryCatch target handler errorName out => exact hblock (tryCatch_opens f target handler errorName)
  | _ => cases hcall

theorem deliver_intact (v : Value) (hm : Intact s m.frames) :
    Ensures (deliver s v out) m (fun _ m' => Intact s m'.frames) fun _ m' => Intact s m'.frames := by
  refine (deliver_ensures v m).mono (fun _ m' h => ?_) fun _ m' h => ?_
  · rw [h.2]
    exact hm.receive h.1 v
  · rw [h.1]
    exact hm

theorem complete_intact (f : Frame) (v : Value) (hm : Intact s m.frames) :
    Ensures (complete s f v) m (fun _ m' => Intact s m'.frames) fun _ m' => Intact s m'.frames := by
  have hrest : ∀ m₁ : Machine, Intact s m₁.frames → Ensures (do
        popFrame s
        deliver s v f.out) m₁ (fun _ m' => Intact s m'.frames) fun _ m' => Intact s m'.frames := by
    intro m₁ hm₁
    refine Ensures.change_bind (deliver_intact v ?_)
    rw [Machine.popFrame_frames]
    exact hm₁.tail
  unfold complete
  dsimp only
  split
  · rename_i fn _
    have hchecked : Steady (do
        lift (fn.checkResult v)
        remember f.memoKey v) id := (Steady.lift _).bind fun _ => remember_steady _ _
    have hbefore : Ensures (do
        lift (fn.checkResult v)
        remember f.memoKey v) m (fun _ m' => Intact s m'.frames) fun _ m' => Intact s m'.frames := by
      refine (hchecked m).mono (fun _ m' h => ?_) fun _ m' h => ?_
      · rwa [h.eq]
      · rwa [h.eq]
    have hall := hbefore.bind fun _ m₁ hm₁ => hrest m₁ hm₁
    rwa [bind_assoc] at hall
  · exact hrest m hm

theorem nextRound_intact (l : Loop) (hf : m.frames = f :: rest) (hm : Intact s m.frames) :
    Ensures (do
        resetFrame s
        bindLoopVariables s l) m (fun _ m' => Intact s m'.frames) fun _ m' => Intact s m'.frames := by
  refine ((resetFrame_rewinds hf).mono (fun _ _ h => h) fun _ m₁ hm₁ => ?_).bind fun _ m₁ hm₁ => ?_
  · rwa [hm₁]
  · obtain ⟨scope, hscope, hm₁⟩ := hm₁
    rw [hf] at hm
    have hrewound : Intact s m₁.frames := by
      rw [hm₁]
      exact ⟨⟨⟨scope, hscope, Frame.size_freshRegisters scope, Nat.zero_le _⟩, .of_fresh rfl,
        hm.1.linked, hm.1.depth⟩, hm.2⟩
    exact (bindLoopVariables_steady l m₁).mono (fun _ _ h => hrewound.tended h)
      fun _ _ h => hrewound.tended h

theorem returnFrom_intact (v : Value) (hm : Intact s m.frames) :
    Ensures (returnFrom s v) m (fun _ m' => Intact s m'.frames) fun _ m' => Intact s m'.frames := by
  refine ((top_ensures m).mono (fun _ _ h => h) fun _ m' h => ?_).bind fun f m₁ h₁ => ?_
  · rwa [h]
  · obtain ⟨rfl, rest, hf⟩ := h₁
    split
    · exact complete_intact f v hm
    · refine ((lift_ensures _ m₁).mono (fun _ _ h => h) fun _ m' h => ?_).bind fun l m₂ h₂ => ?_
      · rwa [h]
      · obtain ⟨rfl, -⟩ := h₂
        rw [hf] at hm
        have hround : Intact s ({ f with loop := some { l with next := l.next + 1 } } :: rest) :=
          ⟨⟨hm.1.scope, ⟨hm.1.reserved.none, hm.1.reserved.one⟩, hm.1.linked, hm.1.depth⟩, hm.2⟩
        dsimp only
        refine Ensures.run (modifyTop_run hf) ?_
        split
        · exact nextRound_intact _ rfl hround
        · exact complete_intact f _ hround

theorem unwindBlocks_intact (frames : List Frame) (hf : m.frames = frames) (hm : Intact s frames) :
    Intact s (unwindBlocks s frames m).frames := by
  cases frames with
  | nil =>
    simp only [unwindBlocks, hf]
    exact hm
  | cons f rest =>
    obtain ⟨popped, g, below, hsplit, hframes, -⟩ :=
      unwindBlocks_frames (s := s) (f :: rest) hf (List.cons_ne_nil _ _)
    rw [hframes]
    exact (hsplit ▸ hm : Intact s (popped ++ g :: below)).suffix

theorem leave_intact (v : Value) (hm : Intact s m.frames) :
    Ensures (leave s v) m (fun _ m' => Intact s m'.frames) fun _ m' => Intact s m'.frames :=
  Ensures.change_bind (returnFrom_intact v (unwindBlocks_intact m.frames rfl hm))

theorem call_intact {op : Operation} (f : Frame) (hcall : op.isCall = true) (hne : m.frames ≠ [])
    (hm : Intact s m.frames) :
    Ensures (perform s f op) m (fun _ m' => Intact s m'.frames) fun _ m' => Failing s m'.frames := by
  have hlinks := perform_links (s := s) f hcall hne
  by_cases htry : ∃ target handler errorName out, op = .tryCatch target handler errorName out
  · obtain ⟨target, handler, errorName, out, rfl⟩ := htry
    refine ((tryCatch_enters f target handler errorName m).both hlinks).mono (fun _ m' h => ?_)
      fun _ m' h => ?_
    · obtain ⟨⟨hdepth, g, hg, hm'⟩, hlinked⟩ := h
      have hg' : g.Linked m.frames := fun i hi => hlinked _ hm' i hi
      have hfits := hg.intact hg' hdepth
      rw [hm']
      exact ⟨⟨hfits.scope, ⟨hfits.reserved.none, hfits.reserved.one⟩, hfits.linked, hdepth⟩, hm⟩
    · rw [h.1]
      exact .inl hm
  · obtain ⟨out, hout⟩ := Operation.out?_of_isCall hcall
    have hcalls := perform_calls (s := s) f hcall (fun target handler errorName out h =>
      htry ⟨target, handler, errorName, out, h⟩) hout m
    exact (hcalls.both hlinks).mono (fun _ _ h => h.1.intact hm h.2) fun _ _ h => h.1.failing hm

theorem return_intact {op : Operation} (f : Frame) (hreturn : op.isReturn = true)
    (hm : Intact s m.frames) :
    Ensures (perform s f op) m (fun _ m' => Intact s m'.frames) fun _ m' => Intact s m'.frames := by
  have hread : ∀ (source : Register) (x : Value → Exec Unit),
      (∀ v m, Intact s m.frames → Ensures (x v) m (fun _ m' => Intact s m'.frames)
        fun _ m' => Intact s m'.frames) →
      Ensures (readRegister s f source >>= x) m (fun _ m' => Intact s m'.frames)
        fun _ m' => Intact s m'.frames := by
    intro source x hx
    have hstill : Steady (readRegister s f source) id := readRegister_steady s f source
    refine ((hstill m).mono (fun _ _ h => h.eq) fun _ m' h => ?_).bind fun v m₁ h₁ => hx v m₁ ?_
    · rwa [h.eq]
    · rwa [h₁]
  cases op with
  | ret source => exact hread source _ fun v m hm => returnFrom_intact v hm
  | leave source => exact hread source _ fun v m hm => leave_intact v hm
  | _ => cases hreturn

theorem perform_intact {op : Operation} (f : Frame) (hne : m.frames ≠ []) (hm : Intact s m.frames) :
    Ensures (perform s f op) m (fun _ m' => Intact s m'.frames) fun _ m' => Failing s m'.frames := by
  cases hcall : op.isCall with
  | true => exact call_intact f hcall hne hm
  | false =>
    cases hreturn : op.isReturn with
    | true => exact (return_intact f hreturn hm).mono (fun _ _ h => h) fun _ _ => .inl
    | false =>
      exact (perform_steady f hcall hreturn m).mono (fun _ _ h => hm.tended h)
        fun _ _ h => .inl (hm.tended h)

/-- A frame moves past an instruction only if there is one. -/
theorem step_intact (hm : Intact s m.frames) :
    Ensures (step s) m (fun _ m' => Intact s m'.frames) fun _ m' => Failing s m'.frames := by
  cases hf : m.frames with
  | nil =>
    refine Ensures.bind (R := fun _ _ => False) ?_ fun _ _ => False.elim
    refine (top_ensures m).mono (fun f m' h => ?_) fun _ m' h => ?_
    · obtain ⟨-, rest, hcons⟩ := h
      rw [hf] at hcons
      cases hcons
    · rw [h]
      exact .inl hm
  | cons f rest =>
    have hfm : Intact s (f :: rest) := hf ▸ hm
    obtain ⟨scope, hscope, hsize, hpc⟩ := hfm.1.scope
    unfold Ensures
    cases hi : scope.code[f.pc]? with
    | none =>
      rw [step_run_end hf hscope hi]
      exact (returnFrom_intact .none hm).mono (fun _ _ h => h) fun _ _ => .inl
    | some i =>
      rw [step_run hf hscope hi]
      obtain ⟨hlt, -⟩ := Array.getElem?_eq_some_iff.1 hi
      exact perform_intact (m := m.taken f rest i) f (List.cons_ne_nil _ _)
        ⟨⟨⟨scope, hscope, hsize, hlt⟩, ⟨hfm.1.reserved.none, hfm.1.reserved.one⟩, hfm.1.linked,
          hfm.1.depth⟩, hfm.2⟩

/-- A handler is entered where its frame stood. -/
theorem handle_intact (k : Handler) (error : Fault) (hf : f.Intact s m.frames)
    (hm : Intact s m.frames) :
    Ensures (handle s f k error) m (fun _ m' => Intact s m'.frames)
      fun _ m' => m'.frames = m.frames := by
  unfold handle
  split
  · refine (deliver_ensures _ m).mono (fun _ m' h => ?_) fun _ m' h => ?_
    · rw [h.2]
      exact hm.receive h.1 _
    · rw [h.1]
  · rename_i target _
    refine ((pushFrame_ensures _ f.parent f.out).mono (fun _ _ h => h) fun _ _ h => ?_).bind
      fun _ m₁ hm₁ => ?_
    · rw [h.1]
    · obtain ⟨hdepth, scope, hscope, rfl⟩ := hm₁
      have hentered : Intact s (entered scope (some target) f.parent f.out :: m.frames) :=
        ⟨⟨⟨scope, hscope, Frame.size_freshRegisters scope, Nat.zero_le _⟩, .of_fresh rfl, hf.linked,
          hdepth⟩, hm⟩
      split
      · exact (bindLet_succeeds _ _ (List.cons_ne_nil _ _)).mono (fun _ _ h => hentered.tended h)
          fun _ _ => False.elim
      · exact Ensures.pure hentered

end Exec

namespace Machine

/-- An error leaves an intact stack where it is handled. -/
theorem unwind_intact (fs : List Frame) (error : Fault) (trace : List Text) (hf : m.frames = fs)
    (hm : Intact s fs) (hnone : (m.unwind s fs error trace).1 = none) :
    Intact s (m.unwind s fs error trace).2.frames := by
  induction fs generalizing m error trace with
  | nil => cases hnone
  | cons f below ih =>
    have hpopped : (m.popFrame s).frames = below := by rw [popFrame_frames, hf, List.tail_cons]
    simp only [unwind] at hnone ⊢
    cases hh : f.handler with
    | none =>
      simp only [hh] at hnone ⊢
      exact ih error trace hpopped hm.2 hnone
    | some k =>
      simp only [hh] at hnone ⊢
      have hhandle := Exec.handle_intact (m := m.popFrame s) k error (hpopped ▸ hm.1) (hpopped ▸ hm.2)
      cases hr : Exec.handle s f k error (m.popFrame s) with
      | ok u m₁ => exact hhandle.of_ok hr
      | error e m₁ =>
        simp only [hr] at hnone ⊢
        exact ih _ _ ((hhandle.of_error hr).trans hpopped) hm.2 hnone

theorem recover_intact (error : Fault) (hm : Failing s m.frames) (hnone : (m.recover s error).1 = none) :
    Intact s (m.recover s error).2.frames := by
  rcases hm with hm | ⟨f, below, hf, hh, hm⟩
  · exact unwind_intact m.frames _ _ rfl hm hnone
  · unfold recover at hnone ⊢
    rw [hf] at hnone ⊢
    simp only [unwind, hh] at hnone ⊢
    exact unwind_intact below _ _ (by rw [popFrame_frames, hf, List.tail_cons]) hm hnone

theorem advance_intact (hm : Intact s m.frames) (ha : m.advance s = .running m') :
    Intact s m'.frames := by
  unfold advance at ha
  split at ha
  · cases ha
  · split at ha
    · rename_i m₁ hr
      cases ha
      exact (Exec.step_intact hm).of_ok hr
    · rename_i e m₁ hr
      have hfailing := (Exec.step_intact hm).of_error hr
      have hrecover := recover_intact e.fault hfailing
      split at ha
      · rename_i m₂ hrec
        cases ha
        rw [hrec] at hrecover
        exact hrecover rfl
      · cases ha

theorem Runs.intact (hr : Runs s m m') (hm : Intact s m.frames) : Intact s m'.frames := by
  induction hr with
  | refl => exact hm
  | next _ ha ih => exact advance_intact ih ha

end Machine

theorem entry_intact {e : Entry} {action : Exec Unit} (ha : e.action s = some action)
    (hf : m.frames = []) (hok : action m = .ok ⟨⟩ m') : Intact s m'.frames := by
  have hcall : ∀ (fn : Function) (args : List Value),
      Exec.Opens (fun fs g => g.Linked fs) (Entry.callAction s fn args) := by
    intro fn args
    have hinvoke : ∀ (args : List Value) (r : Option Receiver), Exec.Opens (fun fs g => g.Linked fs)
        (Exec.invoke s fn args r noneRegister none) := fun args r =>
      (Exec.invoke_opens fn args r none).imp fun _ _ hg => Exec.linked_of_root hg.parent
    unfold Entry.callAction
    split
    · split
      · exact Exec.Opens.fail _
      · exact Exec.Opens.after (Exec.resolveReceiver_steady fn _ none) fun r => hinvoke _ (some r)
    · exact hinvoke args none
  have hlinks : Ensures action m (fun _ m' => ∀ g, m'.frames = g :: m.frames → g.Linked m.frames)
      fun _ _ => True := by
    cases e with
    | run =>
      cases ha
      have hpush : Ensures (Exec.pushFrame s (some 0) none noneRegister >>= fun _ => pure ()) m
          (fun _ m' => ∀ g, m'.frames = g :: m.frames → g.Linked m.frames) fun _ _ => True :=
        Exec.pushFrame_links m (fun g => Exec.linked_of_none) fun _ => Exec.Steady.pure _
      rwa [bind_pure] at hpush
    | named name args =>
      obtain ⟨fn, -, rfl⟩ := Option.map_eq_some_iff.1 ha
      exact hcall fn args m
    | function fn args =>
      cases ha
      exact hcall fn args m
    | closure callee args =>
      cases ha
      exact ((Exec.invokeClosure_opens callee args).imp fun _ _ => (Exec.enters_linked _).2) m
  have hlinked := hlinks.of_ok hok
  rw [hf] at hlinked
  exact (Machine.entry_called ha hf hok).intact trivial hlinked

theorem findIn_follows (name : Text) (above : List Frame) (hf : f.Linked below) :
    Exec.findIn name (some below.length) (above ++ f :: below) =
      (f.bindings.lookup name).or (Exec.findIn name f.parent (above ++ f :: below)) := by
  have hskip : ∀ (above fs : List Frame) (target : Option Nat),
      (∀ i, target = some i → i < fs.length) →
      Exec.findIn name target (above ++ fs) = Exec.findIn name target fs := by
    intro above fs target ht
    induction above with
    | nil => rfl
    | cons g above ih =>
      rw [List.cons_append, Exec.findIn, if_neg, ih]
      intro htop
      have hlt := ht _ htop
      rw [List.length_append] at hlt
      omega
  rw [hskip above (f :: below) _ (fun i hi => by cases hi; exact Nat.lt_succ_self _), Exec.findIn,
    if_pos rfl, List.append_cons, hskip (above ++ [f]) below _ hf]
  cases f.bindings.lookup name <;> rfl

/-- What holds of all frames of a machine. The index of a frame is the number of frames below it. -/
structure Machine.WellFramed (s : Setup) (m : Machine) : Prop where
  depth : m.frames.length ≤ s.options.maxDepth
  scope : ∀ above f below, m.frames = above ++ f :: below → ∃ scope,
    s.program.scopes[f.scope]? = some scope ∧ f.registers.size = max scope.registerCount 2 ∧
      f.pc ≤ scope.code.size
  reserved : ∀ f ∈ m.frames, f.registers[0]? = some .none ∧ f.registers[1]? = some (.int 1)
  parent : ∀ above f below, m.frames = above ++ f :: below →
    ∀ i, f.parent = some i → i < below.length
  lookup : ∀ above f below, m.frames = above ++ f :: below → ∀ name,
    Exec.findIn name (some below.length) m.frames =
      (f.bindings.lookup name).or (Exec.findIn name f.parent m.frames)

theorem Intact.wellFramed (hm : Intact s m.frames) : m.WellFramed s := by
  have hat : ∀ above f below, m.frames = above ++ f :: below → f.Intact s below :=
    fun above f below hf => (hf ▸ hm : Intact s (above ++ f :: below)).suffix.1
  refine ⟨hm.depth, fun above f below hf => ?_, fun f hf => ?_, fun above f below hf =>
    (hat above f below hf).linked, fun above f below hf name => ?_⟩
  · obtain ⟨scope, hscope, hrest⟩ := (hat above f below hf).scope
    obtain ⟨i, hi, hscope⟩ := Program.scope_eq_ok.1 hscope
    cases hi
    exact ⟨scope, hscope, hrest⟩
  · obtain ⟨above, below, hsplit⟩ := List.append_of_mem hf
    have hreserved := (hat above f below hsplit).reserved
    exact ⟨hreserved.none, hreserved.one⟩
  · rw [hf]
    exact findIn_follows name above (hat above f below hf).linked

/-- Whatever the program is and whatever entries a host makes, the frames of a machine are in order
between any two steps, and none is left between entries. -/
theorem session_wellFramed (s : Setup) (host : Host) (visits : List Visit) (v : Visit) :
    let m := (Machine.initial host).visited s visits
    m.frames = [] ∧ ∀ m', v.Reaches s m m' → m'.WellFramed s := by
  intro m
  have hidle : m.Idle s .nothing 0 := Machine.idle_visited s host visits
  refine ⟨hidle.frames, fun m' hr => ?_⟩
  obtain ⟨action, m₁, ha, hok, hruns⟩ := hr
  have hhost : Machine.Idle s .nothing 0 { m with host := v.host } := hidle.anyHost _
  have hbegin : (Machine.begin s { m with host := v.host }).frames = [] := by
    simp [Machine.begin, hhost.settle_eq, hhost.frames]
  exact (hruns.intact (entry_intact ha hbegin hok)).wellFramed

/-- A top level that calls itself without end, to answer in a register that it does not have. -/
def unrulySetup : Setup where
  program :=
    { id := 0
      scopes := #[⟨"<main>", .main, [], #[⟨.call (some 0) [] 9, .unknown⟩], 0, .unknown, [], none⟩]
      modules := .empty
      recordTypes := []
      closures := #[]
      imports := [] }
  builtins := none
  options := { Options.standard with maxDepth := 3 }

theorem unruly_session_wellFramed :
    ∃ m, Visit.Reaches unrulySetup ⟨lonelyHost 0, .run⟩ (Machine.initial (lonelyHost 0)) m ∧
      m.frames.length = 3 ∧ m.WellFramed unrulySetup := by
  have hcheck : (unrulySetup.stateAfter (lonelyHost 0) 2).any (·.frames.length = 3) = true := by
    decide +kernel
  obtain ⟨m, hm, hlength⟩ := (Option.any_eq_true _ _).1 hcheck
  have hreaches := Setup.reaches_stateAfter hm
  exact ⟨m, hreaches, of_decide_eq_true hlength,
    (session_wellFramed unrulySetup (lonelyHost 0) [] ⟨lonelyHost 0, .run⟩).2 m hreaches⟩

end ScriptMachine
