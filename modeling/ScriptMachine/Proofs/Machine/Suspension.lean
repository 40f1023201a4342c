import ScriptMachine.Proofs.Machine.Ascent
import ScriptMachine.Proofs.Machine.Rounds

set_option autoImplicit false

namespace ScriptMachine

/-- A frame that waits for an answer in the register `out`, and other registers for it. -/
structure Waiting where
  out : Register
  frame : Frame
  below : List Frame
  registers : Array Value
  size : registers.size = frame.registers.size
  scratch : firstScratch ≤ out
  fits : out < frame.registers.size

namespace Waiting

/-- The frame with the other registers. -/
def twin (p : Waiting) : Frame := { p.frame with registers := p.registers }

/-- Under the same frames, the lowest of which is to answer, the second machine has the twin. -/
structure Swapped (p : Waiting) (above : List Frame) (m m' : Machine) : Prop where
  frames : m.frames = above ++ p.frame :: p.below
  eq : m' = { m with frames := above ++ p.twin :: p.below }
  answers : ∀ c ∈ above.getLast?, c.out = p.out

/-- The frame waits. -/
def Covered (p : Waiting) (m m' : Machine) : Prop := ∃ c above, p.Swapped (c :: above) m m'

/-- Two actions that end alike. -/
inductive Ends {α : Type} (Q E : Machine → Machine → Prop) : EStateM.Result Trap Machine α →
    EStateM.Result Trap Machine α → Prop
  | ok {a : α} {m m' : Machine} (h : Q m m') : Ends Q E (.ok a m) (.ok a m')
  | error {e : Trap} {m m' : Machine} (h : E m m') : Ends Q E (.error e m) (.error e m')

def Matches {α : Type} (p : Waiting) (x x' : Exec α) : Prop :=
  ∀ m m', p.Covered m m' → Ends p.Covered p.Covered (x m) (x' m')

abbrev Overlooks {α : Type} (p : Waiting) (x : Exec α) : Prop := p.Matches x x

variable {p : Waiting} {α β : Type} {m m' : Machine} {above : List Frame} {c : Frame}

theorem Swapped.retop (h : p.Swapped (c :: above) m m') {d : Frame} (hd : d.out = c.out) (t : Machine) :
    p.Swapped (d :: above) { t with frames := d :: above ++ p.frame :: p.below }
      { t with frames := d :: above ++ p.twin :: p.below } := by
  refine ⟨rfl, rfl, fun e he => ?_⟩
  cases above with
  | nil =>
    cases he
    exact hd.trans (h.answers c rfl)
  | cons b above => exact h.answers e he

theorem Swapped.push (h : p.Swapped (c :: above) m m') (d : Frame) :
    p.Swapped (d :: c :: above) { m with frames := d :: m.frames } { m' with frames := d :: m'.frames } := by
  refine ⟨congrArg (d :: ·) h.frames, ?_, h.answers⟩
  rw [h.eq]
  rfl

theorem Swapped.tail (h : p.Swapped (c :: above) m m') : ∀ e ∈ above.getLast?, e.out = p.out := by
  cases above with
  | nil => exact fun e he => by cases he
  | cons b above => exact h.answers

theorem Swapped.change (h : p.Swapped above m m') {k : Machine → Machine}
    (hframes : ∀ m, (k m).frames = m.frames)
    (hk : ∀ m frames, k { m with frames } = { k m with frames }) : p.Swapped above (k m) (k m') := by
  refine ⟨(hframes m).trans h.frames, ?_, h.answers⟩
  rw [h.eq, hk]

theorem length_twin (above : List Frame) :
    (above ++ p.twin :: p.below).length = (above ++ p.frame :: p.below).length := by
  simp only [List.length_append, List.length_cons]

namespace Matches

variable {x x' : Exec α} {k k' : α → Exec β}

theorem pure (a : α) : p.Overlooks (Pure.pure a : Exec α) := fun _ _ h => .ok h

theorem throw (e : Trap) : p.Overlooks (MonadExcept.throw e : Exec α) := fun _ _ h => .error h

theorem fail (e : Fault) : p.Overlooks (Exec.fail e : Exec α) := throw _

theorem bind (hx : p.Matches x x') (hk : ∀ a, p.Matches (k a) (k' a)) :
    p.Matches (x >>= k) (x' >>= k') := by
  intro m m' h
  have hends := hx m m' h
  simp only [Bind.bind, EStateM.bind]
  generalize x m = r at hends
  generalize x' m' = r' at hends
  cases hends with
  | ok h => exact hk _ _ _ h
  | error h => exact .error h

theorem map (hx : p.Matches x x') (g : α → β) : p.Matches (g <$> x) (g <$> x') := by
  intro m m' h
  have hends := hx m m' h
  simp only [Functor.map, EStateM.map]
  generalize x m = r at hends
  generalize x' m' = r' at hends
  cases hends with
  | ok h => exact .ok h
  | error h => exact .error h

theorem get_bind {k : Machine → Exec α}
    (hk : ∀ (m : Machine) (c : Frame) (above : List Frame),
      p.Matches (k { m with frames := c :: above ++ p.frame :: p.below })
        (k { m with frames := c :: above ++ p.twin :: p.below })) :
    p.Overlooks (get >>= k) := by
  intro m m' hm
  obtain ⟨c, above, h⟩ := hm
  have hfirst : m = { m with frames := c :: above ++ p.frame :: p.below } := by
    rw [List.cons_append, ← List.cons_append, ← h.frames]
  have hends := hk m c above m m' ⟨c, above, h⟩
  rw [← hfirst, ← h.eq] at hends
  exact hends

theorem change {k : Machine → Machine} (hframes : ∀ m, (k m).frames = m.frames)
    (hk : ∀ m frames, k { m with frames } = { k m with frames }) : p.Overlooks (modify k) := by
  rintro m m' ⟨c, above, h⟩
  exact .ok ⟨c, above, h.change hframes hk⟩

theorem lift (r : Except Fault α) : p.Overlooks (Exec.lift r) := by
  cases r with
  | ok a => exact pure a
  | error e => exact fail e

theorem readArena (k : Arena → Except Fault α) : p.Overlooks (Exec.readArena k) := by
  refine get_bind fun m _ _ => ?_
  dsimp only
  split
  · exact pure _
  · exact throw _

theorem onArena (k : Arena → Except Fault Arena) : p.Overlooks (Exec.onArena k) :=
  (readArena k).bind fun _ => change (fun _ => rfl) fun _ _ => rfl

theorem modifyHost (k : Host → Host) : p.Overlooks (Exec.modifyHost k) :=
  change (fun _ => rfl) fun _ _ => rfl

theorem freshId : p.Overlooks Exec.freshId := by
  refine get_bind fun m _ _ => ?_
  exact Matches.bind (change (k := fun t => { t with host := m.host.freshId.2 }) (fun _ => rfl)
    fun _ _ => rfl) fun _ => pure _

theorem top : p.Overlooks Exec.top := get_bind fun _ c _ => pure c

theorem modifyTop {k : Frame → Frame} (hk : ∀ f, (k f).out = f.out) :
    p.Overlooks (Exec.modifyTop k) := by
  rintro m m' ⟨c, above, h⟩
  have hfirst : Exec.modifyTop k m = .ok ⟨⟩ { m with frames := k c :: (above ++ p.frame :: p.below) } :=
    Exec.modifyTop_run h.frames
  have hsecond : Exec.modifyTop k m' = .ok ⟨⟩ { m with frames := k c :: (above ++ p.twin :: p.below) } := by
    rw [h.eq]
    exact Exec.modifyTop_run rfl
  rw [hfirst, hsecond]
  exact .ok ⟨k c, above, h.retop (hk c) m⟩

theorem topIndex : p.Overlooks Exec.topIndex := by
  refine get_bind fun m c above => ?_
  dsimp only
  rw [length_twin]
  exact pure _

theorem mapM {k : α → Exec β} (hk : ∀ a, p.Overlooks (k a)) (as : List α) :
    p.Overlooks (as.mapM k) := by
  induction as with
  | nil => exact pure []
  | cons a as ih =>
    rw [List.mapM_cons]
    exact (hk a).bind fun b => ih.bind fun bs => pure _

theorem filterMapM {k : α → Exec (Option β)} (hk : ∀ a, p.Overlooks (k a)) (as : List α) :
    p.Overlooks (as.filterMapM k) := by
  induction as with
  | nil => exact pure []
  | cons a as ih =>
    rw [List.filterMapM_cons]
    refine (hk a).bind fun b => ?_
    cases b with
    | none => exact ih
    | some b => exact ih.bind fun bs => pure _

theorem forM {k : α → Exec PUnit} (hk : ∀ a, p.Overlooks (k a)) (as : List α) :
    p.Overlooks (as.forM k) := by
  induction as with
  | nil => exact pure _
  | cons a as ih => exact (hk a).bind fun _ => ih

theorem tryCatch {x : Exec α} {k : Trap → Exec α} (hx : p.Overlooks x) (hk : ∀ e, p.Overlooks (k e)) :
    p.Overlooks (MonadExcept.tryCatch x k) := by
  intro m m' h
  have hends := hx m m' h
  simp only [MonadExcept.tryCatch, tryCatchThe, MonadExceptOf.tryCatch, EStateM.tryCatch]
  generalize x m = r at hends
  generalize x m' = r' at hends
  cases hends with
  | ok h => exact .ok h
  | error h => exact hk _ _ _ h

end Matches

end Waiting

namespace Exec

variable {p : Waiting} {α : Type} (s : Setup)

open Waiting (Matches)

theorem outOfRange_overlooks (f : Frame) (r : Register) : p.Overlooks (outOfRange s f r : Exec α) :=
  (Matches.lift _).bind fun _ => Matches.fail _

theorem readRegister_overlooks (f : Frame) (r : Register) : p.Overlooks (readRegister s f r) := by
  unfold readRegister
  split
  · exact Matches.pure _
  · exact outOfRange_overlooks s f r

theorem readRegisters_overlooks (f : Frame) (rs : List Register) : p.Overlooks (readRegisters s f rs) :=
  Matches.mapM (readRegister_overlooks s f) rs

theorem writeRegister_overlooks (r : Register) (v : Value) : p.Overlooks (writeRegister s r v) := by
  refine Matches.top.bind fun f => ?_
  split
  · exact Matches.fail _
  · split
    · exact Matches.modifyTop fun _ => rfl
    · exact outOfRange_overlooks s f r

theorem deliver_overlooks (v : Value) (out : Register) : p.Overlooks (deliver s v out) :=
  Matches.get_bind fun _ _ _ => writeRegister_overlooks s out v

theorem rootFrame_overlooks : p.Overlooks rootFrame := by
  have hlast : ∀ above : List Frame, ((above ++ p.twin :: p.below).getLast?).map Frame.scope =
      ((above ++ p.frame :: p.below).getLast?).map Frame.scope := by
    intro above
    rw [List.getLast?_append_cons, List.getLast?_append_cons]
    cases p.below with
    | nil => rfl
    | cons g below => rfl
  refine Matches.get_bind fun m c above => ?_
  have hsame := hlast (c :: above)
  dsimp only
  generalize (c :: above ++ p.twin :: p.below).getLast? = last at hsame
  generalize (c :: above ++ p.frame :: p.below).getLast? = last' at hsame
  cases last with
  | none =>
    cases last' with
    | none => exact Matches.pure _
    | some g => cases hsame
  | some f =>
    cases last' with
    | none => cases hsame
    | some g =>
      have hscope : f.scope = g.scope := Option.some.inj hsame
      dsimp only
      rw [hscope]
      exact Matches.pure _

theorem pushFrame_overlooks (target : Target) (parent : Option Nat) (out : Register) :
    p.Overlooks (pushFrame s target parent out) := by
  refine Matches.get_bind fun m c above => ?_
  dsimp only
  rw [Waiting.length_twin]
  split
  · exact Matches.fail _
  · refine (Matches.lift _).bind fun scope => ?_
    rintro t t' ⟨c, above, h⟩
    exact .ok ⟨_, _, h.push _⟩

theorem resetFrame_overlooks : p.Overlooks (resetFrame s) := by
  refine Matches.top.bind fun f => (Matches.lift _).bind fun scope => ?_
  refine (Matches.change (fun m => ?_) fun m frames => ?_).bind fun _ => Matches.modifyTop fun _ => rfl
  · rw [Machine.discardAll_eq]
  · rw [Machine.discardAll_eq, Machine.discardAll_eq]

theorem findIn_twin (name : Text) (target : Option Nat) (above : List Frame) :
    findIn name target (above ++ p.twin :: p.below) =
      findIn name target (above ++ p.frame :: p.below) := by
  induction above generalizing target with
  | nil => rfl
  | cons c above ih =>
    simp only [List.cons_append, findIn, Waiting.length_twin, ih]

theorem findBinding_overlooks (name : Text) : p.Overlooks (findBinding name) := by
  refine Matches.get_bind fun m c above => ?_
  dsimp only
  rw [findIn_twin, Waiting.length_twin]
  exact Matches.pure _

theorem borrowedVariable_overlooks (name : Text) : p.Overlooks (borrowedVariable name : Exec α) :=
  Matches.fail _

theorem readVariable_overlooks (name : Text) : p.Overlooks (readVariable name) := by
  have hcell : ∀ h : CellHandle, p.Overlooks (do
      if ← readArena fun a => a.isBorrowed h then borrowedVariable name
      else readArena fun a => a.read h) := by
    intro h
    refine (Matches.readArena _).bind fun b => ?_
    split
    · exact borrowedVariable_overlooks name
    · exact Matches.readArena _
  refine (findBinding_overlooks name).bind fun b => ?_
  split
  · exact Matches.fail _
  · exact Matches.pure _
  · exact hcell _
  · exact hcell _
  · exact Matches.readArena _

theorem assignVariable_overlooks (name : Text) (v : Value) : p.Overlooks (assignVariable name v) := by
  have hcell : ∀ h : CellHandle, p.Overlooks (do
      if ← readArena fun a => a.isBorrowed h then borrowedVariable name
      else onArena fun a => a.write h v) := by
    intro h
    refine (Matches.readArena _).bind fun b => ?_
    split
    · exact borrowedVariable_overlooks name
    · exact Matches.onArena _
  refine (findBinding_overlooks name).bind fun b => ?_
  split
  · exact Matches.fail _
  · exact Matches.fail _
  · exact hcell _
  · exact hcell _
  · exact Matches.onArena _

theorem discard_overlooks (h : CellHandle) : p.Overlooks (modify fun m => m.discard s h) := by
  refine Matches.change (fun m => discard_frames s m h) fun m frames => ?_
  unfold Machine.discard
  split
  · rfl
  · rfl

theorem dropBinding_overlooks (name : Text) : p.Overlooks (dropBinding s name) := by
  refine Matches.top.bind fun f => ?_
  split
  · exact (discard_overlooks s _).bind fun _ => Matches.modifyTop fun _ => rfl
  · exact Matches.modifyTop fun _ => rfl

theorem bindLet_overlooks (name : Text) (v : Value) : p.Overlooks (bindLet s name v) :=
  (dropBinding_overlooks s name).bind fun _ => Matches.modifyTop fun _ => rfl

theorem setArena_overlooks (a : Arena) : p.Overlooks (modify fun m => { m with arena := a }) :=
  Matches.change (fun _ => rfl) fun _ _ => rfl

theorem bindMut_overlooks (name : Text) (v : Value) : p.Overlooks (bindMut s name v) := by
  refine (dropBinding_overlooks s name).bind fun _ => Matches.get_bind fun m _ _ => ?_
  exact (setArena_overlooks _).bind fun _ => Matches.modifyTop fun _ => rfl

theorem bindParams_overlooks (names : List Text) (args : List Value) :
    p.Overlooks (bindParams s names args) := by
  induction names generalizing args with
  | nil => exact Matches.pure _
  | cons name names ih => exact (bindLet_overlooks s name _).bind fun _ => ih args.tail

theorem pin_overlooks (h : CellHandle) : p.Overlooks (pin h) := by
  refine (Matches.readArena _).bind fun b => ?_
  split
  · exact Matches.pure _
  · exact (Matches.onArena _).bind fun _ => Matches.change (fun _ => rfl) fun _ _ => rfl

theorem remember_overlooks (key : Option Text) (v : Value) : p.Overlooks (remember key v) := by
  unfold remember
  split
  · exact Matches.change (fun _ => rfl) fun _ _ => rfl
  · exact Matches.pure _

theorem resolveReceiver_overlooks (f : Function) (v : Value) (variableName : Option Text) :
    p.Overlooks (resolveReceiver f v variableName) := by
  unfold resolveReceiver
  split
  · exact Matches.pure _
  · extract_lets receiverAt
    have hrest : ∀ b : Option Binding, p.Overlooks (receiverAt b) := by
      intro b
      unfold receiverAt
      split
      · exact Matches.pure _
      · exact Matches.pure _
      · exact Matches.pure _
      · exact Matches.get_bind fun m _ _ => (setArena_overlooks _).bind fun _ => Matches.pure _
    split
    · exact (findBinding_overlooks _).bind hrest
    · exact (Matches.pure none).bind hrest

theorem openReceiver_overlooks (r : Option Receiver) : p.Overlooks (openReceiver r) := by
  unfold openReceiver
  split
  · exact Matches.pure _
  · split
    · exact Matches.pure _
    · split
      · exact (Matches.readArena _).bind fun q => (setArena_overlooks _).bind fun _ => Matches.pure _
      · exact (Matches.readArena _).bind fun v => Matches.pure _

theorem closeReceiver_overlooks (r : Option Receiver) (self : Option Value) :
    p.Overlooks (closeReceiver r self) := by
  have hend : ∀ (h : CellHandle) (borrows : Bool), p.Overlooks (do
      if borrows then modify fun m => { m with arena := m.arena.endBorrow h } : Exec Unit) := by
    intro h borrows
    split
    · exact Matches.change (fun _ => rfl) fun _ _ => rfl
    · exact Matches.pure _
  unfold closeReceiver
  split
  · dsimp only
    split
    · exact (Matches.onArena _).bind fun _ => hend _ _
    · exact hend _ _
  · exact Matches.pure _

theorem callNative_overlooks (f : Function) (code : Option Native) (args : List Value)
    (r : Option Receiver) (key : Option Text) (out : Register) :
    p.Overlooks (callNative s f code args r key out) := by
  refine (openReceiver_overlooks r).bind fun self => Matches.get_bind fun m c above => ?_
  dsimp only
  rw [Waiting.length_twin]
  refine Matches.bind (Matches.change (fun _ => rfl) fun _ _ => rfl) fun _ => ?_
  refine (closeReceiver_overlooks r _).bind fun _ => ?_
  split
  · exact Matches.fail _
  · exact (Matches.lift _).bind fun _ => (remember_overlooks key _).bind fun _ => deliver_overlooks s _ out

theorem bindCaptures_overlooks (scope : Scope) (closure : Value)
    (captures : List (Text × Captured Value)) : p.Overlooks (bindCaptures s scope closure captures) := by
  unfold bindCaptures
  extract_lets bindAll
  have hrest : ∀ u, p.Overlooks (bindAll u) := by
    refine fun _ => Matches.forM (fun e => ?_) captures
    exact (dropBinding_overlooks s e.1).bind fun _ => Matches.modifyTop fun _ => rfl
  split
  · exact (bindLet_overlooks s _ closure).bind hrest
  · exact hrest ⟨⟩

theorem bindReceiver_overlooks (r : Receiver) : p.Overlooks (bindReceiver s r) := by
  unfold bindReceiver
  split
  · exact bindLet_overlooks s _ _
  · extract_lets bindSelf borrow
    have hself : ∀ u, p.Overlooks (bindSelf u) := fun _ => Matches.modifyTop fun _ => rfl
    have hborrow : ∀ u, p.Overlooks (borrow u) := by
      intro _
      unfold borrow
      split
      · refine (Matches.readArena _).bind fun q => (setArena_overlooks _).bind fun _ => ?_
        exact Matches.bind (Matches.modifyTop fun _ => rfl) hself
      · exact hself ⟨⟩
    split
    · exact Matches.bind (Matches.modifyTop fun _ => rfl) hborrow
    · exact hborrow ⟨⟩

theorem enter_overlooks (f : Function) (args : List Value) (r : Option Receiver)
    (key : Option Text) (closure : Option ClosureCall) (out : Register) :
    p.Overlooks (enter s f args r key closure out) := by
  refine rootFrame_overlooks.bind fun parent => (pushFrame_overlooks s _ parent out).bind fun _ => ?_
  refine Matches.bind (Matches.modifyTop fun _ => rfl) fun _ => (Matches.lift _).bind fun scope => ?_
  extract_lets bindArguments
  have hrest : ∀ u, p.Overlooks (bindArguments u) := by
    refine fun _ => (bindParams_overlooks s _ _).bind fun _ => ?_
    split
    · exact bindReceiver_overlooks s _
    · exact Matches.pure _
  split
  · exact (bindCaptures_overlooks s _ _ _).bind hrest
  · exact hrest ⟨⟩

theorem invokeBody_overlooks (f : Function) (args : List Value) (r : Option Receiver)
    (out : Register) (closure : Option ClosureCall) :
    p.Overlooks (invokeBody s f args r out closure) := by
  refine (Matches.lift _).bind fun args => Matches.get_bind fun m _ _ => ?_
  dsimp only
  split
  · exact (deliver_overlooks s _ out).bind fun _ => Matches.pure _
  · split
    · exact (callNative_overlooks s f _ args r _ out).bind fun _ => Matches.pure _
    · exact (enter_overlooks s f args r _ closure out).bind fun _ => Matches.pure _

theorem invoke_overlooks (f : Function) (args : List Value) (r : Option Receiver) (out : Register)
    (closure : Option ClosureCall) : p.Overlooks (invoke s f args r out closure) := by
  have hrelease : ∀ h : CellHandle, p.Overlooks
      (modify fun m => { m with arena := m.arena.releaseIfFree h } : Exec Unit) :=
    fun h => Matches.change (fun _ => rfl) fun _ _ => rfl
  have hbody := invokeBody_overlooks (p := p) s f args r out closure
  unfold invoke
  split
  · exact hbody.bind fun _ => Matches.pure _
  · refine (Matches.tryCatch hbody fun e => (hrelease _).bind fun _ => Matches.throw e).bind fun b => ?_
    split
    · exact hrelease _
    · exact Matches.pure _

theorem invokeClosure_overlooks (callee : Value) (args : List Value) (out : Register) :
    p.Overlooks (invokeClosure s callee args out) := by
  unfold invokeClosure
  split
  · split
    · exact Matches.fail _
    · refine Matches.get_bind fun m _ _ => ?_
      dsimp only
      split
      · exact Matches.fail _
      · split
        · exact invoke_overlooks s _ _ _ _ _
        · exact Matches.fail _
  · exact Matches.fail _

theorem captureVariable_overlooks (name : Text) : p.Overlooks (captureVariable name) := by
  refine (findBinding_overlooks name).bind fun b => ?_
  split
  · exact Matches.pure _
  · exact Matches.pure _
  · exact (pin_overlooks _).bind fun _ => Matches.pure _
  · exact (pin_overlooks _).bind fun _ => Matches.pure _
  · exact (Matches.readArena _).bind fun v => Matches.pure _

theorem makeClosure_overlooks (function : Nat) (out : Register) :
    p.Overlooks (makeClosure s function out) := by
  unfold makeClosure
  split
  · exact Matches.fail _
  · refine (Matches.lift _).bind fun body => ?_
    refine (Matches.filterMapM captureVariable_overlooks _).bind fun captures => ?_
    exact Matches.freshId.bind fun id => Matches.get_bind fun m _ _ => writeRegister_overlooks s out _

theorem objectAttribute_overlooks (receiver : Value) (name : Text) (args : List Value) :
    p.Overlooks (objectAttribute receiver name args) := by
  unfold objectAttribute
  split
  · split
    · exact (Matches.lift _).map _
    · split
      · exact (Matches.lift _).map _
      · exact Matches.pure _
  · exact Matches.pure _

theorem invokeExtension_overlooks (f : Function) (self : Value) (args : List Value)
    (variableName : Option Text) (out : Register) :
    p.Overlooks (invokeExtension s f self args variableName out) :=
  (resolveReceiver_overlooks f self variableName).bind fun _ => invoke_overlooks s f args _ out none

theorem callFunction_overlooks (name : Text) (args : List Value) (out : Register) :
    p.Overlooks (callFunction s name args out) := by
  unfold callFunction
  split
  · exact invoke_overlooks s _ _ _ _ _
  · split
    · exact Matches.fail _
    · refine (objectAttribute_overlooks _ _ _).bind fun found => ?_
      split
      · exact writeRegister_overlooks s _ _
      · split
        · exact invokeExtension_overlooks s _ _ _ _ _
        · exact Matches.fail _

theorem callMethod_overlooks (name : Text) (receiver : Value) (variableName : Option Text)
    (args : List Value) (out : Register) :
    p.Overlooks (callMethod s name receiver variableName args out) := by
  unfold callMethod
  split
  · exact invokeClosure_overlooks s _ _ _
  · refine (objectAttribute_overlooks _ _ _).bind fun found => ?_
    split
    · exact writeRegister_overlooks s _ _
    · split
      · exact writeRegister_overlooks s _ _
      · split
        · exact invokeExtension_overlooks s _ _ _ _ _
        · split
          · exact invoke_overlooks s _ _ _ _ _
          · exact Matches.fail _

theorem callModule_overlooks (module name : Text) (args : List Value) (out : Register) :
    p.Overlooks (callModule s module name args out) := by
  unfold callModule
  split
  · exact invoke_overlooks s _ _ _ _ _
  · split
    · exact Matches.fail _
    · split
      · exact invokeExtension_overlooks s _ _ _ _ _
      · exact Matches.fail _

theorem bindLoopVariables_overlooks (l : Loop) : p.Overlooks (bindLoopVariables s l) :=
  Matches.top.bind fun _ => (Matches.lift _).bind fun _ => bindParams_overlooks s _ _

theorem startLoop_overlooks (toMap : Bool) (source : Value) (target : Target) (out : Register) :
    p.Overlooks (startLoop s toMap source target out) := by
  refine (Matches.lift _).bind fun count => ?_
  dsimp only
  split
  · exact writeRegister_overlooks s _ _
  · refine Matches.topIndex.bind fun i => (pushFrame_overlooks s _ _ _).bind fun _ => ?_
    exact Matches.bind (Matches.modifyTop fun _ => rfl) fun _ => bindLoopVariables_overlooks s _

theorem readPairs_overlooks (f : Frame) (rs : List Register) : p.Overlooks (readPairs s f rs) := by
  fun_induction readPairs s f rs with
  | case1 k v rest ih =>
    refine (readRegister_overlooks s f v).bind fun value => ?_
    exact (readRegister_overlooks s f k).bind fun key => ih.bind fun es => Matches.pure _
  | case2 => exact Matches.pure _

theorem applyUnary_overlooks (op : UnaryOp) (v : Value) : p.Overlooks (applyUnary op v) := by
  unfold applyUnary
  dsimp only
  split
  · exact (Matches.modifyHost _).bind fun _ => Matches.lift _
  · exact (Matches.modifyHost _).bind fun _ => Matches.lift _
  · exact Matches.lift _

theorem applyBinary_overlooks (op : BinaryOp) (a b : Value) : p.Overlooks (applyBinary op a b) := by
  unfold applyBinary recordId
  split
  · exact Matches.freshId.bind fun _ => Matches.lift _
  · exact (Matches.pure 0).bind fun _ => Matches.lift _

theorem enterBlock_overlooks (target : Target) (out : Register) :
    p.Overlooks (enterBlock s target out) :=
  Matches.topIndex.bind fun _ => pushFrame_overlooks s _ _ _

theorem callScope_overlooks (f : Frame) (target : Target) (args : List Register) (out : Register) :
    p.Overlooks (callScope s f target args out) := by
  refine (Matches.lift _).bind fun scope => (readRegisters_overlooks s f args).bind fun values => ?_
  have hrest : ∀ parent : Option Nat, p.Overlooks (do
      pushFrame s target parent out
      bindParams s scope.params values) := fun parent =>
    (pushFrame_overlooks s _ _ _).bind fun _ => bindParams_overlooks s _ _
  dsimp only
  split
  · exact rootFrame_overlooks.bind hrest
  · exact (Matches.topIndex.map _).bind hrest

theorem castRegister_overlooks (f : Frame) (source out : Register) (type : DeclaredType) :
    p.Overlooks (castRegister s f source out type) := by
  refine (readRegister_overlooks s f source).bind fun v => ?_
  split
  · exact writeRegister_overlooks s out _
  · split
    · exact Matches.get_bind fun m _ _ => writeRegister_overlooks s out _
    · exact Matches.fail _

theorem raise_overlooks (v : Value) : p.Overlooks (raise v) := by
  unfold raise
  split
  · exact Matches.fail _
  · exact Matches.get_bind fun m _ _ => Matches.fail _

theorem log_overlooks (f : Frame) (level : LogLevel) (template : Text) (args : List Register) :
    p.Overlooks (log s f level template args) := by
  unfold log
  split
  · exact (readRegisters_overlooks s f args).bind fun _ => Matches.modifyHost _
  · exact Matches.pure _

/-- All operations but returns do the same whatever the registers of the waiting frame hold. -/
theorem perform_overlooks {op : Operation} (f : Frame) (hreturn : op.isReturn = false) :
    p.Overlooks (perform s f op) := by
  have hread : ∀ (r : Register) {k : Value → Exec Unit}, (∀ v, p.Overlooks (k v)) →
      p.Overlooks (readRegister s f r >>= k) := fun r _ hk => (readRegister_overlooks s f r).bind hk
  have hreads : ∀ (rs : List Register) {k : List Value → Exec Unit}, (∀ vs, p.Overlooks (k vs)) →
      p.Overlooks (readRegisters s f rs >>= k) := fun rs _ hk => (readRegisters_overlooks s f rs).bind hk
  have hwrite := writeRegister_overlooks (p := p) s
  have hhalt : ∀ v : Value, p.Overlooks (modify fun m => { m with halted := some v }) :=
    fun v => Matches.change (fun _ => rfl) fun _ _ => rfl
  cases op with
  | halt source => exact hread source hhalt
  | haltIfError source =>
    refine hread source fun v => ?_
    split
    · exact hhalt v
    · exact Matches.pure _
  | load literal out => exact hwrite out literal
  | copy source out => exact hread source (hwrite out)
  | loadLet name source => exact hread source (bindLet_overlooks s name)
  | loadMut name source => exact hread source (bindMut_overlooks s name)
  | setVariable name source => exact hread source (assignVariable_overlooks name)
  | getVariable name out => exact (readVariable_overlooks name).bind (hwrite out)
  | unary op source out => exact hread source fun v => (applyUnary_overlooks op v).bind (hwrite out)
  | binary op left right out =>
    exact hread right fun b => hread left fun a => (applyBinary_overlooks op a b).bind (hwrite out)
  | makeList items out => exact hreads items fun vs => hwrite out _
  | makeMap pairs out =>
    rw [perform]
    split
    · exact Matches.fail _
    · exact (readPairs_overlooks s f pairs).bind fun es => hwrite out _
  | call target args out => exact callScope_overlooks s f target args out
  | callCompared equal left right target out =>
    refine hread left fun a => hread right fun b => ?_
    split
    · exact enterBlock_overlooks s target out
    · exact Matches.pure _
  | ifElse condition target otherwise out =>
    refine hread condition fun v => ?_
    split
    · exact hwrite out _
    · exact enterBlock_overlooks s _ out
  | branch truth condition target out =>
    refine hread condition fun v => ?_
    split
    · exact enterBlock_overlooks s target out
    · exact hwrite out _
  | callFunction name args out => exact hreads args fun vs => callFunction_overlooks s name vs out
  | callMethod name receiver variableName args out =>
    exact hread receiver fun v => hreads args fun vs => callMethod_overlooks s name v variableName vs out
  | callModule module name args out => exact hreads args fun vs => callModule_overlooks s module name vs out
  | tryCatch target handler errorName out =>
    exact (enterBlock_overlooks s target out).bind fun _ => Matches.modifyTop fun _ => rfl
  | raise source => exact hread source raise_overlooks
  | cast source out type => exact castRegister_overlooks s f source out type
  | makeClosure function out => exact makeClosure_overlooks s function out
  | callValue callee args out =>
    exact hread callee fun v => hreads args fun vs => invokeClosure_overlooks s v vs out
  | makeRange start stop inclusive out =>
    exact hread stop fun b => hread start fun a => (Matches.lift _).bind (hwrite out)
  | collect toMap source target out => exact hread source fun v => startLoop_overlooks s toMap v target out
  | puts args => exact hreads args fun vs => Matches.modifyHost _
  | log level template args => exact log_overlooks s f level template args
  | ret source => cases hreturn
  | leave source => cases hreturn

end Exec

end ScriptMachine
