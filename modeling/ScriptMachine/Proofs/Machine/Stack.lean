import ScriptMachine.Proofs.Outcome
import ScriptMachine.Machine.Run

set_option autoImplicit false

namespace ScriptMachine

variable {α β ω : Type} {π : Frame → ω}

def veiled (registers : Array Value) : Array Value :=
  registers.mapIdx fun r v => if r < firstScratch then v else .none

theorem veiled_eq_iff {a b : Array Value} :
    veiled a = veiled b ↔ a.size = b.size ∧ ∀ r < firstScratch, a[r]? = b[r]? := by
  have hat : ∀ (d : Array Value) (r : Nat), (veiled d)[r]? =
      if r < firstScratch then d[r]? else d[r]?.map fun _ => .none := by
    intro d r
    rw [veiled, Array.getElem?_mapIdx]
    split
    · exact Option.map_id'
    · rfl
  constructor
  · intro h
    refine ⟨by simpa [veiled] using congrArg Array.size h, fun r hr => ?_⟩
    have hr' := congrArg (fun d : Array Value => d[r]?) h
    simpa [hat, hr] using hr'
  · rintro ⟨hsize, hsame⟩
    refine Array.ext_getElem? fun r => ?_
    rw [hat, hat]
    split
    · exact hsame r ‹_›
    · by_cases hr : r < a.size
      · rw [Array.getElem?_eq_getElem hr, Array.getElem?_eq_getElem (hsize ▸ hr)]
        rfl
      · rw [Array.getElem?_eq_none (Nat.not_lt.1 hr), Array.getElem?_eq_none (hsize ▸ Nat.not_lt.1 hr)]

def Frame.outline (f : Frame) : Frame :=
  { f with registers := veiled f.registers, bindings := [], owned := [] }

theorem Frame.outline_registers (f : Frame) (registers : Array Value)
    (h : registers.size = f.registers.size)
    (hr : ∀ r < firstScratch, registers[r]? = f.registers[r]?) :
    { f with registers }.outline = f.outline := by
  simp only [outline, veiled_eq_iff.2 ⟨h, hr⟩]

theorem Frame.registers_of_outline {f g : Frame} (h : g.outline = f.outline) :
    g.registers.size = f.registers.size ∧ ∀ r < firstScratch, g.registers[r]? = f.registers[r]? :=
  veiled_eq_iff.1 (congrArg Frame.registers h)

def Blind (π : Frame → ω) : Prop := ∀ (f : Frame) (registers : Array Value),
  registers.size = f.registers.size → (∀ r < firstScratch, registers[r]? = f.registers[r]?) →
    π { f with registers } = π f

theorem Blind.outline : Blind Frame.outline := fun f registers => f.outline_registers registers

/-- The stack is the same but for what the view does not show of the top frame. -/
structure Machine.Tended (m m' : Machine) (π : Frame → ω) : Prop where
  view : m'.frames.map π = m.frames.map π
  tail : m'.frames.tail = m.frames.tail

namespace Machine.Tended

variable {m m' m'' : Machine}

theorem of_eq (h : m'.frames = m.frames) : m.Tended m' π :=
  ⟨congrArg (List.map π) h, congrArg List.tail h⟩

theorem trans (h : m.Tended m' π) (h' : m'.Tended m'' π) : m.Tended m'' π :=
  ⟨h'.view.trans h.view, h'.tail.trans h.tail⟩

theorem cons {f : Frame} {rest : List Frame} (h : m.Tended m' π) (hf : m.frames = f :: rest) :
    ∃ f', m'.frames = f' :: rest ∧ π f' = π f := by
  obtain ⟨hview, htail⟩ := h
  rw [hf] at hview htail
  cases hf' : m'.frames with
  | nil => simp [hf'] at hview
  | cons f' rest' =>
    rw [hf'] at hview htail
    refine ⟨f', ?_, (List.cons.inj hview).1⟩
    rw [show rest' = rest from htail]

theorem eq (h : m.Tended m' id) : m'.frames = m.frames := by
  have hview := h.view
  rwa [List.map_id, List.map_id] at hview

theorem coarse (h : m.Tended m' Frame.outline) (hπ : ∀ f, π f.outline = π f) : m.Tended m' π := by
  have hview : π = π ∘ Frame.outline := funext fun f => (hπ f).symm
  refine ⟨?_, h.tail⟩
  rw [hview, ← List.map_map, ← List.map_map, h.view]

end Machine.Tended

def Machine.taken (m : Machine) (f : Frame) (rest : List Frame) (i : Instruction) : Machine :=
  { m with
    frames := { f with pc := f.pc + 1 } :: rest
    location := if i.location.known then i.location else m.location }

namespace Exec

/-- The action changes nothing of the stack that the view shows, and nothing below the top frame,
also when it fails. -/
def Steady (x : Exec α) (π : Frame → ω) : Prop :=
  ∀ m, Ensures x m (fun _ m' => m.Tended m' π) fun _ m' => m.Tended m' π

section Known

variable {m : Machine} {f : Frame} {rest : List Frame}

theorem top_ensures (m : Machine) :
    Ensures top m (fun f m' => m' = m ∧ ∃ rest, m.frames = f :: rest) fun _ m' => m' = m := by
  refine Ensures.get_bind ?_
  split
  · exact Ensures.pure ⟨rfl, _, ‹_›⟩
  · exact Ensures.throw rfl

theorem top_run (hf : m.frames = f :: rest) : top m = .ok f m := by
  have hget : (get : Exec Machine) m = .ok m m := rfl
  unfold top
  rw [run_bind hget, hf]
  rfl

theorem lift_ensures (r : Except Fault α) (m : Machine) :
    Ensures (lift r) m (fun a m' => m' = m ∧ r = .ok a) fun _ m' => m' = m := by
  cases r with
  | ok a => exact Ensures.pure ⟨rfl, rfl⟩
  | error e => exact Ensures.throw rfl

theorem modifyTop_run {g : Frame → Frame} (hf : m.frames = f :: rest) :
    modifyTop g m = .ok ⟨⟩ { m with frames := g f :: rest } := by
  obtain ⟨frames⟩ := m
  cases hf
  rfl

variable {s : Setup} {scope : Scope} {i : Instruction} {r : Register} {v : Value}

theorem writeRegister_run (hf : m.frames = f :: rest) (hr : firstScratch ≤ r)
    (hsize : r < f.registers.size) : writeRegister s r v m =
      .ok ⟨⟩ { m with frames := { f with registers := f.registers.setIfInBounds r v } :: rest } := by
  unfold writeRegister
  rw [run_bind (top_run hf), if_neg (Nat.not_lt.2 hr), if_pos hsize]
  exact modifyTop_run hf

theorem step_run (hf : m.frames = f :: rest) (hscope : s.program.scope (some f.scope) = .ok scope)
    (hi : scope.code[f.pc]? = some i) : step s m = perform s f i.operation (m.taken f rest i) := by
  have hlift : lift (s.program.scope (some f.scope)) m = .ok scope m := by
    rw [hscope]
    rfl
  unfold step
  rw [run_bind (top_run hf), run_bind hlift, hi]
  dsimp only
  rw [run_bind (modifyTop_run hf)]
  unfold Machine.taken
  split <;> rfl

theorem step_run_end (hf : m.frames = f :: rest)
    (hscope : s.program.scope (some f.scope) = .ok scope) (hi : scope.code[f.pc]? = none) :
    step s m = returnFrom s .none m := by
  have hlift : lift (s.program.scope (some f.scope)) m = .ok scope m := by
    rw [hscope]
    rfl
  unfold step
  rw [run_bind (top_run hf), run_bind hlift, hi]

end Known

namespace Steady

variable {x : Exec α} {f : α → Exec β}

theorem coarse (hx : Steady x Frame.outline) (hπ : ∀ f, π f.outline = π f) : Steady x π :=
  fun m => (hx m).mono (fun _ _ h => h.coarse hπ) fun _ _ h => h.coarse hπ

theorem pure (a : α) : Steady (Pure.pure a : Exec α) π := fun _ => Ensures.pure (.of_eq rfl)

theorem fail (e : Fault) : Steady (Exec.fail e : Exec α) π := fun _ => Ensures.throw (.of_eq rfl)

theorem throw (e : Trap) : Steady (MonadExcept.throw e : Exec α) π := fun _ => Ensures.throw (.of_eq rfl)

theorem bind (hx : Steady x π) (hf : ∀ a, Steady (f a) π) : Steady (x >>= f) π := by
  intro m
  refine (hx m).bind fun a t ht => ?_
  exact (hf a t).mono (fun _ _ h => ht.trans h) fun _ _ h => ht.trans h

theorem map {g : α → β} (hx : Steady x π) : Steady (g <$> x) π :=
  fun m => Ensures.map (P := fun _ m' => m.Tended m' π) (hx m)

theorem get : Steady (MonadState.get : Exec Machine) π := fun _ => Ensures.get (.of_eq rfl)

theorem change {g : Machine → Machine} (hg : ∀ m, (g m).frames = m.frames) :
    Steady (modify g : Exec Unit) π := fun m => Ensures.change (.of_eq (hg m))

theorem lift (r : Except Fault α) : Steady (Exec.lift r) π := by
  cases r with
  | ok a => exact pure a
  | error e => exact fail e

theorem top : Steady Exec.top π := by
  refine get.bind fun m => ?_
  split
  · exact pure _
  · exact fail _

theorem modifyTop {g : Frame → Frame} (hg : ∀ f, π (g f) = π f) :
    Steady (Exec.modifyTop g) π := by
  refine fun m => Ensures.change ?_
  cases hf : m.frames with
  | nil => exact .of_eq rfl
  | cons f rest => exact ⟨by simp [hf, hg], by simp [hf]⟩

theorem readArena (f : Arena → Except Fault α) : Steady (Exec.readArena f) π := by
  refine get.bind fun m => ?_
  split
  · exact pure _
  · exact throw _

theorem onArena (f : Arena → Except Fault Arena) : Steady (Exec.onArena f) π :=
  (readArena f).bind fun _ => change fun _ => rfl

theorem modifyHost (f : Host → Host) : Steady (Exec.modifyHost f) π := change fun _ => rfl

theorem freshId : Steady Exec.freshId π := by
  refine get.bind fun m => ?_
  split
  exact bind (change fun _ => rfl) fun _ => pure _

theorem topIndex : Steady Exec.topIndex π := get.bind fun _ => pure _

theorem mapM {g : α → Exec β} (hg : ∀ a, Steady (g a) π) (as : List α) : Steady (as.mapM g) π := by
  induction as with
  | nil => exact pure []
  | cons a as ih =>
    rw [List.mapM_cons]
    exact (hg a).bind fun b => ih.bind fun bs => pure _

theorem filterMapM {g : α → Exec (Option β)} (hg : ∀ a, Steady (g a) π) (as : List α) :
    Steady (as.filterMapM g) π := by
  induction as with
  | nil => exact pure []
  | cons a as ih =>
    rw [List.filterMapM_cons]
    refine (hg a).bind fun b => ?_
    cases b with
    | none => exact ih
    | some b => exact ih.bind fun bs => pure _

theorem forM {g : α → Exec PUnit} (hg : ∀ a, Steady (g a) π) (as : List α) : Steady (as.forM g) π := by
  induction as with
  | nil => exact pure _
  | cons a as ih => exact (hg a).bind fun _ => ih

end Steady

variable (s : Setup)

theorem outOfRange_steady (f : Frame) (r : Register) : Steady (outOfRange s f r : Exec α) π :=
  (Steady.lift _).bind fun _ => Steady.fail _

theorem readRegister_steady (f : Frame) (r : Register) : Steady (readRegister s f r) π := by
  unfold readRegister
  split
  · exact Steady.pure _
  · exact outOfRange_steady s f r

theorem readRegisters_steady (f : Frame) (rs : List Register) : Steady (readRegisters s f rs) π :=
  Steady.mapM (readRegister_steady s f) rs

theorem writeRegister_steady (hπ : Blind π) (r : Register) (v : Value) :
    Steady (writeRegister s r v) π := by
  refine Steady.top.bind fun f => ?_
  split
  · exact Steady.fail _
  · split
    · refine Steady.modifyTop fun f => hπ f _ Array.size_setIfInBounds fun q hq => ?_
      exact Array.getElem?_setIfInBounds_ne
        (Nat.ne_of_gt (Nat.lt_of_lt_of_le hq (Nat.not_lt.1 ‹¬r < firstScratch›)))
    · exact outOfRange_steady s f r

theorem deliver_steady (v : Value) (out : Register) : Steady (deliver s v out) Frame.outline := by
  refine Steady.get.bind fun m => ?_
  split
  · exact Steady.change fun _ => rfl
  · exact writeRegister_steady s .outline out v

theorem rootFrame_steady : Steady rootFrame π := by
  refine Steady.get.bind fun m => ?_
  split
  · exact Steady.pure _
  · exact Steady.pure _

theorem discard_frames (m : Machine) (h : CellHandle) : (m.discard s h).frames = m.frames := by
  unfold Machine.discard
  split
  · rfl
  · rfl

theorem findBinding_steady (name : Text) : Steady (findBinding name) π :=
  Steady.get.bind fun _ => Steady.pure _

theorem borrowedVariable_steady (name : Text) : Steady (borrowedVariable name : Exec α) π :=
  Steady.fail _

theorem readVariable_steady (name : Text) : Steady (readVariable name) π := by
  have hcell : ∀ h : CellHandle, Steady (do
      if ← readArena fun a => a.isBorrowed h then borrowedVariable name
      else readArena fun a => a.read h) π := by
    intro h
    refine (Steady.readArena _).bind fun b => ?_
    split
    · exact borrowedVariable_steady name
    · exact Steady.readArena _
  refine (findBinding_steady name).bind fun b => ?_
  split
  · exact Steady.fail _
  · exact Steady.pure _
  · exact hcell _
  · exact hcell _
  · exact Steady.readArena _

theorem assignVariable_steady (name : Text) (v : Value) : Steady (assignVariable name v) π := by
  have hcell : ∀ h : CellHandle, Steady (do
      if ← readArena fun a => a.isBorrowed h then borrowedVariable name
      else onArena fun a => a.write h v) π := by
    intro h
    refine (Steady.readArena _).bind fun b => ?_
    split
    · exact borrowedVariable_steady name
    · exact Steady.onArena _
  refine (findBinding_steady name).bind fun b => ?_
  split
  · exact Steady.fail _
  · exact Steady.fail _
  · exact hcell _
  · exact hcell _
  · exact Steady.onArena _

theorem dropBinding_steady (name : Text) : Steady (dropBinding s name) Frame.outline := by
  refine Steady.top.bind fun f => ?_
  split
  · exact (Steady.change fun m => discard_frames s m _).bind fun _ => Steady.modifyTop fun _ => rfl
  · exact Steady.modifyTop fun _ => rfl

theorem bindLet_steady (name : Text) (v : Value) : Steady (bindLet s name v) Frame.outline :=
  (dropBinding_steady s name).bind fun _ => Steady.modifyTop fun _ => rfl

theorem bindMut_steady (name : Text) (v : Value) : Steady (bindMut s name v) Frame.outline := by
  refine (dropBinding_steady s name).bind fun _ => Steady.get.bind fun m => ?_
  split
  exact Steady.bind (Steady.change fun _ => rfl) fun _ => Steady.modifyTop fun _ => rfl

theorem bindParams_steady (names : List Text) (args : List Value) :
    Steady (bindParams s names args) Frame.outline := by
  induction names generalizing args with
  | nil => exact Steady.pure _
  | cons name names ih => exact (bindLet_steady s name _).bind fun _ => ih args.tail

theorem pin_steady (h : CellHandle) : Steady (pin h) π := by
  refine (Steady.readArena _).bind fun b => ?_
  split
  · exact Steady.pure _
  · exact (Steady.onArena _).bind fun _ => Steady.change fun _ => rfl

theorem remember_steady (key : Option Text) (v : Value) : Steady (remember key v) π := by
  unfold remember
  split
  · exact Steady.change fun _ => rfl
  · exact Steady.pure _

theorem resolveReceiver_steady (f : Function) (v : Value) (variableName : Option Text) :
    Steady (resolveReceiver f v variableName) π := by
  unfold resolveReceiver
  split
  · exact Steady.pure _
  · extract_lets receiverAt
    have hrest : ∀ b : Option Binding, Steady (receiverAt b) π := by
      intro b
      unfold receiverAt
      split
      · exact Steady.pure _
      · exact Steady.pure _
      · exact Steady.pure _
      · refine Steady.get.bind fun m => ?_
        split
        exact Steady.bind (Steady.change fun _ => rfl) fun _ => Steady.pure _
    split
    · exact (findBinding_steady _).bind hrest
    · exact (Steady.pure none).bind hrest

theorem openReceiver_steady (r : Option Receiver) : Steady (openReceiver r) π := by
  unfold openReceiver
  split
  · exact Steady.pure _
  · split
    · exact Steady.pure _
    · split
      · refine (Steady.readArena _).bind fun p => ?_
        split
        exact Steady.bind (Steady.change fun _ => rfl) fun _ => Steady.pure _
      · exact (Steady.readArena _).bind fun v => Steady.pure _

theorem closeReceiver_steady (r : Option Receiver) (self : Option Value) :
    Steady (closeReceiver r self) π := by
  have hend : ∀ (h : CellHandle) (borrows : Bool), Steady (do
      if borrows then modify fun m => { m with arena := m.arena.endBorrow h } : Exec Unit) π := by
    intro h borrows
    split
    · exact Steady.change fun _ => rfl
    · exact Steady.pure _
  unfold closeReceiver
  split
  · dsimp only
    split
    · exact (Steady.onArena _).bind fun _ => hend _ _
    · exact hend _ _
  · exact Steady.pure _

theorem callNative_steady (f : Function) (code : Option Native) (args : List Value)
    (r : Option Receiver) (key : Option Text) (out : Register) :
    Steady (callNative s f code args r key out) Frame.outline := by
  refine (openReceiver_steady r).bind fun self => Steady.get.bind fun m => ?_
  refine Steady.bind (Steady.change fun _ => rfl) fun _ => (closeReceiver_steady r _).bind fun _ => ?_
  split
  · exact Steady.fail _
  · exact (Steady.lift _).bind fun _ => (remember_steady key _).bind fun _ => deliver_steady s _ out

theorem bindCaptures_steady (scope : Scope) (closure : Value)
    (captures : List (Text × Captured Value)) : Steady (bindCaptures s scope closure captures) Frame.outline := by
  unfold bindCaptures
  extract_lets bindAll
  have hrest : ∀ u, Steady (bindAll u) Frame.outline := by
    refine fun _ => Steady.forM (fun e => ?_) captures
    exact (dropBinding_steady s e.1).bind fun _ => Steady.modifyTop fun _ => rfl
  split
  · exact (bindLet_steady s _ closure).bind hrest
  · exact hrest ⟨⟩

theorem captureVariable_steady (name : Text) : Steady (captureVariable name) π := by
  refine (findBinding_steady name).bind fun b => ?_
  split
  · exact Steady.pure _
  · exact Steady.pure _
  · exact (pin_steady _).bind fun _ => Steady.pure _
  · exact (pin_steady _).bind fun _ => Steady.pure _
  · exact (Steady.readArena _).bind fun v => Steady.pure _

theorem makeClosure_steady (hπ : Blind π) (function : Nat) (out : Register) :
    Steady (makeClosure s function out) π := by
  unfold makeClosure
  split
  · exact Steady.fail _
  · refine (Steady.lift _).bind fun body => ?_
    refine (Steady.filterMapM captureVariable_steady _).bind fun captures => ?_
    exact Steady.freshId.bind fun id => Steady.get.bind fun m => writeRegister_steady s hπ out _

theorem objectAttribute_steady (receiver : Value) (name : Text) (args : List Value) :
    Steady (objectAttribute receiver name args) π := by
  unfold objectAttribute
  split
  · split
    · exact (Steady.lift _).map
    · split
      · exact (Steady.lift _).map
      · exact Steady.pure _
  · exact Steady.pure _

theorem readPairs_steady (f : Frame) (rs : List Register) : Steady (readPairs s f rs) π := by
  fun_induction readPairs s f rs with
  | case1 k v rest ih =>
    refine (readRegister_steady s f v).bind fun value => (readRegister_steady s f k).bind fun key => ?_
    exact ih.bind fun es => Steady.pure _
  | case2 => exact Steady.pure _

theorem applyUnary_steady (op : UnaryOp) (v : Value) : Steady (applyUnary op v) π := by
  unfold applyUnary
  dsimp only
  split
  · exact (Steady.modifyHost _).bind fun _ => Steady.lift _
  · exact (Steady.modifyHost _).bind fun _ => Steady.lift _
  · exact Steady.lift _

theorem recordId_steady (op : BinaryOp) : Steady (recordId op) π := by
  unfold recordId
  split
  · exact Steady.freshId
  · exact Steady.pure _

theorem applyBinary_steady (op : BinaryOp) (a b : Value) : Steady (applyBinary op a b) π :=
  (recordId_steady op).bind fun _ => Steady.lift _

theorem castRegister_steady (hπ : Blind π) (f : Frame) (source out : Register)
    (type : DeclaredType) : Steady (castRegister s f source out type) π := by
  refine (readRegister_steady s f source).bind fun v => ?_
  split
  · exact writeRegister_steady s hπ out _
  · split
    · exact Steady.get.bind fun m => writeRegister_steady s hπ out _
    · exact Steady.fail _

theorem raise_steady (v : Value) : Steady (raise v) π := by
  unfold raise
  split
  · exact Steady.fail _
  · exact Steady.get.bind fun m => Steady.fail _

theorem log_steady (f : Frame) (level : LogLevel) (template : Text) (args : List Register) :
    Steady (log s f level template args) π := by
  unfold log
  split
  · exact (readRegisters_steady s f args).bind fun _ => Steady.modifyHost _
  · exact Steady.pure _

end Exec

end ScriptMachine
