import ScriptMachine.Proofs.Machine.Descent
import ScriptMachine.Proofs.Program.Naming

set_option autoImplicit false

namespace ScriptMachine

namespace Operation

/-- Whether an operation hands over to a frame, or to native code in its place. -/
def isCall : Operation → Bool
  | .call .. | .callCompared .. | .ifElse .. | .branch .. | .callFunction .. | .callMethod ..
  | .callModule .. | .callValue .. | .collect .. | .tryCatch .. => true
  | _ => false

def isReturn : Operation → Bool
  | .ret _ | .leave _ => true
  | _ => false

theorem out?_of_isCall {op : Operation} (h : op.isCall = true) : ∃ out, op.out? = some out := by
  cases op <;> first | exact ⟨_, rfl⟩ | cases h

end Operation

theorem Program.scope_eq_ok {p : Program} {target : Target} {scope : Scope} :
    p.scope target = .ok scope ↔ ∃ i, target = some i ∧ p.scopes[i]? = some scope := by
  cases target with
  | none => simp [Program.scope]
  | some i => cases hi : p.scopes[i]? <;> simp [Program.scope, hi]

namespace Frame

variable {s : Setup} {out : Register} {targets : List Target} {f g : Frame} {fs : List Frame}

def footing (f : Frame) : Frame := { f.outline with borrow := none }

theorem footing_outline (f : Frame) : f.outline.footing = f.footing := by
  have hveiled : veiled (veiled f.registers) = veiled f.registers := by
    refine veiled_eq_iff.2 ⟨by simp [veiled], fun r hr => ?_⟩
    rw [veiled, Array.getElem?_mapIdx, funext fun v => if_pos hr]
    exact Option.map_id'
  simp only [footing, outline, hveiled]

theorem footing_of_outline {f g : Frame} (h : g.outline = f.outline) : g.footing = f.footing := by
  rw [← footing_outline, h, footing_outline]

theorem registers_of_footing {f g : Frame} (h : g.footing = f.footing) :
    g.registers.size = f.registers.size ∧ ∀ r < firstScratch, g.registers[r]? = f.registers[r]? :=
  veiled_eq_iff.1 (congrArg Frame.registers h)

def receive (out : Register) (v : Value) (f : Frame) : Frame :=
  { f with registers := f.registers.setIfInBounds out v }

theorem outline_receive (hout : firstScratch ≤ out) (v : Value) (f : Frame) :
    (f.receive out v).outline = f.outline :=
  f.outline_registers _ Array.size_setIfInBounds fun _ hr =>
    Array.getElem?_setIfInBounds_ne (Nat.ne_of_gt (Nat.lt_of_lt_of_le hr hout))

def Housed (s : Setup) (f : Frame) : Prop :=
  ∃ scope, s.program.scope (some f.scope) = .ok scope ∧ f.registers.size = scope.fileSize

theorem size_freshRegisters (scope : Scope) : (freshRegisters scope).size = scope.fileSize := by
  simp [freshRegisters]

/-- The registers that are not to be written hold what they should. -/
structure Reserved (f : Frame) : Prop where
  none : f.registers[noneRegister]? = some .none
  one : f.registers[oneRegister]? = some (.int 1)

theorem Reserved.of_same (h : f.Reserved)
    (hg : ∀ r < firstScratch, g.registers[r]? = f.registers[r]?) : g.Reserved :=
  ⟨(hg noneRegister (by decide)).trans h.none, (hg oneRegister (by decide)).trans h.one⟩

theorem Reserved.of_fresh {scope : Scope} (h : f.registers = freshRegisters scope) : f.Reserved := by
  have hnone : noneRegister < scope.fileSize := Nat.lt_of_lt_of_le (by decide) (Nat.le_max_right _ _)
  have hone : oneRegister < scope.fileSize := Nat.lt_of_lt_of_le (by decide) (Nat.le_max_right _ _)
  constructor
  · rw [h, freshRegisters, Array.getElem?_setIfInBounds_ne (by decide), Array.getElem?_replicate,
      if_pos hnone]
  · rw [h, freshRegisters, Array.getElem?_setIfInBounds_self_of_lt (by simpa using hone)]

/-- A frame that has been entered for a result in `out`. Only the blocks of comprehensions have
rounds; they are among the targets. -/
structure Begun (s : Setup) (out : Register) (targets : List Target) (f : Frame) : Prop where
  pc : f.pc = 0
  out : f.out = out
  housed : f.Housed s
  reserved : f.Reserved
  handler : f.handler = none
  rounds : f.loop = none ∨ f.function = none ∧ some f.scope ∈ targets

theorem Begun.of_footing (h : f.Begun s out targets) (hg : g.footing = f.footing) :
    g.Begun s out targets := by
  have hscope : g.scope = f.scope := (congrArg Frame.scope hg :)
  obtain ⟨hsize, hreserved⟩ := registers_of_footing hg
  refine ⟨(congrArg Frame.pc hg).trans h.pc, (congrArg Frame.out hg).trans h.out, ?_,
    h.reserved.of_same hreserved, (congrArg Frame.handler hg).trans h.handler, ?_⟩
  · simpa only [Housed, hscope, hsize] using h.housed
  · rw [show g.loop = f.loop from (congrArg Frame.loop hg :),
      show g.function = f.function from (congrArg Frame.function hg :), hscope]
    exact h.rounds

end Frame

/-- There is a register of the top frame to take a result, or no frame that asks for it. -/
def Answers (out : Register) : List Frame → Prop
  | [] => True
  | f :: _ => firstScratch ≤ out ∧ out < f.registers.size

/-- What a call makes of a stack. -/
inductive Called (s : Setup) (out : Register) (targets : List Target) (fs : List Frame) :
    List Frame → Prop where
  | same : Called s out targets fs fs
  | answered (v : Value) (h : Answers out fs) :
    Called s out targets fs (fs.modifyHead (Frame.receive out v))
  | entered {f : Frame} (hf : f.Begun s out targets) (hdepth : fs.length < s.options.maxDepth) :
    Called s out targets fs (f :: fs)

theorem Called.climbs {s : Setup} {out : Register} {targets : List Target} {m m' : Machine}
    (h : Called s out targets m.frames m'.frames) : m.Climbs s m' := by
  generalize hf : m'.frames = fs at h
  cases h with
  | same => exact .of_frames hf
  | answered v h =>
    refine .of_weights ?_
    unfold Machine.weights
    rw [hf]
    cases m.frames <;> rfl
  | entered _ hdepth => exact .of_push hdepth hf

namespace Exec

variable {α β : Type} {s : Setup} {out : Register} {targets : List Target}

def Calls (s : Setup) (out : Register) (targets : List Target) (x : Exec α) : Prop :=
  ∀ m, Ensures x m (fun _ m' => Called s out targets m.frames m'.frames)
    fun _ m' => Called s out targets m.frames m'.frames

def Enters (s : Setup) (out : Register) (targets : List Target) (x : Exec Unit) : Prop :=
  ∀ m, Ensures x m
    (fun _ m' => m.frames.length < s.options.maxDepth ∧
      ∃ f, f.Begun s out targets ∧ m'.frames = f :: m.frames)
    fun _ m' => m'.frames = m.frames

namespace Calls

variable {x : Exec α} {f : α → Exec β}

theorem of_still (hx : Steady x id) : Calls s out targets x := by
  refine fun m => (hx m).mono (fun _ m' h => ?_) fun _ m' h => ?_
  · rw [h.eq]
    exact .same
  · rw [h.eq]
    exact .same

theorem after (hx : Steady x id) (hf : ∀ a, Calls s out targets (f a)) :
    Calls s out targets (x >>= f) := by
  intro m
  refine ((hx m).mono (fun _ _ h => h.eq) fun _ m' h => ?_).bind fun a m₁ hm₁ => ?_
  · rw [h.eq]
    exact .same
  · rw [← hm₁]
    exact hf a m₁

theorem before (hx : Calls s out targets x) (hf : ∀ a, Steady (f a) id) :
    Calls s out targets (x >>= f) := by
  intro m
  refine (hx m).bind fun a m₁ hm₁ => (hf a m₁).mono (fun _ m' h => ?_) fun _ m' h => ?_
  · rwa [h.eq]
  · rwa [h.eq]

theorem pure (a : α) : Calls s out targets (Pure.pure a) := of_still (Steady.pure a)

theorem fail (e : Fault) : Calls s out targets (Exec.fail e : Exec α) := of_still (Steady.fail e)

end Calls

namespace Enters

variable {x : Exec Unit} {f : Unit → Exec α}

theorem followed (hx : Enters s out targets x) (hf : ∀ u, Steady (f u) Frame.footing) :
    Calls s out targets (x >>= f) := by
  intro m
  refine ((hx m).mono (fun _ _ h => h) fun _ m' h => ?_).bind fun u m₁ hm₁ => ?_
  · rw [h]
    exact .same
  · obtain ⟨hdepth, g, hg, hm₁⟩ := hm₁
    have hentered : ∀ m', m₁.Tended m' Frame.footing → Called s out targets m.frames m'.frames := by
      intro m' h
      obtain ⟨g', hm', hg'⟩ := h.cons hm₁
      rw [hm']
      exact .entered (hg.of_footing hg') hdepth
    exact (hf u m₁).mono (fun _ m' => hentered m') fun _ m' => hentered m'

theorem calls (hx : Enters s out targets x) : Calls s out targets x := by
  have hx := hx.followed fun _ => Steady.pure ()
  rwa [bind_pure] at hx

theorem modifyTop {k : Frame → Frame} (hx : Enters s out targets x)
    (hk : ∀ g : Frame, g.Begun s out targets → (k g).Begun s out targets) :
    Enters s out targets (x >>= fun _ => Exec.modifyTop k) := by
  refine fun m => (hx m).bind fun _ m₁ hm₁ => ?_
  obtain ⟨hdepth, g, hg, hm₁⟩ := hm₁
  exact Ensures.of_run (modifyTop_run hm₁) ⟨hdepth, _, hk g hg, rfl⟩

end Enters

section Results

variable {m : Machine} {f : Frame} {rest : List Frame}

theorem outOfRange_fails (f : Frame) (r : Register) (m : Machine) :
    Ensures (outOfRange s f r : Exec α) m (fun _ _ => False) fun _ m' => m' = m :=
  (lift_ensures _ m).bind fun _ _ hm₁ => Ensures.throw hm₁.1

theorem writeRegister_ensures (v : Value) (hf : m.frames = f :: rest) :
    Ensures (writeRegister s out v) m
      (fun _ m' => Answers out m.frames ∧ m' = { m with frames := f.receive out v :: rest })
      fun _ m' => m' = m ∧ ¬ Answers out m.frames := by
  refine Ensures.run (top_run hf) ?_
  rw [hf]
  split
  · exact Ensures.throw ⟨rfl, fun h => absurd h.1 (Nat.not_le.2 ‹_›)⟩
  · split
    · exact Ensures.of_run (modifyTop_run hf) ⟨⟨Nat.not_lt.1 ‹_›, ‹_›⟩, rfl⟩
    · exact (outOfRange_fails f out m).mono (fun _ _ => False.elim) fun _ _ hm' =>
        ⟨hm', fun h => absurd h.2 ‹_›⟩

theorem deliver_run (v : Value) (hf : m.frames = f :: rest) (hout : Answers out m.frames) :
    deliver s v out m = .ok ⟨⟩ { m with frames := f.receive out v :: rest } := by
  have hget : (get : Exec Machine) m = .ok m m := rfl
  rw [hf] at hout
  unfold deliver
  rw [run_bind hget, hf]
  exact writeRegister_run hf hout.1 hout.2

theorem deliver_ensures (v : Value) (m : Machine) :
    Ensures (deliver s v out) m
      (fun _ m' => Answers out m.frames ∧ m' = { m with
        frames := m.frames.modifyHead (Frame.receive out v), entryResult := m'.entryResult })
      fun _ m' => m' = m ∧ ¬ Answers out m.frames := by
  refine Ensures.get_bind ?_
  split
  · rename_i hf
    rw [hf]
    refine Ensures.change ⟨trivial, ?_⟩
    simp [hf]
  · rename_i f rest hf
    refine (writeRegister_ensures v hf).imp fun _ m' h => ?_
    obtain ⟨hanswers, rfl⟩ := h
    refine ⟨hanswers, ?_⟩
    simp [hf]

theorem deliver_calls (v : Value) : Calls s out targets (deliver s v out) := by
  refine fun m => (deliver_ensures v m).mono (fun _ m' h => ?_) fun _ m' h => ?_
  · rw [h.2]
    exact .answered v h.1
  · rw [h.1]
    exact .same

theorem writeRegister_calls (v : Value) : Calls s out targets (writeRegister s out v) := by
  intro m
  cases hf : m.frames with
  | nil =>
    have hnil : ∀ m', m.Tended m' Frame.outline → Called s out targets [] m'.frames := by
      intro m' h
      have hview := h.view
      rw [hf, List.map_nil, List.map_eq_nil_iff] at hview
      rw [hview]
      exact .same
    exact (writeRegister_steady s .outline out v m).mono (fun _ => hnil) fun _ => hnil
  | cons f rest =>
    refine (writeRegister_ensures v hf).mono (fun _ m' h => ?_) fun _ m' h => ?_
    · rw [h.2]
      rw [hf] at h
      exact .answered v h.1
    · rw [h.1, hf]
      exact .same

end Results

theorem pushFrame_enters (target : Target) (parent : Option Nat) :
    Enters s out targets (pushFrame s target parent out) := by
  refine fun m => (pushFrame_ensures target parent out).mono (fun _ m' h => ?_) fun _ m' h => ?_
  · obtain ⟨hdepth, scope, hscope, rfl⟩ := h
    obtain ⟨i, rfl, hi⟩ := Program.scope_eq_ok.1 hscope
    refine ⟨hdepth, entered scope (some i) parent out, ⟨rfl, rfl, ⟨scope, hscope, ?_⟩, .of_fresh rfl,
      rfl, .inl rfl⟩, rfl⟩
    exact Frame.size_freshRegisters scope
  · rw [h.1]

theorem enterBlock_enters (target : Target) : Enters s out targets (enterBlock s target out) :=
  fun m => Ensures.get_bind (pushFrame_enters target _ m)

theorem bindLoopVariables_steady (l : Loop) : Steady (bindLoopVariables s l) Frame.outline :=
  Steady.top.bind fun _ => (Steady.lift _).bind fun _ => bindParams_steady s _ _

/-- The frame of a comprehension is one that has been entered for its block. -/
theorem startLoop_calls (toMap : Bool) (source : Value) (target : Target) :
    Calls s out [target] (startLoop s toMap source target out) := by
  refine Calls.after (Steady.lift _) fun count => ?_
  dsimp only
  split
  · exact writeRegister_calls _
  · refine Calls.after Steady.topIndex fun i m => ?_
    refine ((pushFrame_ensures target _ out).mono (fun _ _ h => h) fun _ m' h => ?_).bind
      fun _ m₁ hm₁ => ?_
    · rw [h.1]
      exact .same
    · obtain ⟨hdepth, scope, hscope, rfl⟩ := hm₁
      obtain ⟨j, rfl, hj⟩ := Program.scope_eq_ok.1 hscope
      refine Ensures.run (modifyTop_run rfl) ?_
      have hentered : ∀ m₂ m' : Machine, m₂.frames = { entered scope (some j) (some i) out with
          loop := some (Loop.start source count toMap) } :: m.frames →
          m₂.Tended m' Frame.outline → Called s out [some j] m.frames m'.frames := by
        intro m₂ m' hm₂ h
        obtain ⟨g, hm', hg⟩ := (h.coarse Frame.footing_outline).cons hm₂
        rw [hm']
        refine .entered (Frame.Begun.of_footing ?_ hg) hdepth
        exact ⟨rfl, rfl, ⟨scope, hscope, Frame.size_freshRegisters scope⟩, .of_fresh rfl, rfl,
          .inr ⟨rfl, by simp [entered]⟩⟩
      exact (bindLoopVariables_steady _ _).mono (fun _ m' => hentered _ m' rfl)
        fun _ m' => hentered _ m' rfl

theorem callScope_calls (f : Frame) (target : Target) (args : List Register) :
    Calls s out targets (callScope s f target args out) := by
  refine Calls.after (Steady.lift _) fun scope => ?_
  refine Calls.after (readRegisters_steady s f args) fun values => ?_
  have hrest : ∀ parent : Option Nat, Calls s out targets (do
      pushFrame s target parent out
      bindParams s scope.params values) := fun parent =>
    (pushFrame_enters target parent).followed fun _ =>
      (bindParams_steady s _ _).coarse Frame.footing_outline
  dsimp only
  split
  · exact Calls.after rootFrame_steady hrest
  · exact Calls.after Steady.topIndex.map hrest

theorem bindReceiver_steady (r : Receiver) : Steady (bindReceiver s r) Frame.footing := by
  have hbind : ∀ h : CellHandle,
      Steady (modifyTop fun f => f.bind "self" (.borrowed h)) Frame.footing :=
    fun h => Steady.modifyTop fun _ => rfl
  unfold bindReceiver
  split
  · exact (bindLet_steady s _ _).coarse Frame.footing_outline
  · extract_lets bindSelf borrow
    have hborrow : ∀ u, Steady (borrow u) Frame.footing := by
      intro _
      unfold borrow
      split
      · refine (Steady.readArena _).bind fun p => ?_
        refine Steady.bind (Steady.change fun _ => rfl) fun _ => ?_
        exact Steady.bind (Steady.modifyTop fun _ => rfl) fun _ => hbind _
      · exact hbind _
    split
    · exact Steady.bind (Steady.modifyTop fun _ => rfl) hborrow
    · exact hborrow ⟨⟩

/-- The frame of a function has no rounds, so that it may be told which function it is of. -/
theorem enter_calls (f : Function) (args : List Value) (r : Option Receiver) (key : Option Text)
    (closure : Option ClosureCall) : Calls s out [] (enter s f args r key closure out) := by
  refine Calls.after rootFrame_steady fun parent => ?_
  have hentered : Enters s out [] (pushFrame s (some f.scope) parent out >>= fun _ =>
      modifyTop fun frame => { frame with function := some f, memoKey := key }) := by
    refine (pushFrame_enters _ parent).modifyTop fun g hg => ?_
    have hrounds : g.loop = none := hg.rounds.resolve_right fun h => absurd h.2 List.not_mem_nil
    exact ⟨hg.pc, hg.out, hg.housed, ⟨hg.reserved.none, hg.reserved.one⟩, hg.handler, .inl hrounds⟩
  rw [← bind_assoc]
  refine hentered.followed fun _ => (Steady.lift _).bind fun scope => ?_
  extract_lets bindArguments
  have hrest : ∀ u, Steady (bindArguments u) Frame.footing := by
    intro _
    refine ((bindParams_steady s _ _).coarse Frame.footing_outline).bind fun _ => ?_
    split
    · exact bindReceiver_steady _
    · exact Steady.pure _
  split
  · exact ((bindCaptures_steady s scope _ _).coarse Frame.footing_outline).bind hrest
  · exact hrest ⟨⟩

theorem callNative_calls (f : Function) (code : Option Native) (args : List Value)
    (r : Option Receiver) (key : Option Text) :
    Calls s out targets (callNative s f code args r key out) := by
  refine Calls.after (openReceiver_steady r) fun self => Calls.after Steady.get fun m => ?_
  refine Calls.after (Steady.change fun _ => rfl) fun _ => ?_
  refine Calls.after (closeReceiver_steady r _) fun _ => ?_
  split
  · exact Calls.fail _
  · exact Calls.after (Steady.lift _) fun _ => Calls.after (remember_steady key _) fun _ =>
      deliver_calls _

theorem invokeBody_calls (f : Function) (args : List Value) (r : Option Receiver)
    (closure : Option ClosureCall) : Calls s out [] (invokeBody s f args r out closure) := by
  refine Calls.after (Steady.lift _) fun args => Calls.after Steady.get fun m => ?_
  dsimp only
  split
  · exact (deliver_calls _).before fun _ => Steady.pure _
  · split
    · exact (callNative_calls f _ args r _).before fun _ => Steady.pure _
    · exact (enter_calls f args r _ closure).before fun _ => Steady.pure _

theorem invoke_calls (f : Function) (args : List Value) (r : Option Receiver)
    (closure : Option ClosureCall) : Calls s out [] (invoke s f args r out closure) := by
  have hbody : Calls s out [] (invokeBody s f args r out closure) := invokeBody_calls f args r closure
  unfold invoke
  split
  · exact hbody.before fun _ => Steady.pure _
  · rename_i h _
    have hcaught : Calls s out [] (tryCatch (invokeBody s f args r out closure) fun e => do
        (modify fun m => { m with arena := m.arena.releaseIfFree h } : Exec Unit)
        throw e) := by
      intro m
      exact Ensures.tryCatch (hbody m) fun e m₁ hm₁ => Ensures.change_bind (Ensures.throw hm₁)
    refine hcaught.before fun handedOver => ?_
    split
    · exact Steady.change fun _ => rfl
    · exact Steady.pure _

theorem invokeClosure_calls (callee : Value) (args : List Value) :
    Calls s out [] (invokeClosure s callee args out) := by
  unfold invokeClosure
  split
  · split
    · exact Calls.fail _
    · refine Calls.after Steady.get fun m => ?_
      dsimp only
      split
      · exact Calls.fail _
      · split
        · exact invoke_calls _ args none _
        · exact Calls.fail _
  · exact Calls.fail _

theorem invokeExtension_calls (f : Function) (self : Value) (args : List Value)
    (variableName : Option Text) : Calls s out [] (invokeExtension s f self args variableName out) :=
  Calls.after (resolveReceiver_steady f self variableName) fun r => invoke_calls f args (some r) none

theorem callFunction_calls (name : Text) (args : List Value) :
    Calls s out [] (callFunction s name args out) := by
  unfold callFunction
  split
  · exact invoke_calls _ args none none
  · split
    · exact Calls.fail _
    · refine Calls.after (objectAttribute_steady _ name _) fun v => ?_
      split
      · exact writeRegister_calls _
      · split
        · exact invokeExtension_calls _ _ _ none
        · exact Calls.fail _

theorem callMethod_calls (name : Text) (receiver : Value) (variableName : Option Text)
    (args : List Value) : Calls s out [] (callMethod s name receiver variableName args out) := by
  unfold callMethod
  split
  · exact invokeClosure_calls receiver args
  · refine Calls.after (objectAttribute_steady receiver name args) fun v => ?_
    split
    · exact writeRegister_calls _
    · split
      · exact writeRegister_calls _
      · split
        · exact invokeExtension_calls _ receiver args variableName
        · split
          · exact invoke_calls _ _ none none
          · exact Calls.fail _

theorem callModule_calls (module name : Text) (args : List Value) :
    Calls s out [] (callModule s module name args out) := by
  unfold callModule
  split
  · exact invoke_calls _ args none none
  · split
    · exact Calls.fail _
    · split
      · exact invokeExtension_calls _ _ _ none
      · exact Calls.fail _

theorem tryCatch_enters (f : Frame) (target handler : Target) (errorName : Option Text)
    (m : Machine) :
    Ensures (perform s f (.tryCatch target handler errorName out)) m
      (fun _ m' => m.frames.length < s.options.maxDepth ∧ ∃ g : Frame, g.Begun s out [] ∧
        m'.frames = { g with handler := some ⟨handler, errorName⟩ } :: m.frames)
      fun _ m' => m'.frames = m.frames := by
  have hentered : Enters s out [] (enterBlock s target out) := enterBlock_enters target
  refine (hentered m).bind fun _ m₁ hm₁ => ?_
  obtain ⟨hdepth, g, hg, hm₁⟩ := hm₁
  exact Ensures.of_run (modifyTop_run hm₁) ⟨hdepth, g, hg, rfl⟩

theorem perform_calls (f : Frame) {op : Operation} (hcall : op.isCall = true)
    (htry : ∀ target handler errorName out, op ≠ .tryCatch target handler errorName out)
    (hout : op.out? = some out) : Calls s out op.entered (perform s f op) := by
  have hread : ∀ r, Steady (readRegister s f r) id := readRegister_steady s f
  have hreads : ∀ rs, Steady (readRegisters s f rs) id := readRegisters_steady s f
  cases op with
  | call target args _ =>
    cases hout
    exact callScope_calls f target args
  | callCompared equal left right target _ =>
    cases hout
    refine Calls.after (hread left) fun a => Calls.after (hread right) fun b => ?_
    split
    · exact (enterBlock_enters target).calls
    · exact Calls.pure _
  | ifElse condition target otherwise _ =>
    cases hout
    refine Calls.after (hread condition) fun v => ?_
    split
    · exact writeRegister_calls _
    · exact (enterBlock_enters _).calls
  | branch truth condition target _ =>
    cases hout
    refine Calls.after (hread condition) fun v => ?_
    split
    · exact (enterBlock_enters target).calls
    · exact writeRegister_calls _
  | callFunction name args _ =>
    cases hout
    exact Calls.after (hreads args) fun vs => callFunction_calls name vs
  | callMethod name receiver variableName args _ =>
    cases hout
    refine Calls.after (hread receiver) fun v => Calls.after (hreads args) fun vs => ?_
    exact callMethod_calls name v variableName vs
  | callModule module name args _ =>
    cases hout
    exact Calls.after (hreads args) fun vs => callModule_calls module name vs
  | callValue callee args _ =>
    cases hout
    refine Calls.after (hread callee) fun v => Calls.after (hreads args) fun vs => ?_
    exact invokeClosure_calls v vs
  | collect toMap source target _ =>
    cases hout
    exact Calls.after (hread source) fun v => startLoop_calls toMap v target
  | tryCatch target handler errorName out => exact absurd rfl (htry target handler errorName out)
  | _ => cases hcall

/-- Operations that neither call, return nor declare work on registers of the top frame. -/
theorem perform_blind {ω : Type} {π : Frame → ω} (hπ : Blind π) (f : Frame) {op : Operation}
    (hcall : op.isCall = false) (hreturn : op.isReturn = false) (hdeclares : op.declares? = none) :
    Steady (perform s f op) π := by
  have hread : ∀ r, Steady (readRegister s f r) π := readRegister_steady s f
  have hreads : ∀ rs, Steady (readRegisters s f rs) π := readRegisters_steady s f
  have hwrite := writeRegister_steady s hπ
  cases op with
  | halt source => exact (hread source).bind fun v => Steady.change fun _ => rfl
  | haltIfError source =>
    refine (hread source).bind fun v => ?_
    split
    · exact Steady.change fun _ => rfl
    · exact Steady.pure _
  | load literal out => exact hwrite out literal
  | copy source out => exact (hread source).bind fun v => hwrite out v
  | setVariable name source => exact (hread source).bind fun v => assignVariable_steady name v
  | getVariable name out => exact (readVariable_steady name).bind fun v => hwrite out v
  | unary op source out =>
    exact (hread source).bind fun v => (applyUnary_steady op v).bind fun w => hwrite out w
  | binary op left right out =>
    refine (hread right).bind fun b => (hread left).bind fun a => ?_
    exact (applyBinary_steady op a b).bind fun w => hwrite out w
  | makeList items out => exact (hreads items).bind fun vs => hwrite out _
  | makeMap pairs out =>
    rw [perform]
    split
    · exact Steady.fail _
    · exact (readPairs_steady s f pairs).bind fun es => hwrite out _
  | raise source => exact (hread source).bind fun v => raise_steady v
  | cast source out type => exact castRegister_steady s hπ f source out type
  | makeClosure function out => exact makeClosure_steady s hπ function out
  | makeRange start stop inclusive out =>
    refine (hread stop).bind fun b => (hread start).bind fun a => ?_
    exact (Steady.lift _).bind fun v => hwrite out v
  | puts args => exact (hreads args).bind fun vs => Steady.modifyHost _
  | log level template args => exact log_steady s f level template args
  | loadLet _ _ | loadMut _ _ => cases hdeclares
  | ret _ | leave _ => cases hreturn
  | _ => cases hcall

theorem perform_steady (f : Frame) {op : Operation} (hcall : op.isCall = false)
    (hreturn : op.isReturn = false) : Steady (perform s f op) Frame.outline := by
  have hread : ∀ r, Steady (readRegister s f r) Frame.outline := readRegister_steady s f
  cases hdeclares : op.declares? with
  | none => exact perform_blind .outline f hcall hreturn hdeclares
  | some name =>
    cases op with
    | loadLet name source => exact (hread source).bind fun v => bindLet_steady s name v
    | loadMut name source => exact (hread source).bind fun v => bindMut_steady s name v
    | _ => cases hdeclares

theorem perform_climbs (f : Frame) {op : Operation} (hreturn : op.isReturn = false) (m : Machine) :
    Ensures (perform s f op) m (fun _ m' => m.Climbs s m') fun _ m' => m.Climbs s m' := by
  by_cases htry : ∃ target handler errorName out, op = .tryCatch target handler errorName out
  · obtain ⟨target, handler, errorName, out, rfl⟩ := htry
    refine (tryCatch_enters f target handler errorName m).mono (fun _ m' h => ?_) fun _ _ h => ?_
    · obtain ⟨hdepth, g, -, hm'⟩ := h
      exact .of_push hdepth hm'
    · exact .of_frames h
  cases hcall : op.isCall with
  | false =>
    exact (perform_steady f hcall hreturn m).mono (fun _ _ h => .of_tended h) fun _ _ h => .of_tended h
  | true =>
    obtain ⟨out, hout⟩ := Operation.out?_of_isCall hcall
    have hcalls := perform_calls (s := s) f hcall (fun target handler errorName out h =>
      htry ⟨target, handler, errorName, out, h⟩) hout m
    exact hcalls.mono (fun _ _ => Called.climbs) fun _ _ => Called.climbs

end Exec

end ScriptMachine
