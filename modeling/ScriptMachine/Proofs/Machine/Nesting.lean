import ScriptMachine.Proofs.Machine.Turns

set_option autoImplicit false

namespace ScriptMachine

variable {s : Setup} {f g h : Frame} {fs fs' above below rest : List Frame} {op : Operation}

/-- The frame of a block, entered by the operation that the frame below it has come past. An error in
it leads to a block of the same operation at most. -/
structure Frame.Inside (s : Setup) (f g : Frame) : Prop where
  function : f.function = none
  entered : ∃ k op, (s.program.codeOf g.scope)[k]? = some op ∧ g.pc = k + 1 ∧ f.scope ∈ op.blocks ∧
    ∀ h ∈ f.handler, ∀ i ∈ h.scope, i ∈ op.blocks

/-- The frame of a function or of a closure. -/
structure Frame.OfFunction (f : Frame) : Prop where
  body : ∃ fn, f.function = some fn ∧ f.scope = fn.scope
  handler : f.handler = none

/-- The frame of the top level. -/
structure Frame.OfTopLevel (f : Frame) : Prop where
  body : f.function = none ∧ f.scope = 0
  handler : f.handler = none

/-- The frame that a block is in: of a function, or at the bottom of the top level. -/
def Frame.Leads (below : List Frame) (f : Frame) : Prop := f.OfFunction ∨ f.OfTopLevel ∧ below = []

/-- Every frame is that of a block on the frame below, or leads those above. -/
inductive Nested (s : Setup) : List Frame → Prop where
  | nil : Nested s []
  | leads {f : Frame} {below : List Frame} (hf : f.Leads below) (h : Nested s below) :
    Nested s (f :: below)
  | inside {f g : Frame} {rest : List Frame} (hf : f.Inside s g) (h : Nested s (g :: rest)) :
    Nested s (f :: g :: rest)

theorem Operation.map_entries (op : Operation) :
    op.entries.map Prod.fst = op.entered ++ op.spare := by
  cases op <;> rfl

theorem Operation.mem_blocks_of_entries {e : Target × (List Text → List Text)} {i : Nat}
    (he : e ∈ op.entries) (hi : e.1 = some i) : i ∈ op.blocks := by
  refine List.mem_filterMap.2 ⟨e.1, ?_, hi⟩
  rw [← op.map_entries]
  exact List.mem_map_of_mem he

def Operation.Hands (op : Operation) (g : Frame) : Prop :=
  (g.function = none ∧ g.scope ∈ op.blocks ∧ ∀ h ∈ g.handler, ∀ i ∈ h.scope, i ∈ op.blocks) ∨
    g.OfFunction

namespace Exec

variable {α : Type} {m : Machine} {target : Target} {out : Register} {fn : Function}
  {Q Q' : List Frame → Frame → Prop}

theorem Opens.both {x : Exec α} (hx : Opens Q x) (hx' : Opens Q' x) :
    Opens (fun fs g => Q fs g ∧ Q' fs g) x := fun m =>
  ((hx m).both (hx' m)).mono (fun _ _ h g hg => ⟨h.1 g hg, h.2 g hg⟩) fun _ _ _ => trivial

theorem pushFrame_opens {k : PUnit → Exec α} {parent : Option Nat}
    (hk : ∀ u, Steady (k u) Frame.function) :
    Opens (fun _ g => g.function = none) (pushFrame s target parent out >>= k) := by
  intro m
  refine ((pushFrame_ensures target parent out).mono (fun _ _ h => h) fun _ _ _ => trivial).bind
    fun u m₁ h₁ => ?_
  obtain ⟨-, sc, -, rfl⟩ := h₁
  refine (hk u _).mono (fun _ m' h g hg => ?_) fun _ _ _ => trivial
  obtain ⟨g', hm', hfunction⟩ := h.cons rfl
  rw [hm'] at hg
  cases hg
  exact hfunction

theorem enterBlock_plain : Opens (fun _ g => g.function = none) (enterBlock s target out) := by
  refine fun m => (enterBlock_ensures m).imp fun _ m' h g hg => ?_
  obtain ⟨i, sc, -, -, hm'⟩ := h
  rw [hm'] at hg
  cases hg
  rfl

theorem tryCatch_plain (f : Frame) (handler : Target) (errorName : Option Text) :
    Opens (fun _ g => g.function = none) (perform s f (.tryCatch target handler errorName out)) := by
  refine fun m => (enterBlock_ensures m).bind fun _ m₁ h₁ => ?_
  obtain ⟨i, sc, -, -, hm₁⟩ := h₁
  refine Ensures.of_run (modifyTop_run hm₁) fun g hg => ?_
  cases hg
  rfl

theorem bindParams_function (names : List Text) (args : List Value) :
    Steady (bindParams s names args) Frame.function :=
  (bindParams_steady s names args).coarse fun _ => rfl

theorem callScope_plain (f : Frame) (args : List Register) :
    Opens (fun _ g => g.function = none) (callScope s f target args out) := by
  refine Opens.after (Steady.lift _) fun scope => ?_
  refine Opens.after (readRegisters_steady s f args) fun values => ?_
  have hrest : ∀ parent, Opens (fun _ g => g.function = none) (do
      pushFrame s target parent out
      bindParams s scope.params values) := fun parent =>
    pushFrame_opens fun _ => bindParams_function _ _
  dsimp only
  split
  · exact Opens.after rootFrame_steady hrest
  · exact Opens.after Steady.topIndex.map hrest

theorem startLoop_plain (toMap : Bool) (v : Value) :
    Opens (fun _ g => g.function = none) (startLoop s toMap v target out) := by
  refine Opens.after (Steady.lift _) fun count => ?_
  dsimp only
  split
  · exact writeRegister_opens _
  · refine Opens.after Steady.topIndex fun i => pushFrame_opens fun _ => ?_
    have hloop : Steady (modifyTop fun f => { f with loop := some (.start v count toMap) })
        Frame.function := Steady.modifyTop fun _ => rfl
    exact hloop.bind fun _ => (bindLoopVariables_steady _).coarse fun _ => rfl

theorem enter_function (args : List Value) (r : Option Receiver) (key : Option Text)
    (closure : Option ClosureCall) :
    Opens (fun _ g => g.function = some fn) (enter s fn args r key closure out) := by
  intro m
  refine Ensures.run (rootFrame_run m) ?_
  refine ((pushFrame_ensures _ _ out).mono (fun _ _ h => h) fun _ _ _ => trivial).bind fun _ m₁ h₁ => ?_
  obtain ⟨-, sc, -, rfl⟩ := h₁
  refine Ensures.run (modifyTop_run rfl) ?_
  have hsteady : ∀ {x : Exec Unit} {m₂ : Machine} {f : Frame}, Steady x Frame.footing →
      m₂.frames = f :: m.frames → f.function = some fn → Ensures x m₂
        (fun _ m' => ∀ g, m'.frames = g :: m.frames → g.function = some fn) fun _ _ => True := by
    intro x m₂ f hx hf hfunction
    refine (hx m₂).mono (fun _ m' h g hg => ?_) fun _ _ _ => trivial
    obtain ⟨g', hm', hfooting⟩ := h.cons hf
    rw [hm'] at hg
    cases hg
    exact (congrArg Frame.function hfooting :).trans hfunction
  refine hsteady ((Steady.lift _).bind fun scope => ?_) rfl rfl
  extract_lets bindArguments
  have hrest : ∀ u, Steady (bindArguments u) Frame.footing := by
    intro _
    refine ((bindParams_steady s _ _).coarse Frame.footing_outline).bind fun _ => ?_
    split
    · exact bindReceiver_steady _
    · exact Steady.pure _
  split
  · exact ((bindCaptures_steady s scope _ _).coarse Frame.footing_outline).bind hrest
  · exact hrest ⟨⟩

theorem invokeBody_function (args : List Value) (r : Option Receiver) (closure : Option ClosureCall) :
    Opens (fun _ g => g.function = some fn) (invokeBody s fn args r out closure) := by
  refine Opens.after (Steady.lift _) fun args => Opens.after Steady.get fun m => ?_
  dsimp only
  split
  · exact (Opens.of_steady (deliver_steady s _ out)).before fun _ => Steady.pure _
  · split
    · exact (callNative_still fn _ args r _).before fun _ => Steady.pure _
    · exact (enter_function args r _ closure).before fun _ => Steady.pure _

theorem invoke_function (args : List Value) (r : Option Receiver) (closure : Option ClosureCall) :
    Opens (fun _ g => g.function = some fn) (invoke s fn args r out closure) := by
  have hbody : Opens (fun _ g => g.function = some fn) (invokeBody s fn args r out closure) :=
    invokeBody_function args r closure
  unfold invoke
  split
  · exact hbody.before fun _ => Steady.pure _
  · rename_i h _
    have hcaught : Opens (fun _ g => g.function = some fn)
        (tryCatch (invokeBody s fn args r out closure) fun e => do
          (modify fun m => { m with arena := m.arena.releaseIfFree h } : Exec Unit)
          throw e) := fun m =>
      Ensures.tryCatch (hbody m) fun e m₁ _ => Ensures.change_bind (Ensures.throw trivial)
    refine hcaught.before fun handedOver => ?_
    split
    · exact Steady.change fun _ => rfl
    · exact Steady.pure _

theorem invoke_ofFunction (fn : Function) (args : List Value) (r : Option Receiver)
    (closure : Option ClosureCall) :
    Opens (fun _ => Frame.OfFunction) (invoke s fn args r out closure) :=
  ((invoke_opens fn args r closure).both (invoke_function args r closure)).imp fun _ _ h =>
    ⟨⟨fn, h.2, h.1.scope⟩, h.1.handler⟩

theorem invoke_hands (fn : Function) (args : List Value) (r : Option Receiver)
    (closure : Option ClosureCall) : Opens (fun _ => op.Hands) (invoke s fn args r out closure) :=
  (invoke_ofFunction fn args r closure).imp fun _ _ => .inr

section Calls

variable (hQ : ∀ fn args r closure, Opens Q (invoke s fn args r out closure))
include hQ

theorem invokeExtension_all (self : Value) (args : List Value) (variableName : Option Text) :
    Opens Q (invokeExtension s fn self args variableName out) :=
  Opens.after (resolveReceiver_steady fn self variableName) fun r => hQ fn args (some r) none

theorem invokeClosure_all (v : Value) (args : List Value) : Opens Q (invokeClosure s v args out) := by
  unfold invokeClosure
  split
  · split
    · exact Opens.fail _
    · refine Opens.after Steady.get fun m => ?_
      dsimp only
      split
      · exact Opens.fail _
      · split
        · exact hQ _ args none _
        · exact Opens.fail _
  · exact Opens.fail _

theorem callFunction_all (name : Text) (args : List Value) : Opens Q (callFunction s name args out) := by
  unfold callFunction
  split
  · exact hQ _ args none none
  · split
    · exact Opens.fail _
    · refine Opens.after (objectAttribute_steady _ name _) fun v => ?_
      split
      · exact writeRegister_opens _
      · split
        · exact invokeExtension_all hQ _ _ none
        · exact Opens.fail _

theorem callMethod_all (name : Text) (receiver : Value) (variableName : Option Text)
    (args : List Value) : Opens Q (callMethod s name receiver variableName args out) := by
  unfold callMethod
  split
  · exact invokeClosure_all hQ receiver args
  · refine Opens.after (objectAttribute_steady receiver name args) fun v => ?_
    split
    · exact writeRegister_opens _
    · split
      · exact writeRegister_opens _
      · split
        · exact invokeExtension_all hQ _ _ _
        · split
          · exact hQ _ _ none none
          · exact Opens.fail _

theorem callModule_all (module name : Text) (args : List Value) :
    Opens Q (callModule s module name args out) := by
  unfold callModule
  split
  · exact hQ _ args none none
  · split
    · exact Opens.fail _
    · split
      · exact invokeExtension_all hQ _ _ none
      · exact Opens.fail _

end Calls

theorem hands_block {x : Exec α} (hx : Opens (EntersBlock s op) x)
    (hplain : Opens (fun _ g => g.function = none) x) : Opens (fun _ => op.Hands) x := by
  refine (hx.both hplain).imp fun fs g h => ?_
  obtain ⟨⟨-, hhandler, e, he, -, hscope, -⟩, hfunction⟩ := h
  exact .inl ⟨hfunction, Operation.mem_blocks_of_entries he hscope, fun k hk i hi =>
    Operation.mem_blocks_of_entries (hhandler k hk) hi⟩

theorem perform_hands (f : Frame) (hcall : op.isCall = true) (hadmits : s.program.Admits op) :
    Opens (fun _ => op.Hands) (perform s f op) := by
  have hread : ∀ (r : Register) {k : Value → Exec Unit}, (∀ v, Opens (fun _ => op.Hands) (k v)) →
      Opens (fun _ => op.Hands) (readRegister s f r >>= k) :=
    fun r k hk => Opens.after (readRegister_steady s f r) hk
  have hreads : ∀ (rs : List Register) {k : List Value → Exec Unit},
      (∀ vs, Opens (fun _ => op.Hands) (k vs)) →
      Opens (fun _ => op.Hands) (readRegisters s f rs >>= k) :=
    fun rs k hk => Opens.after (readRegisters_steady s f rs) hk
  cases op with
  | call target args out =>
    refine hands_block (callScope_opens f args fun i hi => ?_) (callScope_plain f args)
    obtain ⟨j, hj, hkind⟩ := hadmits.entered target List.mem_cons_self
    rw [hi] at hj
    cases hj
    exact hkind
  | callCompared equal left right target out =>
    refine hread left fun a => hread right fun b => ?_
    split
    · exact hands_block (enterBlock_opens List.mem_cons_self) enterBlock_plain
    · exact Opens.pure _
  | ifElse condition target otherwise out =>
    refine hread condition fun v => ?_
    split
    · exact writeRegister_opens _
    · refine hands_block (enterBlock_opens ?_) enterBlock_plain
      split
      · exact List.mem_cons_self
      · exact List.mem_cons_of_mem _ List.mem_cons_self
  | branch truth condition target out =>
    refine hread condition fun v => ?_
    split
    · exact hands_block (enterBlock_opens List.mem_cons_self) enterBlock_plain
    · exact writeRegister_opens _
  | callFunction name args out => exact hreads args fun vs => callFunction_all invoke_hands name vs
  | callMethod name receiver variableName args out =>
    exact hread receiver fun v => hreads args fun vs => callMethod_all invoke_hands name v variableName vs
  | callModule module name args out =>
    exact hreads args fun vs => callModule_all invoke_hands module name vs
  | callValue callee args out =>
    exact hread callee fun v => hreads args fun vs => invokeClosure_all invoke_hands v vs
  | collect toMap source target out =>
    exact hread source fun v => hands_block (startLoop_opens toMap source v) (startLoop_plain toMap v)
  | tryCatch target handler errorName out =>
    exact hands_block (tryCatch_opens f target handler errorName) (tryCatch_plain f handler errorName)
  | _ => cases hcall

end Exec

namespace Nested

theorem tail (h : Nested s (f :: rest)) : Nested s rest := by
  cases h with
  | leads _ h => exact h
  | inside _ h => exact h

theorem suffix (h : Nested s (above ++ fs)) : Nested s fs := by
  induction above with
  | nil => exact h
  | cons f above ih => exact ih h.tail

theorem retop (h : Nested s (f :: rest)) (hscope : g.scope = f.scope) (hhandler : g.handler = f.handler)
    (hfunction : g.function = f.function) : Nested s (g :: rest) := by
  cases h with
  | leads hf h =>
    refine .leads (hf.imp (fun hf => ⟨?_, hhandler.trans hf.handler⟩)
      (And.imp_left fun hf => ⟨?_, hhandler.trans hf.handler⟩)) h
    · rw [hscope, hfunction]
      exact hf.body
    · rw [hscope, hfunction]
      exact hf.body
  | inside hf h =>
    refine .inside ⟨hfunction.trans hf.function, ?_⟩ h
    rw [hscope, hhandler]
    exact hf.entered

theorem stays (h : Nested s (f :: rest)) (hg : f.Stays g) : Nested s (g :: rest) :=
  h.retop hg.scope hg.handler hg.function

theorem receive (h : Nested s fs) (out : Register) (v : Value) :
    Nested s (fs.modifyHead (Frame.receive out v)) := by
  cases fs with
  | nil => exact h
  | cons f rest => exact h.stays (.receive v f)

theorem returned (h : Nested s fs) (hr : Returned s fs fs') : Nested s fs' := by
  cases hr with
  | round _ _ hg _ => exact h.stays hg
  | left popped f rest out v =>
    have hsplit : Nested s ((popped ++ [f]) ++ rest) := by simpa using h
    exact hsplit.suffix.receive out v

theorem entered (h : Nested s (f :: rest)) (hop : (s.program.codeOf f.scope)[f.pc]? = some op)
    (hg : op.Hands g) : Nested s (g :: { f with pc := f.pc + 1 } :: rest) := by
  have htaken : Nested s ({ f with pc := f.pc + 1 } :: rest) := h.retop rfl rfl rfl
  rcases hg with ⟨hfunction, hscope, hhandler⟩ | hg
  · exact .inside ⟨hfunction, f.pc, op, hop, rfl, hscope, hhandler⟩ htaken
  · exact .leads (.inl hg) htaken

theorem caught {t : Frame} {k : Handler} {e : Fault} (h : Nested s (t :: below))
    (hk : t.handler = some k) (hc : Caught s t e k below fs) : Nested s fs := by
  cases h with
  | leads ht _ =>
    have hnone : t.handler = none := ht.elim Frame.OfFunction.handler fun h => h.1.handler
    rw [hnone] at hk
    cases hk
  | inside ht hbelow =>
    cases hc with
    | value name hout => exact hbelow.retop rfl rfl rfl
    | block name hscope =>
      obtain ⟨j, op, hop, hpc, -, hhandler⟩ := ht.entered
      exact .inside ⟨rfl, j, op, hop, hpc, hhandler _ hk _ rfl, nofun⟩ hbelow

end Nested

namespace Exec

variable {m : Machine}

theorem step_nests (hp : s.program.WellFormed) (hf : m.frames = f :: rest) (hfit : Fitted s m.frames)
    (hn : Nested s m.frames) : Ensures (step s) m (fun _ m' => Nested s m'.frames) fun _ _ => True := by
  have hfit' : Fitted s (f :: rest) := hf ▸ hfit
  have hn' : Nested s (f :: rest) := hf ▸ hn
  obtain ⟨sc, hscope, -⟩ := hfit'.1.housed
  cases hi : sc.code[f.pc]? with
  | none =>
    unfold Ensures
    rw [step_run_end hf hscope hi]
    exact (returnFrom_turns .none hf hfit'.1).imp fun _ _ h => hn'.returned h
  | some i =>
    have hop : (s.program.codeOf f.scope)[f.pc]? = some i.operation := by
      rw [Program.codeOf_eq_map hscope, hi]
      rfl
    have htaken : f.Stays { f with pc := f.pc + 1 } := ⟨rfl, rfl, rfl, rfl, rfl, rfl, rfl⟩
    have hfit₁ : Fitted s (m.taken f rest i).frames := hfit'.stays htaken
    unfold Ensures
    rw [step_run hf hscope hi]
    cases hcall : i.operation.isCall with
    | true =>
      obtain ⟨out, hout⟩ := Operation.out?_of_isCall hcall
      have hmem : i.operation ∈ sc.operations :=
        List.mem_map_of_mem (Array.mem_toList_iff.2 (Array.mem_of_getElem? hi))
      have hadmits : s.program.Admits i.operation :=
        (call_allowed hp hscope hmem hfit'.1.housed hout : Answers out (f :: rest) ∧ _).2
      refine ((call_turns f (m := m.taken f rest i) rfl hcall).both
        (perform_hands f hcall hadmits _)).mono (fun _ m' h => ?_) fun _ _ _ => trivial
      obtain ⟨⟨g, hm', hg, -⟩ | ⟨g, hm'⟩, hhands⟩ := h
      · rw [hm']
        exact hn'.retop (congrArg Frame.scope hg :) (congrArg Frame.handler hg :)
          (congrArg Frame.function hg :)
      · rw [hm']
        exact hn'.entered hop (hhands g hm')
    | false =>
      cases hreturn : i.operation.isReturn with
      | true =>
        exact (return_turns f (m := m.taken f rest i) rfl hfit₁ hreturn).imp fun _ _ h =>
          (hn'.stays htaken).returned h
      | false =>
        refine (perform_steady f hcall hreturn _).mono (fun _ m' h => ?_) fun _ _ _ => trivial
        obtain ⟨g, hm', hg⟩ := h.cons rfl
        rw [hm']
        exact hn'.stays (htaken.trans (.of_outline hg))

end Exec

namespace Machine

variable {m m' : Machine}

theorem advance_nests (hp : s.program.WellFormed)
    (hm : m.Sound s .nothing 0 []) (hfit : Fitted s m.frames) (hn : Nested s m.frames)
    (ha : m.advance s = .running m') : Nested s m'.frames := by
  have hne : m.frames ≠ [] := by
    intro h
    simp [advance, h] at ha
  obtain ⟨f, rest, hf⟩ := List.exists_cons_of_ne_nil hne
  rcases running_cases hp hm hfit ha with hok | ⟨m₁, above, below, t, h, e, hfailed, hf₁, hh, hcaught⟩
  · exact (Exec.step_nests hp hf hfit hn).of_ok hok
  · obtain ⟨popped, k, hsplit, hstays⟩ := hfailed.origin hf₁ hh
    rw [hsplit] at hn
    exact (hn.suffix.stays hstays).caught hh hcaught

theorem Runs.nests (hp : s.program.WellFormed) (h : m.Runs s m')
    (hm : m.Sound s .nothing 0 []) (hfit : Fitted s m.frames) (hn : Nested s m.frames) :
    Nested s m'.frames := by
  induction h with
  | refl => exact hn
  | next hr ha ih => exact advance_nests hp (hr.kept hm) (hr.fitted hp hm hfit) ih ha

/-- An entry begins with the top level, or with a function. -/
theorem entry_leads {e : Entry} {action : Exec Unit} (ha : e.action s = some action) :
    Exec.Opens (fun _ g => g.OfFunction ∨ g.OfTopLevel) action := by
  have hfunction : ∀ {x : Exec Unit}, Exec.Opens (fun _ => Frame.OfFunction) x →
      Exec.Opens (fun _ g => g.OfFunction ∨ g.OfTopLevel) x := fun hx => hx.imp fun _ _ => .inl
  have hcall : ∀ (f : Function) (args : List Value),
      Exec.Opens (fun _ => Frame.OfFunction) (Entry.callAction s f args) := by
    intro f args
    unfold Entry.callAction
    split
    · split
      · exact Exec.Opens.fail _
      · exact Exec.invokeExtension_all Exec.invoke_ofFunction _ _ none
    · exact Exec.invoke_ofFunction f args none none
  cases e with
  | run =>
    cases ha
    refine fun m => (Exec.pushFrame_ensures _ none noneRegister).mono (fun _ m' h g hg => ?_)
      fun _ _ _ => trivial
    obtain ⟨-, sc, -, rfl⟩ := h
    cases hg
    exact .inr ⟨⟨rfl, rfl⟩, rfl⟩
  | named name args =>
    obtain ⟨f, -, rfl⟩ := Option.map_eq_some_iff.1 ha
    exact hfunction (hcall f args)
  | function f args =>
    cases ha
    exact hfunction (hcall f args)
  | closure callee args =>
    cases ha
    exact hfunction (Exec.invokeClosure_all Exec.invoke_ofFunction callee args)

theorem entry_nests {e : Entry} {action : Exec Unit} (ha : e.action s = some action)
    (hf : m.frames = []) (hok : action m = .ok ⟨⟩ m') : Nested s m'.frames := by
  have hcalled := entry_called ha hf hok
  have hleads := (entry_leads ha m).of_ok hok
  rw [hf] at hleads
  generalize m'.frames = fs at hcalled hleads
  cases hcalled with
  | same => exact .nil
  | answered v => exact .nil
  | entered hg hdepth => exact .leads ((hleads _ rfl).imp_right fun h => ⟨h, rfl⟩) .nil

theorem Idle.reaches_nested (hp : s.program.WellFormed) {v : Visit}
    (hm : m.Idle s .nothing 0) (hr : v.Reaches s m m') :
    Nested s m'.frames := by
  obtain ⟨action, m₁, ha, hok, hruns⟩ := hr
  have hm' := hm.anyHost v.host
  have hkeeps := hm'.action_keeps Trust.no_natives Trust.no_room Trust.no_natives ha
  have hbegun : (Machine.begin s { m with host := v.host }).frames = [] := by
    unfold begin
    rw [hm'.settle_eq]
    exact hm.frames
  exact hruns.nests hp (hkeeps.of_ok hok).1 (entry_fitted ha hbegun hok) (entry_nests ha hbegun hok)

end Machine

end ScriptMachine
