import ScriptMachine.Proofs.Machine.Provenance
import ScriptMachine.Proofs.Machine.Ascent

set_option autoImplicit false

namespace ScriptMachine

namespace Setup

variable {s : Setup} {f : Function}

theorem mem_functionList (hf : f ∈ s.functionList) :
    f ∈ s.program.modules.functions ∨ ∃ r ∈ s.builtins, f ∈ r.functions := by
  refine (List.mem_append.1 hf).imp id fun hf => ?_
  cases hr : s.reachable with
  | none => simp [hr] at hf
  | some r =>
    have hb : s.builtins = some r := by
      unfold reachable at hr
      split at hr
      · cases hr
      · exact hr
    exact ⟨r, hb, by simpa [hr] using hf⟩

/-- No function that a call can reach brings a closure with it. -/
structure Inert (s : Setup) : Prop where
  closures : ∀ f ∈ s.program.closures, f.Inert
  functions : ∀ f ∈ s.program.modules.functions, f.Inert
  builtins : ∀ r ∈ s.builtins, ∀ f ∈ r.functions, f.Inert

theorem Inert.of_mem (hs : s.Inert) (hf : f ∈ s.functionList) : f.Inert := by
  rcases mem_functionList hf with hf | ⟨r, hr, hf⟩
  · exact hs.functions f hf
  · exact hs.builtins r hr f hf

end Setup

namespace Exec

variable {α β : Type} {G : Closure → Prop} {s : Setup} {f : Frame} {fn : Function} {v : Value}
  {args : List Value}

theorem remember_passes (key : Option Text) (hv : v.Holds G) :
    Passes G (remember key v) fun _ => True := by
  unfold remember
  split
  · refine Passes.change fun m hm => ⟨hm.frames, hm.arena, ?_, hm.halted, hm.result, hm.host⟩
    exact List.forall_mem_cons.2 ⟨hv, fun e he => hm.memo e (List.mem_of_mem_filter he)⟩
  · exact Passes.pure trivial

theorem resolveReceiver_passes (hv : v.Holds G) (variableName : Option Text) :
    Passes G (resolveReceiver fn v variableName) fun r => r.value.Holds G := by
  unfold resolveReceiver
  split
  · exact Passes.pure hv
  · extract_lets receiverAt
    have hrest : ∀ b, Passes G (receiverAt b) fun r => r.value.Holds G := by
      intro b
      unfold receiverAt
      split
      · exact Passes.pure hv
      · exact Passes.pure hv
      · exact Passes.pure hv
      · refine Passes.get.bind fun m hm => ?_
        have harena := hm.arena.allocate hv
        split
        rename_i h arena heq
        rw [heq] at harena
        exact (Passes.change fun _ hm => hm.withArena harena).bind fun _ _ => Passes.pure hv
    split
    · exact (findBinding_passes _).bind fun b _ => hrest b
    · exact (Passes.pure (R := fun _ => True) trivial).bind fun b _ => hrest b

theorem openReceiver_passes {r : Option Receiver} (hr : ∀ r' ∈ r, r'.value.Holds G) :
    Passes G (openReceiver r) fun self => ∀ w ∈ self, w.Holds G := by
  have hsome : ∀ w : Value, w.Holds G → ∀ w' ∈ some w, w'.Holds G := by
    intro w hw w' hw'
    cases hw'
    exact hw
  unfold openReceiver
  split
  · exact Passes.pure nofun
  · split
    · exact Passes.pure (hsome _ (hr _ rfl))
    · split
      · refine (Passes.readArena fun a ha => ha.beginExclusive _).bind fun p hp => ?_
        exact (Passes.change fun _ hm => hm.withArena hp.2).bind fun _ _ => Passes.pure (hsome _ hp.1)
      · exact (Passes.readArena fun a ha => ha.borrowed _).bind fun w hw => Passes.pure (hsome w hw)

theorem closeReceiver_passes (r : Option Receiver) {self : Option Value}
    (hself : ∀ w ∈ self, w.Holds G) : Passes G (closeReceiver r self) fun _ => True := by
  have hend : ∀ (h : CellHandle) (borrows : Bool), Passes G (do
      if borrows then modify fun m => { m with arena := m.arena.endBorrow h } : Exec Unit)
      fun _ => True := by
    intro h borrows
    split
    · exact Passes.change fun _ hm => hm.withArena (hm.arena.endBorrow h)
    · exact Passes.pure trivial
  unfold closeReceiver
  split
  · dsimp only
    split
    · exact (Passes.onArena fun _ ha => ha.setBorrowed _ (hself _ rfl)).bind fun _ _ => hend _ _
    · exact hend _ _
  · exact Passes.pure trivial

theorem callNative_passes {code : Option Native} (hcode : ∀ run, code = some run → run.Faithful)
    (hargs : ∀ w ∈ args, w.Holds G) {r : Option Receiver} (hr : ∀ r' ∈ r, r'.value.Holds G)
    (key : Option Text) (out : Register) :
    Passes G (callNative s fn code args r key out) fun _ => True := by
  refine (openReceiver_passes hr).bind fun self hself => Passes.get.bind fun m hm => ?_
  extract_lets outcome
  have hall : outcome.All (Value.Holds G) := by
    unfold outcome
    split
    · exact hcode _ rfl G _ _ ⟨hself, hargs⟩ hm.host
    · exact ⟨hm.host, hself, nofun, nofun⟩
  refine (Passes.change fun _ hm => hm.withHost hall.host).bind fun _ _ => ?_
  refine (closeReceiver_passes r hall.self).bind fun _ _ => ?_
  split
  · rename_i e he
    cases e with
    | fault e => exact Passes.fail (hall.fault e he)
    | other what => exact Passes.fail_plain rfl
  · rename_i w hw
    have hw := hall.value w hw
    exact (Passes.lift (Function.checkResult_gives w)).bind fun _ _ =>
      (remember_passes key hw).bind fun _ _ => deliver_passes out hw

def ClosureCall.Holds (G : Closure → Prop) (c : ClosureCall) : Prop :=
  c.1.Holds G ∧ ∀ e ∈ c.2, e.2.Holds G

theorem bindCaptures_passes (scope : Scope) {closure : Value}
    {captures : List (Text × Captured Value)} (hc : ClosureCall.Holds G (closure, captures)) :
    Passes G (bindCaptures s scope closure captures) fun _ => True := by
  obtain ⟨hclosure, hcaptures⟩ := hc
  unfold bindCaptures
  extract_lets bindAll
  have hrest : ∀ u, Passes G (bindAll u) fun _ => True := by
    intro u
    unfold bindAll
    clear hclosure bindAll
    induction captures with
    | nil => exact Passes.pure trivial
    | cons e captures ih =>
      obtain ⟨he, hes⟩ := List.forall_mem_cons.1 hcaptures
      refine Passes.bind (R := fun _ => True) ?_ fun _ _ => ih hes
      refine (dropBinding_passes e.1).bind fun _ _ => bindTop_passes e.1 fun w hw => ?_
      obtain ⟨name, w' | h⟩ := e
      · cases hw
        exact he
      · cases hw
  split
  · exact (bindLet_passes _ hclosure).bind fun u _ => hrest u
  · exact hrest ⟨⟩

theorem bindReceiver_passes {r : Receiver} (hr : r.value.Holds G) :
    Passes G (bindReceiver s r) fun _ => True := by
  have hself : ∀ h : CellHandle, Passes G (modifyTop fun f => f.bind "self" (.borrowed h))
      fun _ => True := fun h => bindTop_passes "self" nofun
  unfold bindReceiver
  split
  · exact bindLet_passes "self" hr
  · extract_lets bindSelf borrow
    have hborrow : ∀ u, Passes G (borrow u) fun _ => True := by
      intro u
      unfold borrow
      split
      · refine (Passes.readArena fun a ha => ha.beginExclusive _).bind fun p hp => ?_
        refine (Passes.change fun _ hm => hm.withArena hp.2).bind fun _ _ => ?_
        refine (Passes.modifyTop fun f hf => ?_).bind fun _ _ => hself _
        exact ⟨hf.registers, hf.bindings, hf.loop⟩
      · exact hself _
    split
    · refine (Passes.modifyTop fun f hf => ?_).bind fun u _ => hborrow u
      exact ⟨hf.registers, hf.bindings, hf.loop⟩
    · exact hborrow ⟨⟩

theorem enter_passes {r : Option Receiver} {closure : Option ClosureCall}
    (hargs : ∀ w ∈ args, w.Holds G) (hr : ∀ r' ∈ r, r'.value.Holds G)
    (hc : ∀ c ∈ closure, ClosureCall.Holds G c) (key : Option Text) (out : Register) :
    Passes G (enter s fn args r key closure out) fun _ => True := by
  refine rootFrame_passes.bind fun root _ => (pushFrame_passes _ root out).bind fun _ _ => ?_
  refine (Passes.modifyTop fun f hf => ?_).bind fun _ _ => ?_
  · exact ⟨hf.registers, hf.bindings, hf.loop⟩
  refine (Passes.lift (scope_gives _ _)).bind fun scope _ => ?_
  extract_lets bindArguments
  have hrest : ∀ u, Passes G (bindArguments u) fun _ => True := by
    intro u
    refine (bindParams_passes scope.params hargs).bind fun _ _ => ?_
    split
    · exact bindReceiver_passes (hr _ rfl)
    · exact Passes.pure trivial
  split
  · exact (bindCaptures_passes scope (hc _ rfl)).bind fun u _ => hrest u
  · exact hrest ⟨⟩

theorem invokeBody_passes (hfn : fn.Inert) {r : Option Receiver} {closure : Option ClosureCall}
    (hargs : ∀ w ∈ args, w.Holds G) (hr : ∀ r' ∈ r, r'.value.Holds G)
    (hc : ∀ c ∈ closure, ClosureCall.Holds G c) (out : Register) :
    Passes G (invokeBody s fn args r out closure) fun _ => True := by
  have hdefaults : ∀ p ∈ fn.signature.params, ∀ w ∈ p.default, w.Holds G :=
    fun p hp w hw => hfn.signature p hp w hw G
  refine (Passes.lift (Function.acceptArgs_gives hdefaults hargs)).bind fun args hargs => ?_
  refine Passes.get.bind fun m hm => ?_
  dsimp only
  split
  · rename_i w hw
    obtain ⟨k, -, hk⟩ := Option.bind_eq_some_iff.1 hw
    have hw : w.Holds G := hm.memo _ (mem_of_lookup hk)
    exact (deliver_passes out hw).bind fun _ _ => Passes.pure trivial
  · split
    · rename_i code hcode
      refine (callNative_passes (fun run hrun => ?_) hargs hr _ out).bind fun _ _ => Passes.pure trivial
      exact hfn.native run (by rw [hcode, hrun])
    · exact (enter_passes hargs hr hc _ out).bind fun _ _ => Passes.pure trivial

theorem invoke_passes (hfn : fn.Inert) {r : Option Receiver} {closure : Option ClosureCall}
    (hargs : ∀ w ∈ args, w.Holds G) (hr : ∀ r' ∈ r, r'.value.Holds G)
    (hc : ∀ c ∈ closure, ClosureCall.Holds G c) (out : Register) :
    Passes G (invoke s fn args r out closure) fun _ => True := by
  have hbody := invokeBody_passes (s := s) hfn hargs hr hc out
  unfold invoke
  split
  · exact hbody.bind fun _ _ => Passes.pure trivial
  · rename_i h _
    have hcaught : Passes G (tryCatch (invokeBody s fn args r out closure) fun e => do
        (modify fun m => { m with arena := m.arena.releaseIfFree h } : Exec Unit)
        throw e) fun _ => True := fun m hm => Ensures.tryCatch (hbody m hm) fun e m₁ h₁ =>
      Ensures.change_bind (Ensures.throw ⟨h₁.1.withArena (h₁.1.arena.releaseIfFree h), h₁.2⟩)
    refine hcaught.bind fun handedOver _ => ?_
    split
    · exact Passes.change fun _ hm => hm.withArena (hm.arena.releaseIfFree h)
    · exact Passes.pure trivial

theorem invokeClosure_passes (hs : s.Inert) (hv : v.Holds G) (hargs : ∀ w ∈ args, w.Holds G)
    (out : Register) : Passes G (invokeClosure s v args out) fun _ => True := by
  unfold invokeClosure
  split
  · rename_i id code captures
    split
    · exact Passes.fail_plain rfl
    · refine Passes.get.bind fun m hm => ?_
      dsimp only
      split
      · exact Passes.fail_plain rfl
      · split
        · rename_i f hf
          refine invoke_passes (hs.closures f (Array.mem_of_getElem? hf)) hargs (by simp) (fun c hc => ?_) out
          cases hc
          exact ⟨hv, (Value.holds_closure.1 hv).2⟩
        · exact Passes.fail_plain rfl
  · exact Passes.fail_plain rfl

theorem objectAttribute_passes (hv : v.Holds G) (name : Text) :
    Passes G (objectAttribute v name args) fun w => ∀ x ∈ w, x.Holds G := by
  have hsome : ∀ r : Except Fault Value, Gives (Value.Holds G) r (Value.Holds G) →
      Passes G (some <$> lift r) fun w => ∀ x ∈ w, x.Holds G := by
    intro r hr
    refine Passes.map ((Passes.lift hr).imp fun w hw x hx => ?_)
    cases hx
    exact hw
  unfold objectAttribute
  split
  · split
    · exact hsome _ (ObjectOf.callMethod_gives name args hv)
    · split
      · exact hsome _ (ObjectOf.getMember_gives name hv)
      · exact Passes.pure nofun
  · exact Passes.pure nofun

theorem invokeExtension_passes (hfn : fn.Inert) (hv : v.Holds G) (hargs : ∀ w ∈ args, w.Holds G)
    (variableName : Option Text) (out : Register) :
    Passes G (invokeExtension s fn v args variableName out) fun _ => True := by
  refine (resolveReceiver_passes hv variableName).bind fun r hr => ?_
  refine invoke_passes hfn hargs (fun r' hr' => ?_) (by simp) out
  cases hr'
  exact hr

theorem callFunction_passes (hs : s.Inert) (hargs : ∀ w ∈ args, w.Holds G) (name : Text)
    (out : Register) : Passes G (callFunction s name args out) fun _ => True := by
  unfold callFunction
  split
  · exact invoke_passes (hs.of_mem (Setup.findFunction_mem ‹_›)) hargs (by simp) (by simp) out
  · split
    · exact Passes.fail_plain rfl
    · obtain ⟨hself, hothers⟩ := List.forall_mem_cons.1 hargs
      refine (objectAttribute_passes hself name).bind fun w hw => ?_
      split
      · exact writeRegister_passes out (hw _ rfl)
      · split
        · exact invokeExtension_passes (hs.of_mem (Setup.findExtension_mem ‹_›)) hself hothers none out
        · exact Passes.fail_plain rfl

theorem callMethod_passes (hs : s.Inert) (hv : v.Holds G) (hargs : ∀ w ∈ args, w.Holds G)
    (name : Text) (variableName : Option Text) (out : Register) :
    Passes G (callMethod s name v variableName args out) fun _ => True := by
  unfold callMethod
  split
  · exact invokeClosure_passes hs hv hargs out
  · refine (objectAttribute_passes hv name).bind fun w hw => ?_
    split
    · exact writeRegister_passes out (hw _ rfl)
    · split
      · exact writeRegister_passes out (mapMember_inherits hv ‹_›)
      · split
        · exact invokeExtension_passes (hs.of_mem (Setup.findExtension_mem ‹_›)) hv hargs _ out
        · split
          · exact invoke_passes (hs.of_mem (Setup.findFunction_mem ‹_›))
              (List.forall_mem_cons.2 ⟨hv, hargs⟩) (by simp) (by simp) out
          · exact Passes.fail_plain rfl

theorem callModule_passes (hs : s.Inert) (hargs : ∀ w ∈ args, w.Holds G) (module name : Text)
    (out : Register) : Passes G (callModule s module name args out) fun _ => True := by
  unfold callModule
  split
  · exact invoke_passes (hs.of_mem (Setup.findModuleFunction_mem ‹_›)) hargs (by simp) (by simp) out
  · split
    · exact Passes.fail_plain rfl
    · obtain ⟨hself, hothers⟩ := List.forall_mem_cons.1 hargs
      split
      · exact invokeExtension_passes (hs.of_mem (Setup.findModuleExtension_mem ‹_›)) hself hothers
          none out
      · exact Passes.fail_plain rfl

end Exec

end ScriptMachine
