import ScriptMachine.Proofs.Machine.Calls

set_option autoImplicit false

namespace ScriptMachine

namespace Exec

variable {s : Setup} {trust : Trust} {time : Nat} {transit : List CellHandle} {m : Machine}
  {f : Frame} {rest : List Frame} {v : Value} {h : CellHandle} {r : Receiver}

theorem resolveReceiver_safe (hm : m.Sound s trust time []) (hroom : trust.room → m.arena.Roomy) (f : Function)
    (hv : v.Within (m.Knows trust)) (variableName : Option Text) :
    Safe s trust time (fun r => inTransit (some r)) [] (resolveReceiver f v variableName) m
      fun r m' => r.Fits trust m' m'.frames := by
  unfold resolveReceiver
  split
  · exact Safe.pure hm ⟨hv, nofun, nofun, nofun⟩
  · extract_lets receiverAt
    have hrest : ∀ b : Option Binding, (∀ b' ∈ b, m.Offers trust b') →
        Safe s trust time (fun r => inTransit (some r)) [] (receiverAt b) m
          fun r m' => r.Fits trust m' m'.frames := by
      intro b hb
      unfold receiverAt
      split
      · exact Safe.pure hm ⟨hv, nofun, nofun, fun _ hc _ _ => Or.inl (by cases hc; exact hb _ rfl)⟩
      · exact Safe.pure hm ⟨hv, nofun, nofun, fun _ hc _ _ => Or.inr (by cases hc; exact hb _ rfl)⟩
      · exact Safe.pure hm ⟨hv, nofun, fun _ hc _ => (by cases hc; exact hb _ rfl), nofun⟩
      · obtain ⟨hlater, hknown⟩ := hm.known.allocate (fun hr => ⟨(hm.custody.custody hr).arena, hroom hr⟩) hv
        have hcustody := hm.custody.allocate hroom v
        refine Safe.get_bind ?_
        split
        rename_i h arena heq
        rw [heq] at hlater hknown hcustody
        refine Safe.change_bind hlater
          (Safe.pure ⟨hcustody, hknown⟩ ⟨hlater.value hv, ?_, nofun, nofun⟩)
        exact fun _ => rfl
    split
    · exact Safe.read hm (findBinding_reads hm _) hrest
    · exact Safe.read hm (Reads.pure nofun) hrest

theorem captureOne_keeps {e : Text × Captured Value} (hm : m.Sound s trust time transit)
    (he : e.2.Within (m.Knows trust) m.runId) :
    Keeps s trust time transit (do
      dropBinding s e.1
      modifyTop fun f => f.bind e.1
        (match e.2 with
          | .copy v => .fixed v
          | .cell h => .captured h)) m fun _ _ => True := by
  refine (dropBinding_keeps hm e.1).bind fun _ m' hm' hl _ => ?_
  have he := hl.captured he
  obtain ⟨name, w | k⟩ := e
  · exact bindTop_keeps hm' name rfl nofun he
  · exact bindTop_keeps hm' name rfl nofun he

theorem bindCaptures_keeps (hm : m.Sound s trust time transit) (scope : Scope) {closure : Value}
    {captures : List (Text × Captured Value)} (hclosure : closure.Within (m.Knows trust))
    (hcaptures : ∀ e ∈ captures, e.2.Within (m.Knows trust) m.runId) :
    Keeps s trust time transit (bindCaptures s scope closure captures) m fun _ _ => True := by
  unfold bindCaptures
  extract_lets bindAll
  have hrest : ∀ (u : Unit) (m' : Machine), m'.Sound s trust time transit → m.Later trust m' →
      Keeps s trust time transit (bindAll u) m' fun _ _ => True := by
    intro _ m' hm' hl'
    have hcaptures' : ∀ e ∈ captures, e.2.Within (m'.Knows trust) m'.runId :=
      fun e he => hl'.captured (hcaptures e he)
    unfold bindAll
    clear hcaptures hl' bindAll
    induction captures generalizing m' with
    | nil => exact Safe.pure hm' trivial
    | cons e captures ih =>
      obtain ⟨he, hes⟩ := List.forall_mem_cons.1 hcaptures'
      have hfirst := captureOne_keeps hm' he
      refine hfirst.bind fun _ m'' hm'' hl'' _ => ih m'' hm'' fun e he => ?_
      exact hl''.captured (hes e he)
  split
  · exact (bindLet_keeps hm _ hclosure).bind fun u m' hm' hl' _ => hrest u m' hm' hl'
  · exact hrest ⟨⟩ m hm (.refl m)

/-- The frame of a call borrows its receiver and binds it as `self`, unless it cannot be borrowed. -/
theorem takeBorrow_safe (hm : m.Sound s trust time []) (hf : m.frames = f :: rest)
    (hb : f.borrow = none) (hloop : f.loop = none)
    (halive : trust.natives → ∃ c, m.arena.look h = some c)
    (hother : (¬∃ c, m.arena.look h = some c ∧ c.exclusive = false) → m.Sound s trust time transit) :
    Safe s trust time (fun _ => []) transit (do
      let (_, arena) ← readArena fun a => a.beginExclusive h
      modify fun m => { m with arena }
      modifyTop fun f => { f with borrow := some h }
      modifyTop fun f => f.bind "self" (.borrowed h)) m fun _ _ => True := by
  have hrest : ∀ c, m.arena.look h = some c → c.exclusive = false →
      Safe s trust time (fun _ => []) transit (do
        modify fun m => { m with arena := m.arena.setCell h.index.toNat { c with exclusive := true } }
        modifyTop fun f => { f with borrow := some h }
        modifyTop fun f => f.bind "self" (.borrowed h)) m fun _ _ => True := by
    intro c hl hx
    obtain ⟨ho, -⟩ := (Arena.look_eq_some.1 hl).2
    obtain ⟨hlater, hknown⟩ := hm.known.setCell (d := { c with exclusive := true }) hl ho rfl id
      (hm.known.cells h c hl)
    have hcustody := (hm.custody_cons hf).borrow hb (congrArg Option.isSome hloop) hl hx
    have hw := hlater.frame (hm.within_top hf)
    refine Safe.change_bind hlater ?_
    have htop : Safe s trust time (fun _ => []) transit
        (modifyTop fun f => { f with borrow := some h })
        { m with arena := m.arena.setCell h.index.toNat { c with exclusive := true } }
        fun _ m' => ∃ f ∈ m'.frames, f.borrow = some h := by
      refine modifyTop_safe hf (.of_eq rfl rfl) ⟨hcustody, hknown.retop hf ?_⟩ ?_
      · exact ⟨hw.registers, hw.bindings, hw.loop⟩
      · exact ⟨_, List.mem_cons_self, rfl⟩
    refine htop.bind fun _ m' hm' _ hlent => ?_
    refine bindTop_keeps hm' "self" rfl (fun k hk => ?_) trivial
    cases hk
    exact hlent
  by_cases hfree : ∃ c, m.arena.look h = some c ∧ c.exclusive = false
  · obtain ⟨c, hl, hx⟩ := hfree
    exact Ensures.run (readArena_run (Arena.beginExclusive_of_look hl hx)) (hrest c hl hx)
  · refine Safe.read (hother hfree) (beginExclusive_reads halive) ?_
    rintro p ⟨c, hl, hx, rfl⟩
    exact hrest c hl hx

/-- The call takes over its receiver: afterwards nothing is in transit. -/
theorem bindReceiver_safe (hm : m.Sound s trust time (inTransit (some r)))
    (hf : m.frames = f :: rest) (hb : f.borrow = none) (hloop : f.loop = none)
    (hr : r.Fits trust m rest) :
    Safe s trust time (fun _ => []) (inTransit (some r)) (bindReceiver s r) m fun _ _ => True := by
  obtain ⟨value, cell, borrows, temporary⟩ := r
  have hrest : ∀ g ∈ rest, g ∈ m.frames := fun g hg => hf ▸ List.mem_cons_of_mem _ hg
  cases cell with
  | none => exact bindLet_keeps hm "self" hr.value
  | some h =>
    cases temporary with
    | true =>
      -- the frame owns the cell first, so that the borrow is that of a cell of its own
      obtain rfl : borrows = true := hr.temporary rfl
      have hfree : trust.room → ∃ c, m.arena.look h = some c ∧ c.exclusive = false := fun hroom =>
        (inTransit_loose hm hroom rfl rfl).imp fun _ hc => ⟨hc.1, hc.2.1⟩
      have hcustody := (hm.custody_cons hf).own
      have hw := hm.within_top hf
      have hown : Safe s trust time (fun _ => []) (inTransit (some ⟨value, some h, true, true⟩))
          (modifyTop fun f => { f with owned := f.owned ++ [h] }) m fun _ m' =>
            (∃ f', m'.frames = f' :: rest ∧ f'.borrow = none ∧ f'.loop = none) ∧
              m'.arena = m.arena := by
        refine modifyTop_safe hf (.of_eq rfl rfl) ⟨hcustody, hm.known.retop hf ?_⟩ ?_
        · exact ⟨hw.registers, hw.bindings, hw.loop⟩
        · exact ⟨⟨_, rfl, hb, hloop⟩, rfl⟩
      refine hown.bind fun _ m' hm' _ ⟨⟨f', hf', hb', hloop'⟩, harena⟩ => ?_
      rw [← harena] at hfree
      refine takeBorrow_safe hm' hf' hb' hloop' (fun ht => (hfree (trust.ample ht)).imp fun _ => And.left)
        fun hno => ⟨⟨hm'.custody.lent, ?_, fun hroom => absurd (hfree hroom) hno⟩, hm'.known⟩
      rw [harena]
      exact hm.custody.unlent
    | false =>
      cases borrows with
      | true =>
        exact takeBorrow_safe hm hf hb hloop (receiver_alive hm hrest hr rfl rfl) fun _ => hm
      | false =>
        refine bindTop_keeps hm "self" rfl (fun k hk => ?_) trivial
        cases hk
        obtain ⟨g, hg, hgh⟩ := hr.lent h rfl rfl
        exact ⟨g, hrest g hg, hgh⟩

def ClosureCall.Within (trust : Trust) (m : Machine) (c : ClosureCall) : Prop :=
  c.1.Within (m.Knows trust) ∧ ∀ e ∈ c.2, e.2.Within (m.Knows trust) m.runId

def Entered (callers : List Frame) (m : Machine) : Prop :=
  ∃ f, m.frames = f :: callers ∧ f.borrow = none ∧ f.loop = none

theorem Entered.tended {callers : List Frame} {m m' : Machine} (h : Entered callers m)
    (ht : m.Tended m' Frame.outline) : Entered callers m' := by
  obtain ⟨f, hf, hb, hl⟩ := h
  obtain ⟨f', hf', ho⟩ := ht.cons hf
  exact ⟨f', hf', (congrArg Frame.borrow ho).trans hb, (congrArg Frame.loop ho).trans hl⟩

theorem enter_safe {f : Function} {args : List Value} {r : Option Receiver}
    {closure : Option ClosureCall} (hm : m.Sound s trust time (inTransit r))
    (hr : ∀ r' ∈ r, r'.Fits trust m m.frames) (hargs : ∀ w ∈ args, w.Within (m.Knows trust))
    (hclosure : ∀ c ∈ closure, ClosureCall.Within trust m c) (key : Option Text) (out : Register) :
    Safe s trust time (fun _ => []) (inTransit r) (enter s f args r key closure out) m
      fun _ _ => True := by
  refine Safe.read hm rootFrame_reads fun root _ => ?_
  refine (pushFrame_keeps hm _ _ out).bind fun _ m₁ hm₁ hl₁ ⟨scope, hf₁⟩ => ?_
  have htop : Keeps s trust time (inTransit r)
      (modifyTop fun frame => { frame with function := some f, memoKey := key }) m₁ fun _ m' =>
        Entered m.frames m' := by
    have hw := hm₁.within_top hf₁
    refine modifyTop_safe hf₁ (.of_eq rfl rfl) (hm₁.withTop hf₁ rfl ?_) ⟨_, rfl, rfl, rfl⟩
    exact ⟨hw.registers, hw.bindings, hw.loop⟩
  refine htop.bind fun _ m₂ hm₂ hl₂ he => ?_
  refine Safe.read hm₂ (Reads.lift (scope_gives _ _)) fun scope _ => ?_
  extract_lets bindArguments
  have hrest : ∀ (u : Unit) (m' : Machine), m'.Sound s trust time (inTransit r) → m.Later trust m' →
      Entered m.frames m' →
      Safe s trust time (fun _ => []) (inTransit r) (bindArguments u) m' fun _ _ => True := by
    intro _ m' hm' hl' he
    have hbound := (bindParams_keeps hm' scope.params (hl'.values hargs)).steady
      (bindParams_steady s scope.params args)
    refine hbound.bind fun _ m₃ hm₃ hl₃ ht => ?_
    obtain ⟨f', hf', hb, hloop⟩ := he.tended ht.2
    cases r with
    | none => exact Safe.pure hm₃ trivial
    | some r => exact bindReceiver_safe hm₃ hf' hb hloop ((hr r rfl).later (hl'.trans hl₃))
  cases closure with
  | some c =>
    obtain ⟨value, captures⟩ := c
    have hl := hl₁.trans hl₂
    obtain ⟨hvalue, hcaptures⟩ := hclosure _ rfl
    have hbound := (bindCaptures_keeps hm₂ scope (hl.value hvalue) fun e he =>
      hl.captured (hcaptures e he)).steady (bindCaptures_steady s scope value captures)
    exact hbound.bind fun u m₃ hm₃ hl₃ ht => hrest u m₃ hm₃ (hl.trans hl₃) (he.tended ht.2)
  | none => exact hrest ⟨⟩ m₂ hm₂ (hl₁.trans hl₂) he

theorem invokeBody_safe {f : Function} {args : List Value} {r : Option Receiver}
    {closure : Option ClosureCall} (hm : m.Sound s trust time (inTransit r))
    (hf : trust.natives → f.Honest time) (hr : ∀ r' ∈ r, r'.Fits trust m m.frames)
    (hargs : ∀ w ∈ args, w.Within (m.Knows trust))
    (hclosure : ∀ c ∈ closure, ClosureCall.Within trust m c) (out : Register) :
    Safe s trust time (fun handedOver => if handedOver then [] else inTransit r) (inTransit r)
      (invokeBody s f args r out closure) m fun _ _ => True := by
  have hdefaults : ∀ p ∈ f.signature.params, ∀ v ∈ p.default, v.Within (m.Knows trust) :=
    fun p hp v hv c hc ht => (hm.known.of_dated c fun ht => (hf ht).defaults p hp v hv c hc) ht
  refine Safe.read hm (Reads.lift (Function.acceptArgs_gives hdefaults hargs)) fun args hargs => ?_
  refine Safe.get_bind ?_
  dsimp only
  split
  · rename_i v hv
    obtain ⟨k, -, hk⟩ := Option.bind_eq_some_iff.1 hv
    obtain ⟨front, back, hsplit, -⟩ := List.lookup_eq_some_iff.1 hk
    have hw : v.Within (m.Knows trust) := hm.known.memo (k, v) (by simp [hsplit])
    exact (deliver_keeps hm out hw).bind fun _ m' hm' _ _ => Safe.pure hm' trivial
  · split
    · rename_i code hcode
      have hrun : trust.natives → ∀ run ∈ code, run.Honest time := by
        intro ht run hrun
        exact (hf ht).native run (by rw [hcode, Option.mem_def.1 hrun])
      exact (callNative_keeps hm hr hrun hargs _ out).bind fun _ m' hm' _ _ =>
        Safe.pure hm' trivial
    · exact (enter_safe hm hr hargs hclosure _ out).bind fun _ m' hm' _ _ => Safe.pure hm' trivial

theorem releaseTemporary_sound (hm : m.Sound s trust time [h]) :
    m.Later trust { m with arena := m.arena.releaseIfFree h } ∧
      ({ m with arena := m.arena.releaseIfFree h } : Machine).Sound s trust time [] := by
  obtain ⟨hlater, hknown⟩ := hm.known.remains (Arena.Remains.releaseIfFree m.arena h fun hroom =>
    ((hm.custody.custody hroom).moving h List.mem_cons_self).1)
  exact ⟨hlater, hm.custody.releaseIfFree, hknown⟩

theorem invoke_safe {f : Function} {args : List Value} {r : Option Receiver}
    {closure : Option ClosureCall} (hm : m.Sound s trust time (inTransit r))
    (hf : trust.natives → f.Honest time) (hr : ∀ r' ∈ r, r'.Fits trust m m.frames)
    (hargs : ∀ w ∈ args, w.Within (m.Knows trust))
    (hclosure : ∀ c ∈ closure, ClosureCall.Within trust m c) (out : Register) :
    Safe s trust time (fun _ => []) [] (invoke s f args r out closure) m fun _ _ => True := by
  have hbody := invokeBody_safe hm hf hr hargs hclosure out
  unfold invoke
  split
  · rename_i hnone
    have ht : inTransit r = [] := by simp [inTransit, hnone]
    simp only [ht, ite_self] at hbody
    exact hbody.bind fun _ m' hm' _ _ => Safe.pure hm' trivial
  · rename_i h hsome
    have ht : inTransit r = [h] := by simp [inTransit, hsome]
    rw [ht] at hbody
    refine Ensures.bind (Ensures.tryCatch hbody fun e m' he => ?_) fun handedOver m' hm' => ?_
    · obtain ⟨hm', hl', he⟩ := he
      obtain ⟨hlater, hsound⟩ := releaseTemporary_sound hm'
      refine Ensures.change_bind (Ensures.throw ⟨hsound, hl'.trans hlater, ?_⟩)
      exact ⟨he.within.mono hlater.knows, he.cell⟩
    · obtain ⟨hm', hl', -⟩ := hm'
      cases handedOver with
      | true => exact Ensures.pure ⟨hm', hl', trivial⟩
      | false =>
        obtain ⟨hlater, hsound⟩ := releaseTemporary_sound hm'
        exact Ensures.change ⟨hsound, hl'.trans hlater, trivial⟩

theorem captures_within {id : Nat} {code : ClosureCode} {captures : List (Text × Captured Value)}
    (hv : (Value.object (.closure id code captures)).Within (m.Knows trust))
    (hrun : ∀ name h, (name, Captured.cell h) ∈ captures → code.run = m.runId) :
    ∀ e ∈ captures, e.2.Within (m.Knows trust) m.runId := by
  intro e he
  have hwithin := Value.within_closure.1 hv e he
  obtain ⟨name, w | k⟩ := e
  · exact hwithin
  · rwa [hrun name k he] at hwithin

theorem invokeClosure_safe {args : List Value} (hs : trust.natives → s.Honest time)
    (hm : m.Sound s trust time []) (hv : v.Within (m.Knows trust))
    (hargs : ∀ w ∈ args, w.Within (m.Knows trust)) (out : Register) :
    Keeps s trust time [] (invokeClosure s v args out) m fun _ _ => True := by
  unfold invokeClosure
  split
  · rename_i id code captures
    split
    · exact Safe.fail hm (FaultOf.within_payload_none rfl)
    · refine Safe.get_bind ?_
      dsimp only
      split
      · exact Safe.fail hm (FaultOf.within_payload_none rfl)
      · rename_i hrun
        have hcaptures : ∀ e ∈ captures, e.2.Within (m.Knows trust) m.runId := by
          refine captures_within hv fun name h hmem => ?_
          by_contra hne
          refine hrun ?_
          rw [Bool.and_eq_true]
          exact ⟨List.any_eq_true.2 ⟨_, hmem, rfl⟩, by simpa using hne⟩
        split
        · rename_i f hf
          refine invoke_safe (r := none) hm (fun ht => (hs ht).closures f (Array.mem_of_getElem? hf))
            nofun hargs (fun c hc => ?_) out
          cases hc
          exact ⟨hv, hcaptures⟩
        · exact Safe.fail hm (FaultOf.within_payload_none rfl)
  · exact Safe.fail hm (FaultOf.within_payload_none rfl)

theorem captureVariable_keeps (hm : m.Sound s trust time []) (name : Text) :
    Keeps s trust time [] (captureVariable name) m fun c m' =>
      ∀ e ∈ c, e.2.Within (m'.Knows trust) m'.runId := by
  have hshared : ∀ h : CellHandle, (trust.natives → ∃ c, m.arena.look h = some c) →
      Keeps s trust time [] (do
        pin h
        return some (name, Captured.cell h)) m fun c m' =>
          ∀ e ∈ c, e.2.Within (m'.Knows trust) m'.runId := by
    intro h halive
    refine (pin_keeps hm halive).bind fun _ m' hm' _ hp => Safe.pure hm' fun e he => ?_
    cases he
    exact fun _ => Or.inr ⟨rfl, hp⟩
  refine Safe.read hm (findBinding_reads hm name) fun b hb => ?_
  split
  · exact Safe.pure hm nofun
  · refine Safe.pure hm fun e he => ?_
    cases he
    exact hb _ rfl
  · exact hshared _ fun ht => mutable_alive hm (trust.ample ht) (hb _ rfl)
  · exact hshared _ fun ht => ((hb _ rfl : m.Knows trust _).pinned ht).imp fun _ hc => hc.1
  · refine Safe.read hm (borrowed_reads hm (hb _ rfl)) fun w hw => Safe.pure hm fun e he => ?_
    cases he
    exact hw

theorem captureVariables_keeps (hm : m.Sound s trust time []) (names : List Text) :
    Keeps s trust time [] (names.filterMapM captureVariable) m fun captures m' =>
      ∀ e ∈ captures, e.2.Within (m'.Knows trust) m'.runId := by
  induction names generalizing m with
  | nil => exact Safe.pure hm nofun
  | cons name names ih =>
    rw [List.filterMapM_cons]
    refine (captureVariable_keeps hm name).bind fun c m' hm' _ hc => ?_
    cases c with
    | none => exact ih hm'
    | some e =>
      refine (ih hm').bind fun captures m'' hm'' hl hcaptures => Safe.pure hm'' ?_
      exact List.forall_mem_cons.2 ⟨hl.captured (hc e rfl), hcaptures⟩

theorem freshId_keeps (hm : m.Sound s trust time transit) :
    Keeps s trust time transit freshId m fun _ m' => m' = { m with host := m'.host } := by
  refine Safe.get_bind (Safe.change_bind (.of_eq rfl rfl) (Safe.pure ?_ rfl))
  exact hm.withHost (fun _ => Nat.le_succ _) hm.known.host

theorem makeClosure_keeps (hm : m.Sound s trust time []) (function : Nat) (out : Register) :
    Keeps s trust time [] (makeClosure s function out) m fun _ _ => True := by
  unfold makeClosure
  split
  · exact Safe.fail hm (FaultOf.within_payload_none rfl)
  · refine Safe.read hm (Reads.lift (scope_gives _ _)) fun body _ => ?_
    refine (captureVariables_keeps hm body.captures).bind fun captures m₁ hm₁ _ hcaptures => ?_
    refine (freshId_keeps hm₁).bind fun id m₂ hm₂ hl₂ _ => Safe.get_bind ?_
    refine writeRegister_keeps hm₂ out (Value.within_closure.2 fun e he => ?_)
    exact hl₂.captured (hcaptures e he)

theorem objectAttribute_reads {args : List Value} (hv : v.Within (m.Knows trust)) (name : Text) :
    Reads trust (objectAttribute v name args) m fun w => ∀ x ∈ w, x.Within (m.Knows trust) := by
  have hsome : ∀ r : Except Fault Value,
      Gives (Value.Within (m.Knows trust)) r (Value.Within (m.Knows trust)) →
      Reads trust (some <$> lift r) m fun w => ∀ x ∈ w, x.Within (m.Knows trust) := by
    intro r hr
    refine Reads.map ((Reads.lift hr).imp fun w hw x hx => ?_)
    cases hx
    exact hw
  unfold objectAttribute
  split
  · split
    · exact hsome _ (ObjectOf.callMethod_gives name args hv)
    · split
      · exact hsome _ (ObjectOf.getMember_gives name hv)
      · exact Reads.pure nofun
  · exact Reads.pure nofun

theorem invokeExtension_safe {f : Function} {args : List Value} (hm : m.Sound s trust time [])
    (hroom : trust.room → m.arena.Roomy) (hf : trust.natives → f.Honest time) (hv : v.Within (m.Knows trust))
    (hargs : ∀ w ∈ args, w.Within (m.Knows trust)) (variableName : Option Text) (out : Register) :
    Keeps s trust time [] (invokeExtension s f v args variableName out) m fun _ _ => True := by
  refine (resolveReceiver_safe hm hroom f hv variableName).bind fun r m' hm' hl' hr => ?_
  refine invoke_safe hm' hf (fun r' hr' => ?_) (hl'.values hargs) (by simp) out
  cases hr'
  exact hr

theorem callFunction_safe {args : List Value} (hs : trust.natives → s.Honest time)
    (hm : m.Sound s trust time []) (hroom : trust.room → m.arena.Roomy)
    (hargs : ∀ w ∈ args, w.Within (m.Knows trust)) (name : Text) (out : Register) :
    Keeps s trust time [] (callFunction s name args out) m fun _ _ => True := by
  unfold callFunction
  split
  · rename_i f hf
    exact invoke_safe (r := none) hm (fun ht => (hs ht).of_mem (Setup.findFunction_mem hf)) nofun
      hargs (by simp) out
  · split
    · exact Safe.fail hm (FaultOf.within_payload_none rfl)
    · rename_i self others
      obtain ⟨hself, hothers⟩ := List.forall_mem_cons.1 hargs
      refine Safe.read hm (objectAttribute_reads hself name) fun w hw => ?_
      split
      · exact writeRegister_keeps hm out (hw _ rfl)
      · split
        · rename_i f hf
          exact invokeExtension_safe hm hroom (fun ht => (hs ht).of_mem (Setup.findExtension_mem hf))
            hself hothers none out
        · exact Safe.fail hm (FaultOf.within_payload_none rfl)

theorem callMethod_safe {args : List Value} (hs : trust.natives → s.Honest time)
    (hm : m.Sound s trust time []) (hroom : trust.room → m.arena.Roomy) (hv : v.Within (m.Knows trust))
    (hargs : ∀ w ∈ args, w.Within (m.Knows trust)) (name : Text) (variableName : Option Text)
    (out : Register) :
    Keeps s trust time [] (callMethod s name v variableName args out) m fun _ _ => True := by
  unfold callMethod
  split
  · exact invokeClosure_safe hs hm hv hargs out
  · refine Safe.read hm (objectAttribute_reads hv name) fun w hw => ?_
    split
    · exact writeRegister_keeps hm out (hw _ rfl)
    · split
      · exact writeRegister_keeps hm out (mapMember_inherits hv ‹_›)
      · split
        · rename_i f hf
          exact invokeExtension_safe hm hroom (fun ht => (hs ht).of_mem (Setup.findExtension_mem hf)) hv
            hargs variableName out
        · split
          · rename_i f hf
            exact invoke_safe (r := none) hm (fun ht => (hs ht).of_mem (Setup.findFunction_mem hf))
              nofun (List.forall_mem_cons.2 ⟨hv, hargs⟩) (by simp) out
          · exact Safe.fail hm (FaultOf.within_payload_none rfl)

theorem callModule_safe {args : List Value} (hs : trust.natives → s.Honest time)
    (hm : m.Sound s trust time []) (hroom : trust.room → m.arena.Roomy)
    (hargs : ∀ w ∈ args, w.Within (m.Knows trust)) (module name : Text) (out : Register) :
    Keeps s trust time [] (callModule s module name args out) m fun _ _ => True := by
  unfold callModule
  split
  · rename_i f hf
    exact invoke_safe (r := none) hm (fun ht => (hs ht).of_mem (Setup.findModuleFunction_mem hf))
      nofun hargs (by simp) out
  · split
    · exact Safe.fail hm (FaultOf.within_payload_none rfl)
    · rename_i self others
      obtain ⟨hself, hothers⟩ := List.forall_mem_cons.1 hargs
      split
      · rename_i f hf
        exact invokeExtension_safe hm hroom (fun ht => (hs ht).of_mem (Setup.findModuleExtension_mem hf))
          hself hothers none out
      · exact Safe.fail hm (FaultOf.within_payload_none rfl)

end Exec

end ScriptMachine
