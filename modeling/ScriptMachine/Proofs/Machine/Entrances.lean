import ScriptMachine.Proofs.Machine.Capturing

set_option autoImplicit false

namespace ScriptMachine

def Frame.setting (f : Frame) : Frame × List (Text × Binding) := (f.footing, f.bindings)

theorem Blind.setting : Blind Frame.setting := fun f registers h hr => by
  simp only [Frame.setting, Frame.footing, f.outline_registers registers h hr]

def root (fs : List Frame) : Option Nat :=
  match fs.getLast? with
  | some f => if f.scope = 0 then some 0 else none
  | none => none

/-- A frame that has just been entered: its own names are bound, and what has been captured under the
names of the captures; nothing else is. -/
structure Frame.Opened (own : List Text) (captures : List (Text × Captured Value)) (h : Frame) :
    Prop where
  pc : h.pc = 0
  bound : ∀ n, n ∈ own ∨ n ∈ captures.map Prod.fst → ∃ b, h.bindings.lookup n = some b ∧
    (n ∈ own ∨ ∃ c, (n, c) ∈ captures ∧ b = c.binding)
  free : ∀ n, n ∉ own → n ∉ captures.map Prod.fst → h.bindings.lookup n = none

theorem Frame.Opened.congr {own own' : List Text} {captures : List (Text × Captured Value)}
    {h : Frame} (ho : h.Opened own captures) (hown : ∀ n, n ∈ own ↔ n ∈ own') :
    h.Opened own' captures := by
  refine ⟨ho.pc, fun n hn => ?_, fun n hn => ho.free n ((hown n).not.2 hn)⟩
  obtain ⟨b, hb, hcase⟩ := ho.bound n (hn.imp_left (hown n).2)
  exact ⟨b, hb, hcase.imp_left (hown n).1⟩

/-- The frame of a call, entered from the given stack. A closure also binds its own name and what it
has captured. -/
structure Frame.Entering (s : Setup) (fn : Function) (closure : Option Exec.ClosureCall)
    (receiver : Bool) (fs : List Frame) (h : Frame) : Prop where
  interpreted : fn.isNative = false
  scope : h.scope = fn.scope
  parent : h.parent = root fs
  handler : h.handler = none
  rounds : h.loop = none
  body : ∃ sc, s.program.scopes[fn.scope]? = some sc ∧ h.Opened
    ((if closure.isSome then sc.selfName.toList else []) ++ sc.params ++
      if receiver then [("self" : Text)] else []) ((closure.map Prod.snd).getD [])

namespace Exec

variable {α β : Type} {s : Setup} {m : Machine} {f : Frame} {rest : List Frame}
  {names names' : List Text} {V : Text → Binding → Prop}

/-- The action binds names in the top frame, to something that `V` tells, and changes no other names
and nothing of where the frame stands. -/
def Binds (names : List Text) (V : Text → Binding → Prop) (x : Exec α) : Prop :=
  ∀ (m : Machine) (f : Frame) (rest : List Frame), m.frames = f :: rest →
    Ensures x m (fun _ m' => ∃ g, m'.frames = g :: rest ∧ g.footing = f.footing ∧
      (∀ n ∈ names, ∃ b, g.bindings.lookup n = some b ∧ V n b) ∧
      ∀ n, n ∉ names → g.bindings.lookup n = f.bindings.lookup n) fun _ _ => True

namespace Binds

theorem of_steady {x : Exec α} (hx : Steady x Frame.setting) : Binds [] V x := by
  refine fun m f rest hf => (hx m).mono (fun _ m' h => ?_) fun _ _ _ => trivial
  obtain ⟨g, hm', hg⟩ := h.cons hf
  obtain ⟨hfooting, hbindings⟩ := Prod.mk.inj hg
  exact ⟨g, hm', hfooting, nofun, fun n _ => by rw [hbindings]⟩

theorem bind {x : Exec α} {k : α → Exec β} (hx : Binds names V x) (hk : ∀ a, Binds names' V (k a)) :
    Binds (names ++ names') V (x >>= k) := by
  intro m f rest hf
  refine (hx m f rest hf).bind fun a m₁ h₁ => ?_
  obtain ⟨g, hm₁, hg, hbound, hfree⟩ := h₁
  refine (hk a m₁ g rest hm₁).imp fun _ m₂ h₂ => ?_
  obtain ⟨g', hm₂, hg', hbound', hfree'⟩ := h₂
  refine ⟨g', hm₂, hg'.trans hg, fun n hn => ?_, fun n hn => ?_⟩
  · by_cases hn' : n ∈ names'
    · exact hbound' n hn'
    · obtain ⟨b, hb, hV⟩ := hbound n ((List.mem_append.1 hn).resolve_right hn')
      exact ⟨b, (hfree' n hn').trans hb, hV⟩
  · rw [List.mem_append, not_or] at hn
    exact (hfree' n hn.2).trans (hfree n hn.1)

theorem after {x : Exec α} {k : α → Exec β} (hx : Steady x Frame.setting)
    (hk : ∀ a, Binds names V (k a)) : Binds names V (x >>= k) := (of_steady hx).bind hk

theorem pure (a : α) : Binds [] V (Pure.pure a : Exec α) := of_steady (Steady.pure a)

end Binds

theorem dropBinding_ensures (name : Text) (hf : m.frames = f :: rest) :
    Ensures (dropBinding s name) m (fun _ m' => m'.frames = f.unbind name :: rest)
      fun _ _ => False := by
  refine Ensures.run (top_run hf) ?_
  split
  · exact Ensures.change_bind (Ensures.of_run (modifyTop_run ((discard_frames s m _).trans hf)) rfl)
  · exact Ensures.of_run (modifyTop_run hf) rfl

theorem lookup_bind {b : Binding} (f : Frame) (name n : Text) :
    ((f.unbind name).bind name b).bindings.lookup n =
      if n = name then some b else f.bindings.lookup n := by
  refine lookup_replace.trans ?_
  split
  · rfl
  · exact lookup_without ‹_›

theorem rebind_binds {b : Binding} {g : Frame → Frame} (name : Text) (hV : V name b)
    (hg : ∀ f, (g f).footing = f.footing ∧ (g f).bindings = (f.bind name b).bindings) :
    Binds [name] V (do
      dropBinding s name
      modifyTop g) := by
  intro m f rest hf
  refine ((dropBinding_ensures name hf).mono (fun _ _ h => h) fun _ _ h => h.elim).bind
    fun _ m₁ hm₁ => Ensures.of_run (modifyTop_run hm₁) ?_
  obtain ⟨hfooting, hbindings⟩ := hg (f.unbind name)
  refine ⟨_, rfl, hfooting, fun n hn => ⟨b, ?_, ?_⟩, fun n hn => ?_⟩
  · rw [hbindings, lookup_bind, if_pos (List.mem_singleton.1 hn)]
  · rwa [List.mem_singleton.1 hn]
  · rw [hbindings, lookup_bind, if_neg fun h => hn (List.mem_singleton.2 h)]

theorem bindLet_binds (name : Text) {v : Value} (hV : V name (.fixed v)) :
    Binds [name] V (bindLet s name v) := rebind_binds name hV fun _ => ⟨rfl, rfl⟩

theorem bindMut_binds (name : Text) (v : Value) : Binds [name] (fun _ _ => True) (bindMut s name v) := by
  intro m f rest hf
  refine ((dropBinding_ensures name hf).mono (fun _ _ h => h) fun _ _ h => h.elim).bind
    fun _ m₁ hm₁ => Ensures.get_bind ?_
  split
  rename_i h arena _
  refine Ensures.change_bind (Ensures.of_run (modifyTop_run hm₁) ?_)
  refine ⟨_, rfl, rfl, fun n hn => ⟨.cell h, ?_, trivial⟩, fun n hn => ?_⟩
  · exact (lookup_bind f name n).trans (if_pos (List.mem_singleton.1 hn))
  · exact (lookup_bind f name n).trans (if_neg fun h => hn (List.mem_singleton.2 h))

theorem bindParams_binds (names : List Text) (args : List Value) (hV : ∀ n ∈ names, ∀ b, V n b) :
    Binds names V (bindParams s names args) := by
  induction names generalizing args with
  | nil => exact Binds.pure _
  | cons name names ih =>
    obtain ⟨hname, hnames⟩ := List.forall_mem_cons.1 hV
    exact (bindLet_binds name (hname _)).bind fun _ => ih args.tail hnames

theorem bindCaptures_binds (scope : Scope) (closure : Value)
    (captures : List (Text × Captured Value)) (hself : ∀ n ∈ scope.selfName, ∀ b, V n b)
    (hcaptures : ∀ e ∈ captures, V e.1 e.2.binding) :
    Binds (scope.selfName.toList ++ captures.map Prod.fst) V
      (bindCaptures s scope closure captures) := by
  unfold bindCaptures
  extract_lets bindAll
  have hrest : ∀ u, Binds (captures.map Prod.fst) V (bindAll u) := by
    intro u
    unfold bindAll
    clear bindAll
    induction captures with
    | nil => exact Binds.pure _
    | cons e captures ih =>
      obtain ⟨he, hes⟩ := List.forall_mem_cons.1 hcaptures
      have hbound : Binds [e.1] V (do
          dropBinding s e.1
          modifyTop fun f => f.bind e.1 e.2.binding) := rebind_binds e.1 he fun f => ⟨rfl, rfl⟩
      exact hbound.bind fun _ => ih hes
  cases hname : scope.selfName with
  | some name => exact (bindLet_binds name (hself name (by simp [hname]) _)).bind hrest
  | none => exact hrest ⟨⟩

theorem bindReceiver_binds (r : Receiver) (hV : ∀ b, V "self" b) :
    Binds ["self"] V (bindReceiver s r) := by
  have hbind : ∀ h : CellHandle, Binds ["self"] V (modifyTop fun f => f.bind "self" (.borrowed h)) := by
    intro h m f rest hf
    refine Ensures.of_run (modifyTop_run hf) ⟨_, rfl, rfl, fun n hn => ⟨.borrowed h, ?_, ?_⟩, fun n hn => ?_⟩
    · exact lookup_replace.trans (if_pos (List.mem_singleton.1 hn))
    · rw [List.mem_singleton.1 hn]
      exact hV _
    · exact lookup_replace.trans (if_neg fun h => hn (List.mem_singleton.2 h))
  unfold bindReceiver
  split
  · exact bindLet_binds "self" (hV _)
  · extract_lets bindSelf borrow
    have hborrow : ∀ u, Binds ["self"] V (borrow u) := by
      intro u
      unfold borrow
      split
      · refine Binds.after (Steady.readArena _) fun p => ?_
        refine Binds.after (Steady.change fun _ => rfl) fun _ => ?_
        exact Binds.after (Steady.modifyTop fun _ => rfl) fun _ => hbind _
      · exact hbind _
    split
    · exact Binds.after (Steady.modifyTop fun _ => rfl) hborrow
    · exact hborrow ⟨⟩

variable {Q : List Frame → Frame → Prop}

def Opens (Q : List Frame → Frame → Prop) (x : Exec α) : Prop :=
  ∀ m, Ensures x m (fun _ m' => ∀ h, m'.frames = h :: m.frames → Q m.frames h) fun _ _ => True

namespace Opens

variable {x : Exec α} {k : α → Exec β}

theorem of_steady {ω : Type} {π : Frame → ω} (hx : Steady x π) : Opens Q x := by
  refine fun m => (hx m).mono (fun _ m' hm' h hh => ?_) fun _ _ _ => trivial
  have hlength := congrArg List.length hm'.view
  simp [hh] at hlength

theorem pure (a : α) : Opens Q (Pure.pure a : Exec α) := of_steady (Steady.pure (π := id) a)

theorem fail (e : Fault) : Opens Q (Exec.fail e : Exec α) := of_steady (Steady.fail (π := id) e)

theorem after (hx : Steady x id) (hk : ∀ a, Opens Q (k a)) : Opens Q (x >>= k) := by
  refine fun m => ((hx m).mono (fun _ _ h => h.eq) fun _ _ _ => trivial).bind fun a m₁ hm₁ => ?_
  rw [← hm₁]
  exact hk a m₁

theorem before (hx : Opens Q x) (hk : ∀ a, Steady (k a) id) : Opens Q (x >>= k) := by
  refine fun m => (hx m).bind fun a m₁ h₁ => ?_
  refine (hk a m₁).mono (fun _ m' h => ?_) fun _ _ _ => trivial
  rw [h.eq]
  exact h₁

theorem imp {Q' : List Frame → Frame → Prop} (hx : Opens Q x) (h : ∀ fs g, Q fs g → Q' fs g) :
    Opens Q' x := fun m => (hx m).imp fun _ _ h' g hg => h _ _ (h' g hg)

end Opens

theorem rootFrame_run (m : Machine) : rootFrame m = .ok (root m.frames) m := by
  have hget : (get : Exec Machine) m = .ok m m := rfl
  unfold rootFrame root
  rw [run_bind hget]
  cases m.frames.getLast? with
  | none => rfl
  | some f =>
    dsimp only
    split <;> rfl

theorem enter_opens (fn : Function) (hn : fn.isNative = false) (args : List Value)
    (r : Option Receiver) (key : Option Text) (closure : Option ClosureCall) (out : Register) :
    Opens (Frame.Entering s fn closure r.isSome) (enter s fn args r key closure out) := by
  intro m
  refine Ensures.run (rootFrame_run m) ?_
  refine ((pushFrame_ensures _ _ out).mono (fun _ _ h => h) fun _ _ _ => trivial).bind fun _ m₁ h₁ => ?_
  obtain ⟨-, sc, hsc, rfl⟩ := h₁
  refine Ensures.run (modifyTop_run rfl) ?_
  generalize hg : ({ entered sc (some fn.scope) (root m.frames) out with
    function := some fn, memoKey := key } : Frame) = g
  generalize hm₂ : ({ m with frames := g :: m.frames } : Machine) = m₂
  refine ((lift_ensures _ m₂).mono (fun _ _ h => h) fun _ _ _ => trivial).bind fun sc' m₃ h₃ => ?_
  obtain ⟨rfl, hsc'⟩ := h₃
  rw [hsc] at hsc'
  cases hsc'
  obtain ⟨i, hi, hat⟩ := Program.scope_eq_ok.1 hsc
  cases hi
  -- the names that the body gets, from left to right
  let own : List Text := (if closure.isSome then sc.selfName.toList else []) ++ sc.params ++
    if r.isSome then [("self" : Text)] else []
  let captures : List (Text × Captured Value) := (closure.map Prod.snd).getD []
  let V : Text → Binding → Prop := fun n b => n ∈ own ∨ ∃ c, (n, c) ∈ captures ∧ b = c.binding
  extract_lets bindArguments
  have harguments : ∀ u, Binds (sc.params ++ if r.isSome then [("self" : Text)] else []) V
      (bindArguments u) := by
    intro u
    refine (bindParams_binds sc.params args fun n hn b => ?_).bind fun _ => ?_
    · exact .inl (by simp [own, hn])
    · cases r with
      | none => exact Binds.pure _
      | some r => exact bindReceiver_binds r fun b => .inl (by simp [own])
  have hall : Binds ((if closure.isSome then sc.selfName.toList else []) ++ captures.map Prod.fst ++
      (sc.params ++ if r.isSome then [("self" : Text)] else [])) V
      (closure.elim (bindArguments ⟨⟩) fun c => bindCaptures s sc c.1 c.2 >>= bindArguments) := by
    cases closure with
    | none => exact harguments ⟨⟩
    | some c =>
      refine (bindCaptures_binds sc c.1 c.2 (fun n hn b => ?_) fun e he => ?_).bind harguments
      · exact .inl (by simp_all [own])
      · exact .inr ⟨e.2, he, rfl⟩
  have hframes : m₃.frames = g :: m.frames := by rw [← hm₂]
  suffices hrun : Ensures
      (closure.elim (bindArguments ⟨⟩) fun c => bindCaptures s sc c.1 c.2 >>= bindArguments) m₃
      (fun _ m' => ∀ h, m'.frames = h :: m.frames →
        Frame.Entering s fn closure r.isSome m.frames h) fun _ _ => True by
    cases closure <;> exact hrun
  refine (hall m₃ g m.frames hframes).imp fun _ m' h' h hh => ?_
  obtain ⟨g', hm', hfooting, hbound, hfree⟩ := h'
  obtain rfl : g' = h := by
    rw [hm'] at hh
    exact (List.cons.inj hh).1
  have hmem : ∀ n, n ∈ (if closure.isSome then sc.selfName.toList else []) ++
      captures.map Prod.fst ++ (sc.params ++ if r.isSome then [("self" : Text)] else []) ↔
      n ∈ own ∨ n ∈ captures.map Prod.fst := by
    intro n
    simp only [own, List.mem_append]
    tauto
  have hopened : g'.Opened own captures := by
    refine ⟨?_, fun n hn => hbound n ((hmem n).2 hn), fun n h₁ h₂ => ?_⟩
    · rw [show g'.pc = g.pc from (congrArg Frame.pc hfooting :), ← hg]
      rfl
    · rw [hfree n fun h => ((hmem n).1 h).elim h₁ h₂, ← hg]
      rfl
  refine ⟨hn, ?_, ?_, ?_, ?_, sc, hat, hopened⟩
  · rw [show g'.scope = g.scope from (congrArg Frame.scope hfooting :), ← hg]
    rfl
  · rw [show g'.parent = g.parent from (congrArg Frame.parent hfooting :), ← hg]
    rfl
  · rw [show g'.handler = g.handler from (congrArg Frame.handler hfooting :), ← hg]
    rfl
  · rw [show g'.loop = g.loop from (congrArg Frame.loop hfooting :), ← hg]
    rfl

end Exec

end ScriptMachine
