import ScriptMachine.Proofs.Machine.Standing
import ScriptMachine.Proofs.Machine.Turns

set_option autoImplicit false

namespace ScriptMachine

def Frame.Entrant (p : Program) (C : Text → Declaration → Binding → Prop) (f : Frame) : Prop :=
  ∀ a n b, p.Placed a → f.scope = a.scope → a.own n = some (.entry a.scope) →
    f.bindings.lookup n = some b → C n (.entry a.scope) b

/-- The functions that a host brings are native, and make up no closures. -/
structure Setup.Closed (s : Setup) : Prop where
  native : ∀ r ∈ s.builtins, ∀ f ∈ r.functions, f.isNative = true
  inert : ∀ r ∈ s.builtins, ∀ f ∈ r.functions, f.Inert

theorem Setup.Closed.mem_functions {s : Setup} {f : Function} (hs : s.Closed) (hf : f ∈ s.functionList)
    (hn : f.isNative = false) : f ∈ s.program.modules.functions := by
  rcases Setup.mem_functionList hf with hf | ⟨r, hr, hf⟩
  · exact hf
  · rw [hs.native r hr f hf] at hn
    cases hn

namespace Standing

variable {s : Setup} {C C' : Nat → Text → Declaration → Binding → Prop} {fs rest : List Frame}
  {a : Place} {f g h : Frame} {op : Operation} {k : Nat}

theorem knows_entry {p : Program} {C : Text → Declaration → Binding → Prop} {names : List Text}
    (ha : p.Placed a) (hscope : f.scope = a.scope) (hown : a.own = .entry a.scope names)
    (hopened : f.Opened names []) (hC : f.Entrant p C) : f.Knows p C a := by
  refine .of_opened hscope hopened (fun n => ?_) fun n d b hd hb _ => ?_
  · rw [hown, Option.isSome_iff_ne_none, ne_eq, Locals.entry_none]
    simp
  · have hentry := hd
    rw [hown] at hentry
    obtain ⟨-, rfl⟩ := Locals.entry_some.1 hentry
    exact hC a n b ha hscope hd hb

theorem enterBlock (h : Standing s.program C (g :: rest) a)
    (hop : (s.program.codeOf a.scope)[k]? = some op) (hpc : g.pc = k + 1)
    (hb : EntersBlock s op (g :: rest) f) (hC : f.Entrant s.program (C (rest.length + 1))) :
    ∃ b, Standing s.program C (f :: g :: rest) b := by
  obtain ⟨hparent, hhandler, e, he, sc, hi, hsc, hopened, hloop⟩ := hb
  have hplaced := Program.Placed.inner h.placed (.block hop he hi hsc)
  exact ⟨_, .block h hop hpc he hi hsc (knows_entry hplaced rfl rfl hopened hC) hparent hhandler hloop⟩

theorem enterFunction (h : Standing s.program C fs a) (hs : s.Closed) (hl : s.program.Lexical)
    (hf : EntersFunction s fs f) (hC : f.Entrant s.program (C fs.length)) :
    ∃ b, Standing s.program C (f :: fs) b := by
  obtain ⟨fn, hfn, hn, hscope, hparent, hhandler, hloop, sc, hsc, hopened⟩ := hf
  have hmem := hs.mem_functions hfn hn
  have hplaced := Program.Placed.function hmem hn hsc
  refine ⟨_, .body h hplaced (Nat.ne_of_gt (Program.Placed.function_pos hl hmem hn)) ?_ ?_ hparent
    hhandler hloop⟩
  · exact fun n m => Environment.topLevel_some
  · exact knows_entry hplaced hscope rfl hopened hC

/-- The body of a closure: what it has captured is bound to what `C` tells of it. -/
theorem enterClosure {j : Nat} {fn : Function} {sc : Scope} {v : Value}
    {captures : List (Text × Captured Value)} (h : Standing s.program C fs a) (hl : s.program.Lexical)
    {b : Place} (hb : s.program.Placed b) (hop : (s.program.codeOf b.scope)[k]? = some op)
    (hj : j ∈ op.made) (hfn : s.program.closures[j]? = some fn)
    (hsc : s.program.scopes[fn.scope]? = some sc)
    (hnames : ∀ n, n ∈ sc.captures ↔ n ∈ captures.map Prod.fst)
    (hf : f.Entering s fn (some (v, captures)) false fs) (hC : f.Entrant s.program (C fs.length))
    (hcaptured : ∀ n d c, (n, c) ∈ captures → b.environment s.program k n = some (.declared d) →
      f.bindings.lookup n = some c.binding → C fs.length n d c.binding) :
    ∃ b, Standing s.program C (f :: fs) b := by
  obtain ⟨hn, hscope, hparent, hhandler, hloop, sc', hsc', hopened⟩ := hf
  rw [hsc] at hsc'
  cases hsc'
  have hplaced := Program.Placed.inner hb (.closure hop hj hfn hsc)
  refine ⟨_, .body h hplaced ?_ ?_ ?_ hparent hhandler hloop⟩
  · exact Nat.ne_of_gt (hb.inner_pos hl (.closure hop hj hfn hsc))
  · intro n m hm
    simp only [Place.closure, Option.filter_eq_some_iff, decide_eq_true_eq] at hm
    exact hm.2
  have hown : ∀ n, n ∈ (if (some (v, captures)).isSome then sc.selfName.toList else []) ++ sc.params ++
      (if false then [("self" : Text)] else []) ↔ n ∈ sc.ownNames := by
    intro n
    simp [Scope.ownNames, or_comm]
  obtain ⟨fn', sc', hfn', hsc', hlocal, -⟩ := ((hb.resolves hl) k op hop).closures j hj
  rw [hfn] at hfn'
  cases hfn'
  rw [hsc] at hsc'
  cases hsc'
  refine .of_opened hscope (hopened.congr hown) (fun n => ?_) fun n d b' hd hb' hcase => ?_
  · exact (Place.closure_own_isSome fun n hn => (hlocal n hn).2).trans (or_congr_right (hnames n))
  · by_cases hn : n ∈ sc.ownNames
    · obtain rfl : .entry fn.scope = d := Option.some.inj ((if_pos hn).symm.trans hd)
      exact hC _ n b' hplaced hscope (if_pos hn) hb'
    · obtain ⟨c, hc, rfl⟩ := hcase.resolve_left hn
      have hmem : n ∈ sc.captures := (hnames n).2 (List.mem_map_of_mem hc)
      obtain ⟨-, d', hE⟩ := hlocal n hmem
      have hd : (b.environment s.program k n).bind Meaning.declared? = some d :=
        ((if_neg hn).trans (if_pos hmem)).symm.trans hd
      rw [hE] at hd
      cases hd
      exact hcaptured n _ c hc hE hb'

theorem round {sc : Scope} (h : Standing s.program C (f :: rest) a)
    (hC : ∀ i < rest.length, ∀ n d b, C i n d b → C' i n d b) (hloop : f.loop.isSome = true)
    (hsc : s.program.scopes[f.scope]? = some sc) (hg : f.Stays g)
    (hopened : g.Opened (sc.params.take 2) []) (hentrant : g.Entrant s.program (C' rest.length)) :
    Standing s.program C' (g :: rest) a := by
  refine h.top hC hg.parent hg.handler hg.rounds ?_
  have hplaced := h.placed
  cases h with
  | main _ _ _ hl => simp [hl] at hloop
  | body _ _ _ _ _ _ _ hl => simp [hl] at hloop
  | block hbelow hop hpc he hi hsc' hf hparent hhandler hl =>
    have hscope := hf.scope
    rw [Place.block_scope] at hscope
    rw [hscope, hsc'] at hsc
    cases hsc
    refine knows_entry hplaced (hg.scope.trans hscope) rfl ?_ hentrant
    rw [hl hloop]
    exact hopened

/-- The block that handles an error, in the place of the frame that it is tried in. -/
theorem catching {i : Nat} {name : Option Text} {sc : Scope} {error : Fault}
    (h : Standing s.program C (f :: rest) a)
    (hC : ∀ i < rest.length, ∀ n d b, C i n d b → C' i n d b) (hf : f.handler = some ⟨some i, name⟩) (hg : f.Stays g)
    (hsc : s.program.scopes[i]? = some sc)
    (hentrant : (g.catching sc i name error).Entrant s.program (C' rest.length)) :
    ∃ b, Standing s.program C' (g.catching sc i name error :: rest) b := by
  cases h with
  | main _ _ hh => simp [hh] at hf
  | body _ _ _ _ _ _ hh => simp [hh] at hf
  | block hbelow hop hpc he hi hsc' _ hparent hhandler hl =>
    have hentry := hhandler _ hf
    refine ⟨_, .block (hbelow.imp hC) hop hpc hentry rfl hsc ?_ (hg.parent.trans hparent) nofun nofun⟩
    refine knows_entry (.inner hbelow.placed (.block hop hentry rfl hsc)) rfl rfl ?_ hentrant
    cases name with
    | none => exact ⟨rfl, by simp, fun _ _ _ => rfl⟩
    | some name =>
      refine ⟨rfl, fun n hn => ?_, fun n hn _ => ?_⟩
      · obtain rfl : n = name := by simpa using hn
        exact ⟨.fixed (.error error), List.lookup_cons_self, .inl (by simp)⟩
      · have hne : n ≠ name := by simpa using hn
        exact (List.lookup_cons).trans (by rw [beq_false_of_ne hne]; rfl)

end Standing

/-- An operation of the frame itself has been carried out. -/
theorem Frame.Knows.operation {p : Program} {C C' : Text → Declaration → Binding → Prop} {a : Place}
    {f g : Frame} {op : Operation} (hf : f.Knows p C a) (hop : (p.codeOf a.scope)[f.pc]? = some op)
    (hg : g.footing = Frame.footing { f with pc := f.pc + 1 })
    (hbound : ∀ n, op.declares? = some n → ∃ b, g.bindings.lookup n = some b)
    (hfree : ∀ n, op.declares? ≠ some n → g.bindings.lookup n = f.bindings.lookup n)
    (hkept : ∀ n d b, op.declares? ≠ some n → C n d b → C' n d b)
    (hnew : ∀ n b, op.declares? = some n → g.bindings.lookup n = some b →
      C' n (.operation a.scope f.pc) b) : g.Knows p C' a := by
  have hpc : g.pc = f.pc + 1 := (congrArg Frame.pc hg :)
  have hdeclared : declaredAt (p.codeOf a.scope) f.pc = op.declares? := by
    rw [declaredAt, hop]
    rfl
  refine ⟨(congrArg Frame.scope hg :).trans hf.scope, fun n d hd => ?_, fun n hn => ?_⟩
  · rw [hpc, Place.locals_succ, hdeclared] at hd
    split at hd
    · obtain rfl := Option.some.inj hd
      obtain ⟨b, hb⟩ := hbound n ‹_›
      exact ⟨b, hb, hnew n b ‹_› hb⟩
    · obtain ⟨b, hb, hC⟩ := hf.bound n d hd
      exact ⟨b, (hfree n ‹_›).trans hb, hkept n d b ‹_› hC⟩
  · rw [hpc, Place.locals_succ, hdeclared] at hn
    split at hn
    · cases hn
    · exact (hfree n ‹_›).trans (hf.free n hn)

section
variable {above fs rest : List Frame} {f : Frame} {i : Nat}

theorem frameAt_append (h : i < fs.length) : frameAt (above ++ fs) i = frameAt fs i := by
  unfold frameAt
  rw [List.reverse_append, List.getElem?_append_left (by simpa using h)]

theorem frameAt_top : frameAt (f :: rest) rest.length = some f := by
  simp [frameAt]

theorem frameAt_mem (h : i < fs.length) : ∃ f ∈ fs, frameAt fs i = some f := by
  have hlength : i < fs.reverse.length := by simpa using h
  exact ⟨_, List.mem_reverse.1 (List.getElem_mem hlength), List.getElem?_eq_getElem hlength⟩

end

namespace Moment

variable {s : Setup} {t u : Moment} {m : Machine} {above fs rest : List Frame} {f g : Frame} {i : Nat}
  {n : Text} {d : Declaration} {b : Binding}

theorem Before.later (h : u.Before s t) (ha : t.machine.advance s = .running m) :
    u.Before s (t.later m) := h.imp_right fun h => ⟨h.1, .next h.2 ha⟩

theorem entrant (hf : t.machine.frames = f :: rest) (hpc : f.pc = 0) :
    f.Entrant s.program (Created s t rest.length) :=
  fun _ _ _ ha hscope hn hb => .entry hf hpc ha hscope hn hb

/-- Every frame stands at a place, with the variables that the place knows; those that wait have left
their beginning. -/
structure Stands (s : Setup) (t : Moment) : Prop where
  standing : ∃ a, Standing s.program (Created s t) t.machine.frames a
  moved : ∀ f ∈ t.machine.frames.tail, f.pc ≠ 0

/-- The closure has been made at the moment, and has captured what was bound to the names then. -/
structure Fashions (s : Setup) (u : Moment) (c : Closure) : Prop where
  reached : u.Reached s
  makes : u.machine.Makes s c
  body : ∃ a k op f sc, s.program.Placed a ∧ (s.program.codeOf a.scope)[k]? = some op ∧
    c.1.function ∈ op.made ∧ s.program.closures[c.1.function]? = some f ∧
    s.program.scopes[f.scope]? = some sc ∧ (∀ n, n ∈ sc.captures ↔ n ∈ c.2.map Prod.fst) ∧
    ∀ n cap d, (n, cap) ∈ c.2 → a.environment s.program k n = some (.declared d) →
      ∃ i b, u.machine.locates n = some (i, b) ∧ Created s u i n d b ∧ b.CapturedAs u.machine.arena cap

def Genuine (s : Setup) (P : Moment → Prop) (c : Closure) : Prop :=
  c.1.program = s.program.id → ∃ u, P u ∧ u.Fashions s c

theorem Fashions.entered {fn : Function} {v : Value} {id : Nat} {c : Closure} {a : Place}
    (hl : s.program.Lexical) (hu : u.Fashions s c)
    (hbefore : u.Before s t) (hv : v = .object (.closure id c.1 c.2))
    (hfn : s.program.closures[c.1.function]? = some fn)
    (hg : g.Entering s fn (some (v, c.2)) false fs) (hm : t.machine.frames = g :: fs)
    (hopens : t.Opens s v) (h : Standing s.program (Created s t) fs a) :
    ∃ b, Standing s.program (Created s t) (g :: fs) b := by
  obtain ⟨b, k, op, fn', sc, hb, hop, hmade, hfn', hsc, hnames, hcaps⟩ := hu.body
  rw [hfn] at hfn'
  cases hfn'
  obtain ⟨sc', -, hopened⟩ := hg.body
  refine h.enterClosure hl hb hop hmade hfn hsc hnames hg (entrant hm hopened.pc) ?_
  intro n d cap hcap hE hbound
  obtain ⟨i, b₀, hlocates, hcreated, has⟩ := hcaps n cap d hcap hE
  exact .captured hm (hv ▸ hopens) hcap hbound hu.reached hbefore hu.makes hlocates hcreated has

theorem lower (ha : t.machine.advance s = .running m) (hm : m.frames = above ++ fs)
    (hmoved : ∀ f ∈ fs, f.pc ≠ 0) (hlength : fs.length < t.machine.frames.length) :
    ∀ i < fs.length, ∀ n d b, Created s t i n d b → Created s (t.later m) i n d b := by
  intro i hi n d b hC
  obtain ⟨g, hg, hat⟩ := frameAt_mem hi
  refine .kept hC ha (g := g) ?_ (hmoved g hg) fun f rest hf hlow => ?_
  · rw [hm, frameAt_append hi, hat]
  · rw [hf, List.length_cons] at hlength
    omega

/-- The top frame has carried out an operation of its own, or waits for one that has entered a frame. -/
theorem operated {op : Operation} {a : Place} (h : Standing s.program (Created s t) (f :: rest) a)
    (hf : t.machine.frames = f :: rest) (ha : t.machine.advance s = .running m)
    (hm : m.frames = above ++ g :: rest) (hmoved : ∀ f ∈ rest, f.pc ≠ 0)
    (hop : (s.program.codeOf f.scope)[f.pc]? = some op)
    (hg : g.footing = Frame.footing { f with pc := f.pc + 1 })
    (hnew : ∀ n, op.declares? = some n → ∃ b, g.bindings.lookup n = some b ∧
      Created s (t.later m) rest.length n (.operation f.scope f.pc) b)
    (hfree : ∀ n, op.declares? ≠ some n → g.bindings.lookup n = f.bindings.lookup n) :
    Standing s.program (Created s (t.later m)) (g :: rest) a := by
  have hpc : g.pc = f.pc + 1 := (congrArg Frame.pc hg :)
  have hscope : f.scope = a.scope := h.knows.scope
  have hat : frameAt m.frames rest.length = some g := by
    rw [hm, frameAt_append (by simp), frameAt_top]
  have hm' : m.frames = (above ++ [g]) ++ rest := by rw [hm, List.append_assoc, List.singleton_append]
  refine h.top (lower ha hm' hmoved (by simp [hf])) (congrArg Frame.parent hg :)
    (congrArg Frame.handler hg :) (congrArg (fun f => f.loop.isSome) hg :) ?_
  refine h.knows.operation (hscope ▸ hop) hg (fun n hn => ?_) hfree (fun n d b hn hC => ?_)
    fun n b hn hb => ?_
  · obtain ⟨b, hb, -⟩ := hnew n hn
    exact ⟨b, hb⟩
  · refine .kept hC ha hat (by simp [hpc]) fun f' rest' hf' _ => ?_
    rw [hf] at hf'
    cases hf'
    rwa [declaredAt, hop]
  · obtain ⟨b', hb', hC⟩ := hnew n hn
    rw [hb] at hb'
    cases hb'
    rwa [← hscope]

theorem receive_moved (out : Register) (v : Value) (h : ∀ f ∈ fs, f.pc ≠ 0) :
    ∀ f ∈ fs.modifyHead (Frame.receive out v), f.pc ≠ 0 := by
  cases fs with
  | nil => exact h
  | cons f rest => exact List.forall_mem_cons.2 (List.forall_mem_cons.1 h)

theorem mem_below {popped : List Frame} (hg : g ∈ rest) : g ∈ (popped ++ f :: rest).tail := by
  cases popped with
  | nil => exact hg
  | cons k popped => exact List.mem_append_right _ (List.mem_cons_of_mem _ hg)

theorem Stands.uncovered {popped : List Frame} {out : Register} {v : Value} {a : Place}
    (hf : t.machine.frames = popped ++ f :: rest) (ha : t.machine.advance s = .running m)
    (hm : m.frames = rest.modifyHead (Frame.receive out v))
    (hstanding : Standing s.program (Created s t) (popped ++ f :: rest) a)
    (hmoved : ∀ g ∈ (popped ++ f :: rest).tail, g.pc ≠ 0) :
    (∃ b, Standing s.program (Created s (t.later m)) (rest.modifyHead (Frame.receive out v)) b) ∧
      ∀ f ∈ (rest.modifyHead (Frame.receive out v)).tail, f.pc ≠ 0 := by
  have hrest := receive_moved out v fun g hg => hmoved g (mem_below hg)
  have hlower : ∀ i < rest.length, ∀ n d b, Created s t i n d b → Created s (t.later m) i n d b := by
    rw [← List.length_modifyHead (f := Frame.receive out v)]
    exact lower ha (show m.frames = [] ++ _ from hm) hrest (by simp [hf]; omega)
  obtain ⟨b, hb⟩ := (List.append_cons popped f rest ▸ hstanding).suffix
  exact ⟨⟨b, (hb.imp hlower).receive out v⟩, fun f hf => hrest f (List.mem_of_mem_tail hf)⟩

theorem Stands.caught {popped : List Frame} {h : Handler} {error : Fault} (ht : t.Stands s)
    (hf : t.machine.frames = popped ++ f :: rest) (ha : t.machine.advance s = .running m)
    (hg : f.Stays g) (hh : g.handler = some h) (hc : Caught s g error h rest m.frames) :
    (t.later m).Stands s := by
  obtain ⟨⟨a, hstanding⟩, hmoved⟩ := ht
  suffices hgoal : (∃ b, Standing s.program (Created s (t.later m)) m.frames b) ∧
      ∀ f ∈ m.frames.tail, f.pc ≠ 0 from ⟨hgoal.1, hgoal.2⟩
  rw [hf] at hstanding hmoved
  generalize hm : m.frames = fs at hc
  cases hc with
  | @value name k below hout => exact Stands.uncovered (v := .error error) hf ha hm hstanding hmoved
  | @block i name sc _ hscope =>
    obtain ⟨_, hi, hsc⟩ := Program.scope_eq_ok.1 hscope
    cases hi
    have hrest : ∀ k ∈ rest, k.pc ≠ 0 := fun k hk => hmoved k (mem_below hk)
    have hlower := lower ha (show m.frames = [g.catching sc i name error] ++ rest from hm) hrest (by simp [hf]; omega)
    obtain ⟨b, hb⟩ := hstanding.suffix
    exact ⟨hb.catching hlower (hg.handler ▸ hh) hg hsc (entrant (t := t.later m) hm rfl), hrest⟩

/-- A step that succeeds. -/
theorem Stands.turned (hl : s.program.Lexical) (hs : s.Closed) (ht : t.Stands s)
    (hcarries : t.machine.Carries (Genuine s fun u => u.Before s t))
    (ha : t.machine.advance s = .running m) (h : Turned s t.machine.frames m.frames) :
    (t.later m).Stands s := by
  obtain ⟨⟨a, hstanding⟩, hmoved⟩ := ht
  suffices hgoal : (∃ b, Standing s.program (Created s (t.later m)) m.frames b) ∧
      ∀ f ∈ m.frames.tail, f.pc ≠ 0 from ⟨hgoal.1, hgoal.2⟩
  generalize hf : t.machine.frames = fs at h hstanding hmoved
  generalize hm : m.frames = fs' at h
  cases h with
  | @within f g rest op hop hg hbound hfree =>
    refine ⟨⟨a, operated hstanding hf ha (show m.frames = [] ++ _ from hm) hmoved hop hg (fun n hn => ?_) hfree⟩, hmoved⟩
    obtain ⟨b, hb⟩ := hbound n hn
    exact ⟨b, hb, .operation hf hop hn ha hm hb⟩
  | @entered f h rest op hop hdeclares hh =>
    have hwaits : Standing s.program (Created s (t.later m)) ({ f with pc := f.pc + 1 } :: rest) a :=
      operated hstanding hf ha (show m.frames = [h] ++ _ from hm) hmoved hop rfl (by simp [hdeclares]) fun _ _ => rfl
    refine ⟨?_, List.forall_mem_cons.2 ⟨Nat.succ_ne_zero _, hmoved⟩⟩
    cases hh with
    | block hb =>
      obtain ⟨_, _, _, _, _, hopened, _⟩ := hb.body
      have hop : (s.program.codeOf a.scope)[f.pc]? = some op := hstanding.knows.scope ▸ hop
      exact hwaits.enterBlock hop rfl hb (entrant (t := t.later m) hm hopened.pc)
    | function hb =>
      obtain ⟨_, _, hentering⟩ := id hb
      obtain ⟨_, _, hopened⟩ := hentering.body
      exact hwaits.enterFunction hs hl hb (entrant (t := t.later m) hm hopened.pc)
    | closure hr hv hb =>
      obtain ⟨id, c, fn, rfl, hprogram, hfn, hentering⟩ := hb
      have hheld : (Value.object (.closure id c.1 c.2)).Holds (Genuine s fun u => u.Before s t) :=
        (hcarries.frames f (by simp [hf])).registers _ (Array.mem_of_getElem? hv)
      obtain ⟨u, hbefore, hu⟩ := (Value.holds_closure.1 hheld).1 hprogram
      exact hu.entered hl (hbefore.later ha) rfl hfn hentering hm (.operation hf hop hr hv ha hm) hwaits
  | returned _ h =>
    cases h with
    | @round f g rest sc hloop hsc hg hopened =>
      have hrest := lower ha (show m.frames = [g] ++ _ from hm) hmoved (by simp [hf])
      exact ⟨⟨a, hstanding.round hrest hloop hsc hg hopened (entrant (t := t.later m) hm hopened.pc)⟩, hmoved⟩
    | left popped f rest out v => exact Stands.uncovered hf ha hm hstanding hmoved

theorem Stands.advance (hp : s.program.WellFormed) (hl : s.program.Lexical) (hs : s.Closed)
    (ht : t.Stands s) (hcarries : t.machine.Carries (Genuine s fun u => u.Before s t))
    (hm : t.machine.Sound s .nothing 0 []) (hfit : Fitted s t.machine.frames)
    (ha : t.machine.advance s = .running m) : (t.later m).Stands s := by
  have hne : t.machine.frames ≠ [] := by
    intro h
    simp [Machine.advance, h] at ha
  obtain ⟨f, rest, hf⟩ := List.exists_cons_of_ne_nil hne
  rcases Machine.running_cases hp hm hfit ha with hok | ⟨m₁, _, below, g, h, e, hfailed, hf₁, hh, hc⟩
  · exact ht.turned hl hs hcarries ha ((Exec.step_turns hp hf hfit).of_ok hok)
  · obtain ⟨popped, k, hsplit, hg⟩ := hfailed.origin hf₁ hh
    exact ht.caught hsplit ha hg hh hc

/-- The closure that a step makes has captured what the names were bound to. -/
theorem Stands.fashions {c : Closure} {P : Closure → Prop} (hp : s.program.WellFormed)
    (hl : s.program.Lexical) (ht : t.Stands s) (hcarries : t.machine.Carries P) (hreached : t.Reached s)
    (hfit : Fitted s t.machine.frames) (hc : t.machine.Makes s c) : t.Fashions s c := by
  refine ⟨hreached, hc, ?_⟩
  obtain ⟨f, rest, j, out, g, m, id, hf, hop, hok, hm, hg⟩ := hc
  obtain ⟨a, hstanding⟩ := ht.standing
  rw [hf] at hstanding hfit
  obtain ⟨sc, hscope, -⟩ := hfit.1.housed
  have hoperation := hop
  rw [Program.codeOf_eq_map hscope] at hoperation
  obtain ⟨i, hi, hj⟩ := Option.map_eq_some_iff.1 hoperation
  have hmem : i.operation ∈ sc.operations :=
    List.mem_map_of_mem (Array.mem_toList_iff.2 (Array.mem_of_getElem? hi))
  rw [hj] at hmem
  have hanswers : Answers out (f :: rest) := (Exec.call_allowed hp hscope hmem hfit.1.housed rfl).1
  rw [Exec.step_run hf hscope hi, hj] at hok
  obtain ⟨id', c', ⟨-, hfunction, fn, body, hfn, hbody, htaken⟩, hm', -⟩ :=
    (Exec.makeClosure_ensures j (hcarries.taken hf i) rfl hanswers).of_ok hok
  obtain ⟨rfl, -⟩ := List.cons.inj (hm.symm.trans hm')
  obtain rfl : c = c' := by
    have hsame := hg.symm.trans (Array.getElem?_setIfInBounds_self_of_lt hanswers.2)
    simp only [Option.some.injEq, Value.object.injEq, ObjectOf.closure.injEq] at hsame
    exact Prod.ext hsame.2.1 hsame.2.2
  -- the names that the body needs are local where the closure is made
  obtain ⟨k, hk, hbody⟩ := Program.scope_eq_ok.1 hbody
  cases hk
  have hscope : f.scope = a.scope := hstanding.knows.scope
  obtain ⟨fn', body', hfn', hbody', hlocal, -⟩ :=
    ((hstanding.placed.resolves hl) f.pc _ (hscope ▸ hop)).closures j List.mem_cons_self
  rw [hfn] at hfn'
  cases hfn'
  rw [hbody] at hbody'
  cases hbody'
  have hsame : ∀ n, (t.machine.taken f rest i).finds n = (t.machine.locates n).map Prod.snd := fun n =>
    (Machine.finds_taken hf i n).trans (Machine.finds_eq _ n)
  have hfinds : ∀ n d, a.environment s.program f.pc n = some (.declared d) →
      ∃ height b, t.machine.locates n = some (height, b) ∧ Created s t height n d b := by
    intro n d hd
    rw [Machine.locates, hf]
    exact (hstanding.finds hl).1 d hd
  refine ⟨a, f.pc, _, fn, body, hstanding.placed, hscope ▸ hop, ?_, ?_, hbody, fun n => ⟨fun hn => ?_, ?_⟩, ?_⟩
  · rw [hfunction]
    exact List.mem_cons_self
  · rw [hfunction]
    exact hfn
  · obtain ⟨-, d, hd⟩ := hlocal n hn
    obtain ⟨height, b, hb, -⟩ := hfinds n d hd
    obtain ⟨cap, hcap⟩ := htaken.all n hn (by rw [hsame, hb]; rfl)
    exact List.mem_map_of_mem hcap
  · intro hn
    obtain ⟨e, he, rfl⟩ := List.mem_map.1 hn
    exact (htaken.found e he).1
  · intro n cap d hcap hd
    obtain ⟨height, b, hb, hcreated⟩ := hfinds n d hd
    obtain ⟨-, b', hb', has⟩ := htaken.found _ hcap
    rw [hsame, hb] at hb'
    cases hb'
    exact ⟨height, b, hb, hcreated, has⟩

end Moment

end ScriptMachine
