import ScriptMachine.Proofs.Machine.Nesting

set_option autoImplicit false

/-!
# Returning from inside blocks

A `return` leaves all blocks that it is in, whatever they are: their handlers do not run, their rounds
do not go on, and what has been collected in them is gone. The function around them is left with the
value if its type lets it through; otherwise the error arises in the function itself. Main statement: so
it is for every `return` of every run of a program that has been compiled.
-/
namespace ScriptMachine

variable {s : Setup} {m m' : Machine} {f g : Frame} {blocks below rest : List Frame} {v : Value}

theorem Nested.split {fs : List Frame} (h : Nested s fs) (hne : fs ≠ []) :
    ∃ blocks g below, fs = blocks ++ g :: below ∧ (blocks ++ [g]).IsChain (Frame.Inside s) ∧
      g.Leads below := by
  induction h with
  | nil => exact absurd rfl hne
  | @leads f below hf _ _ => exact ⟨[], f, below, rfl, .singleton f, hf⟩
  | @inside f k rest hf _ ih =>
    obtain ⟨blocks, g, below, hsplit, hchain, hg⟩ := ih (List.cons_ne_nil _ _)
    refine ⟨f :: blocks, g, below, by rw [hsplit]; rfl, ?_, hg⟩
    cases blocks with
    | nil =>
      cases hsplit
      exact .cons_cons hf hchain
    | cons l blocks =>
      cases hsplit
      exact .cons_cons hf hchain

theorem Program.WellFormed.hasKind_of_mem_blocks {p : Program} (hp : p.WellFormed) {i j k : Nat}
    {op : Operation} (hop : (p.codeOf i)[k]? = some op) (hj : j ∈ op.blocks) : p.HasKind .block j := by
  have hmem : op ∈ p.operations := by
    cases hsc : p.scopes[i]? with
    | none => simp [Program.codeOf, hsc] at hop
    | some sc =>
      rw [Program.codeOf_eq hsc] at hop
      exact Program.mem_operations.2
        ⟨sc, Array.mem_toList_iff.2 (Array.mem_of_getElem? hsc), List.mem_of_getElem? hop⟩
  have hadmits := hp.admits op hmem
  obtain ⟨t, ht, rfl⟩ := List.mem_filterMap.1 hj
  rcases List.mem_append.1 ht with ht | ht
  · obtain ⟨i, hi, hkind⟩ := hadmits.entered _ ht
    cases hi
    exact hkind
  · exact hadmits.spare _ ht

theorem Frame.Inside.isInnerBlock (hp : s.program.WellFormed) (h : f.Inside s g) :
    Exec.isInnerBlock s f = true := by
  obtain ⟨k, op, hop, -, hscope, -⟩ := h.entered
  obtain ⟨sc, hsc, hkind⟩ := Option.map_eq_some_iff.1 (hp.hasKind_of_mem_blocks hop hscope)
  have hfound : s.program.scope (some f.scope) = .ok sc := Program.scope_eq_ok.2 ⟨_, rfl, hsc⟩
  simp [Exec.isInnerBlock, h.function, hfound, hkind]

theorem Frame.Leads.below_of_isInnerBlock (h : g.Leads below) (hg : Exec.isInnerBlock s g = true) :
    below = [] := by
  rcases h with h | h
  · obtain ⟨fn, hfn, -⟩ := h.body
    simp [Exec.isInnerBlock, hfn] at hg
  · exact h.2

theorem Frame.isInnerBlock_of_chain (hp : s.program.WellFormed)
    (h : (blocks ++ [g]).IsChain (Frame.Inside s)) : ∀ b ∈ blocks, Exec.isInnerBlock s b = true := by
  induction blocks with
  | nil => exact List.forall_mem_nil _
  | cons b blocks ih =>
    have hfirst : Exec.isInnerBlock s b = true ∧ (blocks ++ [g]).IsChain (Frame.Inside s) := by
      cases blocks <;> exact (List.isChain_cons_cons.1 h).imp_left fun hb => hb.isInnerBlock hp
    exact List.forall_mem_cons.2 ⟨hfirst.1, ih hfirst.2⟩

theorem Frame.Housed.holds {sc : Scope} {op : Operation} {k : Nat} {r : Register}
    (hp : s.program.WellFormed) (hf : f.Housed s) (hscope : s.program.scope (some f.scope) = .ok sc)
    (hop : sc.operations[k]? = some op) (hr : r ∈ op.reads) : ∃ v, f.registers[r]? = some v := by
  obtain ⟨sc', hscope', hsize⟩ := hf
  rw [hscope] at hscope'
  cases hscope'
  obtain ⟨i, -, hsc⟩ := Program.scope_eq_ok.1 hscope
  have hmem : sc ∈ s.program.scopes := Array.mem_of_getElem? hsc
  suffices hlt : r < f.registers.size from ⟨f.registers[r], Array.getElem?_eq_getElem hlt⟩
  have hscratch : firstScratch ≤ sc.fileSize := Nat.le_max_right _ _
  rw [hsize]
  rcases hp.reads sc hmem k op hop r hr with rfl | rfl | ⟨j, earlier, -, hearlier, hout⟩
  · exact Nat.lt_of_lt_of_le (by decide) hscratch
  · exact Nat.lt_of_lt_of_le (by decide) hscratch
  · have hallotted := (hp.writes sc hmem earlier (List.mem_of_getElem? hearlier) r hout).2
    exact Nat.lt_of_lt_of_le hallotted (Nat.le_max_left _ _)

namespace Exec

theorem unwindBlocks_eq (hblocks : ∀ b ∈ blocks, isInnerBlock s b = true)
    (hg : isInnerBlock s g = true → below = []) :
    unwindBlocks s (blocks ++ g :: below) m = (Machine.popFrame s)^[blocks.length] m := by
  induction blocks generalizing m with
  | nil =>
    cases below with
    | nil => rfl
    | cons k below =>
      have hnot : ¬isInnerBlock s g = true := fun h => List.cons_ne_nil _ _ (hg h)
      rw [List.nil_append, unwindBlocks, if_neg hnot]
      rfl
  | cons b blocks ih =>
    obtain ⟨hb, hblocks⟩ := List.forall_mem_cons.1 hblocks
    have hpass : unwindBlocks s (b :: (blocks ++ g :: below)) m =
        unwindBlocks s (blocks ++ g :: below) (m.popFrame s) := by
      cases blocks <;> exact if_pos hb
    rw [List.cons_append, hpass, ih hblocks]
    rfl

theorem deliver_below {out : Register} (hf : m.frames = rest) (hout : Answers out rest) :
    deliver s v out m = .ok ⟨⟩ { m with
      frames := rest.modifyHead (Frame.receive out v)
      entryResult := if rest.isEmpty then v else m.entryResult } := by
  cases rest with
  | nil =>
    have hget : (get : Exec Machine) m = .ok m m := rfl
    unfold deliver
    rw [run_bind hget, hf]
    obtain ⟨frames⟩ := m
    cases hf
    rfl
  | cons k below => exact deliver_run v hf (hf ▸ hout)

theorem popFrame_deliver {out : Register} (hf : m.frames = g :: rest) (hout : Answers out rest) :
    (popFrame s >>= fun _ => deliver s v out) m = .ok ⟨⟩ { m with
      frames := rest.modifyHead (Frame.receive out v)
      arena := (m.popFrame s).arena
      entryResult := if rest.isEmpty then v else m.entryResult } := by
  have hpop : popFrame s m = .ok ⟨⟩ (m.popFrame s) := rfl
  have hframes : (m.popFrame s).frames = rest := by rw [Machine.popFrame_frames, hf, List.tail_cons]
  rw [run_bind hpop, deliver_below hframes hout, Machine.popFrame_eq hf]

/-- A result that the function lets through is handed on. -/
theorem complete_run (hf : m.frames = g :: rest) (hout : Answers g.out rest)
    (hcheck : ∀ fn, g.function = some fn → fn.checkResult v = .ok ⟨⟩) :
    ∃ memo, complete s g v m = .ok ⟨⟩ { m with
      frames := rest.modifyHead (Frame.receive g.out v)
      arena := (m.popFrame s).arena
      memo
      entryResult := if rest.isEmpty then v else m.entryResult } := by
  unfold complete
  cases hfn : g.function with
  | none => exact ⟨m.memo, popFrame_deliver hf hout⟩
  | some fn =>
    have hlift : lift (fn.checkResult v) m = .ok ⟨⟩ m := by
      rw [hcheck fn hfn]
      rfl
    obtain ⟨memo, hremember⟩ : ∃ memo, remember g.memoKey v m = .ok ⟨⟩ { m with memo } := by
      cases hkey : g.memoKey with
      | none => exact ⟨m.memo, rfl⟩
      | some key => exact ⟨_, rfl⟩
    refine ⟨memo, ?_⟩
    dsimp only
    rw [run_bind hlift, run_bind hremember]
    refine (popFrame_deliver (m := { m with memo }) hf hout).trans ?_
    rw [Machine.popFrame_eq hf, Machine.popFrame_eq (m := { m with memo }) hf]

theorem complete_refused {fn : Function} {e : Fault} (hfn : g.function = some fn)
    (hcheck : fn.checkResult v = .error e) : complete s g v m = .error (.script e) m := by
  unfold complete
  rw [hfn]
  dsimp only
  rw [hcheck]
  rfl

theorem returnFrom_plain (hf : m.frames = g :: rest) (hloop : g.loop = none) :
    returnFrom s v m = complete s g v m := by
  unfold returnFrom
  rw [run_bind (top_run hf), hloop]

end Exec

/-- What a `return` of a value makes of a machine whose stack, once the `return` has been taken, is that
of some blocks, of the frame `g` that they are in, and of the frames below it. -/
structure Machine.ReturnsFrom (s : Setup) (m : Machine) (v : Value) (blocks : List Frame) (g : Frame)
    (below : List Frame) : Prop where
  /-- The value is the result of the frame, and nothing else of the frames below has changed. -/
  handed : (∀ fn, g.function = some fn → fn.checkResult v = .ok ⟨⟩) →
    ∃ m', m.advance s = .running m' ∧ m'.frames = below.modifyHead (Frame.receive g.out v) ∧
      m'.entryResult = (if below.isEmpty then v else m.entryResult) ∧
      Arena.Cleared s.options.keepCells (blocks ++ [g]) m.arena m'.arena ∧
      m' = { m with
        frames := m'.frames, arena := m'.arena, memo := m'.memo, entryResult := m'.entryResult
        location := m'.location }
  /-- A value that is not of the type of the results is an error of the frame, in no block any more. -/
  refused : ∀ fn e, g.function = some fn → fn.checkResult v = .error e →
    ∃ m', m.Raises s (e.locatedAt m'.location) m' ∧ m'.frames = g :: below ∧
      Arena.Cleared s.options.keepCells blocks m.arena m'.arena ∧
      m' = { m with frames := m'.frames, arena := m'.arena, location := m'.location }

theorem Machine.Sound.taken (hm : m.Sound s .nothing 0 [])
    (hf : m.frames = f :: rest) (i : Instruction) : (m.taken f rest i).Sound s .nothing 0 [] := by
  have hw := hm.within_top hf
  have hnext : ({ f with pc := f.pc + 1 } : Frame).Within (m.Knows .nothing) m.runId :=
    ⟨hw.registers, hw.bindings, hw.loop⟩
  have htop := hm.withTop hf (by rfl) hnext
  exact ⟨htop.custody, htop.known.dated, htop.known.frames, htop.known.cells, htop.known.memo,
    htop.known.halted, htop.known.result, htop.known.host⟩

theorem Machine.advance_ok (hne : m.frames ≠ []) (hh : m.halted = none)
    (hstep : Exec.step s m = .ok ⟨⟩ m') : m.advance s = .running m' := by
  simp [advance, hne, hh, hstep]

theorem Frame.Leads.loop (h : g.Leads below) (hfit : g.Fits s below) : g.loop = none := by
  by_contra hloop
  obtain ⟨hblock, hbelow⟩ := hfit.rounds (Option.isSome_iff_ne_none.2 hloop)
  exact hbelow (h.below_of_isInnerBlock hblock)

theorem Exec.step_leave {sc : Scope} {i : Instruction} {r : Register} (hf : m.frames = f :: rest)
    (hscope : s.program.scope (some f.scope) = .ok sc) (hi : sc.code[f.pc]? = some i)
    (hop : i.operation = .leave r) (hv : f.registers[r]? = some v) :
    step s m = returnFrom s v
      (unwindBlocks s ({ f with pc := f.pc + 1 } :: rest) (m.taken f rest i)) := by
  have hread : readRegister s f r (m.taken f rest i) = .ok v (m.taken f rest i) := by
    unfold readRegister
    rw [hv]
    rfl
  rw [step_run hf hscope hi, hop]
  exact run_bind hread

theorem Machine.Sound.returnsFrom {sc : Scope} {i : Instruction} {r : Register}
    (hp : s.program.WellFormed) (hm : m.Sound s .nothing 0 []) (hfit : Fitted s m.frames)
    (hh : m.halted = none) (hf : m.frames = f :: rest)
    (hscope : s.program.scope (some f.scope) = .ok sc) (hi : sc.code[f.pc]? = some i)
    (hop : i.operation = .leave r) (hv : f.registers[r]? = some v)
    (hsplit : { f with pc := f.pc + 1 } :: rest = blocks ++ g :: below)
    (hchain : (blocks ++ [g]).IsChain (Frame.Inside s)) (hleads : g.Leads below) :
    m.ReturnsFrom s v blocks g below := by
  have hstep := Exec.step_leave hf hscope hi hop hv
  have hsound := hm.taken hf i
  have hframes : (m.taken f rest i).frames = blocks ++ g :: below := hsplit
  have htaken : f.Stays { f with pc := f.pc + 1 } := ⟨rfl, rfl, rfl, rfl, rfl, rfl, rfl⟩
  have hgfit : g.Fits s below := by
    have hstays := (hf ▸ hfit : Fitted s (f :: rest)).stays htaken
    rw [hsplit] at hstays
    exact hstays.suffix.1
  obtain ⟨hpops, hcleared⟩ := Machine.pops_clear blocks hsound hframes
  have hsound₁ := (Exec.unwindBlocks_sound hsound (blocks ++ g :: below)).2
  rw [hsplit, Exec.unwindBlocks_eq (Frame.isInnerBlock_of_chain hp hchain)
    hleads.below_of_isInnerBlock] at hstep
  rw [Exec.unwindBlocks_eq (Frame.isInnerBlock_of_chain hp hchain)
    hleads.below_of_isInnerBlock] at hsound₁
  generalize (Machine.popFrame s)^[blocks.length] (m.taken f rest i) = m₁ at hpops hcleared hsound₁ hstep
  have hf₁ : m₁.frames = g :: below := by rw [hpops]
  rw [Exec.returnFrom_plain hf₁ (hleads.loop hgfit)] at hstep
  have hne : m.frames ≠ [] := by simp [hf]
  refine ⟨fun hcheck => ?_, fun fn e hfn hcheck => ?_⟩
  · obtain ⟨memo, hrun⟩ := Exec.complete_run (s := s) hf₁ hgfit.answers hcheck
    rw [hrun] at hstep
    refine ⟨_, advance_ok hne hh hstep, rfl, ?_, hcleared.trans ?_, ?_⟩
    · rw [hpops]
      rfl
    · rw [Machine.popFrame_eq hf₁]
      exact Custody.cleared (hsound₁.custody_cons hf₁).lent
    · rw [hpops]
      rfl
  · rw [Exec.complete_refused hfn hcheck] at hstep
    exact ⟨m₁, ⟨hne, hh, _, hstep, rfl⟩, hf₁, hcleared, by rw [hpops]; rfl⟩

/-- In every run of a program that has been compiled, every `return` leaves the blocks that it is in and
the function around them, and nothing else. -/
theorem compiled_return_leaves {builtins : Option Registry} {id : Nat} {source : Text} {s : Setup}
    (host : Host) (visits : List Visit) (visit : Visit) {m : Machine} {f : Frame} {rest : List Frame}
    {r : Register} (hc : compileSource builtins id source = .ok s.program)
    (hr : visit.Reaches s ((Machine.initial host).visited s visits) m) (hh : m.halted = none)
    (hf : m.frames = f :: rest) (hop : (s.program.codeOf f.scope)[f.pc]? = some (.leave r)) :
    ∃ v blocks g below, f.registers[r]? = some v ∧
      { f with pc := f.pc + 1 } :: rest = blocks ++ g :: below ∧
      (blocks ++ [g]).IsChain (Frame.Inside s) ∧ g.Leads below ∧
      m.ReturnsFrom s v blocks g below := by
  have hp : s.program.WellFormed := by
    obtain ⟨tokens, htokens⟩ := compileSource_tokens hc
    exact compileTokens_wellFormed htokens
  have hidle := Machine.idle_visited s host visits
  have hsound := hidle.reached hr
  have hfit := hidle.reaches_fitted hp hr
  have hnested := hidle.reaches_nested hp hr
  rw [hf] at hnested
  obtain ⟨blocks, g, below, hsplit, hchain, hleads⟩ :=
    (hnested.retop (g := { f with pc := f.pc + 1 }) rfl rfl rfl).split (List.cons_ne_nil _ _)
  have hfit' : Fitted s (f :: rest) := hf ▸ hfit
  obtain ⟨sc, hscope, -⟩ := hfit'.1.housed
  have hoperations : sc.operations[f.pc]? = some (.leave r) := by
    obtain ⟨i, hi, hsc⟩ := Program.scope_eq_ok.1 hscope
    cases hi
    rw [← Program.codeOf_eq hsc]
    exact hop
  obtain ⟨v, hv⟩ := hfit'.1.housed.holds hp hscope hoperations List.mem_cons_self
  obtain ⟨i, hi, hleave⟩ : ∃ i, sc.code[f.pc]? = some i ∧ i.operation = .leave r := by
    rw [Program.codeOf_eq_map hscope] at hop
    exact Option.map_eq_some_iff.1 hop
  exact ⟨v, blocks, g, below, hv, hsplit, hchain, hleads,
    hsound.returnsFrom hp hfit hh hf hscope hi hleave hv hsplit hchain hleads⟩

/-- A function that returns from inside a block that is tried, in the body of a comprehension. -/
def leavingSource : Text := "fn f() = [for x in [7]: try return x catch e 0 end]\nf()"

def Operation.leaves : Operation → Bool
  | .leave _ => true
  | _ => false

theorem leavingSource_leaves :
    ∃ p m f rest r, compileSource none 0 leavingSource = .ok p ∧
      Visit.Reaches ⟨p, none, .standard⟩ ⟨lonelyHost 0, .run⟩ (Machine.initial (lonelyHost 0)) m ∧
      m.halted = none ∧ m.frames = f :: rest ∧ rest.length = 3 ∧
      (p.codeOf f.scope)[f.pc]? = some (.leave r) ∧
      ∃ v blocks g below, f.registers[r]? = some v ∧
        { f with pc := f.pc + 1 } :: rest = blocks ++ g :: below ∧
        (blocks ++ [g]).IsChain (Frame.Inside ⟨p, none, .standard⟩) ∧ g.Leads below ∧
        m.ReturnsFrom ⟨p, none, .standard⟩ v blocks g below := by
  have hcheck : (match compileSource none 0 leavingSource with
      | .ok p => match Setup.stateAfter ⟨p, none, .standard⟩ (lonelyHost 0) 6 with
        | some m => m.halted.isNone && m.frames.length = 4 &&
          m.frames.head?.any fun f => (p.codeOf f.scope)[f.pc]?.any Operation.leaves
        | none => false
      | .error _ => false) = true := by decide +kernel
  cases hc : compileSource none 0 leavingSource with
  | error e => simp [hc] at hcheck
  | ok p =>
    cases hm : Setup.stateAfter ⟨p, none, .standard⟩ (lonelyHost 0) 6 with
    | none => simp [hc, hm] at hcheck
    | some m =>
      cases hf : m.frames with
      | nil => simp [hc, hm, hf] at hcheck
      | cons f rest =>
        simp only [hc, hm, hf, List.head?_cons, Option.any_some, Bool.and_eq_true, decide_eq_true_iff,
          Option.isNone_iff_eq_none, List.length_cons, Option.any_eq_true] at hcheck
        obtain ⟨⟨hhalted, hlength⟩, op, hop, hleaves⟩ := hcheck
        cases op with
        | leave r =>
          have hreaches := Setup.reaches_stateAfter hm
          exact ⟨p, m, f, rest, r, rfl, hreaches, hhalted, hf, Nat.succ.inj hlength, hop,
            compiled_return_leaves (lonelyHost 0) [] _ hc hreaches hhalted hf hop⟩
        | _ => cases hleaves

end ScriptMachine
