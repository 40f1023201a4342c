import ScriptMachine.Proofs.Machine.Callers
import ScriptMachine.Proofs.Machine.Collecting

set_option autoImplicit false

/-!
# Comprehensions

The rounds of a comprehension are activations of one frame, which is set up anew between them. Whatever
an activation does, the frame keeps what has been collected, and the frames below are left alone. Main
statement: if all activations complete normally there is one for every element, in order, and the results
that are to be kept are all that the comprehension gives; a value without elements is an error.
-/
namespace ScriptMachine

variable {s : Setup} {a f g : Frame} {base fs fs' rest : List Frame}

def Frame.Sustains (f g : Frame) : Prop :=
  g = { f with
    pc := g.pc, registers := g.registers, bindings := g.bindings, owned := g.owned, borrow := g.borrow }

theorem Frame.Sustains.of_footing {n : Nat} (h : g.footing = Frame.footing { f with pc := n }) :
    f.Sustains g := by
  obtain ⟨⟩ := f
  obtain ⟨⟩ := g
  simp only [Frame.footing, Frame.outline, Frame.mk.injEq] at h
  simp [Frame.Sustains, h]

theorem Frame.Sustains.trans {h : Frame} (hg : f.Sustains g) (hh : g.Sustains h) : f.Sustains h := by
  unfold Frame.Sustains at hg hh ⊢
  rw [hg] at hh
  exact hh

theorem Frame.Sustains.receive (f : Frame) (r : Register) (v : Value) : f.Sustains (f.receive r v) := rfl

def Stands (a : Frame) (base fs : List Frame) : Prop :=
  ∃ g, a.Sustains g ∧ (fs = g :: base ∨ ∃ out, Awaits out (g :: base) fs)

theorem Failed.length_sheltered (h : Failed s (f :: rest) fs) : (sheltered fs).length ≤ rest.length := by
  generalize hs : f :: rest = gs at h
  cases h with
  | within popped hg =>
    rename_i k g below
    have hlength := congrArg List.length hs
    simp only [List.length_cons, List.length_append] at hlength
    have hle := ScriptMachine.length_sheltered (g :: below)
    rw [List.length_cons] at hle
    omega
  | entered hg hh hn =>
    cases hs
    rw [sheltered_cons hn]
    exact ScriptMachine.length_sheltered (_ :: rest)

namespace Machine

variable {d : Nat} {m m' b : Machine} {v : Value} {results : List Value}

/-- The frame number `d`, counted from the bottom, is about to return the value, as the end of the code
returns none. -/
def Yields (s : Setup) (d : Nat) (m : Machine) (v : Value) : Prop :=
  ∃ f rest, m.frames = f :: rest ∧ rest.length = d ∧ m.halted = none ∧
    ((s.program.codeOf f.scope)[f.pc]? = none ∧ v = .none ∨
      ∃ r, (s.program.codeOf f.scope)[f.pc]? = some (.ret r) ∧ f.registers[r]? = some v)

/-- What the frame number `d` runs completes normally: the frame outlasts all steps until it is about to
return. -/
inductive Completes (s : Setup) (d : Nat) : Machine → Machine → Value → Prop where
  | yields {m : Machine} {v : Value} (h : m.Yields s d v) : Completes s d m m v
  | step {m m' m'' : Machine} {v : Value} (hgoes : ∀ w, ¬m.Yields s d w) (hkept : d < m.outlasting s)
    (ha : m.advance s = .running m') (h : Completes s d m' m'' v) : Completes s d m m'' v

/-- Activations in the frame number `d` that have completed normally one after the other, and their
results. -/
inductive Rounds (s : Setup) (d : Nat) (m : Machine) : List Value → Machine → Prop where
  | begun : Rounds s d m [] m
  | round {results : List Value} {a b m' : Machine} {v : Value} (h : Rounds s d m results a)
    (hd : a.frames.length = d + 1) (hc : Completes s d a b v) (ha : b.advance s = .running m') :
    Rounds s d m (results ++ [v]) m'

/-- The value that the frame number `d` is about to return, if it is. -/
def yields? (s : Setup) (d : Nat) (m : Machine) : Option Value :=
  match m.frames with
  | [] => none
  | f :: rest =>
    if rest.length = d ∧ m.halted.isNone then
      match (s.program.codeOf f.scope)[f.pc]? with
      | none => some .none
      | some (.ret r) => f.registers[r]?
      | some _ => none
    else none

theorem yields?_eq_some : m.yields? s d = some v ↔ m.Yields s d v := by
  unfold yields?
  cases hf : m.frames with
  | nil => simp [Yields, hf]
  | cons f rest =>
    have hyields : m.Yields s d v ↔ (rest.length = d ∧ m.halted.isNone) ∧
        ((s.program.codeOf f.scope)[f.pc]? = none ∧ v = .none ∨
          ∃ r, (s.program.codeOf f.scope)[f.pc]? = some (.ret r) ∧ f.registers[r]? = some v) := by
      simp [Yields, hf, and_assoc]
    rw [hyields]
    dsimp only
    generalize (s.program.codeOf f.scope)[f.pc]? = next
    by_cases hcond : rest.length = d ∧ m.halted.isNone
    · rw [if_pos hcond]
      cases next with
      | none => simp [hcond, eq_comm]
      | some op => cases op <;> simp [hcond]
    · rw [if_neg hcond]
      exact ⟨nofun, fun h => absurd h.1 hcond⟩

/-- The end of an activation of so many steps at most, and its result, if it completes normally. -/
def completion (s : Setup) (d : Nat) : Nat → Machine → Option (Machine × Value)
  | 0, _ => none
  | n + 1, m =>
    match m.yields? s d with
    | some v => some (m, v)
    | none =>
      if d < m.outlasting s then
        match m.advance s with
        | .running m' => completion s d n m'
        | .finished .. => none
      else none

theorem completes_of_completion {n : Nat} (h : m.completion s d n = some (b, v)) :
    m.Completes s d b v := by
  induction n generalizing m with
  | zero => cases h
  | succ n ih =>
    unfold completion at h
    split at h
    case h_1 hy =>
      cases h
      exact .yields (yields?_eq_some.1 hy)
    case h_2 hy =>
      have hgoes : ∀ w, ¬m.Yields s d w := fun w hw => by
        rw [yields?_eq_some.2 hw] at hy
        cases hy
      split at h
      case isFalse => cases h
      case isTrue hkept =>
        split at h
        case h_1 ha => exact .step hgoes hkept ha (ih h)
        case h_2 => cases h

/-- So many activations one after the other, and their results, if they complete normally in so many
steps each. -/
def activations (s : Setup) (d n : Nat) (m : Machine) : Nat → Option (List Value × Machine)
  | 0 => some ([], m)
  | k + 1 =>
    match activations s d n m k with
    | none => none
    | some (results, a) =>
      if a.frames.length = d + 1 then
        match a.completion s d n with
        | none => none
        | some (b, v) =>
          match b.advance s with
          | .running m' => some (results ++ [v], m')
          | .finished .. => none
      else none

theorem rounds_of_activations {n k : Nat} {a : Machine} (h : m.activations s d n k = some (results, a)) :
    m.Rounds s d results a ∧ results.length = k := by
  induction k generalizing results a with
  | zero =>
    cases h
    exact ⟨.begun, rfl⟩
  | succ k ih =>
    unfold activations at h
    split at h
    case h_1 => cases h
    case h_2 hbefore =>
      obtain ⟨hrounds, hlength⟩ := ih hbefore
      split at h
      case isFalse => cases h
      case isTrue hd =>
        split at h
        case h_1 => cases h
        case h_2 hc =>
          split at h
          case h_1 ha =>
            cases h
            refine ⟨.round hrounds hd (completes_of_completion hc) ha, ?_⟩
            rw [List.length_append, List.length_singleton, hlength]
          case h_2 => cases h

theorem advance_halted (ha : m.advance s = .running m') : m.halted = none := by
  unfold advance at ha
  split at ha
  · cases ha
  · rename_i h
    rw [Bool.or_eq_true, not_or] at h
    simpa using h.2

end Machine

namespace Exec

variable {m m' : Machine}

theorem leave_shortens (v : Value) (hfit : Fitted s m.frames) (hne : m.frames ≠ []) :
    Ensures (leave s v) m (fun _ m' => m'.frames.length < m.frames.length) fun _ _ => True := by
  obtain ⟨popped, g, below, hsplit, hands⟩ := leave_hands (s := s) v hfit hne
  refine hands.mono (fun _ m' hm' => ?_) fun _ _ _ => trivial
  obtain ⟨u, hm'⟩ := hm'
  rw [hm', hsplit, List.length_modifyHead, List.length_append, List.length_cons]
  omega

theorem step_stands (hp : s.program.Regular) (hf : m.frames = g :: base) (hg : a.Sustains g)
    (hm : m.Steadfast s) (hh : m.halted = none)
    (hgoes : ∀ w, ¬m.Yields s base.length w) :
    Ensures (step s) m (fun _ m' => base.length < m'.frames.length → Stands a base m'.frames)
      fun _ _ => True := by
  have hfit : Fitted s (g :: base) := hf ▸ hm.fitted
  obtain ⟨sc, hscope, -⟩ := hfit.1.housed
  cases hi : sc.code[g.pc]? with
  | none =>
    have hend : (s.program.codeOf g.scope)[g.pc]? = none := by
      rw [Program.codeOf_eq_map hscope, hi]
      rfl
    exact absurd ⟨g, base, hf, rfl, hh, .inl ⟨hend, rfl⟩⟩ (hgoes .none)
  | some i =>
    have hop : (s.program.codeOf g.scope)[g.pc]? = some i.operation := by
      rw [Program.codeOf_eq_map hscope, hi]
      rfl
    have htaken : g.Stays { g with pc := g.pc + 1 } := ⟨rfl, rfl, rfl, rfl, rfl, rfl, rfl⟩
    have hsustains : a.Sustains { g with pc := g.pc + 1 } := hg.trans rfl
    have hwithin : ∀ (m' : Machine) (k : Frame), m'.frames = k :: base →
        k.footing = Frame.footing { g with pc := g.pc + 1 } → Stands a base m'.frames :=
      fun m' k hm' hk => ⟨k, hg.trans (.of_footing hk), .inl hm'⟩
    unfold Ensures
    rw [step_run hf hscope hi]
    cases hcall : i.operation.isCall with
    | true =>
      refine (call_turns g (m := m.taken g base i) rfl hcall).mono (fun _ m' hm' _ => ?_)
        fun _ _ _ => trivial
      rcases hm' with ⟨k, hm', hk, -⟩ | ⟨h, hm'⟩
      · exact hwithin m' k hm' hk
      · exact ⟨_, hsustains, .inr ⟨h.out, [], h, hm', rfl⟩⟩
    | false =>
      cases hreturn : i.operation.isReturn with
      | false =>
        refine (perform_steady g hcall hreturn _).mono (fun _ m' hm' _ => ?_) fun _ _ _ => trivial
        obtain ⟨k, hm'', hk⟩ := hm'.cons rfl
        exact hwithin m' k hm'' (Frame.footing_of_outline hk)
      | true =>
        cases hret : i.operation with
        | ret r =>
          rw [hret] at hop
          obtain ⟨w, hw⟩ := hfit.1.housed.reads hp.wellFormed hop List.mem_cons_self
          exact absurd ⟨g, base, hf, rfl, hh, .inr ⟨r, hop, hw⟩⟩ (hgoes w)
        | leave r =>
          refine (readRegister_gives g r _).bind fun w m₁ hm₁ => ?_
          obtain ⟨rfl, -⟩ := hm₁
          -- the frame has been left, so that it has not outlasted the step
          exact (leave_shortens w (m := m.taken g base i) (hfit.stays htaken) (List.cons_ne_nil _ _)).imp
            fun _ m' hm' hlength => absurd hm' (Nat.not_lt.2 hlength)
        | _ =>
          rw [hret] at hreturn
          cases hreturn

end Exec

namespace Machine

variable {m m' b : Machine} {v : Value} {results : List Value}

theorem advance_stands (hp : s.program.Regular)
    (hm : m.Steadfast s) (hstands : Stands a base m.frames)
    (hgoes : ∀ w, ¬m.Yields s base.length w) (hkept : base.length < m.outlasting s)
    (ha : m.advance s = .running m') : Stands a base m'.frames := by
  obtain ⟨g, hg, hf | ⟨out, hwaits⟩⟩ := hstands
  · have hok : Exec.step s m = .ok ⟨⟩ m' := by
      rcases goes_on ha with hok | ⟨e, m₁, herr, -⟩
      · exact hok
      · have hfailed := (Exec.step_moves hp.wellFormed hf hm.fitted).of_error herr
        rw [hf] at hfailed
        rw [outlasting, herr] at hkept
        exact absurd hfailed.length_sheltered (Nat.not_le.2 hkept)
    rw [outlasting, hok] at hkept
    exact (Exec.step_stands hp hf hg hm (advance_halted ha) hgoes).of_ok hok hkept
  · rcases advance_answers hp.wellFormed hm.sound hm.fitted hwaits hkept ha with ⟨v, hm'⟩ | hwaits'
    · exact ⟨g.receive out v, hg.trans (.receive g out v), .inl hm'⟩
    · exact ⟨g, hg, .inr ⟨out, hwaits'⟩⟩

theorem Completes.stands (hp : s.program.Regular)
    (hc : m.Completes s base.length b v) (hm : m.Steadfast s)
    (hstands : Stands a base m.frames) :
    b.Steadfast s ∧ Stands a base b.frames ∧ b.Yields s base.length v := by
  generalize hd : base.length = d at hc
  induction hc with
  | yields hy => exact ⟨hm, hstands, hy⟩
  | step hgoes hkept ha _ ih =>
    subst hd
    exact ih (advance_steadfast hp hm ha) (advance_stands hp hm hstands hgoes hkept ha)

theorem Yields.top (hy : m.Yields s base.length v) (hstands : Stands a base m.frames) :
    ∃ g, a.Sustains g ∧ m.frames = g :: base := by
  obtain ⟨g, hg, hf | ⟨out, above, k, hsplit, -⟩⟩ := hstands
  · exact ⟨g, hg, hf⟩
  · obtain ⟨f, rest, hf, hlength, -⟩ := hy
    rw [hf] at hsplit
    have htotal := congrArg List.length hsplit
    simp only [List.length_cons, List.length_append] at htotal
    omega

/-- The step at the end of a round returns, with a value that can be added to what has been collected. -/
theorem Yields.step (hm : m.Steadfast s) (hy : m.Yields s base.length v)
    (hf : m.frames = g :: base) :
    (∃ m₁ n, Exec.step s m = Exec.returnFrom s v m₁ ∧ m₁.frames = { g with pc := n } :: base) ∧
      ∀ l, g.loop = some l → l.toMap = true → v.PairOrNone := by
  have hfit : Fitted s (g :: base) := hf ▸ hm.fitted
  have hsupplied : Supplied s (g :: base) := hf ▸ hm.paired.supplied
  have hprepared : g.Prepared s := hm.paired.top g (by rw [hf]; rfl)
  obtain ⟨sc, hscope, -⟩ := hfit.1.housed
  obtain ⟨f, rest, hf', -, -, hends⟩ := hy
  rw [hf] at hf'
  cases hf'
  rw [Program.codeOf_eq_map hscope] at hends
  rcases hends with ⟨hend, rfl⟩ | ⟨r, hop, hv⟩
  · exact ⟨⟨m, g.pc, Exec.step_run_end hf hscope (Option.map_eq_none_iff.1 hend), hf⟩,
      fun _ _ _ => .inl rfl⟩
  · obtain ⟨i, hi, hret⟩ := Option.map_eq_some_iff.1 hop
    refine ⟨⟨m.taken g base i, g.pc + 1, ?_, rfl⟩, fun l hl hmap => ?_⟩
    · rw [Exec.step_run hf hscope hi, hret]
      exact run_bind (Exec.readRegister_known hv)
    · have hexpects : g.Expects s r := by
        refine ⟨?_, hsupplied.1.rounds l hl hmap⟩
        rw [Program.codeOf_eq_map hscope]
        exact hop
      obtain ⟨w, hw, hpair⟩ := hprepared.pair r hexpects
      rw [hv] at hw
      cases hw
      exact hpair

end Machine

theorem Frame.getElem?_freshRegisters (sc : Scope) (r : Register) : (freshRegisters sc)[r]? =
    if r < sc.fileSize then some (if r = oneRegister then .int 1 else .none) else none := by
  unfold freshRegisters
  rw [Array.getElem?_setIfInBounds, Array.getElem?_replicate, Array.size_replicate]
  by_cases hr : r = oneRegister
  · subst hr
    simp
  · rw [if_neg (Ne.symm hr), if_neg hr]

/-- A comprehension over a value with elements, called from a frame. -/
structure Comprehension (s : Setup) where
  toMap : Bool
  source : Value
  elements : List (Value × Value)
  visits : source.elements? = some elements
  body : Nat
  scope : Scope
  housed : s.program.scope (some body) = .ok scope
  names : LoopNames scope.params
  out : Register
  caller : Frame
  rest : List Frame

namespace Comprehension

variable {m b : Machine} {v : Value} {e : Value × Value}
  {results : List Value} {c : Comprehension s}

/-- The frames that the body is entered from. -/
def callers (c : Comprehension s) : List Frame := c.caller :: c.rest

/-- The frame of the body at the beginning of a round. -/
def frame (c : Comprehension s) (e : Value × Value) (results : List Value) : Frame :=
  roundFrame c.body c.scope (some c.rest.length) c.out e
    (.after c.source c.elements.length c.toMap results)

/-- The stack after rounds with the given results: another one begins with the next element, or what has
been collected is handed to the caller. -/
inductive Reaches (c : Comprehension s) (results : List Value) : List Frame → Prop where
  | round {e : Value × Value} (he : c.elements[results.length]? = some e) :
    Reaches c results (c.frame e results :: c.callers)
  | done (h : results.length = c.elements.length) :
    Reaches c results (c.caller.receive c.out (.collected c.toMap results) :: c.rest)

/-- The end of a round begins the next one, or ends the comprehension. -/
theorem round_ends (hp : s.program.Regular) (hm : m.Steadfast s)
    (he : c.elements[results.length]? = some e) (hf : m.frames = c.frame e results :: c.callers)
    (hc : m.Completes s c.callers.length b v) :
    b.Steadfast s ∧ ∃ m', Exec.step s b = .ok ⟨⟩ m' ∧ b.advance s = .running m' ∧
      c.Reaches (results ++ [v]) m'.frames := by
  have hbegun : Stands (c.frame e results) c.callers m.frames := ⟨c.frame e results, rfl, .inl hf⟩
  obtain ⟨hb, hstands, hy⟩ := hc.stands hp hm hbegun
  obtain ⟨g, hg, hbf⟩ := hy.top hstands
  obtain ⟨⟨m₁, n, hstep, hm₁⟩, hpair⟩ := hy.step hb hbf
  obtain ⟨pc, registers, bindings, owned, borrow, rfl⟩ : ∃ pc registers bindings owned borrow,
      g = { c.frame e results with pc, registers, bindings, owned, borrow } := ⟨_, _, _, _, _, hg⟩
  have hanswers : Answers c.out c.callers := (hbf ▸ hb.fitted : Fitted s (_ :: c.callers)).1.answers
  obtain rfl : borrow = none := (hb.sound.custody_cons hbf).lent.1 rfl
  have hv : c.toMap = true → v.PairOrNone := fun hmap => hpair _ rfl hmap
  have hne : b.frames ≠ [] := by simp [hbf]
  obtain ⟨-, -, -, -, hhalted, -⟩ := hy
  refine ⟨hb, ?_⟩
  rcases Nat.lt_or_ge (results.length + 1) c.elements.length with hlt | hge
  · have he' := List.getElem?_eq_getElem hlt
    obtain ⟨m', hrun, hm'⟩ := Exec.returnFrom_again hm₁ rfl hv c.housed c.names c.visits he'
    rw [← hstep] at hrun
    refine ⟨m', hrun, Machine.advance_ok hne hhalted hrun, ?_⟩
    rw [hm']
    exact .round (by simp)
  · have hlast : results.length + 1 = c.elements.length := by
      obtain ⟨hlt, -⟩ := List.getElem?_eq_some_iff.1 he
      omega
    obtain ⟨m', hrun, hm'⟩ := Exec.returnFrom_collected hm₁ rfl hv rfl hanswers hlast
    rw [← hstep] at hrun
    refine ⟨m', hrun, Machine.advance_ok hne hhalted hrun, ?_⟩
    rw [hm']
    exact .done (by simpa using hlast)

/-- What a name stands for at the beginning of a round: a loop variable, or else what it stands for in the
frame that the comprehension is in. -/
theorem findIn_frame (c : Comprehension s) (e : Value × Value) (results : List Value) (name : Text) :
    Exec.findIn name (some c.callers.length) (c.frame e results :: c.callers) =
      ((loopBindings c.scope.params c.source e).lookup name).or
        (Exec.findIn name (some c.rest.length) c.callers) := by
  have hlinked : (c.frame e results).Linked c.callers := by
    intro i hi
    cases hi
    exact Nat.lt_succ_self _
  have hskip : Exec.findIn name (some c.rest.length) (c.frame e results :: c.callers) =
      Exec.findIn name (some c.rest.length) c.callers := by
    rw [Exec.findIn, if_neg]
    simp [callers]
  have hfollows := findIn_follows name [] hlinked
  rw [List.nil_append] at hfollows
  rw [hfollows]
  exact congrArg _ hskip

/-- How a comprehension goes on from its first round, or ends if there is none. -/
structure Proceeds (c : Comprehension s) (m : Machine) : Prop where
  /-- Activation after activation, the next element is taken, until there are no more. -/
  rounds : ∀ results a, m.Rounds s c.callers.length results a → c.Reaches results a.frames
  /-- The step at the end of a round never fails. -/
  goesOn : ∀ results a b v, m.Rounds s c.callers.length results a →
    a.frames.length = c.callers.length + 1 → a.Completes s c.callers.length b v →
    ∃ m', Exec.step s b = .ok ⟨⟩ m' ∧ b.advance s = .running m'
  /-- An activation begins with fresh registers. -/
  fresh : ∀ results a f below, m.Rounds s c.callers.length results a → a.frames = f :: below →
    below.length = c.callers.length → ∀ r, f.registers[r]? =
      if r < c.scope.fileSize then some (if r = oneRegister then .int 1 else .none) else none
  /-- It sees the loop variables, and what can be seen where the comprehension is. -/
  visible : ∀ results a e, m.Rounds s c.callers.length results a →
    c.elements[results.length]? = some e → ∀ name,
      Exec.findIn name (some c.callers.length) a.frames =
        ((loopBindings c.scope.params c.source e).lookup name).or
          (Exec.findIn name (some c.rest.length) c.callers)
  /-- If all activations complete, there is one for every element. -/
  ends : (∀ results a, m.Rounds s c.callers.length results a →
      a.frames.length = c.callers.length + 1 → ∃ b v, a.Completes s c.callers.length b v) →
    ∃ results a, m.Rounds s c.callers.length results a ∧ results.length = c.elements.length ∧
      a.frames = c.caller.receive c.out (.collected c.toMap results) :: c.rest

theorem Reaches.length_round {fs : List Frame} (h : c.Reaches results fs)
    (hd : fs.length = c.callers.length + 1) :
    ∃ e, c.elements[results.length]? = some e ∧ fs = c.frame e results :: c.callers := by
  cases h with
  | round he => exact ⟨_, he, rfl⟩
  | done _ => simp [callers] at hd

theorem Reaches.round_of_lt {fs : List Frame} (h : c.Reaches results fs)
    (hlt : results.length < c.elements.length) :
    ∃ e, c.elements[results.length]? = some e ∧ fs = c.frame e results :: c.callers := by
  cases h with
  | round he => exact ⟨_, he, rfl⟩
  | done hdone => exact absurd hdone (Nat.ne_of_lt hlt)

theorem rounds_reach (hp : s.program.Regular)
    (hm : m.Steadfast s) (hbegun : c.Reaches [] m.frames) {a : Machine}
    (h : m.Rounds s c.callers.length results a) :
    a.Steadfast s ∧ c.Reaches results a.frames := by
  induction h with
  | begun => exact ⟨hm, hbegun⟩
  | round _ hd hc ha ih =>
    obtain ⟨e, he, hf⟩ := ih.2.length_round hd
    obtain ⟨hb, m', -, ha', hreaches⟩ := round_ends hp ih.1 he hf hc
    rw [ha] at ha'
    cases ha'
    exact ⟨Machine.advance_steadfast hp hb ha, hreaches⟩

theorem exists_rounds (hp : s.program.Regular)
    (hm : m.Steadfast s) (hbegun : c.Reaches [] m.frames)
    (hcompletes : ∀ results a, m.Rounds s c.callers.length results a →
      a.frames.length = c.callers.length + 1 → ∃ b v, a.Completes s c.callers.length b v)
    (k : Nat) {a : Machine} (h : m.Rounds s c.callers.length results a)
    (hk : results.length + k = c.elements.length) :
    ∃ results a, m.Rounds s c.callers.length results a ∧ results.length = c.elements.length := by
  induction k generalizing results a with
  | zero => exact ⟨results, a, h, hk⟩
  | succ k ih =>
    obtain ⟨ha, hreaches⟩ := rounds_reach hp hm hbegun h
    obtain ⟨e, he, hf⟩ := hreaches.round_of_lt (by omega)
    have hd : a.frames.length = c.callers.length + 1 := by rw [hf, List.length_cons]
    obtain ⟨b, v, hc⟩ := hcompletes results a h hd
    obtain ⟨-, m', -, hadvance, -⟩ := round_ends hp ha he hf hc
    refine ih (.round h hd hc hadvance) ?_
    rw [List.length_append, List.length_singleton]
    omega

theorem proceeds (hp : s.program.Regular) (hm : m.Steadfast s)
    (hbegun : c.Reaches [] m.frames) : c.Proceeds m where
  rounds := fun results a h => (rounds_reach hp hm hbegun h).2
  goesOn := by
    intro results a b v h hd hc
    obtain ⟨ha, hreaches⟩ := rounds_reach hp hm hbegun h
    obtain ⟨e, he, hf⟩ := hreaches.length_round hd
    obtain ⟨-, m', hstep, hadvance, -⟩ := round_ends hp ha he hf hc
    exact ⟨m', hstep, hadvance⟩
  fresh := by
    intro results a f below h hf hlength r
    obtain ⟨e, -, hround⟩ := (rounds_reach hp hm hbegun h).2.length_round (by simp [hf, hlength])
    rw [hf] at hround
    cases hround
    exact Frame.getElem?_freshRegisters c.scope r
  visible := by
    intro results a e h he name
    obtain ⟨hlt, -⟩ := List.getElem?_eq_some_iff.1 he
    obtain ⟨e', he', hf⟩ := (rounds_reach hp hm hbegun h).2.round_of_lt hlt
    rw [he] at he'
    cases he'
    rw [hf]
    exact c.findIn_frame e results name
  ends := by
    intro hcompletes
    obtain ⟨results, a, h, hlength⟩ :=
      exists_rounds hp hm hbegun hcompletes c.elements.length .begun (Nat.zero_add _)
    refine ⟨results, a, h, hlength, ?_⟩
    have hreaches := (rounds_reach hp hm hbegun h).2
    generalize a.frames = fs at hreaches
    cases hreaches with
    | round he =>
      obtain ⟨hlt, -⟩ := List.getElem?_eq_some_iff.1 he
      omega
    | done _ => rfl

end Comprehension

/-- What becomes of a comprehension over a value that the machine is about to begin. -/
structure Machine.Collects (s : Setup) (m : Machine) (toMap : Bool) (v : Value) (target : Target)
    (out : Register) (caller : Frame) (rest : List Frame) : Prop where
  /-- A value without elements is an error, and no body is entered. -/
  refused : v.elements? = none → ∃ e m₁, m.Raises s e m₁ ∧ e.kind = .typeError ∧
    e.message = "Cannot iterate over " ++ v.typeName ∧ m₁.frames = caller :: rest
  begins : ∀ es, v.elements? = some es → es = [] ∨ (caller :: rest).length < s.options.maxDepth →
    ∃ (c : Comprehension s) (m' : Machine), c.toMap = toMap ∧ c.source = v ∧ c.elements = es ∧
      some c.body = target ∧ c.out = out ∧ c.caller = caller ∧ c.rest = rest ∧
      Exec.step s m = .ok ⟨⟩ m' ∧ m.advance s = .running m' ∧ c.Proceeds m'
  overflow : ∀ es, v.elements? = some es → es ≠ [] → s.options.maxDepth ≤ (caller :: rest).length →
    ∃ e m₁, m.Raises s e m₁ ∧ e.kind = .runtimeError ∧ m₁.frames = caller :: rest

theorem Machine.Steadfast.collects {m : Machine} {toMap : Bool} {r out : Register}
    {target : Target} (hp : s.program.Regular)
    (hm : m.Steadfast s) (hh : m.halted = none) (hf : m.frames = f :: rest)
    (hop : (s.program.codeOf f.scope)[f.pc]? = some (.collect toMap r target out)) :
    ∃ v, f.registers[r]? = some v ∧
      m.Collects s toMap v target out { f with pc := f.pc + 1 } rest := by
  have hfit : Fitted s (f :: rest) := hf ▸ hm.fitted
  obtain ⟨sc, hsc, hat⟩ := Program.exists_of_codeOf hop
  have hscope : s.program.scope (some f.scope) = .ok sc := Program.scope_eq_ok.2 ⟨_, rfl, hsc⟩
  have hmem := List.mem_of_getElem? hat
  obtain ⟨v, hv⟩ := hfit.1.housed.reads hp.wellFormed hop List.mem_cons_self
  obtain ⟨i, hi, hcollect⟩ : ∃ i, sc.code[f.pc]? = some i ∧ i.operation = .collect toMap r target out := by
    rw [Program.codeOf_eq_map hscope] at hop
    exact Option.map_eq_some_iff.1 hop
  have hstep : Exec.step s m = Exec.startLoop s toMap v target out (m.taken f rest i) := by
    rw [Exec.step_run hf hscope hi, hcollect]
    exact run_bind (Exec.readRegister_known hv)
  have hanswers : Answers out (f :: rest) :=
    (Exec.call_allowed hp.wellFormed hscope hmem hfit.1.housed rfl).1
  have hne : m.frames ≠ [] := by simp [hf]
  obtain ⟨body, rfl, hbody⟩ := hp.embodied _ (Program.mem_operations.2
    ⟨sc, Array.mem_toList_iff.2 (Array.mem_of_getElem? hsc), hmem⟩) _ _ _ _ rfl
  obtain ⟨t, ht, hnames⟩ := hbody.names
  have hhoused : s.program.scope (some body) = .ok t := Program.scope_eq_ok.2 ⟨_, rfl, ht⟩
  refine ⟨v, hv, fun hes => ?_, fun es hes hdepth => ?_, fun es hes hnil hdepth => ?_⟩
  · rw [Exec.startLoop_refused hes] at hstep
    exact ⟨_, _, ⟨hne, hh, _, hstep, rfl⟩, rfl, rfl, rfl⟩
  · let c : Comprehension s := ⟨toMap, v, es, hes, body, t, hhoused, hnames, out, { f with pc := f.pc + 1 }, rest⟩
    have hbegun : ∃ m', Exec.step s m = .ok ⟨⟩ m' ∧ c.Reaches [] m'.frames := by
      cases es with
      | nil =>
        rw [Exec.startLoop_empty (f := { f with pc := f.pc + 1 }) hes rfl hanswers] at hstep
        exact ⟨_, hstep, .done rfl⟩
      | cons e es =>
        have hdepth := hdepth.resolve_left (List.cons_ne_nil _ _)
        rw [Exec.startLoop_run hes hdepth hhoused hnames] at hstep
        exact ⟨_, hstep, .round (c := c) rfl⟩
    obtain ⟨m', hok, hreaches⟩ := hbegun
    have ha := Machine.advance_ok hne hh hok
    exact ⟨c, m', rfl, rfl, rfl, rfl, rfl, rfl, rfl, hok, ha,
      Comprehension.proceeds hp (Machine.advance_steadfast hp hm ha) hreaches⟩
  · obtain ⟨e, es, rfl⟩ := List.exists_cons_of_ne_nil hnil
    rw [Exec.startLoop_overflow hes hdepth] at hstep
    exact ⟨_, _, ⟨hne, hh, _, hstep, rfl⟩, rfl, rfl⟩

/-- In every run of a program that has been compiled, a comprehension collects the results that its body
has for the elements of a value, one after the other. What the body of a map comprehension returns can
always be added. -/
theorem compiled_comprehension_collects {builtins : Option Registry} {id : Nat} {source : Text} {s : Setup}
    (host : Host) (visits : List Visit) (visit : Visit) {m : Machine}
    (hc : compileSource builtins id source = .ok s.program)
    (hr : visit.Reaches s ((Machine.initial host).visited s visits) m) (hh : m.halted = none) :
    (∀ f rest toMap r target out, m.frames = f :: rest →
      (s.program.codeOf f.scope)[f.pc]? = some (.collect toMap r target out) →
      ∃ v, f.registers[r]? = some v ∧
        m.Collects s toMap v target out { f with pc := f.pc + 1 } rest) ∧
    ∀ f rest v l, m.frames = f :: rest → m.Yields s rest.length v → f.loop = some l →
      ∃ l', l.accumulate v = .ok l' := by
  have hp : s.program.Regular := compileSource_regular hc
  have hidle := Machine.idle_visited s host visits
  have hm := hidle.reaches_steadfast hp hr
  refine ⟨fun f rest toMap r target out hf hop => hm.collects hp hh hf hop,
    fun f rest v l hf hy hl => ?_⟩
  exact Loop.accumulate_pair ((hy.step hm hf).2 l hl)

/-- A map of those elements of a list that pass a test. -/
def filteringSource : Text := "{for x in [1, 2]: x, x if x > 1}"

def Operation.collects : Operation → Bool
  | .collect .. => true
  | _ => false

def Machine.activates (s : Setup) (d n k : Nat) (m : Machine) : Bool :=
  match m.advance s with
  | .running m' => (m'.activations s d n k).isSome
  | .finished .. => false

theorem Machine.rounds_of_activates {d n k : Nat} {m : Machine} (h : m.activates s d n k = true) :
    ∃ m' results a, m.advance s = .running m' ∧ m'.Rounds s d results a ∧ results.length = k := by
  unfold activates at h
  split at h
  case h_1 m' ha =>
    obtain ⟨⟨results, a⟩, hactivations⟩ := Option.isSome_iff_exists.1 h
    exact ⟨m', results, a, ha, rounds_of_activations hactivations⟩
  case h_2 => cases h

theorem filteringSource_collects :
    ∃ p m f rest toMap r target out v, compileSource none 0 filteringSource = .ok p ∧
      Visit.Reaches ⟨p, none, .standard⟩ ⟨lonelyHost 0, .run⟩ (Machine.initial (lonelyHost 0)) m ∧
      m.halted = none ∧ m.frames = f :: rest ∧
      (p.codeOf f.scope)[f.pc]? = some (.collect toMap r target out) ∧ f.registers[r]? = some v ∧
      m.Collects ⟨p, none, .standard⟩ toMap v target out { f with pc := f.pc + 1 } rest ∧
      ∃ m' results a, m.advance ⟨p, none, .standard⟩ = .running m' ∧
        m'.Rounds ⟨p, none, .standard⟩ (f :: rest).length results a ∧ results.length = 2 := by
  have hcheck : (match compileSource none 0 filteringSource with
      | .ok p => match Setup.stateAfter ⟨p, none, .standard⟩ (lonelyHost 0) 3 with
        | some m => m.halted.isNone && m.activates ⟨p, none, .standard⟩ 1 10 2 &&
          (m.frames.length = 1 : Bool) &&
          m.frames.head?.any fun f => (p.codeOf f.scope)[f.pc]?.any Operation.collects
        | none => false
      | .error _ => false) = true := by decide +kernel
  cases hc : compileSource none 0 filteringSource with
  | error e => simp [hc] at hcheck
  | ok p =>
    cases hm : Setup.stateAfter ⟨p, none, .standard⟩ (lonelyHost 0) 3 with
    | none => simp [hc, hm] at hcheck
    | some m =>
      cases hf : m.frames with
      | nil => simp [hc, hm, hf] at hcheck
      | cons f rest =>
        simp only [hc, hm, hf, List.head?_cons, Option.any_some, Bool.and_eq_true, decide_eq_true_iff,
          Option.isNone_iff_eq_none, Option.any_eq_true] at hcheck
        obtain ⟨⟨⟨hhalted, hactivates⟩, hlength⟩, op, hop, hcollects⟩ := hcheck
        cases op with
        | collect toMap r target out =>
          have hreaches := Setup.reaches_stateAfter hm
          obtain ⟨v, hv, hcollect⟩ := (compiled_comprehension_collects (lonelyHost 0) [] _ hc hreaches
            hhalted).1 f rest toMap r target out hf hop
          obtain ⟨m', results, a, ha, hrounds⟩ := Machine.rounds_of_activates hactivates
          rw [← hlength] at hrounds
          exact ⟨p, m, f, rest, toMap, r, target, out, v, rfl, hreaches, hhalted, hf, hop, hv, hcollect,
            m', results, a, ha, hrounds⟩
        | _ => cases hcollects

end ScriptMachine
