import ScriptMachine.Proofs.Machine.Resumption

set_option autoImplicit false

namespace ScriptMachine

variable {s : Setup} {m m' : Machine} {f g : Frame} {rest : List Frame} {r : Register}

namespace Exec

/-- Carries out instructions of the frame on top one after the other. -/
def carryOut (s : Setup) : List Instruction → Exec Unit
  | [] => pure ()
  | i :: others => do
    let f ← top
    modifyTop fun f => { f with pc := f.pc + 1 }
    if i.location.known then modify fun m => { m with location := i.location }
    perform s f i.operation
    carryOut s others

theorem carryOut_cons (hf : m.frames = f :: rest) (i : Instruction) (others : List Instruction) :
    carryOut s (i :: others) m =
      (perform s f i.operation >>= fun _ => carryOut s others) (m.taken f rest i) := by
  rw [carryOut, run_bind (top_run hf)]
  dsimp only
  rw [run_bind (modifyTop_run hf)]
  unfold Machine.taken
  split <;> rfl

end Exec

namespace Frame

/-- A register of the frame that may be written. -/
def Writable (f : Frame) (r : Register) : Prop := firstScratch ≤ r ∧ r < f.registers.size

/-- The frames differ in one register at most. -/
structure AlikeBut (r : Register) (f g : Frame) : Prop where
  same : f.Twins g
  size : g.registers.size = f.registers.size
  others : ∀ q, q ≠ r → g.registers[q]? = f.registers[q]?

end Frame

/-- The machines differ at most in one register of the frame on top. -/
def Machine.AlikeBut (r : Register) (m m' : Machine) : Prop :=
  ∃ f g rest, f.AlikeBut r g ∧ m.Twins m' f g rest

/-- A branch to the target that is taken when the register holds the given truth. -/
inductive Operation.BranchesOn (truth : Bool) (condition : Register) (target : Target) (out : Register) :
    Operation → Prop
  | branch : BranchesOn truth condition target out (.branch truth condition target out)
  | ifElse (h : truth = true) :
    BranchesOn truth condition target out (.ifElse condition target none out)

/-- Both machines enter the block above a frame that waits for its answer, and make the same steps until
it has answered, or the frame is left, or the run ends. -/
structure Waiting.Enters (s : Setup) (p : Waiting) (target : Target) (m m' : Machine) : Prop where
  frames : ∃ scope, s.program.scope target = .ok scope ∧
    m.frames = Exec.entered scope target (some p.below.length) p.out :: p.frame :: p.below ∧
    m' = { m with
      frames := Exec.entered scope target (some p.below.length) p.out :: p.twin :: p.below }
  runs : ∀ n, m.BothAfter s n p.Covered m' ∨ ∃ k ≤ n, m.BothAfter s k (p.Ended s) m'

/-- Two ways of branching from a frame, whose code is two instructions long, come to the same. Both pass
over the block and answer none, or both enter it, or both fail. In the end they differ at most in the
register of the condition. -/
inductive Branches (s : Setup) (f : Frame) (rest : List Frame) (condition : Register)
    (target : Target) (out : Register) :
    Bool → EStateM.Result Trap Machine Unit → EStateM.Result Trap Machine Unit → Prop
  | skipped {m m' : Machine} {g : Frame} (hf : m.frames = g :: rest)
    (hg : g = { f with pc := f.pc + 2, registers := g.registers })
    (hnone : g.registers[out]? = some .none) (hsame : m.AlikeBut condition m') :
    Branches s f rest condition target out false (.ok () m) (.ok () m')
  | entered {m m' : Machine} (p : Waiting)
    (hp : p.out = out ∧ p.below = rest ∧ p.frame = { f with pc := f.pc + 2, registers := p.frame.registers })
    (h : p.Enters s target m m')
    (hsame : ∀ v, (p.frame.receive out v).AlikeBut condition (p.twin.receive out v)) :
    Branches s f rest condition target out true (.ok () m) (.ok () m')
  | failed {m m' : Machine} {e : Trap}
    (hsame : ∀ error, m'.recover s error = m.recover s error) :
    Branches s f rest condition target out true (.error e m) (.error e m')

namespace Exec

variable {left right condition out : Register} {a b v : Value} {target : Target} {truth : Bool}
  {registers registers' : Array Value}

theorem readRegister_known (h : f.registers[r]? = some v) : readRegister s f r m = .ok v m := by
  unfold readRegister
  rw [h]
  rfl

theorem perform_equality {op : BinaryOp} (hop : op = .eq ∨ op = .neq) (hf : m.frames = g :: rest)
    (hg : g.registers = f.registers) (ha : f.registers[left]? = some a)
    (hb : f.registers[right]? = some b) (hcondition : f.Writable condition) :
    perform s f (.binary op left right condition) m = .ok ()
      { m with frames := g.receive condition (.bool (a.looseEquals b == (op = .eq : Bool))) :: rest } := by
  have happly : ∀ v : Value, lift (Except.ok v) m = .ok v m := fun _ => rfl
  have hresult : applyBinary op a b m = .ok (.bool (a.looseEquals b == (op = .eq : Bool))) m := by
    rcases hop with rfl | rfl
    · change lift (Except.ok (Value.bool (a.looseEquals b))) m = _
      rw [happly]
      simp
    · change lift (Except.ok (Value.bool !a.looseEquals b)) m = _
      rw [happly]
      simp
  change (readRegister s f right >>= fun b => readRegister s f left >>= fun a =>
    applyBinary op a b >>= writeRegister s condition) m = _
  rw [run_bind (readRegister_known hb), run_bind (readRegister_known ha), run_bind hresult]
  exact writeRegister_run hf hcondition.1 (hg ▸ hcondition.2)

theorem perform_branchesOn {test : Operation} {t : Nat} {holds : Bool}
    (htest : test.BranchesOn truth condition (some t) out)
    (hholds : f.registers[condition]? = some (.bool holds)) :
    perform s f test m = (if holds = truth then enterBlock s (some t) out
      else writeRegister s out .none) m := by
  cases htest with
  | branch =>
    change (readRegister s f condition >>= _) m = _
    rw [run_bind (readRegister_known hholds)]
    rfl
  | ifElse htruth =>
    subst htruth
    change (readRegister s f condition >>= _) m = _
    rw [run_bind (readRegister_known hholds)]
    cases holds <;> rfl

theorem perform_callCompared {equal : Bool} (ha : f.registers[left]? = some a)
    (hb : f.registers[right]? = some b) :
    perform s f (.callCompared equal left right target out) m =
      (if a.looseEquals b = equal then enterBlock s target out else pure ()) m := by
  change (readRegister s f left >>= fun a => readRegister s f right >>= _) m = _
  rw [run_bind (readRegister_known ha), run_bind (readRegister_known hb)]

theorem enterBlock_twins (h : m.Twins m' f g rest) (target : Target) (out : Register)
    {Q : EStateM.Result Trap Machine Unit → EStateM.Result Trap Machine Unit → Prop}
    (hok : ∀ scope, s.program.scope target = .ok scope →
      Q (.ok () { m with frames := entered scope target (some rest.length) out :: m.frames })
        (.ok () { m' with frames := entered scope target (some rest.length) out :: m'.frames }))
    (herror : ∀ e, Q (.error e m) (.error e m')) :
    Q (enterBlock s target out m) (enterBlock s target out m') := by
  have hget : ∀ t : Machine, (get : Exec Machine) t = .ok t t := fun _ => rfl
  have hindex : ∀ (t : Machine) (k : Frame), t.frames = k :: rest → topIndex t = .ok rest.length t := by
    intro t k hk
    unfold topIndex
    rw [run_bind (hget t), hk]
    rfl
  have hlength : m'.frames.length = m.frames.length := by
    rw [h.twin, h.frames]
    rfl
  unfold enterBlock
  rw [run_bind (hindex m f h.frames), run_bind (hindex m' g h.twin)]
  unfold pushFrame
  rw [run_bind (hget m), run_bind (hget m'), hlength]
  split
  · exact herror _
  · cases hscope : s.program.scope target with
    | error e => exact herror _
    | ok scope => exact hok scope hscope

theorem alike_receive (k : Nat) (u w v : Value) : Frame.AlikeBut condition
    (Frame.receive out w { f with pc := k, registers := f.registers.setIfInBounds condition u })
    (Frame.receive out w { f with pc := k, registers := f.registers.setIfInBounds out v }) := by
  refine ⟨rfl, by simp only [Frame.receive, Array.size_setIfInBounds], fun q hq => ?_⟩
  by_cases hr : out = q
  · subst hr
    simp only [Frame.receive, Array.getElem?_setIfInBounds, Array.size_setIfInBounds, if_pos]
  · simp only [Frame.receive, Array.getElem?_setIfInBounds_ne hr, Array.getElem?_setIfInBounds_ne hq.symm]

theorem enterBlock_branches {p : Waiting} (hf : m.frames = p.frame :: p.below)
    (hm' : m' = { m with frames := p.twin :: p.below })
    (hp : p.frame = { f with pc := f.pc + 2, registers := p.frame.registers })
    (hsame : ∀ v, (p.frame.receive p.out v).AlikeBut condition (p.twin.receive p.out v)) :
    Branches s f p.below condition target p.out true (enterBlock s target p.out m)
      (enterBlock s target p.out m') := by
  have htwins : m.Twins m' p.frame p.twin p.below := ⟨rfl, hf, hm'⟩
  refine enterBlock_twins htwins target p.out (fun scope hscope => ?_) fun e =>
    .failed (htwins.recover (s := s))
  refine .entered p ⟨rfl, rfl, hp⟩ ⟨⟨scope, hscope, by rw [hf], by rw [hm']⟩, fun n => ?_⟩ hsame
  refine Waiting.Covered.runs ⟨entered scope target (some p.below.length) p.out, [], ?_, ?_, ?_⟩ n
  · exact congrArg (entered scope target (some p.below.length) p.out :: ·) hf
  · rw [hm']
    rfl
  · rintro c ⟨⟩
    rfl

def noted (m : Machine) (first second : Location) : Location :=
  second.orElse (first.orElse m.location)

theorem run_comparison {op : BinaryOp} (hop : op = .eq ∨ op = .neq) {test : Operation} {t : Nat}
    (htest : test.BranchesOn truth condition (some t) out) (hf : m.frames = f :: rest)
    (ha : f.registers[left]? = some a) (hb : f.registers[right]? = some b)
    (hcondition : f.Writable condition) (first place : Location) :
    carryOut s [⟨.binary op left right condition, first⟩, ⟨test, place⟩] m =
      (if (a.looseEquals b == (op = .eq : Bool)) = truth then enterBlock s (some t) out
        else writeRegister s out .none)
      { m with
        frames := { f with
          pc := f.pc + 2
          registers := f.registers.setIfInBounds condition
            (.bool (a.looseEquals b == (op = .eq : Bool))) } :: rest
        location := noted m first place } := by
  have hcompare : ∀ t : Machine, t.frames = { f with pc := f.pc + 1 } :: rest →
      perform s f (.binary op left right condition) t = .ok () { t with
        frames := Frame.receive condition (.bool (a.looseEquals b == (op = .eq : Bool)))
          { f with pc := f.pc + 1 } :: rest } :=
    fun _ ht => perform_equality hop ht rfl ha hb hcondition
  rw [carryOut_cons hf, run_bind (hcompare _ rfl), carryOut_cons rfl]
  have hholds : (Frame.receive condition (.bool (a.looseEquals b == (op = .eq : Bool)))
      { f with pc := f.pc + 1 }).registers[condition]? =
        some (.bool (a.looseEquals b == (op = .eq : Bool))) :=
    Array.getElem?_setIfInBounds_self_of_lt hcondition.2
  change (perform s _ test >>= fun _ => pure ()) _ = _
  rw [bind_pure, perform_branchesOn htest hholds]
  rfl

theorem run_fused {equal : Bool} (hf : m.frames = f :: rest) (hreserved : f.Reserved)
    (ha : f.registers[left]? = some a) (hb : f.registers[right]? = some b) (hout : f.Writable out)
    (hleft : out ≠ left) (hright : out ≠ right) (first place : Location) :
    carryOut s [⟨.copy noneRegister out, first⟩, ⟨.callCompared equal left right target out, place⟩] m =
      (if a.looseEquals b = equal then enterBlock s target out else pure ())
      { m with
        frames := { f with
          pc := f.pc + 2
          registers := f.registers.setIfInBounds out .none } :: rest
        location := noted m first place } := by
  have hcopy : ∀ t : Machine, t.frames = { f with pc := f.pc + 1 } :: rest →
      perform s f (.copy noneRegister out) t = .ok ()
        { t with frames := Frame.receive out .none { f with pc := f.pc + 1 } :: rest } := by
    intro t ht
    change (readRegister s f noneRegister >>= writeRegister s out) t = _
    rw [run_bind (readRegister_known hreserved.none)]
    exact writeRegister_run ht hout.1 hout.2
  have hkept : ∀ q, out ≠ q → (Frame.receive out .none { f with pc := f.pc + 1 }).registers[q]? =
      f.registers[q]? := fun q hq => Array.getElem?_setIfInBounds_ne hq
  rw [carryOut_cons hf, run_bind (hcopy _ rfl), carryOut_cons rfl]
  change (perform s _ (.callCompared equal left right target out) >>= fun _ => pure ()) _ = _
  rw [bind_pure, perform_callCompared ((hkept left hleft).trans ha) ((hkept right hright).trans hb)]
  rfl

/-- A branch on a comparison, and a copy of none with a call that compares. -/
theorem comparison_branches {op : BinaryOp} (hop : op = .eq ∨ op = .neq) {test : Operation} {t : Nat}
    (htest : test.BranchesOn truth condition (some t) out) (hf : m.frames = f :: rest)
    (hreserved : f.Reserved) (ha : f.registers[left]? = some a) (hb : f.registers[right]? = some b)
    (hcondition : f.Writable condition) (hout : f.Writable out) (hleft : out ≠ left)
    (hright : out ≠ right) {first first' place : Location}
    (hplace : place.known = true ∨ first = first') :
    Branches s f rest condition (some t) out ((a.looseEquals b == (op = .eq : Bool)) == truth)
      (carryOut s [⟨.binary op left right condition, first⟩, ⟨test, place⟩] m)
      (carryOut s [⟨.copy noneRegister out, first'⟩,
        ⟨.callCompared ((op = .eq : Bool) == truth) left right (some t) out, place⟩] m) := by
  have hnoted : noted m first' place = noted m first place := by
    rcases hplace with hknown | rfl
    · simp only [noted, Location.orElse, hknown, if_true]
    · rfl
  rw [run_comparison hop htest hf ha hb hcondition, run_fused hf hreserved ha hb hout hleft hright, hnoted]
  generalize noted m first place = l
  have htaken : (a.looseEquals b = ((op = .eq : Bool) == truth)) ↔
      (a.looseEquals b == (op = .eq : Bool)) = truth := by
    cases a.looseEquals b <;> cases (op = .eq : Bool) <;> cases truth <;> decide
  simp only [htaken]
  generalize (a.looseEquals b == (op = .eq : Bool)) = holds
  -- the frame after the comparison waits; its twin is the frame after the copy
  let p : Waiting :=
    { out
      frame := { f with pc := f.pc + 2, registers := f.registers.setIfInBounds condition (.bool holds) }
      below := rest
      registers := f.registers.setIfInBounds out .none
      size := by simp only [Array.size_setIfInBounds]
      scratch := hout.1
      fits := by simpa only [Array.size_setIfInBounds] using hout.2 }
  have hsame : ∀ v, (p.frame.receive out v).AlikeBut condition (p.twin.receive out v) := fun v =>
    alike_receive (f.pc + 2) (.bool holds) v .none
  by_cases hholds : holds = truth
  · rw [if_pos hholds, if_pos hholds, hholds, beq_self_eq_true]
    exact enterBlock_branches (p := p) (by subst hholds; rfl) rfl rfl hsame
  · have hanswered : p.twin.receive out .none = p.twin := by
      change { p.twin with registers := p.twin.registers.setIfInBounds out .none } = p.twin
      simp only [Waiting.twin, p, Array.setIfInBounds_setIfInBounds]
    rw [if_neg hholds, if_neg hholds, beq_eq_false_iff_ne.2 hholds,
      writeRegister_run (f := p.frame) rfl hout.1 p.fits]
    refine .skipped (g := p.frame.receive out .none) rfl rfl
      (Array.getElem?_setIfInBounds_self_of_lt p.fits)
        ⟨p.frame.receive out .none, p.twin, rest, ?_, rfl, rfl, rfl⟩
    exact hanswered ▸ hsame .none

end Exec

end ScriptMachine
