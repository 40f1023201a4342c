import ScriptMachine.Proofs.Expression.Phrase
import ScriptMachine.Proofs.Machine.Stack
import Mathlib.Data.List.Forall2

set_option autoImplicit false

namespace ScriptMachine

open Phrase (Evaluation)

namespace Machine

variable {s : Setup} {m m₁ m₂ : Machine} {f : Frame} {i : Instruction}

def Advances (s : Setup) (n : Nat) (m m' : Machine) : Prop :=
  ∀ k, m.runFor s (n + k) = m'.runFor s k

theorem Advances.refl : m.Advances s 0 m := fun k => by rw [Nat.zero_add]

theorem Advances.trans {n n' : Nat} (h : m.Advances s n m₁) (h' : m₁.Advances s n' m₂) :
    m.Advances s (n + n') m₂ := by
  intro k
  rw [Nat.add_assoc, h, h']

def Breaks (s : Setup) (n : Nat) (m : Machine) (e : Fault) : Prop :=
  ∃ k ≤ n, ∃ (e' : Fault) (m' : Machine), e'.kind = e.kind ∧ e'.message = e.message ∧
    ∀ j, m.runFor s (k + j) = (.fault e', m')

theorem Breaks.mono {n n' : Nat} {e : Fault} (h : m.Breaks s n e) (hn : n ≤ n') :
    m.Breaks s n' e := by
  obtain ⟨k, hk, hrest⟩ := h
  exact ⟨k, Nat.le_trans hk hn, hrest⟩

theorem Advances.breaks {n n' : Nat} {e : Fault} (h : m.Advances s n m₁) (h' : m₁.Breaks s n' e) :
    m.Breaks s (n + n') e := by
  obtain ⟨k, hk, e', m', hkind, hmessage, hrun⟩ := h'
  refine ⟨n + k, Nat.add_le_add_left hk n, e', m', hkind, hmessage, fun j => ?_⟩
  rw [Nat.add_assoc, h, hrun]

/-- One frame is left, which has the given code ahead and nothing to handle a fault. -/
structure Faces (s : Setup) (m : Machine) (f : Frame) (code : List Instruction) : Prop where
  frames : m.frames = [f]
  halted : m.halted = none
  handler : f.handler = none
  noneValue : f.registers[noneRegister]? = some .none
  ahead : ∃ scope, s.program.scope (some f.scope) = .ok scope ∧
    code <+: scope.code.toList.drop f.pc

theorem Faces.step {code : List Instruction} (h : m.Faces s f (i :: code)) :
    Exec.step s m = Exec.perform s f i.operation (m.taken f [] i) := by
  obtain ⟨scope, hscope, rest, hcode⟩ := h.ahead
  have hi : scope.code[f.pc]? = some i := by
    rw [← Array.getElem?_toList, ← List.head?_drop, ← hcode]
    rfl
  exact Exec.step_run h.frames hscope hi

theorem Faces.advances {code : List Instruction} (h : m.Faces s f code)
    (hstep : Exec.step s m = .ok ⟨⟩ m₁) : m.Advances s 1 m₁ := by
  intro k
  have hadvance : m.advance s = .running m₁ := by
    unfold advance
    rw [h.frames, h.halted, hstep]
    rfl
  rw [Nat.add_comm, runFor, hadvance]

theorem Faces.breaks {code : List Instruction} {e : Trap} {f' : Frame} (h : m.Faces s f code)
    (hstep : Exec.step s m = .error e m₁) (hf : m₁.frames = [f']) (hh : f'.handler = none) :
    m.Breaks s 1 e.fault := by
  have hrecover : ∃ m₂, m₁.recover s e.fault = (some (e.fault.locatedAt m₁.location), m₂) := by
    unfold recover
    rw [hf, unwind, hh]
    exact ⟨_, rfl⟩
  obtain ⟨m₂, hm₂⟩ := hrecover
  refine ⟨1, Nat.le_refl 1, e.fault.locatedAt m₁.location, m₂.settle s, rfl, rfl, fun j => ?_⟩
  have hadvance : m.advance s = .finished (.fault (e.fault.locatedAt m₁.location)) (m₂.settle s) := by
    unfold advance
    rw [h.frames, h.halted, hstep]
    simp only [List.isEmpty_cons, Option.isSome_none, Bool.or_self, Bool.false_eq_true, if_false, hm₂]
  rw [Nat.add_comm, runFor, hadvance]

/-- Code of the given length has been passed: the frame has other registers, but the first `n`. -/
structure Passes (s : Setup) (m : Machine) (f : Frame) (length n : Nat) (m' : Machine)
    (registers : Array Value) : Prop where
  advances : m.Advances s length m'
  frames : m'.frames = [{ f with pc := f.pc + length, registers }]
  halted : m'.halted = none
  size : registers.size = f.registers.size
  kept : ∀ i < n, registers[i]? = f.registers[i]?

section Passing

variable {code later : List Instruction} {registers : Array Value} {n : Nat} {m' : Machine}

theorem Faces.before (later : List Instruction) (h : m.Faces s f (code ++ later)) :
    m.Faces s f code := by
  obtain ⟨scope, hscope, hahead⟩ := h.ahead
  exact { h with ahead := ⟨scope, hscope, (List.prefix_append code later).trans hahead⟩ }

theorem Faces.after (h : m.Faces s f (code ++ later))
    (hpasses : m.Passes s f code.length n m' registers) (hn : noneRegister < n) :
    m'.Faces s { f with pc := f.pc + code.length, registers } later := by
  obtain ⟨scope, hscope, rest, hahead⟩ := h.ahead
  refine ⟨hpasses.frames, hpasses.halted, h.handler,
    (hpasses.kept noneRegister hn).trans h.noneValue, scope, hscope, rest, ?_⟩
  have hdrop := congrArg (List.drop code.length) hahead
  rwa [List.append_assoc, List.drop_left, List.drop_drop] at hdrop

end Passing

end Machine

def Holds (r : Register) (v : Value) (registers : Array Value) : Prop := registers[r]? = some v

def HoldsEntry (pair : List Register) (e : Value × Value) (registers : Array Value) : Prop :=
  ∃ k v, pair = [k, v] ∧ Holds k e.1 registers ∧ Holds v e.2 registers

def HoldEach {α β : Type} (post : α → β → Array Value → Prop) (as : List α) (bs : List β)
    (registers : Array Value) : Prop :=
  List.Forall₂ (fun a b => post a b registers) as bs

def Stable (n : Nat) (Q : Array Value → Prop) : Prop :=
  ∀ registers registers' : Array Value, (∀ i < n, registers'[i]? = registers[i]?) →
    Q registers → Q registers'

theorem Stable.mono {n n' : Nat} {Q : Array Value → Prop} (h : Stable n Q) (hn : n ≤ n') :
    Stable n' Q := fun _ _ hkept => h _ _ fun i hi => hkept i (Nat.lt_of_lt_of_le hi hn)

theorem stable_holds {n : Nat} {r : Register} {v : Value} (hr : r < n) : Stable n (Holds r v) :=
  fun _ _ hkept h => (hkept r hr).trans h

def Evaluates {α : Type} (code : List Instruction) (n n' : Nat) (pre : Array Value → Prop)
    (x : Evaluation α) (post : α → Array Value → Prop) : Prop :=
  ∀ (s : Setup) (m : Machine) (f : Frame), m.Faces s f code → n' ≤ f.registers.size →
    pre f.registers →
    match x m.host.nextId with
    | .ok a id => ∃ m' registers, m.Passes s f code.length n m' registers ∧ m'.host.nextId = id ∧
        post a registers
    | .error e _ => m.Breaks s code.length e

namespace Evaluates

variable {α β : Type} {code code₁ code₂ : List Instruction} {n n₁ n₂ : Nat}
  {pre Q : Array Value → Prop} {x : Evaluation α} {y : α → Evaluation β}
  {post : α → Array Value → Prop} {post₂ : β → Array Value → Prop}

theorem pure {a : α} (h : ∀ registers, pre registers → post a registers) :
    Evaluates [] n n₁ pre (Pure.pure a) post := by
  intro s m f hf _ hpre
  refine ⟨m, f.registers, ⟨.refl, hf.frames, hf.halted, rfl, fun _ _ => rfl⟩, rfl, h _ hpre⟩

theorem imp {pre' : Array Value → Prop} {post' : α → Array Value → Prop}
    (h : Evaluates code n n₁ pre x post) (hpre : ∀ registers, pre' registers → pre registers)
    (hpost : ∀ a registers, post a registers → post' a registers) :
    Evaluates code n n₁ pre' x post' := by
  intro s m f hf hsize hp
  have hcode := h s m f hf hsize (hpre _ hp)
  split at hcode
  · obtain ⟨m', registers, hpasses, hid, hq⟩ := hcode
    exact ⟨m', registers, hpasses, hid, hpost _ _ hq⟩
  · exact hcode

theorem frame (h : Evaluates code n n₁ pre x post) (hQ : Stable n Q) :
    Evaluates code n n₁ (fun r => pre r ∧ Q r) x fun a r => post a r ∧ Q r := by
  rintro s m f hf hsize ⟨hp, hq⟩
  have hcode := h s m f hf hsize hp
  split at hcode
  · obtain ⟨m', registers, hpasses, hid, hpost⟩ := hcode
    exact ⟨m', registers, hpasses, hid, hpost, hQ _ _ hpasses.kept hq⟩
  · exact hcode

theorem bind (h₁ : Evaluates code₁ n n₁ pre x post)
    (h₂ : ∀ a, Evaluates code₂ n₁ n₂ (post a) (y a) post₂) (hn : 0 < n) (hn₁ : n ≤ n₁)
    (hn₂ : n₁ ≤ n₂) : Evaluates (code₁ ++ code₂) n n₂ pre (x >>= y) post₂ := by
  intro s m f hf hsize hpre
  have hx := h₁ s m f (hf.before code₂) (Nat.le_trans hn₂ hsize) hpre
  cases hr : x m.host.nextId with
  | error e id =>
    rw [hr] at hx
    simp only [Bind.bind, EStateM.bind, hr]
    exact hx.mono (by rw [List.length_append]; exact Nat.le_add_right _ _)
  | ok a id =>
    rw [hr] at hx
    obtain ⟨m₁, registers, hpasses, rfl, hpost⟩ := hx
    have hy := h₂ a s m₁ _ (hf.after hpasses hn) (hpasses.size ▸ hsize) hpost
    rw [run_bind hr, List.length_append]
    cases hr' : y a m₁.host.nextId with
    | error e id =>
      rw [hr'] at hy
      exact hpasses.advances.breaks hy
    | ok b id =>
      rw [hr'] at hy
      obtain ⟨m₂, registers₂, hpasses₂, hid, hpost₂⟩ := hy
      refine ⟨m₂, registers₂, ⟨hpasses.advances.trans hpasses₂.advances, ?_, hpasses₂.halted,
        hpasses₂.size.trans hpasses.size, fun i hi => ?_⟩, hid, hpost₂⟩
      · rw [hpasses₂.frames, Nat.add_assoc]
      · exact (hpasses₂.kept i (Nat.lt_of_lt_of_le hi hn₁)).trans (hpasses.kept i hi)

end Evaluates

namespace Exec

variable {s : Setup} {m : Machine} {f : Frame} {r : Register} {v : Value}

theorem readRegister_run (h : Holds r v f.registers) : readRegister s f r m = .ok v m := by
  unfold readRegister
  rw [h]
  rfl

theorem readRegisters_run {rs : List Register} {vs : List Value} (h : HoldEach Holds rs vs f.registers) :
    readRegisters s f rs m = .ok vs m := by
  unfold readRegisters
  induction h with
  | nil => rfl
  | cons hfirst _ ih =>
    rw [List.mapM_cons, run_bind (readRegister_run hfirst), run_bind ih]
    rfl

theorem readPairs_run {pairs : List (List Register)} {es : Entries}
    (h : HoldEach HoldsEntry pairs es f.registers) : readPairs s f pairs.flatten m = .ok es m := by
  induction h with
  | nil => rfl
  | cons hfirst _ ih =>
    obtain ⟨k, w, rfl, hk, hw⟩ := hfirst
    rw [List.flatten_cons, List.cons_append, List.cons_append, List.nil_append, readPairs,
      run_bind (readRegister_run hw), run_bind (readRegister_run hk), run_bind ih]
    rfl

def evaluation {α : Type} (x : Evaluation α) : Exec α := fun m =>
  match x m.host.nextId with
  | .ok a id => .ok a { m with host := { m.host with nextId := id } }
  | .error e id => .error (.script e) { m with host := { m.host with nextId := id } }

theorem evaluation_lift {α : Type} (x : Except Fault α) :
    evaluation (Evaluation.lift x) = lift x := by
  cases x <;> rfl

theorem evaluation_applyBinary (op : BinaryOp) (a b : Value) :
    evaluation (do
      let id ← Evaluation.recordId op
      Evaluation.lift (op.apply id a b)) = applyBinary op a b := by
  funext m
  unfold applyBinary recordId Evaluation.recordId
  split
  · have hfresh : Evaluation.freshId m.host.nextId = .ok m.host.nextId (m.host.nextId + 1) := rfl
    change _ = lift (op.apply m.host.nextId a b) { m with host := { m.host with nextId := _ } }
    unfold evaluation
    rw [run_bind hfresh]
    cases op.apply m.host.nextId a b <;> rfl
  · rw [pure_bind, pure_bind, evaluation_lift]

end Exec

/-- An instruction that puts the answer of an evaluation into the next register. -/
theorem evaluates_instruction {i : Instruction} {n : Nat} {pre : Array Value → Prop}
    {x : Evaluation Value} (hn : firstScratch ≤ n)
    (h : ∀ (s : Setup) (m : Machine) (f : Frame), pre f.registers →
      (i.location.known = true → m.location = i.location) →
      Exec.perform s f i.operation m = (Exec.evaluation x >>= Exec.writeRegister s n) m) :
    Evaluates [i] n (n + 1) pre x (Holds n) := by
  intro s m f hf hsize hpre
  have hlocation : i.location.known = true → (m.taken f [] i).location = i.location := fun hk => if_pos hk
  have hstep := hf.step.trans (h s _ f hpre hlocation)
  cases hx : x m.host.nextId with
  | error e id =>
    have hfails : Exec.evaluation x (m.taken f [] i) = .error (.script e)
        { m.taken f [] i with host := { m.host with nextId := id } } := by
      unfold Exec.evaluation
      rw [show (m.taken f [] i).host = m.host from rfl, hx]
    have hstops : Exec.step s m = .error (.script e)
        { m.taken f [] i with host := { m.host with nextId := id } } := by
      rw [hstep]
      simp only [Bind.bind, EStateM.bind, hfails]
    exact hf.breaks hstops rfl hf.handler
  | ok v id =>
    have hanswers : Exec.evaluation x (m.taken f [] i) = .ok v
        { m.taken f [] i with host := { m.host with nextId := id } } := by
      unfold Exec.evaluation
      rw [show (m.taken f [] i).host = m.host from rfl, hx]
    rw [run_bind hanswers, Exec.writeRegister_run (f := { f with pc := f.pc + 1 }) rfl hn hsize]
      at hstep
    refine ⟨_, f.registers.setIfInBounds n v, ⟨hf.advances hstep, rfl, hf.halted, ?_, ?_⟩, rfl, ?_⟩
    · exact Array.size_setIfInBounds
    · exact fun j hj => Array.getElem?_setIfInBounds_ne (Nat.ne_of_gt hj)
    · exact Array.getElem?_setIfInBounds_self_of_lt hsize

section Instructions

variable {n : Nat} {l : Location} {r r' : Register} {v w : Value}

theorem evaluates_load (hn : firstScratch ≤ n) :
    Evaluates [⟨.load v n, l⟩] n (n + 1) (fun _ => True) (pure v) (Holds n) :=
  evaluates_instruction hn fun _ _ _ _ _ => rfl

theorem evaluates_none {n' : Nat} {pre : Array Value → Prop} :
    Evaluates [] n n' pre (pure .none) (Holds noneRegister) := by
  intro s m f hf _ _
  exact ⟨m, f.registers, ⟨.refl, hf.frames, hf.halted, rfl, fun _ _ => rfl⟩, rfl, hf.noneValue⟩

theorem evaluates_unary (hn : firstScratch ≤ n) (op : UnaryOp) (hop : op.printed? v = none) :
    Evaluates [⟨.unary op r n, l⟩] n (n + 1) (Holds r v) (Evaluation.lift (op.apply v)) (Holds n) := by
  refine evaluates_instruction hn fun s m f hv _ => ?_
  change (Exec.readRegister s f r >>= fun v => Exec.applyUnary op v >>= Exec.writeRegister s n) m = _
  rw [run_bind (Exec.readRegister_run hv), Exec.evaluation_lift]
  unfold Exec.applyUnary
  rw [hop]

theorem evaluates_binary (hn : firstScratch ≤ n) (op : BinaryOp) :
    Evaluates [⟨.binary op r r' n, l⟩] n (n + 1) (fun registers => Holds r' w registers ∧ Holds r v registers)
      (do
        let id ← Evaluation.recordId op
        Evaluation.lift (op.apply id v w)) (Holds n) := by
  refine evaluates_instruction hn fun s m f hvw _ => ?_
  change (Exec.readRegister s f r' >>= fun b => Exec.readRegister s f r >>= fun a =>
    Exec.applyBinary op a b >>= Exec.writeRegister s n) m = _
  rw [run_bind (Exec.readRegister_run hvw.1), run_bind (Exec.readRegister_run hvw.2),
    Exec.evaluation_applyBinary]

theorem evaluates_makeRange (hn : firstScratch ≤ n) (inclusive : Bool) :
    Evaluates [⟨.makeRange r r' inclusive n, l⟩] n (n + 1)
      (fun registers => Holds r' w registers ∧ Holds r v registers)
      (Evaluation.lift (Range.make v w inclusive)) (Holds n) := by
  refine evaluates_instruction hn fun s m f hvw _ => ?_
  change (Exec.readRegister s f r' >>= fun b => Exec.readRegister s f r >>= fun a =>
    Exec.lift (Range.make a b inclusive) >>= Exec.writeRegister s n) m = _
  rw [run_bind (Exec.readRegister_run hvw.1), run_bind (Exec.readRegister_run hvw.2),
    Exec.evaluation_lift]

theorem DeclaredType.cast_error {type : DeclaredType} {e : Fault} (h : type.cast v = .error e) :
    e.kind = .castError := by
  have hfault : ∀ t : DeclaredType, t.castFault v = .error e → e.kind = .castError := by
    intro t ht
    cases ht
    rfl
  unfold DeclaredType.cast at h
  grind

theorem evaluates_cast (hn : firstScratch ≤ n) (sign : Phrase.CastSign) (type : DeclaredType) :
    Evaluates [⟨.cast r n type, Compile.place sign.token⟩] n (n + 1) (Holds r v)
      (pure (Phrase.castValue sign type v)) (Holds n) := by
  refine evaluates_instruction hn fun s m f hv hplace => ?_
  change Exec.castRegister s f r n type m = Exec.writeRegister s n (Phrase.castValue sign type v) m
  unfold Exec.castRegister Phrase.castValue
  rw [run_bind (Exec.readRegister_run hv)]
  cases hc : type.cast v with
  | ok w => rfl
  | error e =>
    have hget : (get : Exec Machine) m = .ok m m := rfl
    have hl : m.location = Compile.place sign.token := hplace sign.placed
    dsimp only
    rw [if_pos (DeclaredType.cast_error hc), run_bind hget, hl]

theorem evaluates_makeList {rs : List Register} {vs : List Value} (hn : firstScratch ≤ n) :
    Evaluates [⟨.makeList rs n, l⟩] n (n + 1) (HoldEach Holds rs vs) (pure (.list vs)) (Holds n) := by
  refine evaluates_instruction hn fun s m f hvs _ => ?_
  change (Exec.readRegisters s f rs >>= fun vs => Exec.writeRegister s n (.list vs)) m = _
  rw [run_bind (Exec.readRegisters_run hvs)]
  rfl

theorem HoldEach.even {pairs : List (List Register)} {es : Entries} {registers : Array Value}
    (h : HoldEach HoldsEntry pairs es registers) : pairs.flatten.length % 2 = 0 := by
  induction h with
  | nil => rfl
  | cons hfirst _ ih =>
    obtain ⟨k, w, rfl, -, -⟩ := hfirst
    simp only [List.flatten_cons, List.length_append, List.length_cons, List.length_nil]
    omega

theorem evaluates_makeMap {pairs : List (List Register)} {es : Entries} (hn : firstScratch ≤ n) :
    Evaluates [⟨.makeMap pairs.flatten n, l⟩] n (n + 1) (HoldEach HoldsEntry pairs es)
      (pure (.map (Entries.ofPairs es))) (Holds n) := by
  refine evaluates_instruction hn fun s m f hes _ => ?_
  change (if pairs.flatten.length % 2 ≠ 0 then _ else
    Exec.readPairs s f pairs.flatten >>= fun es => Exec.writeRegister s n (.map (Entries.ofPairs es))) m = _
  rw [if_neg (not_not_intro hes.even), run_bind (Exec.readPairs_run hes)]
  rfl

end Instructions

end ScriptMachine
