import ScriptMachine.Proofs.Expression.Lexing
import ScriptMachine.Proofs.Expression.Whole
import ScriptMachine.Proofs.Machine.Termination

set_option autoImplicit false

/-!
# The meaning of expressions

Running the program of an expression ends as evaluating the expression does. A run takes an identity
of its own first, so the evaluation starts with the one after it.
-/
namespace ScriptMachine

namespace Machine

variable {s : Setup} {m : Machine} {f : Frame}

theorem popFrame_host (m : Machine) : (m.popFrame s).host = m.host := by
  cases hf : m.frames with
  | nil => rw [popFrame, hf]
  | cons f rest => rw [popFrame_eq hf]

theorem pops_leave (fs : List Frame) (m : Machine) :
    (fs.foldl (fun m _ => m.popFrame s) m).frames = m.frames.drop fs.length ∧
      (fs.foldl (fun m _ => m.popFrame s) m).host = m.host := by
  induction fs generalizing m with
  | nil => exact ⟨rfl, rfl⟩
  | cons f fs ih =>
    obtain ⟨hframes, hhost⟩ := ih (m.popFrame s)
    refine ⟨?_, hhost.trans (popFrame_host m)⟩
    rw [List.foldl_cons, hframes, popFrame_frames, List.drop_tail, List.length_cons]

theorem begin_empty (s : Setup) (m : Machine) :
    (m.begin s).frames = [] ∧ (m.begin s).halted = none ∧
      (m.begin s).host.nextId = m.host.nextId + 1 := by
  obtain ⟨hframes, hhost⟩ := pops_leave (s := s) m.frames m
  refine ⟨?_, rfl, ?_⟩
  · change (m.frames.foldl (fun m _ => m.popFrame s) m).frames = []
    rw [hframes, List.drop_length]
  · change (m.frames.foldl (fun m _ => m.popFrame s) m).host.nextId + 1 = _
    rw [hhost]

theorem runFor_halted {v : Value} (h : m.halted = some v) (k : Nat) :
    m.runFor s (k + 1) = (.ok v, m.settle s) := by
  have hadvance : m.advance s = .finished (.ok v) (m.settle s) := by
    unfold advance outcome
    rw [h, Option.isSome_some, Bool.or_true, if_pos rfl]
    rfl
  rw [runFor, hadvance]

theorem Faces.halts {r : Register} {v : Value} {l : Location} (h : m.Faces s f [⟨.halt r, l⟩])
    (hv : Holds r v f.registers) :
    ∃ m', ∀ k, m.runFor s (2 + k) = (.ok v, m') := by
  have hread : Exec.readRegister s f r (m.taken f [] ⟨.halt r, l⟩) = .ok v (m.taken f [] ⟨.halt r, l⟩) :=
    Exec.readRegister_run hv
  obtain ⟨m', hstep, hhalted⟩ : ∃ m', Exec.step s m = .ok ⟨⟩ m' ∧ m'.halted = some v := by
    refine ⟨{ m.taken f [] ⟨.halt r, l⟩ with halted := some v }, ?_, rfl⟩
    rw [h.step]
    change (Exec.readRegister s f r >>= fun v => modify fun m => { m with halted := some v }) _ = _
    rw [run_bind hread]
    rfl
  refine ⟨m'.settle s, fun k => ?_⟩
  rw [Nat.add_assoc 1 1 k, h.advances hstep, Nat.add_comm]
  exact runFor_halted hhalted k

end Machine

/-- The result of a run is that of an evaluation: the same value, or a fault with the same kind and
message. -/
structure Agrees (r : RunResult) (x : Except Fault Value) : Prop where
  value : ∀ v, r = .ok v ↔ x = .ok v
  fault : ∀ (kind : FaultKind) (message : Text),
    (∃ e, r = .fault e ∧ e.kind = kind ∧ e.message = message) ↔
      ∃ e, x = .error e ∧ e.kind = kind ∧ e.message = message

namespace Agrees

theorem ok (v : Value) : Agrees (.ok v) (.ok v) where
  value w := by
    constructor
    · rintro ⟨⟩
      rfl
    · rintro ⟨⟩
      rfl
  fault kind message := by
    constructor
    · rintro ⟨e, ⟨⟩, -⟩
    · rintro ⟨e, ⟨⟩, -⟩

theorem error {e e' : Fault} (hkind : e'.kind = e.kind) (hmessage : e'.message = e.message) :
    Agrees (.fault e') (.error e) where
  value w := by
    constructor
    · rintro ⟨⟩
    · rintro ⟨⟩
  fault kind message := by
    constructor
    · rintro ⟨_, ⟨⟩, rfl, rfl⟩
      exact ⟨e, rfl, hkind.symm, hmessage.symm⟩
    · rintro ⟨_, ⟨⟩, rfl, rfl⟩
      exact ⟨e', rfl, hkind, hmessage⟩

end Agrees

/-- The frame of the top level has its registers, and faces its whole code. -/
theorem pushFrame_faces {s : Setup} {scope : Scope} {m : Machine}
    (hscope : s.program.scope (some 0) = .ok scope) (hdepth : 0 < s.options.maxDepth)
    (hframes : m.frames = []) (hhalted : m.halted = none) :
    ∃ m' f, Exec.pushFrame s (some 0) none noneRegister m = .ok ⟨⟩ m' ∧
      m'.Faces s f scope.code.toList ∧ m'.host = m.host ∧
      scope.registerCount ≤ f.registers.size := by
  have hget : (get : Exec Machine) m = .ok m m := rfl
  have hlift : Exec.lift (s.program.scope (some 0)) m = .ok scope m := by
    rw [hscope]
    rfl
  have hfile : noneRegister < scope.fileSize := Nat.lt_of_lt_of_le Nat.zero_lt_two (Nat.le_max_right _ _)
  refine ⟨{ m with frames := [⟨0, 0, Frame.freshRegisters scope, [], none, noneRegister, none, [],
    none, none, none, none⟩] }, _, ?_, ⟨rfl, hhalted, rfl, ?_, scope, hscope, List.prefix_rfl⟩, rfl, ?_⟩
  · unfold Exec.pushFrame
    rw [run_bind hget, hframes, List.length_nil, if_neg (Nat.not_le.2 hdepth), run_bind hlift]
    change EStateM.Result.ok _ { m with frames := _ :: m.frames } = _
    rw [hframes]
    rfl
  · unfold Frame.freshRegisters
    rw [Array.getElem?_setIfInBounds_ne (by decide), Array.getElem?_replicate, if_pos hfile]
  · unfold Frame.freshRegisters
    rw [Array.size_setIfInBounds, Array.size_replicate]
    exact Nat.le_max_left _ _

/-- Running code that carries out an expression, and then halts. -/
theorem run_agrees {s : Setup} {scope : Scope} {code : List Instruction} {r : Register}
    {l : Location} {e : Phrase.Expression} (hscope : s.program.scope (some 0) = .ok scope)
    (hcode : scope.code.toList = code ++ [⟨.halt r, l⟩])
    (he : Evaluates code firstScratch scope.registerCount (fun _ => True) e.evaluate (Holds r))
    (hdepth : 0 < s.options.maxDepth) (m : Machine) {k : Nat} (hk : code.length + 2 ≤ k) :
    Agrees (Entry.run.performFor s k m).1 (e.value (m.host.nextId + 1)) := by
  obtain ⟨hframes, hhalted, hid⟩ := Machine.begin_empty s m
  obtain ⟨m₁, f, hpush, hfaces, hhost, hsize⟩ := pushFrame_faces hscope hdepth hframes hhalted
  have hperform : Entry.run.performFor s k m = m₁.runFor s k := by
    unfold Entry.performFor Entry.action
    dsimp only
    rw [hpush]
  obtain ⟨i, rfl⟩ := Nat.exists_eq_add_of_le hk
  rw [hcode] at hfaces
  have hcalculates := he s m₁ f (hfaces.before _) hsize trivial
  rw [hhost, hid] at hcalculates
  rw [hperform]
  unfold Phrase.Expression.value
  cases hv : e.evaluate (m.host.nextId + 1) with
  | ok v id =>
    rw [hv] at hcalculates
    obtain ⟨m₂, registers, hpasses, -, hholds⟩ := hcalculates
    obtain ⟨m₃, hhalts⟩ := (hfaces.after hpasses (by decide)).halts hholds
    rw [Nat.add_assoc, hpasses.advances, hhalts]
    exact .ok v
  | error fault id =>
    rw [hv] at hcalculates
    obtain ⟨j, hj, fault', m₂, hkind, hmessage, hstops⟩ := hcalculates
    obtain ⟨spare, hspare⟩ := Nat.exists_eq_add_of_le hj
    rw [hspare, Nat.add_assoc, Nat.add_assoc, hstops]
    exact .error hkind hmessage

/-- The program of an expression means what the expression does. Its source has the tokens of the
expression with blanks between them, and a run has as many steps as it needs. -/
theorem compileSource_expression (builtins : Option Registry) (id : Nat) {e : Phrase.Expression}
    {source : Text} (h : Written .start none e.tokens source) :
    ∃ p n, compileSource builtins id source = .ok p ∧
      ∀ (s : Setup) (m : Machine), s.program = p → 0 < s.options.maxDepth →
        (∀ k, n ≤ k → Agrees (Entry.run.performFor s k m).1 (e.value (m.host.nextId + 1))) ∧
        (n ≤ s.options.budget → Agrees (m.run s).1 (e.value (m.host.nextId + 1))) := by
  obtain ⟨finish, hfinish, htokens⟩ := h.tokenize_eq
  obtain ⟨p, scope, code, r, hcompiled, hscope, hcode, he⟩ :=
    compileTokens_expression builtins id e hfinish
  refine ⟨p, code.length + 2, ?_, ?_⟩
  · unfold compileSource
    rw [htokens]
    exact hcompiled
  · rintro s m rfl hdepth
    have hrun := fun k hk => run_agrees (k := k) hscope hcode he hdepth m hk
    refine ⟨hrun, fun hbudget => ?_⟩
    have hall := hrun s.options.budget hbudget
    rwa [Entry.performFor_budget] at hall

/-- `-2 + 3 * 4`, with the sign on the number only and the sum before the product. -/
def Phrase.mixed : Phrase.Expression :=
  .binary
    (.binary
      (.operand (.prefixed ⟨⟨.minus, "-", 1, 1, false⟩, .neg, rfl⟩
        (.number ⟨⟨.number, "2", 1, 2, false⟩, .int 2, rfl, by decide +kernel⟩)))
      ⟨⟨.plus, "+", 1, 4, true⟩, .add, rfl⟩
      (.number ⟨⟨.number, "3", 1, 6, true⟩, .int 3, rfl, by decide +kernel⟩))
    ⟨⟨.star, "*", 1, 8, true⟩, .mul, rfl⟩
    (.number ⟨⟨.number, "4", 1, 10, true⟩, .int 4, rfl, by decide +kernel⟩)

theorem Phrase.mixed_written : Written .start none Phrase.mixed.tokens "-2 + 3 * 4" := by
  have hblank : ∀ b ∈ ([32] : Text), Lexer.isBlank b = true := by decide +kernel
  have hsigns : ((([45] : Text), TokenKind.minus) ∈ TokenKind.signs ∧
      (([43] : Text), TokenKind.plus) ∈ TokenKind.signs ∧
      (([42] : Text), TokenKind.star) ∈ TokenKind.signs) := by decide +kernel
  obtain ⟨hminus, hplus, hstar⟩ := hsigns
  have hends : Written ⟨10, 1, 11⟩ (some .number) [] [] := .done nofun
  have hfour : Written ⟨8, 1, 9⟩ (some .star) [⟨.number, "4", 1, 10, true⟩] " 4" :=
    .token hblank (Or.inr (Or.inl nofun)) (.digit (b := 52) (by decide)) hends
  have htimes : Written ⟨6, 1, 7⟩ (some .number)
      [⟨.star, "*", 1, 8, true⟩, ⟨.number, "4", 1, 10, true⟩] " * 4" :=
    .token hblank (Or.inr (Or.inl nofun)) (.sign hstar) hfour
  have hthree : Written ⟨4, 1, 5⟩ (some .plus)
      [⟨.number, "3", 1, 6, true⟩, ⟨.star, "*", 1, 8, true⟩, ⟨.number, "4", 1, 10, true⟩]
      " 3 * 4" :=
    .token hblank (Or.inr (Or.inl nofun)) (.digit (b := 51) (by decide)) htimes
  have hsum : Written ⟨2, 1, 3⟩ (some .number)
      [⟨.plus, "+", 1, 4, true⟩, ⟨.number, "3", 1, 6, true⟩, ⟨.star, "*", 1, 8, true⟩,
        ⟨.number, "4", 1, 10, true⟩] " + 3 * 4" :=
    .token hblank (Or.inr (Or.inl nofun)) (.sign hplus) hthree
  -- no blank stands between the sign and its number
  have htwo : Written ⟨1, 1, 2⟩ (some .minus)
      [⟨.number, "2", 1, 2, false⟩, ⟨.plus, "+", 1, 4, true⟩, ⟨.number, "3", 1, 6, true⟩,
        ⟨.star, "*", 1, 8, true⟩, ⟨.number, "4", 1, 10, true⟩] "2 + 3 * 4" :=
    @Written.token _ _ [] _ _ _ _ _ nofun (Or.inr (Or.inr ⟨rfl, rfl⟩))
      (.digit (b := 50) (by decide)) hsum
  exact @Written.token _ _ [] _ _ _ _ _ nofun (Or.inl rfl) (.sign hminus) htwo

theorem compileSource_expression_mixed :
    Written .start none Phrase.mixed.tokens "-2 + 3 * 4" ∧
      ∃ p n, compileSource none 7 "-2 + 3 * 4" = .ok p ∧
        0 < Options.standard.maxDepth ∧
        ∀ (m : Machine) (k : Nat), n ≤ k →
          (Entry.run.performFor ⟨p, none, .standard⟩ k m).1 = .ok (.int 4) := by
  obtain ⟨p, n, hcompiled, hrun⟩ := compileSource_expression none 7 Phrase.mixed_written
  have hdepth : 0 < Options.standard.maxDepth := by decide
  refine ⟨Phrase.mixed_written, p, n, hcompiled, hdepth, fun m k hk => ?_⟩
  obtain ⟨hsteps, -⟩ := hrun ⟨p, none, .standard⟩ m rfl hdepth
  have hvalue : Phrase.mixed.value (m.host.nextId + 1) = .ok (.int 4) := by
    rfl
  exact ((hsteps k hk).value _).2 hvalue

end ScriptMachine
