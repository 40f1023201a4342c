import ScriptMachine.Proofs.Compiler.Compiled
import ScriptMachine.Proofs.Machine.Comparing

set_option autoImplicit false

/-!
# Fused comparisons

The compiler takes a comparison at the end of a condition back and emits a copy of none and a call that
compares in its place. Both ways of branching come to the same, apart from the register of the
comparison, and in a compiled program no operation touches that.
-/
namespace ScriptMachine

namespace Compile

variable {d : Draft} {op : BinaryOp} {left right condition out : Register} {first : Location}
  {front : Array Instruction}

theorem rewrite_congr (hscope : d.program.scopes[d.current]? = some d.scope) {f g : Scope → Scope}
    (h : f d.scope = g d.scope) : d.rewrite f = d.rewrite g := by
  unfold Draft.rewrite
  simp only [Draft.mk.injEq, Program.mk.injEq, true_and, and_true]
  refine Array.ext_getElem? fun i => ?_
  simp only [Array.getElem?_modify]
  split
  · subst i
    rw [hscope, Option.map_some, Option.map_some, h]
  · rfl

/-- A copy of none, and a call that compares. -/
def fusedPair (equal : Bool) (left right : Register) (scope : Nat) (out : Register) (l : Location) :
    Array Instruction :=
  #[⟨.copy noneRegister out, l⟩, ⟨.callCompared equal left right (some scope) out, l⟩]

theorem equalityBranch_run (hscope : d.program.scopes[d.current]? = some d.scope)
    (hop : op = .eq ∨ op = .neq)
    (hcode : d.scope.code = front.push ⟨.binary op left right condition, first⟩) (truth : Bool)
    (scope : Nat) (out : Register) (site : Token) :
    equalityBranch condition truth scope out site d = .ok true (d.rewrite fun s =>
      { s with code := front ++ fusedPair ((op = .eq : Bool) == truth) left right scope out (place site) }) := by
  have hmatch : (decide (condition = condition) && (decide (op = .eq) || decide (op = .neq))) = true := by
    rcases hop with rfl | rfl <;> simp
  have hdrop : modifyScope d.current dropLast d = .ok () (d.rewrite dropLast) := rfl
  unfold equalityBranch
  rw [run_bind (currentScope_eq d), run_bind (show scopeAt d.current d = .ok d.scope d from rfl), hcode,
    Array.back?_push]
  dsimp only
  rw [if_pos hmatch]
  refine (run_bind hdrop).trans ?_
  rw [run_bind (emit_run _ _ _), run_bind (emit_run _ _ _), rewrite_rewrite, rewrite_rewrite]
  refine congrArg (EStateM.Result.ok true) (rewrite_congr hscope ?_)
  simp only [Function.comp, append, dropLast, fusedPair, hcode, Array.pop_push]
  rfl

end Compile

/-- The register of a call that compares has been set to none right before, and no operation touches any
register in which the comparison may have been. -/
theorem compileSource_vacant {builtins : Option Registry} {id : Nat} {source : Text} {p : Program}
    (h : compileSource builtins id source = .ok p) {s : Scope} (hs : s ∈ p.scopes.toList)
    {before after : List Operation} {equal : Bool} {left right out : Register} {target : Target}
    (hops : s.operations = before ++ .callCompared equal left right target out :: after) :
    ∃ front, before = front ++ [.copy noneRegister out] ∧ out < s.registerCount ∧
      (∃ condition, Vacant front left right out condition) ∧
      ∀ condition, Vacant front left right out condition →
        ∀ op ∈ s.operations, op.out? ≠ some condition ∧ condition ∉ op.reads := by
  have hwell := compileSource_wellFormed h
  have hlaid := compileSource_laid h s hs
  cases hlaid before _ after hops with
  | fresh hop _ => cases hop
  | compared hbefore hvacant =>
    rename_i front condition
    refine ⟨front, hbefore, ?_, ⟨condition, hvacant⟩, fun q hq => ?_⟩
    · have hmem : Operation.callCompared equal left right target out ∈ s.operations := by simp [hops]
      exact (hwell.writes s (Array.mem_toList_iff.1 hs) _ hmem out rfl).2
    · have hsplit : s.operations =
          front ++ .copy noneRegister out :: .callCompared equal left right target out :: after := by
        rw [hops, hbefore, List.append_assoc]
        rfl
      exact hlaid.untouched (hwell.reads s (Array.mem_toList_iff.1 hs)).known hsplit hq

/-- Branching on a comparison for equality, and copying none and calling with a comparison, come to the
same. The compiler replaces the one by the other at the end of the code that it has written, and nothing
else. In what it compiles no operation reads or writes the register that the comparison had. -/
theorem fused_comparison_agrees :
    (∀ (s : Setup) (m : Machine) (f : Frame) (rest : List Frame) (op : BinaryOp) (test : Operation)
      (truth : Bool) (left right condition out : Register) (scope : Nat) (a b : Value)
      (first first' place : Location),
      op = .eq ∨ op = .neq → test.BranchesOn truth condition (some scope) out →
      m.frames = f :: rest → f.Reserved → f.registers[left]? = some a → f.registers[right]? = some b →
      f.Writable condition → f.Writable out → out ≠ left → out ≠ right →
      place.known = true ∨ first = first' →
      Branches s f rest condition (some scope) out ((a.looseEquals b == (op = .eq : Bool)) == truth)
        (Exec.carryOut s [⟨.binary op left right condition, first⟩, ⟨test, place⟩] m)
        (Exec.carryOut s [⟨.copy noneRegister out, first'⟩,
          ⟨.callCompared ((op = .eq : Bool) == truth) left right (some scope) out, place⟩] m)) ∧
    (∀ (d : Draft) (op : BinaryOp) (truth : Bool) (left right condition out : Register) (scope : Nat)
      (front : Array Instruction) (first : Location) (site : Token),
      d.program.scopes[d.current]? = some d.scope → op = .eq ∨ op = .neq →
      d.scope.code = front.push ⟨.binary op left right condition, first⟩ →
      Compile.equalityBranch condition truth scope out site d = .ok true (d.rewrite fun s => { s with
        code := front ++
          Compile.fusedPair ((op = .eq : Bool) == truth) left right scope out (Compile.place site) }) ∧
      ∀ owed unmade, d.Sound owed unmade → d.Free out →
        Vacant (front.toList.map Instruction.operation) left right out condition) ∧
    ∀ (builtins : Option Registry) (id : Nat) (source : Text) (p : Program),
      compileSource builtins id source = .ok p → ∀ s ∈ p.scopes.toList,
      ∀ (before after : List Operation) (equal : Bool) (left right out : Register) (target : Target),
      s.operations = before ++ .callCompared equal left right target out :: after →
      ∃ front, before = front ++ [.copy noneRegister out] ∧ out < s.registerCount ∧
        (∃ condition, Vacant front left right out condition) ∧
        ∀ condition, Vacant front left right out condition →
          ∀ op ∈ s.operations, op.out? ≠ some condition ∧ condition ∉ op.reads := by
  refine ⟨?_, ?_, ?_⟩
  · intro s m f rest op test truth left right condition out scope a b first first' place hop htest hf
      hreserved ha hb hcondition hout hleft hright hplace
    exact Exec.comparison_branches hop htest hf hreserved ha hb hcondition hout hleft hright hplace
  · intro d op truth left right condition out scope front first site hscope hop hcode
    refine ⟨Compile.equalityBranch_run hscope hop hcode truth scope out site, ?_⟩
    intro owed unmade hsound hfree
    have hlast : d.code = front.toList.map Instruction.operation ++ [.binary op left right condition] := by
      simp [Draft.code, Scope.operations, hcode]
    exact Compile.vacant_of_last hsound hlast hfree
  · intro builtins id source p h s hs before after equal left right out target hops
    exact compileSource_vacant h hs hops

/-- A frame with two equal operands, and a register each for the comparison and the result. -/
def comparingFrame : Frame where
  scope := 0
  pc := 0
  registers := #[.none, .int 1, .int 5, .int 5, .none, .none]
  bindings := []
  parent := none
  out := noneRegister
  handler := none
  owned := []
  borrow := none
  function := none
  memoKey := none
  loop := none

theorem guardedSource_fused : ∃ p, compileSource none 0 guardedSource = .ok p ∧
    (∃ s ∈ p.scopes.toList, ∃ condition, firstScratch ≤ condition ∧ condition < s.registerCount ∧
      (s.operations.any Operation.compares ∧
        ∀ op ∈ s.operations, op.out? ≠ some condition ∧ condition ∉ op.reads)) ∧
    ∀ host, Branches ⟨p, none, .standard⟩ comparingFrame [] 4 (some 1) 5 false
      (Exec.carryOut ⟨p, none, .standard⟩ [⟨.binary .eq 2 3 4, ⟨1, 1⟩⟩, ⟨.branch false 4 (some 1) 5, ⟨1, 1⟩⟩]
        { Machine.initial host with frames := [comparingFrame] })
      (Exec.carryOut ⟨p, none, .standard⟩ [⟨.copy noneRegister 5, ⟨1, 1⟩⟩,
        ⟨.callCompared false 2 3 (some 1) 5, ⟨1, 1⟩⟩]
        { Machine.initial host with frames := [comparingFrame] }) := by
  have hok : ((compileSource none 0 guardedSource).toOption.any fun p =>
      p.scopes.toList.any fun s => s.operations.any Operation.compares) = true := by decide +kernel
  obtain ⟨p, hp, hfused⟩ := (Option.any_eq_true _ _).1 hok
  obtain ⟨s, hs, hcompares⟩ := List.any_eq_true.1 hfused
  obtain ⟨op, hop, hop'⟩ := List.any_eq_true.1 hcompares
  obtain ⟨equal, left, right, target, out, rfl⟩ := Operation.eq_of_compares hop'
  obtain ⟨before, after, hsplit⟩ := List.append_of_mem hop
  have hcompiled : compileSource none 0 guardedSource = .ok p := by
    cases h : compileSource none 0 guardedSource with
    | ok q =>
      rw [h] at hp
      cases hp
      rfl
    | error e =>
      rw [h] at hp
      cases hp
  refine ⟨p, hcompiled, ⟨s, hs, ?_⟩, fun host => ?_⟩
  · obtain ⟨front, -, hout, ⟨condition, hvacant⟩, huntouched⟩ :=
      fused_comparison_agrees.2.2 none 0 guardedSource p hcompiled s hs before after equal left right out
        target hsplit
    exact ⟨condition, hvacant.scratch, Nat.lt_trans hvacant.out hout, hcompares,
      huntouched condition hvacant⟩
  · exact fused_comparison_agrees.1 ⟨p, none, .standard⟩ { Machine.initial host with frames := [comparingFrame] }
      comparingFrame [] .eq (.branch false 4 (some 1) 5) false 2 3 4 5 1 (.int 5) (.int 5) ⟨1, 1⟩ ⟨1, 1⟩
      ⟨1, 1⟩ (.inl rfl) .branch rfl ⟨rfl, rfl⟩ rfl rfl ⟨by decide, by decide⟩ ⟨by decide, by decide⟩
      (by decide) (by decide) (.inl rfl)

end ScriptMachine
