import ScriptMachine.Proofs.Compiler.Declarations
import ScriptMachine.Compiler.Source

set_option autoImplicit false

/-!
# Compiled programs are well-formed

Every statement leaves its value in a register, so by induction on the depth of the recursion the
whole grammar does. When the top level is closed nothing is left that waits for an operation.
-/
namespace ScriptMachine

namespace Compile

variable {d₀ d d' : Draft} {held : List Register} {owed unmade : List Nat} {g : Grammar}

theorem binding_yields (hg : Faithful g) (isMutable : Bool) : Yields (binding g isMutable) := by
  refine silent_advance.leaves fun keyword => (silent_expect _ _).leaves fun name => ?_
  refine (silent_expect _ _).leaves fun _ d owed unmade h => ?_
  refine (guardedExpression_yields hg).bind (Reached.refl h) fun value d₁ h₁ => ?_
  have hrest : ∀ d₂, Reached d d₂ [value] owed unmade → Post (do
      declare name.text isMutable
      return value) d₂ fun r d' => Reached d d' [r] owed unmade := fun d₂ h₂ =>
    (discreet_declare _ _).then fun _ d₃ u₃ => Ensures.pure (h₂.silent u₃)
  cases isMutable with
  | true =>
    exact effect_bind h₁ (by simp [Operation.reads, Known]) rfl ⟨rfl, rfl, rfl, trivial⟩ hrest
  | false =>
    exact effect_bind h₁ (by simp [Operation.reads, Known]) rfl ⟨rfl, rfl, rfl, trivial⟩ hrest

theorem assignment_yields (hg : Faithful g) : Yields (assignment g) := by
  refine silent_advance.leaves fun name => silent_advance.leaves fun _ => ?_
  refine (discreet_lookup _).leaves fun found => ?_
  cases found with
  | some info =>
    dsimp only
    split
    · exact fun _ _ _ _ => trivial
    intro d owed unmade h
    refine (guardedExpression_yields hg).bind (Reached.refl h) fun value d₁ h₁ => ?_
    exact effect_bind h₁ (by simp [Operation.reads, Known]) rfl ⟨rfl, rfl, rfl, trivial⟩
      fun d₂ h₂ => Ensures.pure h₂
  | none =>
    intro d owed unmade h
    refine (guardedExpression_yields hg).bind (Reached.refl h) fun value d₁ h₁ => ?_
    refine effect_bind h₁ (by simp [Operation.reads, Known]) rfl ⟨rfl, rfl, rfl, trivial⟩ ?_
    exact fun d₂ h₂ => (discreet_declare _ _).then fun _ d₃ u₃ => Ensures.pure (h₂.silent u₃)

theorem compoundAssignment_yields (hg : Faithful g) (op : BinaryOp) :
    Yields (compoundAssignment g op) := by
  refine silent_advance.leaves fun name => silent_advance.leaves fun sign => ?_
  refine (discreet_lookup _).leaves fun found => ?_
  cases found with
  | none => exact fun _ _ _ _ => trivial
  | some info =>
    dsimp only
    split
    · exact fun _ _ _ _ => trivial
    intro d owed unmade h
    refine output_post (Reached.refl h) (by simp [Operation.reads]) (fun _ => rfl)
      (fun _ => ⟨rfl, rfl, rfl, trivial⟩) fun current d₁ h₁ => ?_
    refine (guardedExpression_yields hg).bind h₁ fun right d₂ h₂ => ?_
    refine output_post h₂ (by simp [Operation.reads, Known]) (fun _ => rfl)
      (fun _ => ⟨rfl, rfl, rfl, trivial⟩) fun out d₃ h₃ => ?_
    exact effect_bind h₃ (by simp [Operation.reads, Known]) rfl ⟨rfl, rfl, rfl, trivial⟩
      fun d₄ h₄ => Ensures.pure (h₄.weaken (by simp))

theorem outward_post {op : List Register → Operation} {site : Token} {values : List Register}
    (h : Reached d₀ d values owed unmade) (hreads : (op values).reads = values)
    (hout : (op values).out? = none)
    (hplain : (op values).entered = [] ∧ (op values).spare = [] ∧ (op values).made = [] ∧
      (op values).Paired) :
    Post (do emit (op values) site; return noneRegister) d fun r d' =>
      Reached d₀ d' [r] owed unmade := by
  refine effect_bind h (fun r hr => Or.inr (hreads ▸ hr)) hout hplain fun d₁ h₁ => Ensures.pure ?_
  exact (h₁.hold (known_none _)).weaken (by simp)

theorem putsStatement_yields (hg : Faithful g) (keyword : Token) :
    Yields (putsStatement g keyword) := by
  refine silent_startsOperand.leaves fun found d owed unmade h => ?_
  refine Ensures.ite_bind (R := fun values d' => Reached d d' values owed unmade) ?_
    fun values d₁ h₁ => outward_post h₁ rfl rfl ⟨rfl, rfl, rfl, trivial⟩
  split
  · exact items_leave hg d owed unmade h
  · exact Ensures.pure (Reached.refl h)

theorem logStatement_yields (hg : Faithful g) (keyword : Token) :
    Yields (logStatement g keyword) := by
  refine (silent_expect _ _).leaves fun levelToken => ?_
  split
  · exact fun _ _ _ _ => trivial
  refine (silent_expect _ _).leaves fun _ => (silent_expect _ _).leaves fun template => ?_
  refine (silent_accept _).leaves fun found d owed unmade h => ?_
  refine Ensures.ite_bind (R := fun values d' => Reached d d' values owed unmade) ?_
    fun values d₁ h₁ => outward_post h₁ rfl rfl ⟨rfl, rfl, rfl, trivial⟩
  split
  · exact items_leave hg d owed unmade h
  · exact Ensures.pure (Reached.refl h)

theorem simpleStatement_yields (hg : Faithful g) : Yields (simpleStatement g) := by
  refine silent_peek.leaves fun t d owed unmade h => ?_
  refine Ensures.run (codeSize_eq d) ?_
  have hguards : ∀ value d₁, Reached d d₁ [value] owed unmade →
      Post (guards g d.code.length value) d₁ fun r d' => Reached d d' [r] owed unmade :=
    fun value d₁ h₁ => guards_post hg h₁ rfl
  refine (silent_accept _).then fun puts d₁ u₁ => ?_
  have h₁ := (Reached.refl h).silent u₁
  dsimp only
  split
  · exact (putsStatement_yields hg t).bind h₁ hguards
  refine (silent_accept _).then fun log d₂ u₂ => ?_
  split
  · exact (logStatement_yields hg t).bind (h₁.silent u₂) hguards
  · exact hg.expression.bind (h₁.silent u₂) hguards

theorem topLevel_yields {declaration : Compile Unit} (site : Token) (what : Text)
    (hd : Leaves (fun _ => []) declaration) : Yields (topLevel site what declaration) := by
  refine (silent_requireTopLevel _ _).leaves fun _ d owed unmade h => ?_
  refine Ensures.bind (hd d owed unmade h) fun _ d₁ h₁ => Ensures.pure ?_
  exact h₁.hold (known_none _)

theorem statement_yields (hg : Faithful g) : Yields (statement g) := by
  refine silent_peek.leaves fun t => ?_
  split
  · exact binding_yields hg false
  · exact binding_yields hg true
  · refine silent_atTopLevel.leaves fun top => ?_
    split
    · intro d owed unmade h
      refine Ensures.bind (functionDefinition_leaves hg d owed unmade h) fun _ d₁ h₁ => ?_
      exact Ensures.pure (h₁.hold (known_none _))
    · exact nestedFunction_yields hg
  · exact topLevel_yields _ _ (functionDefinition_leaves hg)
  · exact topLevel_yields _ _ (traitDeclaration_leaves hg)
  · exact topLevel_yields _ _ (implBlock_leaves hg)
  · exact topLevel_yields _ _ (objectDeclaration_leaves hg)
  · exact topLevel_yields _ _ importStatement_leaves
  · refine (silent_peekAt 1).leaves fun next => ?_
    split
    · exact assignment_yields hg
    · split
      · exact compoundAssignment_yields hg _
      · exact simpleStatement_yields hg
  · exact simpleStatement_yields hg

theorem grammar_faithful (depth : Nat) : Faithful (grammar depth) := by
  induction depth with
  | zero => exact ⟨fun _ _ _ _ => trivial, fun _ _ _ _ => trivial, fun _ _ _ _ => trivial⟩
  | succ depth ih => exact ⟨expression_yields ih, operand_yields ih, statement_yields ih⟩

/-- The top level of an empty program is a main scope with nothing in it. -/
theorem sound_main {p : Program} {s : Scope} (hscopes : p.scopes = #[s]) (hkind : s.kind = .main)
    (hcode : s.operations = []) (hcount : s.registerCount = firstScratch)
    (hfunctions : p.modules.functions = []) (hclosures : p.closures = #[]) : p.Sound [0] [] [] := by
  have hops : p.operations = [] := by simp [Program.operations, hscopes, hcode]
  have hk : ∀ kind i, p.HasKind kind i → i = 0 ∧ kind = .main := by
    intro kind i hi
    rcases i with _ | i
    · exact ⟨rfl, by simpa [Program.HasKind, hscopes, hkind] using hi.symm⟩
    · simp [Program.HasKind, hscopes] at hi
  refine ⟨by simp, rfl, by simp [hscopes], fun i => ⟨fun hi => (hk _ i hi).1, ?_⟩, ?_, ?_, ?_, ?_,
    ?_, by simp [hops], by simp [hfunctions], by simp [hclosures], by simp, by simp, ?_,
    by simp [hclosures]⟩
  · rintro rfl
    simp [Program.HasKind, hscopes, hkind]
  · simp [hscopes, hcode, Defined]
  · simp [hscopes, hcode, Laid.nil]
  · simp [hscopes, Scope.WritesAllotted, hcode]
  · simp [hscopes, hcount]
  · intro i t ht hi
    rcases i with _ | i
    · simp at hi
    · simp [hscopes] at ht
  · intro i hi
    cases (hk _ i hi).2

/-- With only the top level open, ended by a halt, and nothing that waits, the program is done. -/
theorem wellFormed_of_sound (h : d.Sound [] []) (hopened : d.openScopes = [0]) {r : Register}
    (hhalt : d.code.getLast? = some (.halt r)) : d.program.WellFormed := by
  have hs : d.program.Sound [0] [] [] := hopened ▸ h
  have hcurrent : d.current = 0 := by simp [Draft.current, hopened]
  have hscope := scope_eq h
  rw [hcurrent] at hscope
  have hkind : d.scope.kind = .main := by
    simpa [Program.HasKind, hscope] using (hs.main 0).2 rfl
  refine ⟨⟨d.scope, r, hscope, hkind, hhalt⟩, fun i s hi hne => hs.ends i s hi (by simpa using hne),
    fun s hm => Scope.readsDefined_of_defined (hs.defined s hm.val), fun s hm => hs.writes s hm.val,
    hs.admits, hs.functions, hs.closures, fun i hi => ?_, fun j hj => by simpa using hs.made j hj⟩
  -- a block is not the top level, so it is entered and not open
  have hne : i ≠ 0 := by
    rintro rfl
    have hmain := (hs.main 0).2 rfl
    unfold Program.HasKind at hi hmain
    rw [hi] at hmain
    cases hmain
  have hentered := hs.entered i hi
  simpa [List.count_cons, Ne.symm hne] using hentered

theorem wholeProgram_post (hg : Faithful g) (hscopes : d.program.scopes = #[])
    (hfunctions : d.program.modules.functions = []) (hclosures : d.program.closures = #[])
    (hopened : d.opened = []) :
    Post (wholeProgram g) d fun _ d' =>
      d'.program.WellFormed ∧ d'.program.id = d.program.id ∧
        ∀ s ∈ d'.program.scopes.toList, Laid s.operations := by
  refine silent_peek.then fun t d₁ u₁ => ?_
  refine Ensures.bind (R := fun _ d₂ => d₂.Sound [] [] ∧ d₂.openScopes = [0] ∧
    d₂.program.id = d.program.id) ?_ fun _ d₂ h₂ => ?_
  · refine Ensures.intro (fun i d₂ hr => ?_) fun _ _ _ => trivial
    cases hr
    have hempty : d₁.opened = [] := by simpa [hopened] using u₁.opened
    have hnumber : d₁.program.scopes.size = 0 := by simp [u₁.program, hscopes]
    have hstack : (d₁.program.scopes.size :: d₁.opened.map (·.scope)) = [0] := by
      simp [hempty, hnumber]
    have hsame : d₁.program.id = d.program.id := congrArg Program.id u₁.program
    refine ⟨?_, hstack, hsame⟩
    change Program.Sound _ (d₁.program.scopes.size :: d₁.opened.map (·.scope)) [] []
    rw [hstack]
    exact sound_main (s := ⟨"<main>", .main, [], #[], firstScratch, place t, [], none⟩)
      (by simp [u₁.program, hscopes]) rfl rfl rfl (by simp [u₁.program, hfunctions])
      (by simp [u₁.program, hclosures])
  refine (block_yields hg []).bind (Reached.refl h₂.1) fun last d₃ h₃ => ?_
  refine silent_isAtEnd.then fun atEnd d₄ u₄ => ?_
  split
  · refine silent_peek.then fun t d₅ u₅ => ?_
    have h₅ := (h₃.silent u₄).silent u₅
    have hfits : Fits d₅ [last] [] [] [] [] (.halt last) := by
      refine Fits.plain ?_ (by simp [Operation.out?]) rfl rfl rfl trivial
      simp [Operation.reads, Known]
    refine Ensures.bind (emit_post h₅ hfits) fun _ d₆ h₆ => Ensures.change ?_
    have hhalt : d₆.code.getLast? = some (.halt last) := by rw [h₆.2.1, List.getLast?_concat]
    exact ⟨wellFormed_of_sound (d := d₆) h₆.1.sound (h₆.1.opened.trans h₂.2.1) hhalt,
      h₆.1.identity.trans h₂.2.2, h₆.1.sound.laid⟩
  · exact silent_peek.then fun _ _ _ => trivial

end Compile

/-- Whatever compiles is well-formed, has the identity that it was to have, and takes its registers in
order. -/
theorem compileTokens_post {builtins : Option Registry} {id : Nat} {tokens : List Token}
    {p : Program} (h : compileTokens builtins id tokens = .ok p) :
    p.WellFormed ∧ p.id = id ∧ ∀ s ∈ p.scopes.toList, Laid s.operations := by
  unfold compileTokens at h
  dsimp only at h
  split at h
  · rename_i d hd
    cases h
    exact (Compile.wholeProgram_post (Compile.grammar_faithful _) rfl rfl rfl rfl).of_ok hd
  · cases h

theorem compileTokens_wellFormed {builtins : Option Registry} {id : Nat} {tokens : List Token}
    {p : Program} (h : compileTokens builtins id tokens = .ok p) : p.WellFormed :=
  (compileTokens_post h).1

theorem compileSource_tokens {builtins : Option Registry} {id : Nat} {source : Text} {p : Program}
    (h : compileSource builtins id source = .ok p) :
    ∃ tokens, compileTokens builtins id tokens = .ok p := by
  unfold compileSource at h
  split at h
  · exact ⟨_, h⟩
  · cases h

theorem compileSource_wellFormed {builtins : Option Registry} {id : Nat} {source : Text}
    {p : Program} (h : compileSource builtins id source = .ok p) : p.WellFormed := by
  obtain ⟨tokens, htokens⟩ := compileSource_tokens h
  exact compileTokens_wellFormed htokens

theorem compileSource_id {builtins : Option Registry} {id : Nat} {source : Text} {p : Program}
    (h : compileSource builtins id source = .ok p) : p.id = id := by
  obtain ⟨tokens, htokens⟩ := compileSource_tokens h
  exact (compileTokens_post htokens).2.1

theorem compileSource_laid {builtins : Option Registry} {id : Nat} {source : Text} {p : Program}
    (h : compileSource builtins id source = .ok p) : ∀ s ∈ p.scopes.toList, Laid s.operations := by
  obtain ⟨tokens, htokens⟩ := compileSource_tokens h
  exact (compileTokens_post htokens).2.2

/-- A source with chained trailing conditions, fused comparisons, a comprehension and a closure. -/
def guardedSource : Text :=
  "fn f(x) = x + 1 if x == 1 unless x != 2\nputs [for y in 0..3: f(y)], |z| z"

theorem guardedSource_wellFormed :
    ∃ p, compileSource none 0 guardedSource = .ok p ∧ p.WellFormed := by
  have hok : (compileSource none 0 guardedSource).toBool = true := by decide +kernel
  cases hp : compileSource none 0 guardedSource with
  | ok p => exact ⟨p, rfl, compileSource_wellFormed hp⟩
  | error e =>
    rw [hp] at hok
    cases hok

end ScriptMachine
