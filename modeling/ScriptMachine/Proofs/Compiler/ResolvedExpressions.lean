import ScriptMachine.Proofs.Compiler.Resolution
import ScriptMachine.Proofs.Compiler.Expressions

set_option autoImplicit false

namespace ScriptMachine

namespace Compile

variable {bound : List (List Text)} {d₀ d d₁ d₂ d' : Draft} {g : Grammar} {j : Nat}

theorem pairBody_composes (hg : Resolving g) (site : Token) : Follows Composes (pairBody g site) := by
  refine composes_of fun bound d ht => Ensures.run (codeSize_eq d) ?_
  refine (Composed.refl ht).next hg.expression fun key d₁ c₁ _ => ?_
  have hpair : ∀ entry d₂, Composed bound d d₂ → Post (do
      let value ← alloc
      emit (.makeList [key, entry] value) site
      guards g d.code.length value) d₂ fun _ d' => Composed bound d d' := by
    intro entry d₂ c₂
    refine c₂.next alloc_follows fun value d₃ c₃ _ => ?_
    refine c₃.next (emit_follows (Operation.Bare.plain ⟨rfl, rfl, rfl, rfl⟩ rfl) site) ?_
    exact fun _ d₄ c₄ _ => guards_since hg c₄ value
  refine c₁.next (silent_accept _).follows fun comma d₂ c₂ _ => ?_
  dsimp only
  split
  · refine c₂.next silent_skipNewlines.follows fun _ d₃ c₃ _ => ?_
    exact c₃.next hg.expression fun entry d₄ c₄ _ => hpair entry d₄ c₄
  · exact Ensures.pure_bind (hpair key d₂ c₂)

theorem loopVariables_length (d : Draft) :
    Post loopVariables d fun names _ => names.length ≤ 2 := by
  refine (silent_expect _ _).then fun first d₁ _ => (silent_accept _).then fun comma d₂ _ => ?_
  split
  · refine (silent_expect _ _).then fun second d₃ _ => ?_
    split
    · exact trivial
    · exact Ensures.pure (Nat.le_refl 2)
  · exact Ensures.pure (by simp)

/-- The body of a comprehension knows the loop variables, all of which are bound for each element. -/
theorem comprehension_composes (hg : Resolving g) (site : Token) (toMap : Bool) :
    Follows Composes (comprehension g site toMap) := by
  refine composes_of fun bound d ht => ?_
  refine (Composed.refl ht).next silent_advance.follows fun _ d₁ c₁ _ => ?_
  refine Ensures.bind (post_both (loopVariables_length d₁) (silent_loopVariables d₁))
    fun names d₂ h₂ => ?_
  have c₂ := c₁.trans (still_composed c₁.tidy h₂.2)
  refine c₂.next (silent_expect _ _).follows fun _ d₃ c₃ _ => ?_
  refine c₃.next hg.expression fun source d₄ c₄ _ => ?_
  refine c₄.next (silent_expect _ _).follows fun _ d₅ c₅ _ => ?_
  refine c₅.next silent_skipNewlines.follows fun _ d₆ c₆ _ => ?_
  refine Ensures.bind (openScope_fresh _ _ _ _ _) fun i d₇ h₇ => ?_
  obtain ⟨rfl, h₇⟩ := h₇
  refine Ensures.bind (R := fun _ d₈ => Fresh d₆ d₈ false false names none [])
    (h₇.describe (fun _ => rfl) (fun _ _ => rfl) fun _ => id) fun _ d₈ h₈ => ?_
  refine Ensures.bind (h₈.declareAll id names) fun _ d₉ h₉ => ?_
  have h₉ : Fresh d₆ d₉ false false names none names := h₉.congr (by simp)
  have hbody : Follows Composes (if toMap then pairBody g site else guardedExpression g) := by
    split
    · exact pairBody_composes hg site
    · exact guardedExpression_composes hg
  refine Ensures.ite_bind ((Composed.refl (h₉.tidy c₆.tidy)).after hbody) fun value d₁₀ c₁₀ => ?_
  refine c₁₀.next silent_peek.follows fun t d₁₁ c₁₁ _ => ?_
  refine c₁₁.toGrown.next (return_grows _ _) fun _ d₁₂ c₁₂ => ?_
  have hnames : List.take 2 names = names := List.take_of_length_le h₂.1
  refine Ensures.bind (h₉.ready c₆.tidy c₁₂ hnames) fun _ d₁₃ h₁₃ => ?_
  refine (c₆.trans h₁₃.1).next silent_skipNewlines.follows fun _ d₁₄ c₁₄ e₁₄ => ?_
  refine c₁₄.next alloc_follows fun out d₁₅ c₁₅ e₁₅ => ?_
  have hready := (h₁₃.2.later h₁₃.1.tidy e₁₄).later c₁₄.tidy e₁₅
  refine Ensures.ite_bind (R := fun _ d' => Composed bound d₁₅ d') ?_ fun _ d₁₆ e₁₆ => ?_
  · split
    · exact (Composed.refl c₁₅.tidy).after (silent_expect _ _).follows
    · exact (Composed.refl c₁₅.tidy).after (silent_expect _ _).follows
  refine Ensures.bind ((c₁₅.trans e₁₆).enter site ⟨rfl, rfl, rfl, rfl⟩ ?_) fun _ _ c₁₇ =>
    Ensures.pure c₁₇
  simpa [Operation.entries] using hready.later c₁₅.tidy e₁₆

theorem listLiteral_composes (hg : Resolving g) : Follows Composes (listLiteral g) := by
  refine silent_advance.before fun site => silent_skipNewlines.before fun _ => ?_
  refine (silent_check _).before fun comprehending =>
    Follows.ite (comprehension_composes hg site false) ?_
  refine (itemsUntil_composes _ hg.expression).bind fun items => (silent_expect _ _).before fun _ => ?_
  exact output_follows (fun _ => Operation.Bare.plain ⟨rfl, rfl, rfl, rfl⟩ rfl) site fun out =>
    Follows.pure out

theorem mapEntry_composes (hg : Resolving g) : Follows Composes (mapEntry g) := by
  have hkey : ∀ key, Follows Composes (do
      if ← accept .equal then
        skipNewlines
        return [key, ← g.expression]
      else return [key, key]) := fun key =>
    (silent_accept _).before fun equal => Follows.ite
      (silent_skipNewlines.before fun _ => hg.expression.bind fun _ => Follows.pure _) (Follows.pure _)
  refine silent_peek.before fun t => (silent_peekAt 1).before fun next => Follows.ite ?_ ?_
  · refine silent_advance.before fun name => (loadLiteral_composes ?_ name).bind hkey
    exact fun G => Hereditary.str _
  · exact hg.expression.bind hkey

theorem mapLiteral_composes (hg : Resolving g) : Follows Composes (mapLiteral g) := by
  refine silent_advance.before fun site => silent_skipNewlines.before fun _ => ?_
  refine (silent_check _).before fun comprehending =>
    Follows.ite (comprehension_composes hg site true) ?_
  refine (itemsUntil_composes _ (mapEntry_composes hg)).bind fun pairs => ?_
  refine (silent_expect _ _).before fun _ => ?_
  exact output_follows (fun _ => Operation.Bare.plain ⟨rfl, rfl, rfl, rfl⟩ rfl) site fun out =>
    Follows.pure out

theorem parenthesized_composes (hg : Resolving g) : Follows Composes (parenthesized g) := by
  refine silent_advance.before fun _ => silent_skipNewlines.before fun _ => ?_
  refine hg.expression.bind fun inner => silent_skipNewlines.before fun _ => ?_
  exact (silent_expect _ _).before fun _ => Follows.pure inner

theorem functionStatements_grows (hg : Resolving g) : Follows Grows (functionStatements g) := by
  refine (silent_accept _).before fun equal => Follows.ite ?_ ?_
  · refine silent_previous.before fun t => silent_skipNewlines.before fun _ => ?_
    exact (guardedExpression_composes hg).grows.bind fun value => return_grows value t
  · refine (block_grows hg _).bind fun last => (silent_expect _ _).before fun close => ?_
    exact return_grows last close

theorem Fresh.declareParams {isFunction isClosure : Bool} {selfName : Option Text}
    {names : List Text} (h : Fresh d d₁ isFunction isClosure [] selfName names)
    (params : List Parameter) :
    Post (declareParams d.program.scopes.size params) d₁ fun _ d₂ =>
      Fresh d d₂ isFunction isClosure (params.map (·.name)) selfName
        (params.map (·.name) ++ names) :=
  Ensures.bind (h.describe (fun _ => rfl) (fun _ _ => rfl) fun _ => id) fun _ _ h₂ =>
    h₂.declareAll _ params

/-- A closure of its own may be added to a program in which nothing has its body yet. -/
theorem Finished.addClosure {params : List Text} {selfName : Option Text} {s : Scope}
    {u : OpenScope} {f : Function}
    (h : Finished bound d d' false true params selfName (params ++ selfName.toList) s u)
    (ht : Tidy bound d) (hf : f.isNative = false) (hinert : f.Inert)
    (hscope : f.scope = d.program.scopes.size) (hcaptures : s.captures = u.captures) :
    let d₁ : Draft := { d' with program :=
      { d'.program with closures := d'.program.closures.push f } }
    Composed bound d d₁ ∧ Makeable bound d₁ d'.program.closures.size := by
  intro d₁
  have hlt : f.scope < d'.program.scopes.size := by
    rw [hscope]
    exact (Array.getElem?_eq_some_iff.1 h.scope).1
  have hinventory : d₁.program.Inventory := by
    have hold := h.composed.tidy.inventory
    refine ⟨?_, hold.functionsLt, ?_, hold.functions, ?_, hold.inert.1, ?_⟩
    · intro k hk
      rcases Array.mem_push.1 hk with hk | rfl
      · exact hold.closuresLt k hk
      · exact hlt
    · change ((d'.program.closures.push f).toList.map Function.scope).Nodup
      rw [Array.toList_push, List.map_append, List.map_singleton]
      refine List.nodup_append.2 ⟨hold.closures, by simp, ?_⟩
      intro a ha b hb he
      obtain ⟨k, hk, rfl⟩ := List.mem_map.1 ha
      rw [List.mem_singleton.1 hb, hscope] at he
      exact h.unused k (Array.mem_toList_iff.1 hk) he
    · intro k hk hn c hc
      rcases Array.mem_push.1 hc with hc | rfl
      · exact hold.mixed k hk hn c hc
      · rw [h.composed.registry] at hk
        have := ht.inventory.functionsLt k hk hn
        omega
    · intro k hk
      rcases Array.mem_push.1 hk with hk | rfl
      · exact hold.inert.2 k hk
      · exact hinert
  have hget : ∀ (k : Nat) (c : Function), d'.program.closures[k]? = some c →
      (d'.program.closures.push f)[k]? = some c := by
    intro k c hk
    rw [Array.getElem?_push, if_neg (Nat.ne_of_lt (Array.getElem?_eq_some_iff.1 hk).1)]
    exact hk
  have hl : ScriptMachine.Layered d₁.program d'.opened bound := by
    have hsize : d'.program.scopes.size ≤ d₁.program.scopes.size := Nat.le_refl _
    exact (Layered.congr h.composed.tidy.layered hsize fun _ _ _ => rfl).1
  have e : Composed bound d d₁ := by
    refine composed_of_kept ht hl h.composed.widened h.composed.size h.kept
      (fun k c hk => hget k c (h.composed.closures k c hk)) (fun c hc => ?_) h.composed.registry
      hinventory h.composed.builtins
    rcases Array.mem_push.1 hc with hc | rfl
    · exact h.composed.fresh c hc
    · exact Or.inr (Nat.le_of_eq hscope.symm)
  have hwhole : (d'.whole bound).Within (d₁.whole bound) := by
    have hstanding : (d'.standing bound).Within (d₁.standing bound) :=
      ScriptMachine.Layered.standing_within h.composed.tidy.layered (widened_refl _)
        (fun _ _ _ => rfl) (.refl _)
    exact hstanding.whole (fun _ => .refl _) fun _ => rfl
  have hnames : s.ownNames = params ++ selfName.toList := by
    rw [Scope.ownNames, h.params, h.selfName]
  refine ⟨e, f, s, Array.getElem?_push_size, hscope ▸ h.scope, ?_, ?_⟩
  · rw [hnames, hcaptures]
    intro n hn
    obtain ⟨hnot, x, hx⟩ := h.captures n hn
    exact ⟨hnot, x, hwhole n _ hx⟩
  · have hresolved := h.resolved
    rw [OpenScope.place, h.isFunction, h.isClosure, h.number] at hresolved
    rw [hnames, hcaptures, hscope, e.current]
    exact hresolved.later ⟨fun _ _ _ => rfl, hget⟩ (.closure hwhole _ _ (List.Subset.refl _))

theorem closureBody_composed (hg : Resolving g) (ht : Tidy bound d) {h : Header}
    (hinert : h.signature.Inert) (selfName : Option Text) (isLambda : Bool) :
    Post (closureBody g h selfName isLambda) d fun j d' =>
      Composed bound d d' ∧ Makeable bound d' j := by
  let params : List Text := h.signature.params.map (·.name)
  let names : List Text := params ++ selfName.toList
  let Q : Nat → Draft → Prop := fun i d' => i = d.program.scopes.size ∧ ∃ s u,
    Finished bound d d' false true params selfName names s u ∧ s.captures = u.captures
  refine Ensures.bind (R := Q) ?_ fun i d₃ h₃ => ?_
  · refine within_post ?_ fun d₁ u₁ => ?_
    · rintro i d₂ d₃ u₂ ⟨hi, s, u, hfinished, hcaptures⟩
      exact ⟨hi, s, u, hfinished.still u₂, hcaptures⟩
    refine Ensures.bind (openScope_fresh _ _ _ _ _) fun i d₂ h₂ => ?_
    obtain ⟨rfl, h₂⟩ := h₂
    have h₂ := h₂.since u₁
    rw [u₁.program]
    refine Ensures.bind (R := fun _ d₃ => Fresh d d₃ false true [] selfName [])
      (h₂.describe (fun _ => rfl) (fun _ => id) fun _ _ => rfl) fun _ d₃ h₃ => ?_
    have hclose : ∀ d₅ d₆, Fresh d d₅ false true params selfName names →
        Grown (names :: bound) d₅ d₆ → Post (do
          let captures := ((← get).opened.head?.map (·.captures)).getD []
          modifyScope d.program.scopes.size fun s => { s with captures }
          closeScope
          return d.program.scopes.size) d₆ Q := by
      intro d₅ d₆ h₅ c₆
      have hcurrent : d.program.scopes.size = d₆.current := (c₆.current.trans h₅.current).symm
      have c₇ := c₆.trans (describe_composed (g := fun s : Scope => { s with
        captures := (d₆.opened.head?.map (·.captures)).getD [] }) c₆.tidy rfl rfl rfl).toGrown
      obtain ⟨u, hu, hfinished⟩ := h₅.close ht c₇
      refine Ensures.get_bind (Ensures.change_bind (Ensures.change_bind (Ensures.pure ?_)))
      rw [hcurrent]
      refine ⟨hcurrent.symm, _, u, hfinished, ?_⟩
      have hu : d₆.opened.head? = some u := hu
      rw [rewritten_scope c₆.tidy.layered, hu]
      rfl
    have hbody : ∀ d₄, Fresh d d₄ false true [] selfName selfName.toList → Post (do
        declareParams d.program.scopes.size h.signature.params
        if isLambda then
          let value ← guardedExpression g
          emit (.ret value) h.token
        else functionStatements g
        let captures := ((← get).opened.head?.map (·.captures)).getD []
        modifyScope d.program.scopes.size fun s => { s with captures }
        closeScope
        return d.program.scopes.size) d₄ Q := by
      intro d₄ h₄
      refine Ensures.bind (h₄.declareParams _) fun _ d₅ h₅ => ?_
      have c₅ := (Composed.refl (h₅.tidy ht)).toGrown
      dsimp only
      split
      · refine c₅.next (guardedExpression_composes hg).grows fun value d₆ c₆ => ?_
        exact c₆.next (return_grows _ _) fun _ d₇ c₇ => hclose d₅ d₇ h₅ c₇
      · exact c₅.next (functionStatements_grows hg) fun _ d₆ c₆ => hclose d₅ d₆ h₅ c₆
    cases selfName with
    | some n => exact Ensures.bind (h₃.declareAs n _) fun _ d₄ h₄ => hbody d₄ h₄
    | none => exact Ensures.pure_bind (hbody d₃ h₃)
  · obtain ⟨rfl, s, u, hfinished, hcaptures⟩ := h₃
    have hadd := hfinished.addClosure (f := h.interpreted d.program.scopes.size) ht rfl
      ⟨hinert, nofun⟩ rfl hcaptures
    exact Ensures.get_bind (Ensures.change_bind (Ensures.pure hadd))

theorem Composed.make (c : Composed bound d₀ d) (h : Makeable bound d j) (out : Register)
    (site : Token) :
    Post (emit (.makeClosure j out) site) d fun _ d' => Composed bound d₀ d' :=
  (emit_composed c.tidy site rfl (resolved_of_makeable h)).imp fun _ _ h' => c.trans h'

theorem lambda_composes (hg : Resolving g) : Follows Composes (lambda g) := by
  refine composes_of fun bound d ht => ?_
  refine (Composed.refl ht).next silent_advance.follows fun token d₁ c₁ _ => ?_
  refine Ensures.ite_bind (R := fun params d' =>
    (∀ p ∈ params, Parameter.Literal p) ∧ Composed bound d d') ?_ fun params d₂ h₂ => ?_
  · split
    · exact (post_both (parameterList_literal _ _ d₁) (c₁.after (silent_parameterList _ _).follows))
    · exact Ensures.pure ⟨List.forall_mem_nil _, c₁⟩
  have hinert : Signature.Inert ⟨params, .any, none, false⟩ := fun p hp => (h₂.1 p hp).inert
  refine Ensures.bind (closureBody_composed hg h₂.2.tidy hinert none true) fun j d₃ h₃ => ?_
  refine (h₂.2.trans h₃.1).next alloc_follows fun out d₄ c₄ e₄ => ?_
  exact Ensures.bind (c₄.make (h₃.2.later h₃.1.tidy e₄) out token) fun _ d₅ c₅ => Ensures.pure c₅

theorem call_composes (hg : Resolving g) {op : List Register → Register → Operation}
    (hop : ∀ args out, (op args out).Bare) (he : ∀ args out, (op args out).entries = [])
    (site : Token) : Follows Composes (do
      let args ← callArguments g
      let out ← alloc
      emit (op args out) site
      return (⟨out, none⟩ : Operand)) :=
  (callArguments_composes hg).bind fun args =>
    output_follows (fun out => (hop args out).plain (he args out)) site fun _ => Follows.pure _

theorem identifier_composes (hg : Resolving g) : Follows Composes (identifier g) := by
  refine composes_of fun bound d ht => ?_
  refine (Composed.refl ht).next silent_advance.follows fun name d₁ c₁ _ => ?_
  refine Ensures.bind (lookup_composed c₁.tidy name.text) fun found d₂ h₂ => ?_
  have c₂ := c₁.trans h₂.1
  cases found with
  | some info =>
    refine c₂.next alloc_follows fun out d₃ c₃ e₃ => ?_
    have hmeaning := (e₃.whole_within c₂.tidy.layered).isSome (h₂.2 rfl)
    refine Ensures.bind (c₃.use name rfl rfl rfl rfl rfl hmeaning) fun _ d₄ c₄ => ?_
    split
    · exact c₄.after (call_composes hg (fun _ _ => ⟨rfl, rfl, rfl, rfl⟩) (fun _ _ => rfl) name)
    · exact Ensures.pure c₄
  | none =>
    refine c₂.after ((silent_check _).before fun dot => (silent_peekAt 1).before fun next => ?_)
    refine Follows.ite ?_ ?_
    · refine silent_advance.before fun _ => silent_advance.before fun function => ?_
      exact call_composes hg (fun _ _ => ⟨rfl, rfl, rfl, rfl⟩) (fun _ _ => rfl) name
    · exact call_composes hg (fun _ _ => ⟨rfl, rfl, rfl, rfl⟩) (fun _ _ => rfl) name

theorem plainOperand_composes {x : Compile Register} (hx : Follows Composes x) :
    Follows Composes (plainOperand x) := hx.bind fun _ => Follows.pure _

theorem primary_composes (hg : Resolving g) : Follows Composes (primary g) := by
  refine silent_peek.before fun t => ?_
  have hliteral : ∀ v, Value.Inert v →
      Follows Composes (do let _ ← advance; plainOperand (loadLiteral v t)) := fun v hv =>
    silent_advance.before fun _ => plainOperand_composes (loadLiteral_composes hv t)
  split
  · refine silent_advance.before fun _ => plainOperand_composes ?_
    exact (silent_numberLiteral t).before fun n => loadLiteral_composes (fun _ => Hereditary.num n) t
  · exact hliteral _ fun _ => Hereditary.str _
  · exact hliteral _ fun _ => Hereditary.bool _
  · exact hliteral _ fun _ => Hereditary.bool _
  · exact silent_advance.before fun _ => Follows.pure _
  · exact plainOperand_composes (listLiteral_composes hg)
  · exact plainOperand_composes (mapLiteral_composes hg)
  · exact plainOperand_composes (parenthesized_composes hg)
  · exact plainOperand_composes (ifExpression_composes hg)
  · exact plainOperand_composes (unlessExpression_composes hg)
  · exact plainOperand_composes (doExpression_composes hg)
  · exact plainOperand_composes (tryExpression_composes hg)
  · exact plainOperand_composes (raiseExpression_composes hg)
  · exact plainOperand_composes (returnExpression_composes hg)
  · exact plainOperand_composes (lambda_composes hg)
  · exact plainOperand_composes (lambda_composes hg)
  · exact identifier_composes hg
  · exact fun _ => trivial
  · exact fun _ => trivial

theorem suffixes_composes (hg : Resolving g) (target : Operand) :
    Follows Composes (suffixes g target) := by
  refine Follows.whileReading (fun target => silent_peek.before fun t => ?_) target
  refine Follows.ite ?_ (Follows.ite ?_ (Follows.ite ?_ ?_))
  · refine Follows.bind ?_ fun _ => Follows.pure _
    refine silent_advance.before fun dot => (silent_expect _ _).before fun method => ?_
    exact call_composes hg (fun _ _ => ⟨rfl, rfl, rfl, rfl⟩) (fun _ _ => rfl) dot
  · refine Follows.bind ?_ fun _ => Follows.pure _
    refine silent_advance.before fun site => silent_skipNewlines.before fun _ => ?_
    refine hg.expression.bind fun index => silent_skipNewlines.before fun _ => ?_
    refine (silent_expect _ _).before fun _ => ?_
    exact output_follows (fun _ => Operation.Bare.plain ⟨rfl, rfl, rfl, rfl⟩ rfl) site fun _ =>
      Follows.pure _
  · refine Follows.bind ?_ fun _ => Follows.pure _
    refine silent_peek.before fun site => ?_
    exact call_composes hg (fun _ _ => ⟨rfl, rfl, rfl, rfl⟩) (fun _ _ => rfl) site
  · refine (silent_peekAt 1).before fun next => Follows.ite ?_ (Follows.pure _)
    refine silent_advance.before fun bang => silent_advance.before fun _ => ?_
    exact (emit_follows (Operation.Bare.plain ⟨rfl, rfl, rfl, rfl⟩ rfl) bang).bind fun _ =>
      Follows.pure _

theorem operand_composes (hg : Resolving g) : Follows Composes (operand g) := by
  refine silent_peek.before fun t => (silent_peekAt 1).before fun next => Follows.ite ?_ ?_
  · refine silent_advance.before fun _ => silent_advance.before fun number => ?_
    refine (silent_numberLiteral number).before fun n => ?_
    refine (loadLiteral_composes (fun _ => Hereditary.num n.neg) t).bind fun literal => ?_
    exact (suffixes_composes hg _).bind fun _ => Follows.pure _
  · split
    · refine silent_advance.before fun _ => hg.operand.bind fun inner => ?_
      exact output_follows (fun _ => Operation.Bare.plain ⟨rfl, rfl, rfl, rfl⟩ rfl) t fun _ =>
        Follows.pure _
    · exact (primary_composes hg).bind fun o => (suffixes_composes hg o).bind fun _ => Follows.pure _

theorem operatorStep_composes (hg : Resolving g) (left : Register) :
    Follows Composes (operatorStep g left) := by
  refine silent_peek.before fun t => ?_
  have hrange : ∀ inclusive : Bool, Follows Composes (do
      let _ ← advance
      let stop ← g.operand
      let out ← alloc
      emit (.makeRange left stop inclusive out) t
      return (out, true)) := fun inclusive =>
    silent_advance.before fun _ => hg.operand.bind fun stop =>
      output_follows (fun _ => Operation.Bare.plain ⟨rfl, rfl, rfl, rfl⟩ rfl) t fun _ => Follows.pure _
  split
  · refine silent_advance.before fun _ => silent_typeName.before fun type => ?_
    exact output_follows (fun _ => Operation.Bare.plain ⟨rfl, rfl, rfl, rfl⟩ rfl) t fun _ =>
      Follows.pure _
  · exact hrange _
  · exact hrange _
  · split
    · refine silent_advance.before fun _ => silent_skipNewlines.before fun _ => ?_
      refine hg.operand.bind fun right => ?_
      exact output_follows (fun _ => Operation.Bare.plain ⟨rfl, rfl, rfl, rfl⟩ rfl) t fun _ =>
        Follows.pure _
    · exact Follows.pure _

theorem expression_composes (hg : Resolving g) : Follows Composes (expression g) :=
  hg.operand.bind fun first => Follows.whileReading (operatorStep_composes hg) first

end Compile

end ScriptMachine
