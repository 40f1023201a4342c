import ScriptMachine.Proofs.Expression.Parts

set_option autoImplicit false

namespace ScriptMachine

open Phrase (Evaluation)

namespace Compile

variable {d : Draft} {g : Grammar} {left : Register} {rest ts : List Token} {y : Evaluation Value}

theorem operatorStep_stops (h : EndsExpression d.next) :
    operatorStep g left d = .ok (left, false) d := by
  unfold EndsExpression closingKinds at h
  simp only [List.mem_cons, List.not_mem_nil, or_false] at h
  unfold operatorStep
  rw [run_bind (peek_run d)]
  rcases h with h | h | h | h | h | h <;> · rw [h]; rfl

theorem operatorStep_binary (sign : Phrase.BinarySign) (ha : d.ahead = sign.token :: rest) :
    operatorStep g left d = (do
      let _ ← advance
      skipNewlines
      let right ← g.operand
      let out ← alloc
      emit (.binary sign.op left right out) sign.token
      return (out, true)) d := by
  have hop := sign.denotes
  unfold operatorStep
  rw [run_bind (peek_run d), Draft.next_eq ha]
  refine congrFun ?_ d
  split
  · rw [‹sign.token.kind = _›] at hop
    cases hop
  · rw [‹sign.token.kind = _›] at hop
    cases hop
  · rw [‹sign.token.kind = _›] at hop
    cases hop
  · rw [hop]

theorem operatorStep_range (sign : Phrase.RangeSign) (ha : d.ahead = sign.token :: rest) :
    operatorStep g left d = (do
      let _ ← advance
      let stop ← g.operand
      let out ← alloc
      emit (.makeRange left stop sign.inclusive out) sign.token
      return (out, true)) d := by
  obtain ⟨token, inclusive, hkind⟩ := sign
  have ha : d.ahead = token :: rest := ha
  unfold operatorStep
  rw [run_bind (peek_run d), Draft.next_eq ha]
  cases inclusive with
  | false =>
    rw [if_neg Bool.false_ne_true] at hkind
    rw [hkind]
    rfl
  | true =>
    rw [if_pos rfl] at hkind
    rw [hkind]
    rfl

theorem operatorStep_cast (sign : Phrase.CastSign) (ha : d.ahead = sign.token :: rest) :
    operatorStep g left d = (do
      let _ ← advance
      let type ← typeName
      let out ← alloc
      emit (.cast left out type) sign.token
      return (out, true)) d := by
  unfold operatorStep
  rw [run_bind (peek_run d), Draft.next_eq ha, sign.isAs]

def Loops (g : Grammar) (ts : List Token) (y : Evaluation Value) : Prop :=
  ∀ (d : Draft) (rest : List Token), d.Ready → d.ahead = ts ++ rest →
    EndsOperand (rest.headD d.final) →
    ∃ limit r d', expression g d = loop (operatorStep g) limit r d' ∧ rest.length < limit ∧
      d.Carried d' rest y (Holds r)

theorem loops_operand (h : Reads g.operand ts EndsOperand y Holds) : Loops g ts y := by
  intro d rest hd ha hends
  obtain ⟨r, d', hrun, hcarried⟩ := h d rest hd ha hends
  refine ⟨d'.ahead.length + 1, r, d', run_bind hrun, ?_, hcarried⟩
  rw [hcarried.ahead]
  exact Nat.lt_succ_self _

theorem loops_round {sign : Token} {ts' : List Token} {z : Evaluation Value}
    (h : Loops g ts y) (hsign : EndsOperand sign)
    (hround : ∀ (d d' : Draft) (r : Register) (rest : List Token), d.Ready →
      d.Carried d' (sign :: (ts' ++ rest)) y (Holds r) → EndsOperand (rest.headD d.final) →
      ∃ r' d'', operatorStep g r d' = .ok (r', true) d'' ∧ d.Carried d'' rest z (Holds r')) :
    Loops g (ts ++ sign :: ts') z := by
  intro d rest hd ha hends
  have ha : d.ahead = ts ++ sign :: (ts' ++ rest) := by
    rw [ha, List.append_assoc]
    rfl
  obtain ⟨limit, r, d', hrun, hlimit, hcarried⟩ := h d (sign :: (ts' ++ rest)) hd ha hsign
  obtain ⟨r', d'', hstep, hcarried'⟩ := hround d d' r rest hd hcarried hends
  obtain ⟨limit, rfl⟩ := Nat.exists_eq_add_of_le' (Nat.lt_of_le_of_lt (Nat.zero_le _) hlimit)
  refine ⟨limit, r', d'', ?_, ?_, hcarried'⟩
  · rw [hrun, loop, run_bind hstep]
    rfl
  · simp only [List.length_cons, List.length_append] at hlimit
    omega

theorem loops_binary (sign : Phrase.BinarySign) (right : Phrase.Operand) (h : Loops g ts y)
    (hright : Reads g.operand right.tokens EndsOperand right.evaluate Holds) :
    Loops g (ts ++ sign.token :: right.tokens) (do
      let a ← y
      let b ← right.evaluate
      let id ← Evaluation.recordId sign.op
      Evaluation.lift (sign.op.apply id a b)) := by
  refine loops_round h sign.endsOperand fun d d' r rest hd hcarried hends => ?_
  have hmoved := hcarried.moved sign.token (right.tokens ++ rest)
  obtain ⟨u, us, hu, hopens⟩ := right.opens
  obtain ⟨r', d₁, hrun, hcarried'⟩ := hright (d'.moved sign.token (right.tokens ++ rest)) rest
    (hmoved.ready hd) rfl (hmoved.final ▸ hends)
  obtain ⟨d₂, hout, hw, hcount⟩ := output_run (hcarried'.ready (hmoved.ready hd))
    (fun out => .binary sign.op r r' out) sign.token fun out => pure (out, true)
  have hahead : (d'.moved sign.token (right.tokens ++ rest)).ahead = u :: (us ++ rest) :=
    congrArg (· ++ rest) hu
  have hskip := Draft.next_ne .newline hahead hopens (by decide)
  have hfinish : sign.token.kind ≠ .finish := by
    intro hk
    have hop := sign.denotes
    rw [hk] at hop
    cases hop
  refine ⟨d₁.count, d₂, ?_, ?_⟩
  · rw [operatorStep_binary sign hcarried.ahead, run_bind (advance_run hcarried.ahead hfinish),
      run_bind (skipNewlines_run hskip), run_bind hrun]
    exact hout
  · rw [hcarried'.ahead] at hw
    refine hmoved.join hcarried' hd hw (fun _ => stable_holds (hcount ▸ Nat.lt_succ_self _))
      fun a b => ?_
    rw [hcount]
    exact evaluates_binary (hcarried'.ready (hmoved.ready hd)).scratch sign.op

theorem loops_range (sign : Phrase.RangeSign) (stop : Phrase.Operand) (h : Loops g ts y)
    (hstop : Reads g.operand stop.tokens EndsOperand stop.evaluate Holds) :
    Loops g (ts ++ sign.token :: stop.tokens) (do
      let a ← y
      let b ← stop.evaluate
      Evaluation.lift (Range.make a b sign.inclusive)) := by
  refine loops_round h sign.endsOperand fun d d' r rest hd hcarried hends => ?_
  have hmoved := hcarried.moved sign.token (stop.tokens ++ rest)
  obtain ⟨r', d₁, hrun, hcarried'⟩ := hstop (d'.moved sign.token (stop.tokens ++ rest)) rest
    (hmoved.ready hd) rfl (hmoved.final ▸ hends)
  obtain ⟨d₂, hout, hw, hcount⟩ := output_run (hcarried'.ready (hmoved.ready hd))
    (fun out => .makeRange r r' sign.inclusive out) sign.token fun out => pure (out, true)
  have hfinish : sign.token.kind ≠ .finish := by
    rw [sign.denotes]
    cases sign.inclusive <;> decide
  refine ⟨d₁.count, d₂, ?_, ?_⟩
  · rw [operatorStep_range sign hcarried.ahead, run_bind (advance_run hcarried.ahead hfinish),
      run_bind hrun]
    exact hout
  · rw [hcarried'.ahead] at hw
    refine hmoved.join hcarried' hd hw (fun _ => stable_holds (hcount ▸ Nat.lt_succ_self _))
      fun a b => ?_
    rw [hcount]
    exact evaluates_makeRange (hcarried'.ready (hmoved.ready hd)).scratch sign.inclusive

theorem loops_cast (sign : Phrase.CastSign) (type : TokenOf .identifier) (h : Loops g ts y) :
    Loops g (ts ++ [sign.token, type.1]) (do
      let v ← y
      return Phrase.castValue sign (.named type.1.text) v) := by
  refine loops_round h sign.endsOperand fun d d' r rest hd hcarried hends => ?_
  have hcarried : d.Carried d' (sign.token :: type.1 :: rest) y (Holds r) := hcarried
  have hsign := hcarried.moved sign.token (type.1 :: rest)
  have htype := hsign.moved type.1 rest
  obtain ⟨d₂, hout, hcarried'⟩ := Carried.output
    (w := fun v => pure (Phrase.castValue sign (.named type.1.text) v))
    (fun out => .cast r out (.named type.1.text)) sign.token htype hd
    (fun v => evaluates_cast (htype.ready hd).scratch sign _) fun out => pure (out, true)
  refine ⟨d'.count, d₂, ?_, hcarried'⟩
  have hname : typeName (d'.moved sign.token (type.1 :: rest)) =
      .ok (.named type.1.text) ((d'.moved sign.token (type.1 :: rest)).moved type.1 rest) := by
    unfold typeName
    rw [run_bind (expect_run rfl type.2 (by decide) _)]
    rfl
  rw [operatorStep_cast sign hcarried.ahead,
    run_bind (advance_run hcarried.ahead (by rw [sign.isAs]; decide)), run_bind hname]
  exact hout

theorem reads_of_loops (h : Loops g ts y) : Reads (expression g) ts EndsExpression y Holds := by
  intro d rest hd ha hends
  obtain ⟨limit, r, d', hrun, hlimit, hcarried⟩ := h d rest hd ha hends.endsOperand
  obtain ⟨limit, rfl⟩ := Nat.exists_eq_add_of_le' (Nat.lt_of_le_of_lt (Nat.zero_le _) hlimit)
  refine ⟨r, d', ?_, hcarried⟩
  have hnext : EndsExpression d'.next := hcarried.next ▸ hends
  rw [hrun, loop, run_bind (operatorStep_stops hnext)]
  rfl

theorem expression_reads {e : Phrase.Expression} (depth : Nat) (hdepth : 2 * e.tokens.length < depth)
    (h : ∀ n, 2 * e.tokens.length ≤ n → Loops (grammar n) e.tokens e.evaluate) :
    Reads (grammar depth).expression e.tokens EndsExpression e.evaluate Holds := by
  obtain ⟨n, rfl⟩ := Nat.exists_eq_add_of_le' (Nat.lt_of_le_of_lt (Nat.zero_le _) hdepth)
  exact reads_of_loops (h n (Nat.le_of_lt_succ hdepth))

mutual

theorem Expression.loops : ∀ (e : Phrase.Expression) (depth : Nat), 2 * e.tokens.length ≤ depth →
    Loops (grammar depth) e.tokens e.evaluate
  | .operand o, depth, h => loops_operand (Operand.reads o depth h)
  | .binary left sign right, depth, h => by
    simp only [Phrase.Expression.tokens, List.length_append, List.length_cons] at h
    exact loops_binary sign right (Expression.loops left depth (by omega))
      (Operand.reads right depth (by omega))
  | .range start sign stop, depth, h => by
    simp only [Phrase.Expression.tokens, List.length_append, List.length_cons] at h
    exact loops_range sign stop (Expression.loops start depth (by omega))
      (Operand.reads stop depth (by omega))
  | .cast source sign type, depth, h => by
    simp only [Phrase.Expression.tokens, List.length_append, List.length_cons] at h
    exact loops_cast sign type (Expression.loops source depth (by omega))
termination_by structural e => e

theorem Operand.reads : ∀ (o : Phrase.Operand) (depth : Nat), 2 * o.tokens.length ≤ depth →
    Reads (grammar depth).operand o.tokens EndsOperand o.evaluate Holds
  | .number n, depth + 1, _ => number_reads n
  | .string t, depth + 1, _ => string_reads t
  | .truth t, depth + 1, _ => truth_reads t
  | .falsity t, depth + 1, _ => falsity_reads t
  | .none t, depth + 1, _ => none_reads t
  | .prefixed sign inner, depth + 1, h => by
    simp only [Phrase.Operand.tokens, List.length_cons] at h
    exact prefixed_reads sign inner (Operand.reads inner depth (by omega))
  | .parenthesized opening inner closing, depth + 1, h => by
    simp only [Phrase.Operand.tokens, List.length_cons, List.length_append] at h
    exact parenthesized_reads opening inner closing
      (expression_reads _ (by omega) (Expression.loops inner))
  | .list opening items closing, depth + 1, h => by
    simp only [Phrase.Operand.tokens, List.length_cons, List.length_append] at h
    exact list_reads opening closing (Items.reads items depth (by omega)) items.opens
  | .map opening entries closing, depth + 1, h => by
    simp only [Phrase.Operand.tokens, List.length_cons, List.length_append] at h
    exact map_reads opening closing (EntryItems.reads entries depth (by omega)) entries.opens
termination_by structural o => o

theorem Items.reads : ∀ (items : Phrase.Items) (depth : Nat), 2 * items.tokens.length < depth →
    ReadsItems .rbracket (grammar depth).expression items.tokens items.evaluate Holds
  | .done, depth, _ => readsItems_done
  | .last item, depth, h =>
    readsItems_last ((expression_reads depth h (Expression.loops item)).mono fun _ => EndsItem.endsExpression)
      item.opens_entry (by decide)
  | .more item comma others, depth, h => by
    simp only [Phrase.Items.tokens, List.length_append, List.length_cons] at h
    have hitem := expression_reads depth (by omega) (Expression.loops item)
    exact readsItems_more (hitem.mono fun _ => EndsItem.endsExpression) item.opens_entry (by decide) comma
      (Items.reads others depth (by omega)) others.opens
termination_by structural items => items

theorem EntryItems.reads : ∀ (items : Phrase.EntryItems) (depth : Nat),
    2 * items.tokens.length < depth →
    ReadsItems .rbrace (mapEntry (grammar depth)) items.tokens items.evaluate HoldsEntry
  | .done, depth, _ => readsItems_done
  | .last item, depth, h => readsItems_last (Entry.reads item depth h) item.opens (by decide)
  | .more item comma others, depth, h => by
    simp only [Phrase.EntryItems.tokens, List.length_append, List.length_cons] at h
    exact readsItems_more (Entry.reads item depth (by omega)) item.opens (by decide) comma
      (EntryItems.reads others depth (by omega)) others.opens
termination_by structural items => items

theorem Entry.reads : ∀ (e : Phrase.Entry) (depth : Nat), 2 * e.tokens.length < depth →
    Reads (mapEntry (grammar depth)) e.tokens EndsItem e.evaluate HoldsEntry
  | .named name equal value, depth, h => by
    simp only [Phrase.Entry.tokens, List.length_cons] at h
    exact named_reads name equal value (expression_reads _ (by omega) (Expression.loops value))
  | .keyed key equal value, depth, h => by
    simp only [Phrase.Entry.tokens, List.length_append, List.length_cons] at h
    exact keyed_reads key equal value (expression_reads _ (by omega) (Expression.loops key))
      (expression_reads _ (by omega) (Expression.loops value))
  | .lone value, depth, h => lone_reads value (expression_reads depth h (Expression.loops value))
termination_by structural e => e

end

end Compile

end ScriptMachine
