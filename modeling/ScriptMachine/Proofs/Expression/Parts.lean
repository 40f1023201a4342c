import ScriptMachine.Proofs.Expression.Reading

set_option autoImplicit false

namespace ScriptMachine

open Phrase (Evaluation)

def openingKinds : List TokenKind :=
  [.number, .string, .kwTrue, .kwFalse, .kwNone, .minus, .bang, .tilde, .lparen, .lbracket, .lbrace]

namespace Phrase

theorem PrefixSign.opens (sign : PrefixSign) : sign.token.kind ∈ openingKinds := by
  have h := sign.denotes
  unfold Compile.prefixOperator at h
  split at h
  · simp [openingKinds, *]
  · simp [openingKinds, *]
  · simp [openingKinds, *]
  · cases h

theorem PrefixSign.not_printing (sign : PrefixSign) (v : Value) : sign.op.printed? v = none := by
  obtain ⟨token, op, h⟩ := sign
  unfold Compile.prefixOperator at h
  split at h <;> cases h <;> rfl

theorem Operand.opens (o : Operand) :
    ∃ t ts, o.tokens = t :: ts ∧ t.kind ∈ openingKinds := by
  cases o with
  | number n => exact ⟨n.token, [], rfl, by rw [n.isNumber]; decide⟩
  | string t => exact ⟨t.1, [], rfl, by rw [t.2]; decide⟩
  | truth t => exact ⟨t.1, [], rfl, by rw [t.2]; decide⟩
  | falsity t => exact ⟨t.1, [], rfl, by rw [t.2]; decide⟩
  | none t => exact ⟨t.1, [], rfl, by rw [t.2]; decide⟩
  | prefixed sign inner => exact ⟨sign.token, inner.tokens, rfl, sign.opens⟩
  | parenthesized opening inner closing => exact ⟨opening.1, _, rfl, by rw [opening.2]; decide⟩
  | list opening items closing => exact ⟨opening.1, _, rfl, by rw [opening.2]; decide⟩
  | map opening entries closing => exact ⟨opening.1, _, rfl, by rw [opening.2]; decide⟩

/-- Of all operands only a number starts with a number. -/
theorem Operand.number_of_head {o : Operand} {t : Token} {ts : List Token} (h : o.tokens = t :: ts)
    (ht : t.kind = .number) : ∃ n : NumberToken, o = .number n ∧ t = n.token ∧ ts = [] := by
  have hne : ∀ (u : Token) (us : List Token), u :: us = t :: ts → u.kind = .number := by
    rintro u us ⟨⟩
    exact ht
  cases o with
  | number n =>
    cases h
    exact ⟨n, rfl, rfl, rfl⟩
  | string u => exact absurd (u.2 ▸ hne _ _ h) (by decide)
  | truth u => exact absurd (u.2 ▸ hne _ _ h) (by decide)
  | falsity u => exact absurd (u.2 ▸ hne _ _ h) (by decide)
  | none u => exact absurd (u.2 ▸ hne _ _ h) (by decide)
  | prefixed sign inner =>
    have hd := sign.denotes
    rw [hne _ _ h] at hd
    cases hd
  | parenthesized u inner closing => exact absurd (u.2 ▸ hne _ _ h) (by decide)
  | list u items closing => exact absurd (u.2 ▸ hne _ _ h) (by decide)
  | map u entries closing => exact absurd (u.2 ▸ hne _ _ h) (by decide)

theorem Expression.opens :
    ∀ e : Expression, ∃ t ts, e.tokens = t :: ts ∧ t.kind ∈ openingKinds
  | .operand o => o.opens
  | .binary left sign right => by
    obtain ⟨t, ts, h, ht⟩ := left.opens
    exact ⟨t, _, congrArg (· ++ sign.token :: right.tokens) h, ht⟩
  | .range start sign stop => by
    obtain ⟨t, ts, h, ht⟩ := start.opens
    exact ⟨t, _, congrArg (· ++ sign.token :: stop.tokens) h, ht⟩
  | .cast source sign type => by
    obtain ⟨t, ts, h, ht⟩ := source.opens
    exact ⟨t, _, congrArg (· ++ [sign.token, type.1]) h, ht⟩

theorem Entry.opens (e : Entry) :
    ∃ t ts, e.tokens = t :: ts ∧ t.kind ∈ .identifier :: openingKinds := by
  cases e with
  | named name equal value =>
    exact ⟨name.1, _, rfl, by rw [name.2]; exact List.mem_cons_self⟩
  | keyed key equal value =>
    obtain ⟨t, ts, h, ht⟩ := key.opens
    exact ⟨t, _, congrArg (· ++ equal.1 :: value.tokens) h, List.mem_cons_of_mem _ ht⟩
  | lone value =>
    obtain ⟨t, ts, h, ht⟩ := value.opens
    exact ⟨t, ts, h, List.mem_cons_of_mem _ ht⟩

theorem Expression.opens_entry (e : Expression) :
    ∃ t ts, e.tokens = t :: ts ∧ t.kind ∈ .identifier :: openingKinds := by
  obtain ⟨t, ts, h, ht⟩ := e.opens
  exact ⟨t, ts, h, List.mem_cons_of_mem _ ht⟩

theorem Items.opens (items : Items) (t : Token) (ts : List Token) (h : items.tokens = t :: ts) :
    t.kind ∈ .identifier :: openingKinds := by
  cases items with
  | done => cases h
  | last item =>
    obtain ⟨u, us, hu, hopens⟩ := item.opens_entry
    cases hu.symm.trans h
    exact hopens
  | more item comma others =>
    obtain ⟨u, us, hu, hopens⟩ := item.opens_entry
    cases (congrArg (· ++ comma.1 :: others.tokens) hu).symm.trans h
    exact hopens

theorem EntryItems.opens (items : EntryItems) (t : Token) (ts : List Token)
    (h : items.tokens = t :: ts) : t.kind ∈ .identifier :: openingKinds := by
  cases items with
  | done => cases h
  | last item =>
    obtain ⟨u, us, hu, hopens⟩ := item.opens
    cases hu.symm.trans h
    exact hopens
  | more item comma others =>
    obtain ⟨u, us, hu, hopens⟩ := item.opens
    cases (congrArg (· ++ comma.1 :: others.tokens) hu).symm.trans h
    exact hopens

theorem BinarySign.endsOperand (sign : BinarySign) : EndsOperand sign.token := by
  have h := sign.denotes
  refine ⟨?_, ?_, ?_, ?_⟩ <;> · intro hk; rw [hk] at h; cases h

theorem RangeSign.endsOperand (sign : RangeSign) : EndsOperand sign.token := by
  have h := sign.denotes
  unfold EndsOperand
  rw [h]
  cases sign.inclusive <;> decide

theorem CastSign.endsOperand (sign : CastSign) : EndsOperand sign.token := by
  unfold EndsOperand
  rw [sign.isAs]
  decide

end Phrase

namespace Compile

variable {d d' : Draft} {t : Token} {ts rest : List Token} {g : Grammar} {y : Evaluation Value}

theorem numberLiteral_eq {n : Number} (h : Number.parse t.text = some n) :
    numberLiteral t = pure n := by
  unfold numberLiteral
  rw [h]

theorem numberLiteral_run {n : Number} (h : Number.parse t.text = some n) (d : Draft) :
    numberLiteral t d = .ok n d := by
  rw [numberLiteral_eq h]
  rfl

theorem number_reads (n : Phrase.NumberToken) :
    Reads (operand g) [n.token] EndsOperand (pure (.num n.value)) Holds := by
  refine operand_reads (literal_reads (by rw [n.isNumber]; decide) fun d hd => ?_)
    (by rw [n.isNumber]; rfl)
  unfold primary
  rw [run_bind (peek_run d), hd, n.isNumber]
  dsimp only
  rw [numberLiteral_eq n.reads]
  rfl

theorem string_reads (t : TokenOf .string) :
    Reads (operand g) [t.1] EndsOperand (pure (.str t.1.text)) Holds := by
  refine operand_reads (literal_reads (by rw [t.2]; decide) fun d hd => ?_) (by rw [t.2]; rfl)
  unfold primary
  rw [run_bind (peek_run d), hd, t.2]

theorem truth_reads (t : TokenOf .kwTrue) :
    Reads (operand g) [t.1] EndsOperand (pure (.bool true)) Holds := by
  refine operand_reads (literal_reads (by rw [t.2]; decide) fun d hd => ?_) (by rw [t.2]; rfl)
  unfold primary
  rw [run_bind (peek_run d), hd, t.2]

theorem falsity_reads (t : TokenOf .kwFalse) :
    Reads (operand g) [t.1] EndsOperand (pure (.bool false)) Holds := by
  refine operand_reads (literal_reads (by rw [t.2]; decide) fun d hd => ?_) (by rw [t.2]; rfl)
  unfold primary
  rw [run_bind (peek_run d), hd, t.2]

theorem none_reads (t : TokenOf .kwNone) :
    Reads (operand g) [t.1] EndsOperand (pure .none) Holds := by
  refine operand_reads ?_ (by rw [t.2]; rfl)
  intro d rest hd ha _
  refine ⟨⟨noneRegister, none⟩, d.moved t.1 rest, ?_, ?_⟩
  · unfold primary
    rw [run_bind (peek_run d), Draft.next_eq ha, t.2]
    dsimp only
    rw [run_bind (advance_run ha (by rw [t.2]; decide))]
    rfl
  · refine ⟨⟨[], d.moved_wrote t.1 rest, evaluates_none⟩, fun _ => stable_holds ?_⟩
    exact Nat.lt_of_lt_of_le Nat.zero_lt_two hd.scratch

/-- A minus sign that touches a number is part of the literal, which comes to the same. -/
theorem negative_reads (sign : Phrase.PrefixSign) (n : Phrase.NumberToken)
    (hsign : sign.token.kind = .minus) (htouch : n.token.spaceBefore = false) :
    Reads (operand g) [sign.token, n.token] EndsOperand
      ((Phrase.Operand.prefixed sign (.number n)).evaluate) Holds := by
  intro d rest hd ha hends
  have hop : sign.op = .neg := by
    have h := sign.denotes
    rw [hsign] at h
    exact (Option.some.inj h).symm
  have ha : d.ahead = sign.token :: n.token :: rest := ha
  have hfirst := advance_run ha (by rw [hsign]; decide)
  have hsecond : advance (d.moved sign.token (n.token :: rest)) = .ok n.token _ :=
    advance_run rfl (by rw [n.isNumber]; decide)
  obtain ⟨d', hrun, hcarried⟩ := loadLiteral_run
    ((hd.moved sign.token (n.token :: rest)).moved n.token rest) (.num n.value.neg) sign.token
  refine ⟨d.count, d', ?_, ?_⟩
  · unfold operand
    rw [run_bind (peek_run d), run_bind (peekAt_run ha), Draft.next_eq ha,
      if_pos (by simp [hsign, n.isNumber, htouch]), run_bind hfirst, run_bind hsecond,
      run_bind (numberLiteral_run n.reads _), run_bind hrun,
      run_bind (suffixes_run ?_)]
    · rfl
    · rw [hcarried.next]
      exact hends
  · have hvalue : (Phrase.Operand.prefixed sign (.number n)).evaluate = pure (.num n.value.neg) := by
      change (pure (.num n.value) >>= fun v => Evaluation.lift (sign.op.apply v)) = _
      rw [hop]
      rfl
    rw [hvalue]
    exact hcarried.of_moved.of_moved

theorem prefixed_reads (sign : Phrase.PrefixSign) (inner : Phrase.Operand)
    (hinner : Reads g.operand inner.tokens EndsOperand inner.evaluate Holds) :
    Reads (operand g) (sign.token :: inner.tokens) EndsOperand
      (Phrase.Operand.prefixed sign inner).evaluate Holds := by
  intro d rest hd ha hends
  obtain ⟨u, us, hu, -⟩ := inner.opens
  by_cases hfold : (sign.token.kind = .minus && u.kind = .number && !u.spaceBefore) = true
  · simp only [Bool.and_eq_true, decide_eq_true_eq, Bool.not_eq_true'] at hfold
    obtain ⟨n, rfl, rfl, rfl⟩ := Phrase.Operand.number_of_head hu hfold.1.2
    exact negative_reads sign n hfold.1.1 hfold.2 d rest hd ha hends
  · have hsign : sign.token.kind ≠ .finish := by
      intro hk
      have h := sign.denotes
      rw [hk] at h
      cases h
    obtain ⟨r, d', hrun, hcarried⟩ := hinner (d.moved sign.token (inner.tokens ++ rest)) rest
      (hd.moved _ _) rfl hends
    have ha : d.ahead = sign.token :: (inner.tokens ++ rest) := ha
    have hnext : (inner.tokens ++ rest).headD d.final = u := by
      rw [hu]
      rfl
    obtain ⟨d'', hout, hcarried'⟩ := Carried.output (w := fun v => Evaluation.lift (sign.op.apply v))
      (fun out => .unary sign.op r out) sign.token hcarried (hd.moved _ _)
      (fun v => evaluates_unary (hcarried.ready (hd.moved _ _)).scratch sign.op (sign.not_printing v))
      pure
    refine ⟨d'.count, d'', ?_, hcarried'.of_moved⟩
    unfold operand
    rw [run_bind (peek_run d), run_bind (peekAt_run ha), Draft.next_eq ha, hnext, if_neg hfold,
      sign.denotes]
    dsimp only
    rw [run_bind (advance_run ha hsign), run_bind hrun]
    exact hout

theorem parenthesized_reads (opening : TokenOf .lparen) (inner : Phrase.Expression)
    (closing : TokenOf .rparen)
    (hinner : Reads g.expression inner.tokens EndsExpression inner.evaluate Holds) :
    Reads (operand g) (opening.1 :: (inner.tokens ++ [closing.1])) EndsOperand inner.evaluate
      Holds := by
  refine operand_reads ?_ (by rw [opening.2]; rfl)
  intro d rest hd ha _
  have ha : d.ahead = opening.1 :: (inner.tokens ++ closing.1 :: rest) := by
    rw [ha, List.cons_append, List.append_assoc]
    rfl
  have hclosing : EndsExpression closing.1 := by
    unfold EndsExpression
    rw [closing.2]
    decide
  obtain ⟨u, us, hu, hopens⟩ := inner.opens
  obtain ⟨r, d', hrun, hcarried⟩ := hinner (d.moved opening.1 _) (closing.1 :: rest)
    (hd.moved _ _) rfl hclosing
  refine ⟨⟨r, none⟩, d'.moved closing.1 rest, ?_, hcarried.of_moved.moved closing.1 rest⟩
  have hahead : (d.moved opening.1 (inner.tokens ++ closing.1 :: rest)).ahead =
      u :: (us ++ closing.1 :: rest) := congrArg (· ++ closing.1 :: rest) hu
  have hskip := Draft.next_ne .newline hahead hopens (by decide)
  have hskip' : d'.next.kind ≠ .newline := by
    rw [hcarried.next]
    exact fun hk => absurd (closing.2.symm.trans hk) (by decide)
  unfold primary
  rw [run_bind (peek_run d), Draft.next_eq ha, opening.2]
  refine plainOperand_run ?_
  unfold parenthesized
  rw [run_bind (advance_run ha (by rw [opening.2]; decide)), run_bind (skipNewlines_run hskip),
    run_bind hrun, run_bind (skipNewlines_run hskip'),
    run_bind (expect_run hcarried.ahead closing.2 (by decide) _)]
  rfl

section Items

variable {α β : Type} {close : TokenKind} {item : Compile α} {z : Evaluation β}
  {post : α → β → Array Value → Prop} {zs : Evaluation (List β)} {ts' : List Token}

/-- One round of reading items. -/
def itemStep {α : Type} (close : TokenKind) (item : Compile α) (items : List α) :
    Compile (List α × Bool) := do
  if ← check close then return (items, false)
  else
    let a ← item
    skipNewlines
    if ← accept .comma then
      skipNewlines
      return (a :: items, true)
    else return (a :: items, false)

def ReadsItems {α β : Type} (close : TokenKind) (item : Compile α) (ts : List Token)
    (zs : Evaluation (List β)) (post : α → β → Array Value → Prop) : Prop :=
  ∀ (d : Draft) (t : Token) (rest : List Token) (earlier : List α) (limit : Nat), d.Ready →
    d.ahead = ts ++ t :: rest → t.kind = close → ts.length < limit →
    ∃ as d', loop (itemStep close item) limit earlier d = .ok (as.reverse ++ earlier) d' ∧
      d.Carried d' (t :: rest) zs (HoldEach post as)

theorem stable_cons {n : Nat} {a : α} {as : List α} (ha : ∀ b, Stable n (post a b))
    (has : ∀ bs, Stable n (HoldEach post as bs)) (bs : List β) :
    Stable n (HoldEach post (a :: as) bs) := by
  rintro registers registers' hkept (_ | ⟨hb, hbs⟩)
  exact .cons (ha _ _ _ hkept hb) (has _ _ _ hkept hbs)

theorem stable_nil {n : Nat} (bs : List β) : Stable n (HoldEach post [] bs) := by
  rintro registers registers' - ⟨⟩
  exact .nil

theorem readsItems_done : ReadsItems close item [] (pure []) post := by
  intro d t rest earlier limit hd ha ht hlimit
  obtain ⟨limit, rfl⟩ := Nat.exists_eq_add_of_le' hlimit
  have hcheck : check close d = .ok true d := by
    rw [check_run, Draft.next_eq ha, decide_eq_true ht]
  refine ⟨[], d, ?_, ⟨[], ⟨ha, rfl, rfl, rfl, (List.append_nil _).symm, Nat.le_refl _⟩, ?_⟩,
    stable_nil⟩
  · have hstep : itemStep close item earlier d = .ok (earlier, false) d := by
      unfold itemStep
      rw [run_bind hcheck, if_pos rfl]
      rfl
    change loop (itemStep close item) (limit + 1) earlier d = _
    rw [loop, run_bind hstep]
    rfl
  · exact Evaluates.pure fun _ _ => List.Forall₂.nil

theorem itemStep_run (close : TokenKind) {u : Token} {us : List Token} {a : α} (hitem : item d = .ok a d')
    (hahead : d.ahead = u :: us) (hclose : u.kind ≠ close) (hnext : d'.next.kind ≠ .newline)
    (earlier : List α) : itemStep close item earlier d = (do
      if ← accept .comma then
        skipNewlines
        return (a :: earlier, true)
      else return (a :: earlier, false)) d' := by
  have hcheck : check close d = .ok false d := by
    rw [check_run, Draft.next_eq hahead, decide_eq_false hclose]
  unfold itemStep
  rw [run_bind hcheck, if_neg Bool.false_ne_true, run_bind hitem, run_bind (skipNewlines_run hnext)]

theorem readsItems_last (hitem : Reads item ts EndsItem z post)
    (hopens : ∃ u us, ts = u :: us ∧ u.kind ∈ .identifier :: openingKinds)
    (hclose : close ∈ [.rbracket, .rbrace]) :
    ReadsItems close item ts (do
      let v ← z
      return [v]) post := by
  intro d t rest earlier limit hd ha ht hlimit
  obtain ⟨limit, rfl⟩ := Nat.exists_eq_add_of_le' hlimit
  have hkinds : ∀ k ∈ [TokenKind.rbracket, .rbrace],
      (k = .comma ∨ k = .rbracket ∨ k = .rbrace) ∧ k ∉ .identifier :: openingKinds ∧
        k ≠ .newline ∧ k ≠ .comma := by decide
  obtain ⟨hends, hnot, hnewline, hcomma⟩ := hkinds close hclose
  rw [← ht] at hends
  obtain ⟨a, d', hrun, hcarried⟩ := hitem d (t :: rest) hd ha hends
  obtain ⟨u, us, rfl, hu⟩ := hopens
  have hnext : d'.next = t := hcarried.next
  refine ⟨[a], d', ?_, ?_⟩
  · have hround := itemStep_run close hrun ha (fun hk => hnot (hk ▸ hu))
      (by rw [hnext, ht]; exact hnewline) earlier
    rw [run_bind (accept_refuses (by rw [hnext, ht]; exact hcomma)), if_neg Bool.false_ne_true]
      at hround
    change loop (itemStep close item) (_ + 1) earlier d = _
    rw [loop, run_bind hround]
    rfl
  · exact hcarried.map hd (stable_cons hcarried.stable stable_nil) fun v _ hv => .cons hv .nil

theorem readsItems_more (hitem : Reads item ts EndsItem z post)
    (hopens : ∃ u us, ts = u :: us ∧ u.kind ∈ .identifier :: openingKinds)
    (hclose : close ∈ [.rbracket, .rbrace]) (comma : TokenOf .comma)
    (hothers : ReadsItems close item ts' zs post)
    (hhead : ∀ u us, ts' = u :: us → u.kind ∈ .identifier :: openingKinds) :
    ReadsItems close item (ts ++ comma.1 :: ts') (do
      let v ← z
      let vs ← zs
      return v :: vs) post := by
  intro d t rest earlier limit hd ha ht hlimit
  rw [List.append_assoc] at ha
  have hkinds : ∀ k ∈ [TokenKind.rbracket, .rbrace], k ∉ .identifier :: openingKinds ∧
      k ≠ .newline := by decide
  obtain ⟨hnot, hnewline⟩ := hkinds close hclose
  obtain ⟨a, d', hrun, hcarried⟩ := hitem d (comma.1 :: (ts' ++ t :: rest)) hd ha
    (Or.inl comma.2)
  obtain ⟨u, us, rfl, hu⟩ := hopens
  have hnext : d'.next = comma.1 := hcarried.next
  have hskip : (d'.moved comma.1 (ts' ++ t :: rest)).next.kind ≠ .newline := by
    cases ts' with
    | nil => exact ht ▸ hnewline
    | cons v vs => exact fun hk => absurd (hk ▸ hhead v vs rfl) (by decide)
  obtain ⟨limit, rfl⟩ := Nat.exists_eq_add_of_le' hlimit
  obtain ⟨as, d'', hloop, hothers⟩ := hothers (d'.moved comma.1 _) t rest (a :: earlier)
    (limit + (u :: us ++ comma.1 :: ts').length) ((hcarried.ready hd).moved _ _) rfl ht
    (by simp only [List.length_append, List.length_cons]; omega)
  have hmoved := hcarried.moved comma.1 (ts' ++ t :: rest)
  refine ⟨a :: as, d'', ?_, ?_⟩
  · have hround := itemStep_run close hrun ha (fun hk => hnot (hk ▸ hu))
      (by rw [hnext, comma.2]; decide) earlier
    rw [run_bind (accept_run hcarried.ahead comma.2 (by decide)), if_pos rfl,
      run_bind (skipNewlines_run hskip)] at hround
    rw [List.reverse_cons, List.append_assoc, List.singleton_append, ← hloop]
    change loop (itemStep close item) (_ + 1) earlier d = _
    rw [loop, run_bind hround]
    rfl
  · have hstable := stable_cons (fun b => (hmoved.stable b).mono hothers.grows) hothers.stable
    exact hmoved.pair hothers hd hstable fun v vs _ hv hvs => .cons hv hvs

end Items

theorem itemsUntil_run {α β : Type} {close : TokenKind} {item : Compile α} {t : Token}
    {zs : Evaluation (List β)} {post : α → β → Array Value → Prop}
    (h : ReadsItems close item ts zs post) (hd : d.Ready) (ha : d.ahead = ts ++ t :: rest)
    (ht : t.kind = close) : ∃ as d', itemsUntil close item d = .ok as d' ∧
      d.Carried d' (t :: rest) zs (HoldEach post as) := by
  obtain ⟨as, d', hrun, hcarried⟩ := h d t rest [] (d.ahead.length + 1) hd ha ht (by
    rw [ha, List.length_append]
    exact Nat.lt_succ_of_le (Nat.le_add_right _ _))
  rw [List.append_nil] at hrun
  refine ⟨as, d', ?_, hcarried⟩
  have hwhile : whileReading [] (itemStep close item) d = .ok as.reverse d' := hrun
  unfold itemsUntil
  change (whileReading [] (itemStep close item) >>= fun items => pure items.reverse) d = _
  rw [run_bind hwhile]
  change EStateM.Result.ok as.reverse.reverse d' = _
  rw [List.reverse_reverse]

/-- Items between two brackets that do not start with a loop. -/
theorem items_between {α β : Type} (γ : Type) {close : TokenKind} {item : Compile α}
    {opening closing : Token} {zs : Evaluation (List β)} {post : α → β → Array Value → Prop}
    (h : ReadsItems close item ts zs post) (hd : d.Ready)
    (ha : d.ahead = opening :: (ts ++ closing :: rest)) (hopening : opening.kind ≠ .finish)
    (hclosing : closing.kind = close) (hclose : close ∈ [.rbracket, .rbrace])
    (hhead : ∀ u us, ts = u :: us → u.kind ∈ .identifier :: openingKinds) (message : Text) :
    ∃ as d', d.Carried d' rest zs (HoldEach post as) ∧
      ∀ (loop : Token → Compile γ) (k : Token → List α → Compile γ), (do
        let site ← advance
        skipNewlines
        if ← check .kwFor then loop site
        else
          let items ← itemsUntil close item
          let _ ← expect close message
          k site items) d = k opening as d' := by
  have hahead : (d.moved opening (ts ++ closing :: rest)).ahead = ts ++ closing :: rest := rfl
  obtain ⟨as, d', hrun, hcarried⟩ := itemsUntil_run h (hd.moved opening _) hahead hclosing
  refine ⟨as, d'.moved closing rest, hcarried.of_moved.moved closing rest, fun loop k => ?_⟩
  have hkinds : ∀ k ∈ [TokenKind.rbracket, .rbrace], k ≠ .newline ∧ k ≠ .kwFor ∧ k ≠ .finish := by
    decide
  obtain ⟨hnewline, hfor, hfinish⟩ := hkinds close hclose
  have hfirst : (d.moved opening (ts ++ closing :: rest)).next.kind ≠ .newline ∧
      (d.moved opening (ts ++ closing :: rest)).next.kind ≠ .kwFor := by
    cases ts with
    | nil => exact ⟨hclosing ▸ hnewline, hclosing ▸ hfor⟩
    | cons u us =>
      have hu := hhead u us rfl
      exact ⟨fun hk => absurd (hk ▸ hu) (by decide), fun hk => absurd (hk ▸ hu) (by decide)⟩
  have hcheck : check .kwFor (d.moved opening (ts ++ closing :: rest)) =
      .ok false (d.moved opening (ts ++ closing :: rest)) := by
    rw [check_run, decide_eq_false hfirst.2]
  rw [run_bind (advance_run ha hopening), run_bind (skipNewlines_run hfirst.1), run_bind hcheck,
    if_neg Bool.false_ne_true, run_bind hrun,
    run_bind (expect_run hcarried.ahead hclosing hfinish message)]

theorem list_reads (opening : TokenOf .lbracket) (closing : TokenOf .rbracket)
    {zs : Evaluation (List Value)} (h : ReadsItems .rbracket g.expression ts zs Holds)
    (hhead : ∀ u us, ts = u :: us → u.kind ∈ .identifier :: openingKinds) :
    Reads (operand g) (opening.1 :: (ts ++ [closing.1])) EndsOperand (do
      let vs ← zs
      return .list vs) Holds := by
  refine operand_reads ?_ (by rw [opening.2]; rfl)
  intro d rest hd ha _
  have ha : d.ahead = opening.1 :: (ts ++ closing.1 :: rest) := by
    rw [ha, List.cons_append, List.append_assoc]
    rfl
  obtain ⟨rs, d', hcarried, hrun⟩ := items_between Register h hd ha
    (by rw [opening.2]; decide) closing.2 (by decide) hhead "Expected ']' to close list"
  obtain ⟨d'', hout, hcarried'⟩ := Carried.output (w := fun vs => pure (.list vs))
    (fun out => .makeList rs out) opening.1 hcarried hd
    (fun vs => evaluates_makeList (hcarried.ready hd).scratch) pure
  refine ⟨⟨d'.count, none⟩, d'', ?_, hcarried'⟩
  unfold primary
  rw [run_bind (peek_run d), Draft.next_eq ha, opening.2]
  refine plainOperand_run ?_
  unfold listLiteral
  rw [hrun]
  exact hout

theorem map_reads (opening : TokenOf .lbrace) (closing : TokenOf .rbrace)
    {zs : Evaluation Entries} (h : ReadsItems .rbrace (mapEntry g) ts zs HoldsEntry)
    (hhead : ∀ u us, ts = u :: us → u.kind ∈ .identifier :: openingKinds) :
    Reads (operand g) (opening.1 :: (ts ++ [closing.1])) EndsOperand (do
      let pairs ← zs
      return .map (Entries.ofPairs pairs)) Holds := by
  refine operand_reads ?_ (by rw [opening.2]; rfl)
  intro d rest hd ha _
  have ha : d.ahead = opening.1 :: (ts ++ closing.1 :: rest) := by
    rw [ha, List.cons_append, List.append_assoc]
    rfl
  obtain ⟨pairs, d', hcarried, hrun⟩ := items_between Register h hd ha
    (by rw [opening.2]; decide) closing.2 (by decide) hhead "Expected '\x7d' to close map"
  obtain ⟨d'', hout, hcarried'⟩ := Carried.output (w := fun es => pure (.map (Entries.ofPairs es)))
    (fun out => .makeMap pairs.flatten out) opening.1 hcarried hd
    (fun es => evaluates_makeMap (hcarried.ready hd).scratch) pure
  refine ⟨⟨d'.count, none⟩, d'', ?_, hcarried'⟩
  unfold primary
  rw [run_bind (peek_run d), Draft.next_eq ha, opening.2]
  refine plainOperand_run ?_
  unfold mapLiteral
  rw [hrun]
  exact hout

theorem stable_entry {n : Nat} {k v : Register} (hk : ∀ w, Stable n (Holds k w))
    (hv : ∀ w, Stable n (Holds v w)) (e : Value × Value) : Stable n (HoldsEntry [k, v] e) := by
  rintro registers registers' hkept ⟨k', v', heq, hk', hv'⟩
  cases heq
  exact ⟨k, v, rfl, hk _ _ _ hkept hk', hv _ _ _ hkept hv'⟩

/-- The value of an entry after its key. -/
theorem entryValue_run {equal : TokenOf .equal} {value : Phrase.Expression} {key : Register}
    {z : Evaluation Value} {d₁ : Draft} (hkey : d.Carried d₁ (equal.1 :: (value.tokens ++ rest)) z (Holds key))
    (hd : d.Ready) (hvalue : Reads g.expression value.tokens EndsExpression value.evaluate Holds)
    (hends : EndsItem (rest.headD d.final)) :
    ∃ r d', (do
        if ← accept .equal then
          skipNewlines
          return [key, ← g.expression]
        else return [key, key] : Compile (List Register)) d₁ = .ok [key, r] d' ∧
      d.Carried d' rest (do
        let k ← z
        let v ← value.evaluate
        return (k, v)) (HoldsEntry [key, r]) := by
  have hmoved := hkey.moved equal.1 (value.tokens ++ rest)
  obtain ⟨u, us, hu, hopens⟩ := value.opens
  obtain ⟨r, d', hrun, hcarried⟩ := hvalue (d₁.moved equal.1 (value.tokens ++ rest)) rest
    (hmoved.ready hd) rfl (by rw [hmoved.final]; exact hends.endsExpression)
  refine ⟨r, d', ?_, ?_⟩
  · have hahead : (d₁.moved equal.1 (value.tokens ++ rest)).ahead = u :: (us ++ rest) :=
      congrArg (· ++ rest) hu
    have hskip := Draft.next_ne .newline hahead hopens (by decide)
    rw [run_bind (accept_run hkey.ahead equal.2 (by decide)), if_pos rfl,
      run_bind (skipNewlines_run hskip), run_bind hrun]
    rfl
  · have hstable := stable_entry (fun w => (hmoved.stable w).mono hcarried.grows) hcarried.stable
    exact hmoved.pair hcarried hd hstable fun k v _ hk hv => ⟨key, r, rfl, hk, hv⟩

theorem named_reads (name : TokenOf .identifier) (equal : TokenOf .equal) (value : Phrase.Expression)
    (hvalue : Reads g.expression value.tokens EndsExpression value.evaluate Holds) :
    Reads (mapEntry g) (Phrase.Entry.named name equal value).tokens EndsItem
      (Phrase.Entry.named name equal value).evaluate HoldsEntry := by
  intro d rest hd ha hends
  have ha : d.ahead = name.1 :: equal.1 :: (value.tokens ++ rest) := ha
  obtain ⟨d₁, hrun, hkey⟩ := loadLiteral_run (hd.moved name.1 _) (.str name.1.text) name.1
  obtain ⟨r, d', hvalue, hcarried⟩ := entryValue_run hkey.of_moved hd hvalue hends
  refine ⟨_, d', ?_, hcarried⟩
  unfold mapEntry
  rw [run_bind (peek_run d), run_bind (peekAt_run ha), Draft.next_eq ha]
  dsimp only
  rw [if_pos (by simp [name.2, equal.2]), run_bind (advance_run ha (by rw [name.2]; decide)),
    run_bind hrun]
  exact hvalue

theorem entry_of_expression (key : Phrase.Expression) (hd : d.Ready)
    (hkey : Reads g.expression key.tokens EndsExpression key.evaluate Holds)
    (ha : d.ahead = key.tokens ++ rest) (hends : EndsExpression (rest.headD d.final)) :
    ∃ r d₁, d.Carried d₁ rest key.evaluate (Holds r) ∧ mapEntry g d = (do
      if ← accept .equal then
        skipNewlines
        return [r, ← g.expression]
      else return [r, r] : Compile (List Register)) d₁ := by
  obtain ⟨r, d₁, hrun, hcarried⟩ := hkey d rest hd ha hends
  obtain ⟨u, us, hu, hopens⟩ := key.opens
  refine ⟨r, d₁, hcarried, ?_⟩
  have ha : d.ahead = u :: (us ++ rest) := by rw [ha, hu]; rfl
  have hidentifier : u.kind ≠ .identifier := fun hk => absurd (hk ▸ hopens) (by decide)
  unfold mapEntry
  rw [run_bind (peek_run d), run_bind (peekAt_run ha), Draft.next_eq ha]
  dsimp only
  rw [if_neg (by simp [hidentifier]), run_bind hrun]

theorem keyed_reads (key : Phrase.Expression) (equal : TokenOf .equal) (value : Phrase.Expression)
    (hkey : Reads g.expression key.tokens EndsExpression key.evaluate Holds)
    (hvalue : Reads g.expression value.tokens EndsExpression value.evaluate Holds) :
    Reads (mapEntry g) (Phrase.Entry.keyed key equal value).tokens EndsItem
      (Phrase.Entry.keyed key equal value).evaluate HoldsEntry := by
  intro d rest hd ha hends
  have ha : d.ahead = key.tokens ++ equal.1 :: (value.tokens ++ rest) := by
    rw [ha]
    exact List.append_assoc _ _ _
  have hequal : EndsExpression equal.1 := by
    unfold EndsExpression
    rw [equal.2]
    decide
  obtain ⟨k, d₁, hcarried, hrun⟩ := entry_of_expression key hd hkey ha hequal
  obtain ⟨r, d', hvalue, hboth⟩ := entryValue_run hcarried hd hvalue hends
  exact ⟨_, d', hrun.trans hvalue, hboth⟩

theorem lone_reads (value : Phrase.Expression)
    (hvalue : Reads g.expression value.tokens EndsExpression value.evaluate Holds) :
    Reads (mapEntry g) (Phrase.Entry.lone value).tokens EndsItem
      (Phrase.Entry.lone value).evaluate HoldsEntry := by
  intro d rest hd ha hends
  obtain ⟨r, d₁, hcarried, hrun⟩ := entry_of_expression value hd hvalue ha hends.endsExpression
  have hequal : d₁.next.kind ≠ .equal := by
    rw [hcarried.next]
    rcases hends with h | h | h <;> · rw [h]; decide
  rw [run_bind (accept_refuses hequal), if_neg Bool.false_ne_true] at hrun
  refine ⟨_, d₁, hrun, hcarried.map hd (stable_entry hcarried.stable hcarried.stable) ?_⟩
  exact fun v _ hv => ⟨r, r, rfl, hv, hv⟩

end Compile

end ScriptMachine
