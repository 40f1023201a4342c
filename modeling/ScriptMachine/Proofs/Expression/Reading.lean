import ScriptMachine.Compiler.Source
import ScriptMachine.Proofs.Compiler.Writing
import ScriptMachine.Proofs.Expression.Calculation

set_option autoImplicit false

namespace ScriptMachine

open Phrase (Evaluation)

namespace Draft

def moved (d : Draft) (t : Token) (rest : List Token) : Draft :=
  { d with ahead := rest, previous := some t }

def count (d : Draft) : Nat := d.scope.registerCount

/-- The scope being written exists and has its first registers. -/
structure Ready (d : Draft) : Prop where
  inside : d.current < d.program.scopes.size
  scratch : firstScratch ≤ d.count

/-- Tokens have been read up to `rest`, and code has been written into the current scope. -/
structure Wrote (d d' : Draft) (rest : List Token) (code : List Instruction) : Prop where
  ahead : d'.ahead = rest
  final : d'.final = d.final
  opened : d'.opened = d.opened
  size : d'.program.scopes.size = d.program.scopes.size
  code : d'.scope.code.toList = d.scope.code.toList ++ code
  grows : d.count ≤ d'.count

variable {d d' d'' : Draft} {t : Token} {rest rest' : List Token} {code code' : List Instruction}

theorem next_eq (h : d.ahead = t :: rest) : d.next = t := by
  unfold next
  rw [h]
  rfl

theorem next_ne {kinds : List TokenKind} (kind : TokenKind) (h : d.ahead = t :: rest)
    (ht : t.kind ∈ kinds) (hkind : kind ∉ kinds) : d.next.kind ≠ kind := by
  rw [next_eq h]
  rintro rfl
  exact hkind ht

theorem moved_wrote (d : Draft) (t : Token) (rest : List Token) : d.Wrote (d.moved t rest) rest [] :=
  ⟨rfl, rfl, rfl, rfl, (List.append_nil _).symm, Nat.le_refl _⟩

theorem Wrote.ready (h : d.Wrote d' rest code) (hd : d.Ready) : d'.Ready := by
  have hcurrent : d'.current = d.current := by
    unfold current openScopes
    rw [h.opened]
  exact ⟨hcurrent ▸ h.size ▸ hd.inside, Nat.le_trans hd.scratch h.grows⟩

theorem Wrote.trans (h : d.Wrote d' rest code) (h' : d'.Wrote d'' rest' code') :
    d.Wrote d'' rest' (code ++ code') where
  ahead := h'.ahead
  final := h'.final.trans h.final
  opened := h'.opened.trans h.opened
  size := h'.size.trans h.size
  code := by rw [h'.code, h.code, List.append_assoc]
  grows := Nat.le_trans h.grows h'.grows

theorem Ready.moved (h : d.Ready) (t : Token) (rest : List Token) : (d.moved t rest).Ready :=
  ⟨h.inside, h.scratch⟩

end Draft

namespace Compile

variable {α β γ : Type} {d d' : Draft} {t : Token} {rest : List Token} {g : Grammar}
  {kind : TokenKind}

theorem peek_run (d : Draft) : peek d = .ok d.next d := rfl

theorem peekAt_run (h : d.ahead = t :: rest) : peekAt 1 d = .ok (rest.headD d.final) d := by
  have hsecond : (d.ahead[1]?).getD d.final = rest.headD d.final := by
    rw [h]
    cases rest <;> rfl
  rw [← hsecond]
  rfl

theorem advance_run (h : d.ahead = t :: rest) (ht : t.kind ≠ .finish) :
    advance d = .ok t (d.moved t rest) := by
  unfold advance
  rw [run_bind (peek_run d), Draft.next_eq h, if_neg ht]
  change EStateM.Result.ok t { d with ahead := d.ahead.tail, previous := some t } = _
  rw [h]
  rfl

theorem check_run (d : Draft) (kind : TokenKind) : check kind d = .ok (d.next.kind = kind) d := rfl

theorem accept_run (h : d.ahead = t :: rest) (ht : t.kind = kind) (hkind : kind ≠ .finish) :
    accept kind d = .ok true (d.moved t rest) := by
  have hcheck : check kind d = .ok true d := by
    rw [check_run, Draft.next_eq h, decide_eq_true ht]
  unfold accept
  rw [run_bind hcheck, if_pos rfl, run_bind (advance_run h (ht ▸ hkind))]
  rfl

theorem accept_refuses (h : d.next.kind ≠ kind) : accept kind d = .ok false d := by
  have hcheck : check kind d = .ok false d := by rw [check_run, decide_eq_false h]
  unfold accept
  rw [run_bind hcheck, if_neg Bool.false_ne_true]
  rfl

theorem expect_run (h : d.ahead = t :: rest) (ht : t.kind = kind) (hkind : kind ≠ .finish)
    (message : Text) : expect kind message d = .ok t (d.moved t rest) := by
  have hcheck : check kind d = .ok true d := by
    rw [check_run, Draft.next_eq h, decide_eq_true ht]
  unfold expect
  rw [run_bind hcheck, if_pos rfl, advance_run h (ht ▸ hkind)]

theorem skipTokens_eq {kinds : List TokenKind} {final : Token} {ahead : List Token}
    (previous : Option Token) (h : ahead ≠ [] → (ahead.headD final).kind ∉ kinds) :
    skipTokens kinds previous ahead = (previous, ahead) := by
  cases ahead with
  | nil => rfl
  | cons t rest =>
    have ht : kinds.contains t.kind = false := by
      simpa using h (List.cons_ne_nil t rest)
    unfold skipTokens
    rw [if_neg (by rw [ht]; exact Bool.false_ne_true)]

theorem skip_run {kinds : List TokenKind} (h : d.next.kind ∉ kinds) : skip kinds d = .ok ⟨⟩ d := by
  have hskip := skipTokens_eq d.previous fun _ => h
  change EStateM.Result.ok _ { d with
    previous := (skipTokens kinds d.previous d.ahead).1
    ahead := (skipTokens kinds d.previous d.ahead).2 } = _
  rw [hskip]

theorem skipNewlines_run (h : d.next.kind ≠ .newline) : skipNewlines d = .ok ⟨⟩ d :=
  skip_run fun hm => h (List.mem_singleton.1 hm)

theorem whileReading_eq (a : α) (step : α → Compile (α × Bool)) (d : Draft) :
    whileReading a step d = loop step (d.ahead.length + 1) a d := rfl

theorem whileReading_run {a b : α} {step : α → Compile (α × Bool)}
    (h : step a d = .ok (b, false) d') : whileReading a step d = .ok b d' := by
  rw [whileReading_eq, loop, run_bind h]
  rfl

theorem scope_rewrite (hd : d.Ready) (f : Scope → Scope) : (d.rewrite f).scope = f d.scope := by
  change ((d.program.scopes.modify d.current f)[d.current]?).getD default = _
  unfold Draft.scope
  rw [Array.getElem?_modify, if_pos rfl, Array.getElem?_eq_getElem hd.inside]
  rfl

theorem alloc_run (d : Draft) : alloc d = .ok d.count
    (d.rewrite fun s => { s with registerCount := d.count + 1 }) := run_bind (currentScope_eq d)

theorem output_run (hd : d.Ready) (op : Register → Operation) (site : Token)
    (k : Register → Compile β) :
    ∃ d', (do
        let out ← alloc
        emit (op out) site
        k out) d = k d.count d' ∧
      d.Wrote d' d.ahead [⟨op d.count, place site⟩] ∧ d'.count = d.count + 1 := by
  refine ⟨d.rewrite (append (op d.count) site ∘ fun s => { s with registerCount := d.count + 1 }),
    ?_, ⟨rfl, rfl, rfl, ?_, ?_, ?_⟩, ?_⟩
  · rw [run_bind (alloc_run d), run_bind (emit_run _ _ _), rewrite_rewrite]
  · exact Array.size_modify
  · rw [scope_rewrite hd]
    exact Array.toList_push
  · unfold Draft.count
    rw [scope_rewrite hd]
    exact Nat.le_succ _
  · unfold Draft.count
    rw [scope_rewrite hd]
    rfl

end Compile

/-- From `d` to `d'` tokens were read up to `rest`, and what was written carries out `y`. -/
structure Draft.Carried {β : Type} (d d' : Draft) (rest : List Token) (y : Evaluation β)
    (post : β → Array Value → Prop) : Prop where
  written : ∃ code, d.Wrote d' rest code ∧
    Evaluates code d.count d'.count (fun _ => True) y post
  stable : ∀ b, Stable d'.count (post b)

namespace Draft.Carried

variable {β γ δ : Type} {d d₁ d₂ d₃ : Draft} {rest rest₁ rest₂ : List Token} {y : Evaluation β}
  {z : Evaluation γ} {post : β → Array Value → Prop} {post₁ : γ → Array Value → Prop}
  {post₂ : δ → Array Value → Prop} {code : List Instruction}

theorem ready (h : d.Carried d₁ rest y post) (hd : d.Ready) : d₁.Ready := by
  obtain ⟨code, hw, -⟩ := h.written
  exact hw.ready hd

theorem ahead (h : d.Carried d₁ rest y post) : d₁.ahead = rest := by
  obtain ⟨code, hw, -⟩ := h.written
  exact hw.ahead

theorem final (h : d.Carried d₁ rest y post) : d₁.final = d.final := by
  obtain ⟨code, hw, -⟩ := h.written
  exact hw.final

theorem grows (h : d.Carried d₁ rest y post) : d.count ≤ d₁.count := by
  obtain ⟨code, hw, -⟩ := h.written
  exact hw.grows

theorem next (h : d.Carried d₁ rest y post) : d₁.next = rest.headD d.final := by
  unfold Draft.next
  rw [h.ahead, h.final]

theorem of_moved {t : Token} {ts : List Token} (h : (d.moved t ts).Carried d₁ rest y post) :
    d.Carried d₁ rest y post := by
  obtain ⟨code, hw, he⟩ := h.written
  exact ⟨⟨code, (d.moved_wrote t ts).trans hw, he⟩, h.stable⟩

theorem moved (t : Token) (ts : List Token) (h : d.Carried d₁ rest y post) :
    d.Carried (d₁.moved t ts) ts y post := by
  obtain ⟨code, hw, he⟩ := h.written
  refine ⟨⟨code, ?_, he⟩, h.stable⟩
  rw [← List.append_nil code]
  exact hw.trans (d₁.moved_wrote t ts)

theorem extend {w : β → Evaluation γ} (h : d.Carried d₁ rest y post) (hd : d.Ready)
    (hw : d₁.Wrote d₂ rest₂ code) (hstable : ∀ c, Stable d₂.count (post₁ c))
    (he : ∀ b, Evaluates code d₁.count d₂.count (post b) (w b) post₁) :
    d.Carried d₂ rest₂ (y >>= w) post₁ := by
  obtain ⟨code₁, hw₁, he₁⟩ := h.written
  refine ⟨⟨code₁ ++ code, hw₁.trans hw, ?_⟩, hstable⟩
  exact he₁.bind he (Nat.lt_of_lt_of_le Nat.zero_lt_two hd.scratch) hw₁.grows hw.grows

theorem join {w : β → γ → Evaluation δ} (h : d.Carried d₁ rest y post)
    (h₁ : d₁.Carried d₂ rest₁ z post₁) (hd : d.Ready) (hw : d₂.Wrote d₃ rest₂ code)
    (hstable : ∀ c, Stable d₃.count (post₂ c))
    (he : ∀ b c, Evaluates code d₂.count d₃.count (fun r => post₁ c r ∧ post b r) (w b c) post₂) :
    d.Carried d₃ rest₂ (y >>= fun b => z >>= fun c => w b c) post₂ := by
  obtain ⟨code₁, hw₁, he₁⟩ := h.written
  obtain ⟨code₂, hw₂, he₂⟩ := h₁.written
  have hpos : 0 < d₁.count := Nat.lt_of_lt_of_le Nat.zero_lt_two (hw₁.ready hd).scratch
  have hrest : ∀ b, Evaluates (code₂ ++ code) d₁.count d₃.count (post b) (z >>= w b) post₂ := by
    intro b
    have hz : Evaluates code₂ d₁.count d₂.count (post b) z fun c r => post₁ c r ∧ post b r :=
      (he₂.frame (h.stable b)).imp (fun _ hb => ⟨trivial, hb⟩) fun _ _ hc => hc
    exact hz.bind (he b) hpos hw₂.grows hw.grows
  refine ⟨⟨code₁ ++ (code₂ ++ code), hw₁.trans (hw₂.trans hw), ?_⟩, hstable⟩
  exact he₁.bind hrest (Nat.lt_of_lt_of_le Nat.zero_lt_two hd.scratch) hw₁.grows
    (hw₂.trans hw).grows

theorem map {w : β → γ} (h : d.Carried d₁ rest y post) (hd : d.Ready)
    (hstable : ∀ c, Stable d₁.count (post₁ c)) (hw : ∀ b r, post b r → post₁ (w b) r) :
    d.Carried d₁ rest (y >>= fun b => pure (w b)) post₁ := by
  have hwrote : d₁.Wrote d₁ rest [] :=
    ⟨h.ahead, rfl, rfl, rfl, (List.append_nil _).symm, Nat.le_refl _⟩
  exact h.extend hd hwrote hstable fun b => Evaluates.pure (hw b)

theorem pair {w : β → γ → δ} (h : d.Carried d₁ rest y post) (h₁ : d₁.Carried d₂ rest₁ z post₁)
    (hd : d.Ready) (hstable : ∀ c, Stable d₂.count (post₂ c))
    (hw : ∀ b c r, post b r → post₁ c r → post₂ (w b c) r) :
    d.Carried d₂ rest₁ (y >>= fun b => z >>= fun c => pure (w b c)) post₂ := by
  have hwrote : d₂.Wrote d₂ rest₁ [] :=
    ⟨h₁.ahead, rfl, rfl, rfl, (List.append_nil _).symm, Nat.le_refl _⟩
  exact h.join h₁ hd hwrote hstable fun b c => Evaluates.pure fun r hr => hw b c r hr.2 hr.1

end Draft.Carried

/-- The action reads just the tokens `ts`, if what follows them ends it, and what it writes carries
out `y`. -/
def Reads {α β : Type} (x : Compile α) (ts : List Token) (Ends : Token → Prop) (y : Evaluation β)
    (post : α → β → Array Value → Prop) : Prop :=
  ∀ (d : Draft) (rest : List Token), d.Ready → d.ahead = ts ++ rest → Ends (rest.headD d.final) →
    ∃ a d', x d = .ok a d' ∧ d.Carried d' rest y (post a)

theorem Reads.mono {α β : Type} {x : Compile α} {ts : List Token} {Ends Ends' : Token → Prop}
    {y : Evaluation β} {post : α → β → Array Value → Prop} (h : Reads x ts Ends y post)
    (hends : ∀ t, Ends' t → Ends t) : Reads x ts Ends' y post :=
  fun d rest hd ha he => h d rest hd ha (hends _ he)

def closingKinds : List TokenKind := [.finish, .comma, .equal, .rparen, .rbracket, .rbrace]

def EndsExpression (t : Token) : Prop := t.kind ∈ closingKinds

def EndsItem (t : Token) : Prop := t.kind = .comma ∨ t.kind = .rbracket ∨ t.kind = .rbrace

theorem EndsItem.endsExpression {t : Token} (h : EndsItem t) : EndsExpression t := by
  unfold EndsExpression
  rcases h with h | h | h <;> · rw [h]; decide

def EndsOperand (t : Token) : Prop :=
  t.kind ≠ .dot ∧ t.kind ≠ .lbracket ∧ t.kind ≠ .lparen ∧ t.kind ≠ .bang

theorem EndsExpression.endsOperand {t : Token} (h : EndsExpression t) : EndsOperand t := by
  have hall : ∀ k ∈ closingKinds, k ≠ .dot ∧ k ≠ .lbracket ∧ k ≠ .lparen ∧ k ≠ .bang := by decide
  exact hall _ h

namespace Compile

variable {d d' : Draft} {t : Token} {ts rest : List Token} {g : Grammar} {y : Evaluation Value}

theorem loadLiteral_run (hd : d.Ready) (v : Value) (site : Token) :
    ∃ d', loadLiteral v site d = .ok d.count d' ∧ d.Carried d' d.ahead (pure v) (Holds d.count) := by
  obtain ⟨d', hrun, hw, hcount⟩ := output_run hd (fun out => .load v out) site pure
  refine ⟨d', hrun, ⟨_, hw, ?_⟩, fun b => stable_holds (hcount ▸ Nat.lt_succ_self _)⟩
  rw [hcount]
  exact evaluates_load hd.scratch

theorem Carried.output {β : Type} {z : Evaluation β} {post : β → Array Value → Prop}
    {w : β → Evaluation Value} (op : Register → Operation) (site : Token)
    (h : d.Carried d' rest z post) (hd : d.Ready)
    (he : ∀ b, Evaluates [⟨op d'.count, place site⟩] d'.count (d'.count + 1) (post b) (w b)
      (Holds d'.count)) {α : Type} (k : Register → Compile α) :
    ∃ d'', (do
        let out ← alloc
        emit (op out) site
        k out) d' = k d'.count d'' ∧ d.Carried d'' rest (z >>= w) (Holds d'.count) := by
  obtain ⟨d'', hrun, hw, hcount⟩ := output_run (h.ready hd) op site k
  refine ⟨d'', hrun, ?_⟩
  rw [h.ahead] at hw
  refine h.extend hd hw (fun _ => stable_holds (hcount ▸ Nat.lt_succ_self _)) fun b => ?_
  rw [hcount]
  exact he b

theorem suffixes_run {target : Operand} (h : EndsOperand d.next) :
    suffixes g target d = .ok target d := by
  obtain ⟨hdot, hbracket, hparen, hbang⟩ := h
  refine whileReading_run ?_
  have hpeek : ∃ u, peekAt 1 d = .ok u d := ⟨_, rfl⟩
  obtain ⟨u, hu⟩ := hpeek
  rw [run_bind (peek_run d), if_neg hdot, if_neg, if_neg, run_bind hu, if_neg]
  · rfl
  · simp [hbang]
  · simp [hparen]
  · simp [hbracket]

theorem plainOperand_run {read : Compile Register} {r : Register} (h : read d = .ok r d') :
    plainOperand read d = .ok ⟨r, none⟩ d' := by
  unfold plainOperand
  rw [run_bind h]
  rfl

theorem operand_reads (hprimary : Reads (primary g) (t :: ts) EndsOperand y fun o => Holds o.register)
    (ht : prefixOperator t.kind = none) : Reads (operand g) (t :: ts) EndsOperand y Holds := by
  intro d rest hd ha hends
  obtain ⟨o, d', hrun, hcarried⟩ := hprimary d rest hd ha hends
  refine ⟨o.register, d', ?_, hcarried⟩
  have hminus : t.kind ≠ .minus := by
    intro hk
    rw [hk] at ht
    cases ht
  unfold operand
  rw [run_bind (peek_run d), run_bind (peekAt_run ha), Draft.next_eq ha, if_neg (by simp [hminus]), ht]
  dsimp only
  rw [run_bind hrun, run_bind (suffixes_run (hcarried.next ▸ hends))]
  rfl

theorem literal_reads {v : Value} (ht : t.kind ≠ .finish)
    (h : ∀ d, d.next = t → primary g d = (advance >>= fun _ => plainOperand (loadLiteral v t)) d) :
    Reads (primary g) [t] EndsOperand (pure v) fun o => Holds o.register := by
  intro d rest hd ha _
  obtain ⟨d', hrun, hcarried⟩ := loadLiteral_run (hd.moved t rest) v t
  refine ⟨⟨d.count, none⟩, d', ?_, hcarried.of_moved⟩
  rw [h d (Draft.next_eq ha), run_bind (advance_run ha ht)]
  exact plainOperand_run hrun

end Compile

end ScriptMachine
