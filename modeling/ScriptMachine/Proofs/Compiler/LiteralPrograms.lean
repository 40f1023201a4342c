import ScriptMachine.Proofs.Compiler.LiteralExpressions

set_option autoImplicit false

/-!
# Numbers in whole sources

Declarations and statements read no oversized number without failing with it, and by induction on the depth of
the recursion the whole grammar does not. So the first oversized number that is read ends the compilation with
its report, and nothing else is reported as such. Main statement: `compileSource_numbers`.
-/
namespace ScriptMachine

namespace CompileError

theorem Foreign.untilNul {m : Text} (h : Foreign m) : Foreign m.untilNul := fun hbegins =>
  h (hbegins.trans (List.takeWhile_prefix _))

end CompileError

open CompileError

namespace Registry

/-- Why an implementation is refused. -/
theorem implement_error {r : Registry} {owner : Text} {f : Function} {e : RegistryError}
    (h : r.implement owner f = .error e) : (∃ what, e = .frozen what) ∨ e = .unknownTrait owner ∨
      e = .undeclared f.name owner ∨ ∃ declared got, e = .mismatch owner f.name declared got := by
  unfold implement at h
  rcases Lexer.bind_eq_error_iff.1 h with h | ⟨-, -, h⟩
  · unfold ensureOpen at h
    split at h
    · cases h
      exact .inl ⟨_, rfl⟩
    · cases h
  rcases Lexer.bind_eq_error_iff.1 h with h | ⟨d, -, h⟩
  · unfold declared at h
    split at h
    · cases h
      exact .inr (.inl rfl)
    · split at h
      · cases h
        exact .inr (.inr (.inl rfl))
      · cases h
  · dsimp only at h
    split at h
    · cases h
    · cases h
      exact .inr (.inr (.inr ⟨_, _, rfl⟩))

end Registry

namespace Compile

variable {g : Grammar} {t s : Token}

theorem functionBody_heeds (hg : g.Heeding) (h : Header) : Heeds (functionBody g h) := by
  refine within_heeds _ (.look (peeks_openScope _ _ _ _ _) fun scope => ?_)
  refine .look (peeks_declareParams scope _) fun _ => ?_
  have hbody : Heeds (do
      functionStatements g
      closeScope
      return scope) :=
    .bind (functionStatements_heeds hg) fun _ => .look peeks_closeScope fun _ => .pure scope
  exact .ite (.look (peeks_declare _ _) fun _ => hbody) hbody

theorem functionDefinition_heeds (hg : g.Heeding) : Heeds (functionDefinition g) :=
  .bind tags_heeds fun tags => .bind (header_heeds tags none) fun h =>
    .bind (functionBody_heeds hg h) fun _ => .of_peeks (peeks_register _)

theorem nestedFunction_heeds (hg : g.Heeding) : Heeds (nestedFunction g) := by
  refine .bind (header_heeds [] none) fun h => .ite (.fail (by decide) h.token) ?_
  refine .bind (closureBody_heeds hg h _ false) fun closure => .look peeks_alloc fun out => ?_
  refine .look (peeks_emit _ h.token) fun _ => .look (peeks_emit _ h.token) fun _ => ?_
  exact .look (peeks_declareAs _ _) fun _ => .pure _

theorem peeks_isDeclarationOnly : Peeks isDeclarationOnly := fun d => .refl d

theorem traitMember_heeds (hg : g.Heeding) (owner : Text) : Heeds (traitMember g owner) := by
  refine .bind tags_heeds fun tags => .bind (header_heeds tags none) fun h => ?_
  refine .look peeks_isDeclarationOnly fun _ => .ite (.bind endStatement_heeds fun _ => .pure _) ?_
  exact .bind (functionBody_heeds hg h) fun _ => .pure _

theorem undeclared_foreign {name : Text} (h : IsWord name) (owner : Text) :
    Foreign (RegistryError.undeclared name owner).message := by
  rintro ⟨rest, hrest⟩
  have hblank : Lexer.StopsAt Lexer.isWordByte (" is not declared by trait " ++ owner : Text) := by
    rintro _ ⟨⟩
    decide
  have hname : ("Malformed" : Text) = name := by
    have hwords := congrArg (List.takeWhile Lexer.isWordByte) hrest
    rw [RegistryError.message, List.append_assoc, Lexer.takeWhile_stop h hblank] at hwords
    exact hwords
  subst hname
  have hbyte := congrArg (fun m : Text => m[10]? == some (Text.byte 'n')) hrest
  exact Bool.noConfusion (show true = false from hbyte)

theorem implement_foreign {r : Registry} {owner : Text} {f : Function} {e : RegistryError}
    (h : r.implement owner f = .error e) (hname : IsWord f.name) : Foreign e.message.untilNul := by
  refine Foreign.untilNul ?_
  obtain ⟨what, rfl⟩ | rfl | rfl | ⟨declared, got, rfl⟩ := Registry.implement_error h
  · rintro ⟨rest, hrest⟩
    have hbyte := congrArg (fun m : Text => m[1]? == some (Text.byte 'a')) hrest
    exact Bool.noConfusion (show true = false from hbyte)
  · exact foreign_of_head rfl
  · exact undeclared_foreign hname owner
  · exact foreign_of_head rfl

theorem peeks_implementAt (owner : Text) {f : Function} (hname : IsWord f.name) (site : Token) :
    Peeks (implementAt owner f site) := by
  refine .bind .get fun d => ?_
  split
  · exact peeks_modifyProgram _
  · rename_i e h
    exact .fail (implement_foreign h hname) site

theorem Heeds.header {β : Type} {f : Header → Compile β} (tags : List Tag) (owner : Option Text)
    (hf : ∀ h : Header, IsWord h.name → Heeds (f h)) : Heeds (Compile.header tags owner >>= f) := by
  intro t s d hd hnext hsecond
  have hx := (header_heeds tags owner t s d hd hnext hsecond).both (header_named tags owner hd)
  refine Ensures.bind (hx.mono (fun _ _ => id) fun _ _ h => h.1) fun h d' hh => ?_
  exact scanned_since hh.1 (hf h hh.2 _ _ d' (hh.1.lexed hd) rfl rfl)

theorem implMember_heeds (hg : g.Heeding) (owner : Text) : Heeds (implMember g owner) :=
  .bind tags_heeds fun tags => .header tags none fun h hname =>
    .bind (functionBody_heeds hg h) fun scope =>
      .of_peeks (peeks_implementAt owner (f := { h.interpreted scope with module := owner }) hname h.token)

theorem field_heeds : Heeds field := by
  refine .bind (expect_heeds (by decide) (by decide)) fun name => .bind typeAnnotation_heeds fun type => ?_
  have hend : ∀ default : Option Value, Heeds (do
      endStatement
      return (⟨name.text, type, default⟩ : Field)) := fun _ => .bind endStatement_heeds fun _ => .pure _
  exact .bind (accept_heeds (by decide)) fun _ => .ite (.bind literalValue_heeds fun _ => hend _) (hend none)

theorem objectMember_heeds (hg : g.Heeding) (owner : Text) (fields : List Field) :
    Heeds (objectMember g owner fields) := by
  refine .bind (accept_heeds (by decide)) fun _ => .ite (.bind field_heeds fun _ => .pure _) ?_
  refine .look (peeks_checkAny _) fun _ => .ite ?_ (.look peeks_peek fun t => .fail (by decide) t)
  refine .bind tags_heeds fun tags => .bind (header_heeds tags _) fun h => ?_
  exact .bind (functionBody_heeds hg h) fun _ => .look (peeks_register _) fun _ => .pure fields

theorem memberRound_ends {α : Type} (what : Text) {member : α → Compile α} (h : ∀ a, Heeds (member a))
    (a : α) {d : Draft} (hd : d.Lexed) :
    Ensures (memberRound what member a) d
      (fun b d' => d.Proceeds d' ∧ (b.2 = false → d'.next.kind = .kwEnd)) d.Stops := by
  refine Ensures.run (a := decide (d.next.kind = .kwEnd)) (t := d) rfl ?_
  split
  · rename_i hkind
    exact Ensures.pure ⟨.refl d, fun _ => of_decide_eq_true hkind⟩
  refine Ensures.run (a := decide (d.next.kind = .finish)) (t := d) rfl ?_
  split
  · have hmessage : Foreign ("Expected 'end' to close " ++ what) := foreign_of_head rfl
    exact Ensures.run (a := d.next) (t := d) rfl (Draft.Stops.elsewhere (hmessage.source _ _) (.refl d))
  · refine (h a _ _ d hd rfl rfl).bind fun a d' h' => ?_
    have hskip := scanned_since h' (skipSeparators_heeds _ _ d' (h'.lexed hd) rfl rfl)
    exact hskip.bind fun _ _ h'' => Ensures.pure ⟨h'', fun hagain => nomatch hagain⟩

theorem members_heeds {α : Type} (a : α) (what : Text) {member : α → Compile α} (h : ∀ a, Heeds (member a)) :
    Heeds (members a what member) := by
  rw [members_eq]
  refine .bind skipSeparators_heeds fun _ t s d hd _ _ => ?_
  have hloop : Ensures (whileReading a (memberRound what member)) d
      (fun _ d' => d.Proceeds d' ∧ d'.next.kind = .kwEnd) d.Stops :=
    Ensures.get_bind (loop_scans (E := fun t => t.kind = .kwEnd) (fun a _ => memberRound_ends what h a) _ a hd)
  refine hloop.bind fun a d' h' => scanned_since h'.1 ?_
  have hclose : Scans d'.next d'.second (do
      let _ ← advance
      return a) := .bind (.advance (by simp [h'.2])) fun _ => .pure a
  exact hclose d' (h'.1.lexed hd) rfl rfl

theorem traitDeclaration_scans (hg : g.Heeding) (ht : t.kind ≠ .number) : Scans t s (traitDeclaration g) := by
  refine .bind (.advance ht) fun _ => .bind (expect_heeds (by decide) (by decide)) fun name => ?_
  refine .bind (members_heeds [] _ fun found => .bind (traitMember_heeds hg name.text) fun _ => .pure _) ?_
  exact fun found => .look (peeks_register _) fun _ => .of_peeks (peeks_forM (fun _ => peeks_register _) _)

theorem peeks_adoptTrait (name : Text) : Peeks (adoptTrait name) := by
  refine .bind .get fun d => ?_
  split
  · exact peeks_register _
  · exact .pure ()

theorem implBlock_scans (hg : g.Heeding) (ht : t.kind ≠ .number) : Scans t s (implBlock g) := by
  refine .bind (.advance ht) fun _ => .bind (expect_heeds (by decide) (by decide)) fun name => ?_
  refine .look (peeks_adoptTrait _) fun _ => .look .get fun d => .ite (.fail (foreign_of_head rfl) name) ?_
  exact members_heeds () _ fun _ => implMember_heeds hg name.text

theorem objectDeclaration_scans (hg : g.Heeding) (ht : t.kind ≠ .number) :
    Scans t s (objectDeclaration g) := by
  refine .bind (.advance ht) fun _ => .bind (expect_heeds (by decide) (by decide)) fun name => ?_
  refine .ite (.fail (foreign_of_head rfl) name) ?_
  refine .bind (members_heeds [] _ (objectMember_heeds hg name.text)) fun fields => .look .get fun d => ?_
  exact .look (peeks_modifyProgram _) fun _ => .of_peeks (peeks_register _)

theorem importStatement_scans (ht : t.kind ≠ .number) : Scans t s importStatement := by
  refine .bind (.advance ht) fun _ => .bind (expect_heeds (by decide) (by decide)) fun name => ?_
  exact .look .get fun d => .ite (.of_peeks (peeks_modifyProgram _)) (.fail (foreign_of_head rfl) name)

theorem binding_scans (hg : g.Heeding) (isMutable : Bool) (ht : t.kind ≠ .number) :
    Scans t s (binding g isMutable) := by
  refine .bind (.advance ht) fun keyword => .bind (expect_heeds (by decide) (by decide)) fun name => ?_
  refine .bind (expect_heeds (by decide) (by decide)) fun _ => .bind (guardedExpression_heeds hg) fun value => ?_
  exact .look (peeks_emit _ keyword) fun _ => .look (peeks_declare _ _) fun _ => .pure value

theorem assignment_scans (hg : g.Heeding) (ht : t.kind = .identifier) (hs : s.kind ≠ .number) :
    Scans t s (assignment g) := by
  refine .shift (by simp [ht]) (by simp [ht]) fun u => .bind (.advance hs) fun _ => ?_
  refine .look (peeks_lookup _) fun found => ?_
  cases found with
  | some info =>
    refine .ite (.fail (foreign_of_head rfl) t) (.bind (guardedExpression_heeds hg) fun value => ?_)
    exact .look (peeks_emit _ t) fun _ => .pure value
  | none =>
    refine .bind (guardedExpression_heeds hg) fun value => .look (peeks_emit _ t) fun _ => ?_
    exact .look (peeks_declare _ _) fun _ => .pure value

theorem compoundAssignment_scans (hg : g.Heeding) (op : BinaryOp) (ht : t.kind = .identifier)
    (hs : s.kind ≠ .number) : Scans t s (compoundAssignment g op) := by
  refine .shift (by simp [ht]) (by simp [ht]) fun u => .bind (.advance hs) fun sign => ?_
  refine .look (peeks_lookup _) fun found => ?_
  cases found with
  | none => exact .fail (foreign_of_head rfl) t
  | some info =>
    refine .ite (.fail (foreign_of_head rfl) t) (.look peeks_alloc fun current => ?_)
    refine .look (peeks_emit _ t) fun _ => .bind (guardedExpression_heeds hg) fun right => ?_
    refine .look peeks_alloc fun out => .look (peeks_emit _ sign) fun _ => ?_
    exact .look (peeks_emit _ t) fun _ => .pure out

theorem putsStatement_heeds (hg : g.Heeding) (keyword : Token) : Heeds (putsStatement g keyword) := by
  have hrest : ∀ values : List Register, Heeds (do
      emit (.puts values) keyword
      return noneRegister) := fun values => .look (peeks_emit _ keyword) fun _ => .pure _
  refine .look peeks_startsOperand fun _ => .ite ?_ (hrest [])
  exact .bind (commaSeparated_heeds (lineItem_heeds hg)) hrest

theorem logStatement_heeds (hg : g.Heeding) (keyword : Token) : Heeds (logStatement g keyword) := by
  refine .bind (expect_heeds (by decide) (by decide)) fun level => ?_
  split
  · exact .fail (foreign_of_head rfl) level
  · rename_i l _
    refine .bind (expect_heeds (by decide) (by decide)) fun _ => ?_
    refine .bind (expect_heeds (by decide) (by decide)) fun template => ?_
    have hrest : ∀ values : List Register, Heeds (do
        emit (.log l template.text values) keyword
        return noneRegister) := fun values => .look (peeks_emit _ keyword) fun _ => .pure _
    refine .bind (accept_heeds (by decide)) fun _ => .ite ?_ (hrest [])
    exact .bind (commaSeparated_heeds (lineItem_heeds hg)) hrest

theorem simpleStatement_heeds (hg : g.Heeding) : Heeds (simpleStatement g) := by
  refine .look peeks_peek fun t => .look peeks_codeSize fun start => ?_
  have hguards : ∀ value, Heeds (guards g start value) := guards_heeds hg start
  refine .bind (accept_heeds (by decide)) fun _ => .ite (.bind (putsStatement_heeds hg t) hguards) ?_
  refine .bind (accept_heeds (by decide)) fun _ => .ite (.bind (logStatement_heeds hg t) hguards) ?_
  exact .bind hg.expression hguards

theorem topLevel_scans {declaration : Compile Unit} {what : Text}
    (hwhat : Foreign (what ++ " must be declared at top level")) (h : Scans t s declaration) (site : Token) :
    Scans t s (topLevel site what declaration) :=
  .look (peeks_requireTopLevel hwhat site) fun _ => .bind h fun _ => .pure _

theorem statement_heeds (hg : g.Heeding) : Heeds (statement g) := by
  refine fun t s => .peek ?_
  split <;> rename_i hkind
  all_goals try have ht : t.kind ≠ .number := by simp [hkind]
  · exact binding_scans hg false ht
  · exact binding_scans hg true ht
  · refine .look peeks_atTopLevel fun _ => .ite ?_ (nestedFunction_heeds hg t s)
    exact .bind (functionDefinition_heeds hg t s) fun _ => .pure _
  · exact topLevel_scans (by decide) (functionDefinition_heeds hg t s) t
  · exact topLevel_scans (by decide) (traitDeclaration_scans hg ht) t
  · exact topLevel_scans (by decide) (implBlock_scans hg ht) t
  · exact topLevel_scans (by decide) (objectDeclaration_scans hg ht) t
  · exact topLevel_scans (by decide) (importStatement_scans ht) t
  · refine .peekAt ?_
    split
    · rename_i hequal
      exact assignment_scans hg hkind (by simp [hequal])
    split
    · rename_i op hop
      exact compoundAssignment_scans hg op hkind fun h => by simp [h, compoundOperator] at hop
    · exact simpleStatement_heeds hg t s
  · exact simpleStatement_heeds hg t s

theorem grammar_heeding (depth : Nat) : (grammar depth).Heeding := by
  induction depth with
  | zero =>
    have hexhausted : Heeds (throw .exhausted : Compile Register) :=
      .of_peeks (.throw fun ⟨_, _, _, h, _⟩ => nomatch h)
    exact ⟨hexhausted, hexhausted, hexhausted⟩
  | succ depth ih => exact ⟨expression_heeds ih, operand_heeds ih, statement_heeds ih⟩

/-- Where the compilation of a whole source succeeds, the end token is next. -/
theorem wholeProgram_scans (hg : g.Heeding) {d : Draft} (hd : d.Lexed) :
    Ensures (wholeProgram g) d (fun _ d' => d.Proceeds d' ∧ d'.next.kind = .finish) d.Stops := by
  refine Ensures.run (a := d.next) (t := d) rfl ?_
  have hopen := scanned_since (.refl d)
    (Scans.of_peeks (peeks_openScope .main "<main>" false false d.next) d hd rfl rfl)
  refine hopen.bind fun _ d₁ h₁ => ?_
  have hblock := scanned_since h₁ (block_heeds hg [] _ _ d₁ (h₁.lexed hd) rfl rfl)
  refine hblock.bind fun last d₂ h₂ => ?_
  refine Ensures.run (a := decide (d₂.next.kind = .finish)) (t := d₂) rfl ?_
  split
  · rename_i hkind
    have hend : Peeks (do
        emit (.halt last) (← peek)
        closeScope) := peeks_peek.bind fun t => (peeks_emit _ t).bind fun _ => peeks_closeScope
    refine (hend d₂).mono (fun _ d₃ h₃ => ⟨h₂.trans h₃.proceeds, ?_⟩) fun _ _ h₃ => ?_
    · rw [h₃.next]
      exact of_decide_eq_true hkind
    · exact .elsewhere h₃.1 (h₂.trans h₃.2.proceeds)
  · have hmessage : Foreign ("Unexpected '" ++ d₂.next.text ++ "'") := foreign_of_head rfl
    exact Ensures.run (a := d₂.next) (t := d₂) rfl (Draft.Stops.elsewhere (hmessage.source _ _) h₂)

end Compile

open Lexer Compile

theorem tokenize_finish {source : Text} {tokens : List Token} (h : tokenize source = .ok tokens) :
    ∃ front final, tokens = front ++ [final] ∧ final.kind = .finish ∧ ∀ t ∈ front, t.kind ≠ .finish := by
  obtain ⟨spans, hspans, h⟩ := parts_of_ok h
  cases h
  obtain ⟨front, final, rfl, hfinal, -, -, hfront⟩ :=
    (tokensFrom_tiled none [] rfl rfl (.start source) spans hspans).finishes
  refine ⟨front.map (·.token), final.token, List.map_append, hfinal, ?_⟩
  exact List.forall_mem_map.2 fun s hs => (hfront s hs).1

theorem initial_lexed {source : Text} {tokens : List Token} (h : tokenize source = .ok tokens)
    (builtins : Option Registry) (id : Nat) :
    (Draft.initial builtins id tokens).ahead = tokens ∧ (Draft.initial builtins id tokens).Lexed := by
  obtain ⟨front, final, rfl, hfinal, -⟩ := tokenize_finish h
  have hend : withEndToken (front ++ [final]) = (front ++ [final], final) := by
    unfold withEndToken
    rw [List.getLast?_concat]
    exact if_pos hfinal
  have hahead : (Draft.initial builtins id (front ++ [final])).ahead = front ++ [final] := by
    rw [Draft.initial, hend]
  refine ⟨hahead, withEndToken_final _, ?_⟩
  rw [hahead]
  exact tokenize_lexed h

theorem read_of_finish {front read ahead : List Token} {final t : Token}
    (hfront : ∀ t ∈ front, t.kind ≠ .finish) (h : front ++ [final] = read ++ t :: ahead)
    (ht : t.kind = .finish) : front = read := by
  induction front generalizing read with
  | nil =>
    cases read with
    | nil => rfl
    | cons => simp at h
  | cons a front ih =>
    obtain ⟨ha, hfront⟩ := List.forall_mem_cons.1 hfront
    cases read with
    | nil =>
      obtain ⟨rfl, -⟩ := List.cons_eq_cons.1 h
      exact absurd ht ha
    | cons b read =>
      obtain ⟨rfl, htail⟩ := List.cons_eq_cons.1 h
      rw [ih hfront htail]

/-- How the compilation of a source ends: without oversized numbers; or with one, the first of the source, which
is the last token read and is reported; or before any has been read, and then no number is reported. -/
theorem wholeProgram_numbers {source : Text} {tokens : List Token} (h : tokenize source = .ok tokens)
    (builtins : Option Registry) (id : Nat) :
    Ensures (wholeProgram (grammar (recursionDepth tokens))) (.initial builtins id tokens)
      (fun _ _ => ∀ t ∈ tokens, ¬t.Oversized)
      fun e d => (∃ read, tokens = read ++ d.ahead ∧ (∀ t ∈ read, ¬t.Oversized) ∧ ¬e.Malformed) ∨
        ∃ read t, tokens = read ++ t :: d.ahead ∧ (∀ u ∈ read, ¬u.Oversized) ∧ t.Oversized ∧
          e = malformed t d.functionName := by
  obtain ⟨hahead, hlexed⟩ := initial_lexed h builtins id
  obtain ⟨front, final, htokens, hfinal, hfront⟩ := tokenize_finish h
  refine (wholeProgram_scans (grammar_heeding _) hlexed).mono (fun _ d h' => ?_) fun e d h' => ?_
  · obtain ⟨⟨-, read, hread, hsizes⟩, hnext⟩ := h'
    rw [hahead] at hread
    unfold Draft.next at hnext
    cases hd : d.ahead with
    | nil =>
      rw [hread, hd, List.append_nil]
      exact hsizes
    | cons t ahead =>
      rw [hd] at hread hnext
      obtain rfl : front = read := read_of_finish hfront (htokens.symm.trans hread) hnext
      rw [htokens, List.forall_mem_append]
      refine ⟨hsizes, List.forall_mem_singleton.2 fun hfinal' => ?_⟩
      exact nomatch hfinal.symm.trans hfinal'.1
  · rw [← hahead]
    cases h' with
    | elsewhere he hproceeds =>
      obtain ⟨read, hread, hsizes⟩ := hproceeds.ahead
      exact .inl ⟨read, hread, hsizes, he⟩
    | oversized hread hsizes ht => exact .inr ⟨_, _, hread, hsizes, ht, rfl⟩

/-- How the numbers of a source are dealt with. -/
structure DealsWithNumbers (builtins : Option Registry) (id : Nat) (source : Text) : Prop where
  /-- The source is not split for the sake of a number exactly if somewhere, where a token may start, digits run
  into a letter that ends no number. -/
  split : ∀ e, tokenize source = .error e ∧ e.message = "Malformed number literal" ↔
    ∃ p b rest, Reaches .start source p (b :: rest) ∧ Text.isDigit b = true ∧ RunsIntoWord rest ∧
      e = located "Malformed number literal" p
  /-- Of a source that is split, just the numbers that are not oversized can be read. -/
  parsed : ∀ tokens, tokenize source = .ok tokens → ∀ t ∈ tokens, t.kind = .number →
    ((Number.parse t.text).isSome = true ↔ ¬Number.Oversized t.text)
  /-- Where the parser comes to a number, it reports it exactly if it is oversized. -/
  read : ∀ tokens, tokenize source = .ok tokens → ∀ t ∈ tokens, t.kind = .number → ∀ d : Draft,
    if Number.Oversized t.text then numberLiteral t d = .error (malformed t d.functionName) d
    else ∃ n, Number.parse t.text = some n ∧ numberLiteral t d = .ok n d
  /-- Only a source without oversized numbers is compiled. Where compilation fails, either no oversized number has
  been read and no number is reported, or the last token read is the first oversized number of the source, and it
  is reported. -/
  compiled : ∀ tokens, tokenize source = .ok tokens →
    Ensures (wholeProgram (grammar (recursionDepth tokens))) (.initial builtins id tokens)
      (fun _ _ => ∀ t ∈ tokens, ¬t.Oversized)
      fun e d => (∃ read, tokens = read ++ d.ahead ∧ (∀ t ∈ read, ¬t.Oversized) ∧ ¬e.Malformed) ∨
        ∃ read t, tokens = read ++ t :: d.ahead ∧ (∀ u ∈ read, ¬u.Oversized) ∧ t.Oversized ∧
          e = malformed t d.functionName
  /-- What is reported as a number is the first oversized one of the source, at its place. -/
  reported : ∀ tokens e, tokenize source = .ok tokens → compileSource builtins id source = .error e →
    e.Malformed → ∃ before t after function, tokens = before ++ t :: after ∧
      (∀ u ∈ before, ¬u.Oversized) ∧ t.Oversized ∧ e = malformed t function

/-- Every number of a source can be read, but for unsigned ones that are too large for a word; these are reported
where they stand, and a number that runs into a word keeps the source from being split. -/
theorem compileSource_numbers (builtins : Option Registry) (id : Nat) (source : Text) :
    DealsWithNumbers builtins id source where
  split e := tokenize_malformed_iff
  parsed tokens h t ht hkind := Number.parse_spelled ((tokenize_lexed h t ht).number hkind)
  read tokens h t ht hkind d := by
    have hparse := Number.parse_spelled ((tokenize_lexed h t ht).number hkind)
    unfold numberLiteral
    cases hn : Number.parse t.text with
    | none =>
      rw [hn] at hparse
      rw [if_pos (by_contra fun hsize => nomatch hparse.2 hsize)]
      rfl
    | some n =>
      rw [hn] at hparse
      rw [if_neg (hparse.1 rfl)]
      exact ⟨n, rfl, rfl⟩
  compiled tokens h := wholeProgram_numbers h builtins id
  reported tokens e h herror hmalformed := by
    have hrun := wholeProgram_numbers h builtins id
    unfold compileSource at herror
    rw [h] at herror
    dsimp only at herror
    rw [compileTokens_eq] at herror
    cases hresult : (wholeProgram (grammar (recursionDepth tokens))).run (.initial builtins id tokens) with
    | ok _ d =>
      rw [hresult] at herror
      cases herror
    | error e' d =>
      rw [hresult] at herror
      cases herror
      rcases hrun.of_error hresult with ⟨-, -, -, hforeign⟩ | ⟨before, t, htokens, hbefore, ht, he⟩
      · exact absurd hmalformed hforeign
      · exact ⟨before, t, d.ahead, d.functionName, htokens, hbefore, ht, he⟩

end ScriptMachine
