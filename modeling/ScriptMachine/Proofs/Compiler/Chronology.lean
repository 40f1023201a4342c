import ScriptMachine.Proofs.Compiler.Declarations
import ScriptMachine.Proofs.Compiler.Quiet
import ScriptMachine.Proofs.Compiler.SourceOrder

set_option autoImplicit false

namespace ScriptMachine

/-- What a program enters with a place: functions that are extensions or not, and imports. -/
inductive Mark where
  | function (extension : Bool)
  | importing
  deriving DecidableEq

def Function.mark (f : Function) : Mark := .function f.isExtension

namespace Program

def places (p : Program) : Mark → List Location
  | .function extension => (p.modules.functions.filter fun f => f.isExtension == extension).map (·.location)
  | .importing => p.imports.map (·.location)

/-- Functions of either kind and imports have been entered in the order of the source, and no two entries
stand at one place. -/
structure Chronological (p : Program) : Prop where
  ordered : ∀ m, (Location.unknown :: p.places m).Pairwise Location.Before
  apart : ∀ m m', m ≠ m' → ∀ l ∈ p.places m, l ∉ p.places m'

end Program

namespace Registry

def Enters (r r' : Registry) (f : Function) : Prop :=
  ∃ x, r'.functions = r.functions ++ [x] ∧ x.isExtension = f.isExtension ∧ x.location = f.location

theorem defineFunction_enters {r r' : Registry} {f : Function} (h : r.defineFunction f = .ok r') :
    r.Enters r' f := by
  rw [defineFunction_eq h]
  exact ⟨_, rfl, rfl, rfl⟩

theorem implement_enters {r r' : Registry} {owner : Text} {f : Function} (h : r.implement owner f = .ok r') :
    r.Enters r' f := by
  obtain ⟨d, -, rfl⟩ := implement_eq h
  exact ⟨_, rfl, rfl, rfl⟩

end Registry

namespace Compile

variable {d d' d₁ : Draft} {g : Grammar} {m m' : Mark} {l : Location} {t : Token}
  {ps qs : List (Mark × Location)}

def entries (ps : List (Mark × Location)) (d : Draft) (m : Mark) : List Location :=
  d.program.places m ++ (ps.filter fun e => e.1 == m).map (·.2)

/-- At the top level, where `ps` has been read and is still to be entered. -/
structure Chronicle (ps : List (Mark × Location)) (d : Draft) : Prop where
  top : d.opened.length = 1
  final : d.final.kind = .finish
  ordered : ∀ m, (Location.unknown :: (entries ps d m ++ d.ahead.map place)).Pairwise Location.Before
  apart : ∀ m m', m ≠ m' → ∀ l ∈ entries ps d m, l ∉ entries ps d m'

theorem Quiet.entries (q : Quiet d d') (ps : List (Mark × Location)) (m : Mark) :
    entries ps d' m = entries ps d m := by
  cases m with
  | function extension => simp only [Compile.entries, Program.places, q.modules]
  | importing => simp only [Compile.entries, Program.places, q.imports]

theorem entries_append (ps : List (Mark × Location)) (d : Draft) :
    entries (ps ++ [(m, l)]) d m' = entries ps d m' ++ if m = m' then [l] else [] := by
  by_cases hm : m = m' <;> simp [entries, hm]

namespace Chronicle

theorem chronological (h : Chronicle [] d) : d.program.Chronological := by
  have hentries : ∀ m, entries [] d m = d.program.places m := fun m => List.append_nil _
  refine ⟨fun m => ?_, fun m m' hm => ?_⟩
  · have hordered := h.ordered m
    rw [hentries] at hordered
    exact hordered.sublist ((List.sublist_append_left _ _).cons_cons _)
  · have hapart := h.apart m m' hm
    rwa [hentries, hentries] at hapart

theorem congr (h : Chronicle ps d) (hentries : ∀ m, entries qs d' m = entries ps d m)
    (hdepth : d'.opened.length = d.opened.length) (hfinal : d'.final = d.final)
    (hahead : d'.ahead.Sublist d.ahead) : Chronicle qs d' where
  top := hdepth.trans h.top
  final := hfinal ▸ h.final
  ordered := fun m => (h.ordered m).sublist (by
    rw [hentries]
    exact ((hahead.map place).append_left _).cons_cons _)
  apart := fun m m' hm => by
    rw [hentries, hentries]
    exact h.apart m m' hm

theorem quiet (h : Chronicle ps d) (q : Quiet d d') : Chronicle ps d' :=
  h.congr (q.entries ps) q.depth q.final q.ahead.sublist

theorem still (h : Chronicle ps d) (u : Still d d') : Chronicle ps d' := h.quiet u.quiet

theorem follow {α : Type} {x : Compile α} (h : Chronicle ps d) (hx : Follows (QuietAt 1) x) :
    Post x d fun _ d' => Chronicle ps d' :=
  (hx d).imp fun _ _ q => h.quiet (q (Nat.le_of_eq h.top.symm))

/-- A token that has been read may stand for what is to be entered. -/
theorem read (h : Chronicle ps d) (q : Quiet d d') (ht : (t :: d'.ahead).Sublist d.ahead) (m : Mark) :
    Chronicle (ps ++ [(m, place t)]) d' := by
  have h' := h.quiet q
  have hordered : ∀ m', (Location.unknown :: (entries ps d' m' ++ place t :: d'.ahead.map place)).Pairwise
      Location.Before := fun m' => (h.ordered m').sublist (by
    rw [q.entries]
    exact ((ht.map place).append_left _).cons_cons _)
  have hnew : ∀ m', place t ∉ entries ps d' m' := fun m' hin =>
    (List.pairwise_append.1 (List.pairwise_cons.1 (hordered m')).2).2.2 _ hin _ List.mem_cons_self |>.ne rfl
  refine ⟨h'.top, h'.final, fun m' => ?_, fun m₁ m₂ hm l hl => ?_⟩
  · rw [entries_append]
    split
    · rw [List.append_assoc]
      exact hordered m'
    · rw [List.append_nil]
      exact h'.ordered m'
  · rw [entries_append] at hl ⊢
    rw [List.mem_append, not_or]
    rcases List.mem_append.1 hl with hold | hread
    · refine ⟨h'.apart m₁ m₂ hm l hold, fun hread => ?_⟩
      split at hread
      · rw [List.mem_singleton.1 hread] at hold
        exact hnew m₁ hold
      · cases hread
    · split at hread
      · subst m₁
        rw [List.mem_singleton.1 hread, if_neg hm]
        exact ⟨hnew m₂, List.not_mem_nil⟩
      · cases hread

theorem enter (ps qs : List (Mark × Location)) (h : Chronicle (ps ++ (m, l) :: qs) d)
    (hps : ∀ e ∈ ps, e.1 ≠ m) {p : Program}
    (hplaces : ∀ m', p.places m' = d.program.places m' ++ if m = m' then [l] else []) :
    Chronicle (ps ++ qs) { d with program := p } := by
  refine h.congr (fun m' => ?_) rfl rfl (List.Sublist.refl _)
  change p.places m' ++ _ = _
  rw [hplaces, entries, List.append_assoc]
  congr 1
  by_cases hm : m = m'
  · subst m'
    have hnone : ps.filter (fun e => e.1 == m) = [] :=
      List.filter_eq_nil_iff.2 fun e he => by simpa using hps e he
    simp [List.filter_append, hnone]
  · simp [List.filter_append, hm]

end Chronicle

/-- A token that is expected has been ahead. -/
theorem expect_takes {kind : TokenKind} (message : Text) (hkind : kind ≠ .finish)
    (hfinal : d.final.kind = .finish) :
    Post (expect kind message) d fun t d' => (t :: d'.ahead).Sublist d.ahead := by
  refine Ensures.run (a := decide ((d.ahead.headD d.final).kind = kind)) (t := d) rfl ?_
  cases hahead : d.ahead with
  | nil =>
    rw [List.headD_nil, hfinal, if_neg (by simpa using hkind.symm)]
    trivial
  | cons t rest =>
    rw [List.headD_cons]
    split
    · have ht : t.kind = kind := of_decide_eq_true ‹_›
      refine Ensures.of_run (a := t) (t := { d with ahead := rest, previous := some t }) ?_ (List.Sublist.refl _)
      refine (run_bind (a := t) (t := d) ?_).trans ?_
      · change EStateM.Result.ok (d.ahead.headD d.final) d = _
        rw [hahead]
        rfl
      · rw [if_neg (ht ▸ hkind)]
        change EStateM.Result.ok t { d with ahead := d.ahead.tail, previous := some t } = _
        rw [hahead]
        rfl
    · trivial

theorem expect_then {α : Type} {kind : TokenKind} {message : Text} {f : Token → Compile α}
    {Q : α → Draft → Prop} (hkind : kind ≠ .finish) (hfinal : d.final.kind = .finish)
    (hf : ∀ t d', Still d d' → (t :: d'.ahead).Sublist d.ahead → Post (f t) d' Q) :
    Post (expect kind message >>= f) d Q :=
  Ensures.bind (post_both (silent_expect kind message d) (expect_takes message hkind hfinal))
    fun t d' h => hf t d' h.1 h.2

/-- A header has the token that it begins with. -/
theorem header_takes (tags : List Tag) (owner : Option Text) (hfinal : d.final.kind = .finish) :
    Post (header tags owner) d fun h d' => (h.token :: d'.ahead).Sublist d.ahead ∧
      (owner.isSome = true → h.signature.receiver.isSome = true) := by
  refine expect_then (by decide) hfinal fun token d₁ _ htoken => ?_
  refine Follows.then (silent_accept _) fun mutableReceiver d₂ u₂ => ?_
  refine Follows.then (silent_expect _ _) fun first d₃ u₃ => Follows.then (silent_accept _) fun dot d₄ u₄ => ?_
  have u₄ := (u₂.trans u₃).trans u₄
  have hrest : ∀ (name : Text × Option DeclaredType) (d₅ : Draft), Still d₁ d₅ →
      (owner.isSome = true → name.2.isSome = true) → Post (
      if mutableReceiver && name.2.isNone then
        fail "Only extension functions take a mutable receiver" first
      else do
        let params ← if ← accept .lparen then parameterList .rparen "Expected ')' after parameters"
          else pure []
        let returns ← if ← accept .arrow then typeName else pure .any
        return (⟨token, name.1, ⟨params, returns, name.2, mutableReceiver⟩, tags⟩ : Header)) d₅
      fun h d' => (h.token :: d'.ahead).Sublist d.ahead ∧
        (owner.isSome = true → h.signature.receiver.isSome = true) := by
    intro name d₅ u₅ hname
    split
    · exact trivial
    refine Follows.then (silent_accept _) fun found d₆ u₆ => ?_
    refine Ensures.ite_bind (R := fun _ d' => Still d₆ d') ?_ fun params d₇ u₇ => ?_
    · split
      · exact silent_parameterList _ _ d₆
      · exact Ensures.pure (Still.refl d₆)
    refine Follows.then (silent_accept _) fun arrow d₈ u₈ => ?_
    refine Ensures.ite_bind (R := fun _ d' => Still d₈ d') ?_ fun returns d₉ u₉ => ?_
    · split
      · exact silent_typeName d₈
      · exact Ensures.pure (Still.refl d₈)
    have u₉ := (((u₅.trans u₆).trans u₇).trans u₈).trans u₉
    exact Ensures.pure ⟨(u₉.ahead.sublist.cons_cons token).trans htoken, hname⟩
  split
  · refine Follows.then (silent_expect _ _) fun name d₅ u₅ => Ensures.pure_bind ?_
    exact hrest (name.text, some (.named first.text)) d₅ (u₄.trans u₅) fun _ => rfl
  · refine Ensures.pure_bind (hrest (first.text, owner.map .named) d₄ u₄ fun howner => ?_)
    rwa [Option.isSome_map]

theorem header_then_read {α : Type} {tags : List Tag} {owner : Option Text} {f : Header → Compile α}
    {Q : α → Draft → Prop} (hfinal : d.final.kind = .finish)
    (hf : ∀ h d', Still d d' → (h.token :: d'.ahead).Sublist d.ahead →
      (owner.isSome = true → h.signature.receiver.isSome = true) → Post (f h) d' Q) :
    Post (header tags owner >>= f) d Q :=
  Ensures.bind (post_both (silent_header tags owner d) (header_takes tags owner hfinal))
    fun h d' hh => hf h d' hh.1 hh.2.1 hh.2.2

def entry (f : Function) : Mark × Location := (f.mark, f.location)

theorem Chronicle.gain (ps qs : List (Mark × Location)) {f : Function}
    (h : Chronicle (ps ++ entry f :: qs) d) (hps : ∀ e ∈ ps, e.1 ≠ f.mark) {r : Registry}
    (hr : d.program.modules.Enters r f) :
    Chronicle (ps ++ qs) { d with program := { d.program with modules := r } } := by
  obtain ⟨x, hfunctions, hextension, hlocation⟩ := hr
  refine h.enter ps qs hps fun m => ?_
  cases m with
  | function extension =>
    simp only [Program.places, hfunctions, List.filter_append, List.map_append, Function.mark,
      Mark.function.injEq]
    congr 1
    rw [List.filter_singleton, hextension]
    by_cases he : f.isExtension = extension
    · simp [he, hlocation]
    · simp [he, beq_eq_false_iff_ne.2 he]
  | importing => simp [Program.places, Function.mark]

theorem register_chronicle (ps qs : List (Mark × Location)) {f : Function}
    (h : Chronicle (ps ++ entry f :: qs) d) (hps : ∀ e ∈ ps, e.1 ≠ f.mark)
    {change : Registry → Except RegistryError Registry}
    (henters : ∀ r, change d.program.modules = .ok r → d.program.modules.Enters r f) :
    Post (register change) d fun _ d' => Chronicle (ps ++ qs) d' := by
  refine Ensures.get_bind ?_
  split
  · rename_i r hr
    exact Ensures.change (h.gain ps qs hps (henters r hr))
  · exact trivial

theorem declareTrait_chronicle (h : Chronicle ps d) (t : Trait) :
    Post (register fun r => r.declareTrait t) d fun _ d' => Chronicle ps d' := by
  refine Ensures.get_bind ?_
  split
  · rename_i r hr
    refine Ensures.change (h.congr (fun m => ?_) rfl rfl (List.Sublist.refl _))
    cases m with
    | function extension => simp only [entries, Program.places, (Registry.declareTrait_registry hr).1]
    | importing => rfl
  · exact trivial

theorem head_then {α : Type} {owner : Option Text} {f : Header → Compile α} {Q : α → Draft → Prop}
    (h : Chronicle ps d)
    (hf : ∀ header d', Chronicle ps d' → (∀ scope, Chronicle (ps ++ [entry (header.interpreted scope)]) d') →
      (owner.isSome = true → header.signature.receiver.isSome = true) → Post (f header) d' Q) :
    Post (tags >>= fun found => header found owner >>= f) d Q := by
  refine Follows.then silent_tags fun found d₁ u₁ => ?_
  have h₁ := h.still u₁
  refine header_then_read h₁.final fun header d₂ u₂ ht howner => ?_
  exact hf header d₂ (h₁.still u₂) (fun scope => h₁.read u₂.quiet ht _) howner

theorem functionDefinition_chronicle (hg : g.Quiet) (h : Chronicle [] d) :
    Post (functionDefinition g) d fun _ d' => Chronicle [] d' := by
  refine head_then h fun header d₁ _ h₁ _ => ?_
  refine Ensures.bind ((h₁ 0).follow (functionBody_quiet hg header)) fun scope d₂ h₂ => ?_
  exact register_chronicle [] [] (f := header.interpreted scope) h₂ nofun fun r hr =>
    Registry.defineFunction_enters hr

theorem traitMember_chronicle (hg : g.Quiet) (owner : Text) (h : Chronicle ps d) :
    Post (traitMember g owner) d fun member d' => Chronicle (ps ++ member.2.toList.map entry) d' := by
  refine head_then h fun header d₁ hd₁ h₁ _ => ?_
  refine Follows.then silent_isDeclarationOnly fun alone d₂ u₂ => ?_
  split
  · refine Follows.then silent_endStatement fun _ d₃ u₃ => Ensures.pure ?_
    exact (List.append_nil ps).symm ▸ (hd₁.still u₂).still u₃
  · refine Ensures.bind (((h₁ 0).still u₂).follow (functionBody_quiet hg header)) fun scope d₃ h₃ => ?_
    exact Ensures.pure h₃

theorem implementAll_chronicle (owner : Text) {fs : List Function} (h : Chronicle (fs.map entry) d) :
    Post (fs.forM fun f => register fun r => r.implement owner f) d fun _ d' => Chronicle [] d' := by
  induction fs generalizing d with
  | nil => exact Ensures.pure h
  | cons f fs ih =>
    exact Ensures.bind (register_chronicle [] _ h nofun fun r hr => Registry.implement_enters hr)
      fun _ d₁ h₁ => ih h₁

theorem traitDeclaration_chronicle (hg : g.Quiet) (h : Chronicle [] d) :
    Post (traitDeclaration g) d fun _ d' => Chronicle [] d' := by
  refine Follows.then silent_advance fun _ d₁ u₁ => Follows.then (silent_expect _ _) fun name d₂ u₂ => ?_
  refine Ensures.bind (R := fun found d' => Chronicle ((found.reverse.filterMap Prod.snd).map entry) d') ?_
    fun found d₃ h₃ => Ensures.bind (declareTrait_chronicle h₃ _) fun _ d₄ h₄ => implementAll_chronicle _ h₄
  refine members_post (fun _ _ _ u h => h.still u) (fun found d h => ?_) ((h.still u₁).still u₂)
  refine Ensures.bind (traitMember_chronicle hg _ h) fun member d' h' => Ensures.pure ?_
  obtain ⟨signature, f⟩ := member
  rw [List.reverse_cons, List.filterMap_append, List.map_append]
  cases f <;> exact h'

theorem implementAt_chronicle {f : Function} (h : Chronicle [entry f] d) (owner : Text) (site : Token) :
    Post (implementAt owner f site) d fun _ d' => Chronicle [] d' := by
  refine Ensures.get_bind ?_
  split
  · rename_i r hr
    exact Ensures.change (h.gain [] [] nofun (Registry.implement_enters hr))
  · exact trivial

theorem implMember_chronicle (hg : g.Quiet) (owner : Text) (h : Chronicle [] d) :
    Post (implMember g owner) d fun _ d' => Chronicle [] d' := by
  refine head_then h fun header d₁ _ h₁ _ => ?_
  refine Ensures.bind ((h₁ 0).follow (functionBody_quiet hg header)) fun scope d₂ h₂ => ?_
  exact implementAt_chronicle (f := { header.interpreted scope with module := owner }) h₂ owner _

theorem implBlock_chronicle (hg : g.Quiet) (h : Chronicle [] d) :
    Post (implBlock g) d fun _ d' => Chronicle [] d' := by
  refine Follows.then silent_advance fun _ d₁ u₁ => Follows.then (silent_expect _ _) fun name d₂ u₂ => ?_
  have h₂ := (h.still u₁).still u₂
  refine Ensures.bind (R := fun _ d' => Chronicle [] d') ?_ fun _ d₃ h₃ => Ensures.get_bind ?_
  · refine Ensures.get_bind ?_
    split
    · exact declareTrait_chronicle h₂ _
    · exact Ensures.pure h₂
  · split
    · exact trivial
    · exact members_post (fun _ _ _ u h => h.still u) (fun _ _ h => implMember_chronicle hg _ h) h₃

theorem objectMember_chronicle (hg : g.Quiet) (owner : Text) (fields : List Field)
    (h : Chronicle [(.function false, l)] d) :
    Post (objectMember g owner fields) d fun _ d' => Chronicle [(.function false, l)] d' := by
  refine Follows.then (silent_accept _) fun attr d₁ u₁ => ?_
  have h₁ := h.still u₁
  split
  · exact Follows.then silent_field fun _ d₂ u₂ => Ensures.pure (h₁.still u₂)
  refine Follows.then (silent_checkAny _) fun found d₂ u₂ => ?_
  split
  · refine head_then (h₁.still u₂) fun header d₃ _ h₃ howner => ?_
    refine Ensures.bind ((h₃ 0).follow (functionBody_quiet hg header)) fun scope d₄ h₄ => ?_
    refine Ensures.bind (register_chronicle [(.function false, l)] []
      (f := { header.interpreted scope with module := owner }) h₄ ?_
      fun r hr => Registry.defineFunction_enters hr) fun _ d₅ h₅ => Ensures.pure h₅
    refine List.forall_mem_singleton.2 fun heq => Bool.false_ne_true ?_
    exact (Mark.function.inj heq).trans (howner rfl)
  · exact Follows.then silent_peek fun _ _ _ => trivial

theorem objectDeclaration_chronicle (hg : g.Quiet) (h : Chronicle [] d) :
    Post (objectDeclaration g) d fun _ d' => Chronicle [] d' := by
  refine Follows.then silent_advance fun _ d₁ u₁ => ?_
  have h₁ := h.still u₁
  refine expect_then (by decide) h₁.final fun name d₂ u₂ hname => ?_
  have h₂ : Chronicle [(.function false, place name)] d₂ := h₁.read u₂.quiet hname (.function false)
  split
  · exact trivial
  refine Ensures.bind (R := fun _ d' => Chronicle [(.function false, place name)] d') ?_ fun fields d₃ h₃ => ?_
  · exact members_post (fun _ _ _ u h => h.still u) (fun fields _ h => objectMember_chronicle hg _ fields h) h₂
  refine Ensures.get_bind (Ensures.bind (h₃.follow (modifyProgram_quiet ?_ ?_)) fun _ d₄ h₄ => ?_)
  · exact fun _ => rfl
  · exact fun _ => rfl
  · exact register_chronicle [] [] (f := constructor _ name) h₄ nofun
      fun r hr => Registry.defineFunction_enters hr

theorem importStatement_chronicle (h : Chronicle [] d) :
    Post importStatement d fun _ d' => Chronicle [] d' := by
  refine Follows.then silent_advance fun _ d₁ u₁ => ?_
  have h₁ := h.still u₁
  refine expect_then (by decide) h₁.final fun name d₂ u₂ hname => Ensures.get_bind ?_
  dsimp only
  split
  · refine Ensures.change ((h₁.read u₂.quiet hname .importing).enter [] [] nofun fun m => ?_)
    cases m with
    | function extension => simp [Program.places]
    | importing => simp [Program.places]
  · exact trivial

theorem topLevel_chronicle (h : Chronicle [] d) (site : Token) (what : Text) {declaration : Compile Unit}
    (hdeclaration : ∀ {d}, Chronicle [] d → Post declaration d fun _ d' => Chronicle [] d') :
    Post (topLevel site what declaration) d fun _ d' => Chronicle [] d' :=
  Follows.then (silent_requireTopLevel site what) fun _ _ u =>
    Ensures.bind (hdeclaration (h.still u)) fun _ _ h' => Ensures.pure h'

theorem statement_chronicle (hg : g.Quiet) (h : Chronicle [] d) :
    Post (statement g) d fun _ d' => Chronicle [] d' := by
  refine Follows.then silent_peek fun t d₁ u₁ => ?_
  have h₁ := h.still u₁
  split
  · exact h₁.follow (binding_quiet hg false)
  · exact h₁.follow (binding_quiet hg true)
  · refine Ensures.run (atTopLevel_eq d₁) ?_
    split
    · exact Ensures.bind (functionDefinition_chronicle hg h₁) fun _ _ h₂ => Ensures.pure h₂
    · exact h₁.follow (nestedFunction_quiet hg)
  · exact topLevel_chronicle h₁ _ _ (functionDefinition_chronicle hg)
  · exact topLevel_chronicle h₁ _ _ (traitDeclaration_chronicle hg)
  · exact topLevel_chronicle h₁ _ _ (implBlock_chronicle hg)
  · exact topLevel_chronicle h₁ _ _ (objectDeclaration_chronicle hg)
  · exact topLevel_chronicle h₁ _ _ importStatement_chronicle
  · refine Follows.then (silent_peekAt 1) fun next d₂ u₂ => ?_
    have h₂ := h₁.still u₂
    split
    · exact h₂.follow (assignment_quiet hg)
    split
    · exact h₂.follow (compoundAssignment_quiet hg _)
    · exact h₂.follow (simpleStatement_quiet hg)
  · exact h₁.follow (simpleStatement_quiet hg)

theorem grammar_chronicle (depth : Nat) (h : Chronicle [] d) :
    Post (grammar depth).statement d fun _ d' => Chronicle [] d' := by
  cases depth with
  | zero => exact trivial
  | succ depth => exact statement_chronicle (grammar_quiet depth) h

theorem wholeProgram_chronological (depth : Nat) (hopened : d.opened = [])
    (hplaces : ∀ m, d.program.places m = []) (hfinal : d.final.kind = .finish)
    (hahead : (Location.unknown :: d.ahead.map place).Pairwise Location.Before) :
    Post (wholeProgram (grammar depth)) d fun _ d' => d'.program.Chronological := by
  refine Follows.then silent_peek fun t d₁ u₁ => ?_
  refine Ensures.bind (R := fun _ d₂ => Chronicle [] d₂) ?_ fun _ d₂ h₂ => ?_
  · refine Ensures.intro (fun scope d₂ h => ?_) fun _ _ _ => trivial
    cases h
    have hentries : ∀ m, entries [] d₁ m = [] := fun m => by
      rw [entries, u₁.program, hplaces]
      rfl
    refine ⟨?_, u₁.final ▸ hfinal, fun m => ?_, fun m m' _ l hl => ?_⟩
    · exact congrArg (fun o => o.length + 1) (u₁.opened.trans hopened)
    · refine hahead.sublist (List.Sublist.cons_cons _ ?_)
      exact (hentries m).symm ▸ (u₁.ahead.sublist.map place)
    · exact absurd ((hentries m) ▸ hl) List.not_mem_nil
  refine Ensures.bind (R := fun _ d₃ => Chronicle [] d₃) ?_ fun last d₃ h₃ => ?_
  · refine Follows.then silent_skipSeparators fun _ d₃ u₃ => ?_
    refine whileReading_post (fun _ d h => ?_) (h₂.still u₃)
    refine Follows.then (silent_checkAny _) fun _ d₁ u₁ => ?_
    split
    · exact Ensures.pure (h.still u₁)
    refine Ensures.bind (grammar_chronicle depth (h.still u₁)) fun _ d₂ h₂ => ?_
    refine Follows.then silent_endStatement fun _ d₃ u₃ => Follows.then silent_skipSeparators fun _ d₄ u₄ => ?_
    exact Ensures.pure ((h₂.still u₃).still u₄)
  refine Follows.then silent_isAtEnd fun atEnd d₄ u₄ => ?_
  split
  · refine Follows.then silent_peek fun t d₅ u₅ => ?_
    have h₅ := (h₃.still u₄).still u₅
    exact Ensures.bind (h₅.follow (emit_quiet _ t)) fun _ d₆ h₆ => Ensures.change h₆.chronological
  · exact Follows.then silent_peek fun _ _ _ => trivial

end Compile

/-- In every program that has been compiled, functions of either kind and imports have been entered in the
order of the source. -/
theorem compileSource_chronological {builtins : Option Registry} {id : Nat} {source : Text} {p : Program}
    (h : compileSource builtins id source = .ok p) : p.Chronological := by
  unfold compileSource at h
  split at h
  · rename_i tokens htokens
    obtain ⟨hordered, final, hend, hfinal⟩ := tokenize_ordered htokens
    unfold compileTokens at h
    rw [hend] at h
    dsimp only at h
    split at h
    · rename_i d hd
      cases h
      refine (Compile.wholeProgram_chronological _ rfl (fun m => ?_) hfinal hordered).of_ok hd
      cases m <;> rfl
    · cases h
  · cases h

end ScriptMachine
