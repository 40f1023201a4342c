import ScriptMachine.Proofs.Compiler.Expressions
import ScriptMachine.Proofs.Compiler.Headers

set_option autoImplicit false

namespace ScriptMachine

def Signature.Defaults (P : Value → Prop) (s : Signature) : Prop := ∀ p ∈ s.params, ∀ v ∈ p.default, P v

def Trait.Defaults (P : Value → Prop) (t : Trait) : Prop := ∀ e ∈ t.functions, e.2.Defaults P

/-- A function as a registry with certain traits takes it up: with the same body and receiver, and with
no defaults but those that it or the traits bring. -/
structure Function.Adopted (traits : List (Text × Trait)) (f x : Function) : Prop where
  body : x.body = f.body
  scope : x.scope = f.scope
  receiver : x.signature.receiver = f.signature.receiver
  defaults : ∀ P, (∀ e ∈ traits, e.2.Defaults P) → f.signature.Defaults P → x.signature.Defaults P

theorem Function.Adopted.inert {traits : List (Text × Trait)} {f x : Function}
    (h : f.Adopted traits x) (ht : ∀ e ∈ traits, e.2.Inert) (hf : f.Inert) : x.Inert :=
  ⟨h.defaults Value.Inert ht hf.signature, h.body ▸ hf.native⟩

theorem Function.Adopted.isNative {traits : List (Text × Trait)} {f x : Function}
    (h : f.Adopted traits x) : x.isNative = f.isNative := by
  simp only [Function.isNative, h.body]

theorem Function.Adopted.isExtension {traits : List (Text × Trait)} {f x : Function}
    (h : f.Adopted traits x) : x.isExtension = f.isExtension := by
  simp only [Function.isExtension, h.receiver]

namespace Registry

/-- The registry has gained at most the one function. -/
structure Grows (r r' : Registry) (f : Function) : Prop where
  traits : r'.traits = r.traits
  functions : ∀ x ∈ r'.functions, x ∈ r.functions ∨ f.Adopted r.traits x

theorem add_grows (r : Registry) {f f' : Function} (h : f.Adopted r.traits f') :
    r.Grows (r.add f') f := by
  refine ⟨rfl, fun x hx => ?_⟩
  rcases List.mem_append.1 hx with hx | hx
  · exact Or.inl hx
  · rw [List.mem_singleton.1 hx]
    exact Or.inr ⟨h.body, h.scope, h.receiver, h.defaults⟩

theorem declareTrait_registry {r r' : Registry} {t : Trait} (h : r.declareTrait t = .ok r') :
    r'.functions = r.functions ∧ ∀ e ∈ r'.traits, e ∈ r.traits ∨ e.2 = t := by
  unfold declareTrait ensureOpen at h
  split at h
  · cases h
  · cases h
    refine ⟨rfl, List.forall_mem_cons.2 ⟨Or.inr rfl, fun e he => Or.inl (List.mem_filter.1 he).1⟩⟩

theorem defineFunction_eq {r r' : Registry} {f : Function} (h : r.defineFunction f = .ok r') :
    r' = r.add f := by
  unfold defineFunction ensureOpen at h
  split at h
  · cases h
  · dsimp only [bind, Except.bind] at h
    split at h
    · cases h
    · cases h
      rfl

theorem defineFunction_grows {r r' : Registry} {f : Function} (h : r.defineFunction f = .ok r') :
    r.Grows r' f := by
  rw [defineFunction_eq h]
  exact add_grows r ⟨rfl, rfl, rfl, fun _ _ => id⟩

variable {P : Value → Prop}

theorem declared_defaults {r : Registry} (ht : ∀ e ∈ r.traits, e.2.Defaults P) {owner function : Text}
    {s : Signature} (h : r.declared owner function = .ok s) : s.Defaults P := by
  unfold declared at h
  split at h
  · cases h
  · rename_i t hfound
    split at h
    · cases h
    · cases h
      exact ht _ (mem_of_lookup hfound) _ (mem_of_lookup ‹_›)

theorem inheritDefaults_all {params declared : List Parameter} (h : ∀ p ∈ params, ∀ v ∈ p.default, P v)
    (hd : ∀ p ∈ declared, ∀ v ∈ p.default, P v) :
    ∀ p ∈ inheritDefaults params declared, ∀ v ∈ p.default, P v := by
  intro p hp v hv
  obtain ⟨i, hi⟩ := List.mem_iff_getElem?.1 hp
  obtain ⟨a, b, ha, hb, rfl⟩ := List.getElem?_zipWith_eq_some.1 hi
  rcases Option.or_eq_some_iff.1 hv with hv | ⟨-, hv⟩
  · exact h a (List.mem_of_getElem? ha) v hv
  · exact hd b (List.mem_of_getElem? hb) v hv

/-- What is implemented is added with the module and the defaults of its declaration. -/
theorem implement_eq {r r' : Registry} {owner : Text} {f : Function} (h : r.implement owner f = .ok r') :
    ∃ d, r.declared owner f.name = .ok d ∧ r' = r.add { f with
      module := owner, signature := { f.signature with
        params := inheritDefaults f.signature.params d.params } } := by
  unfold implement ensureOpen at h
  split at h
  · cases h
  · cases hd : r.declared owner f.name with
    | error e =>
      rw [hd] at h
      cases h
    | ok d =>
      rw [hd] at h
      change (if f.signature.sameShape d then Except.ok (r.add { f with
        module := owner, signature := { f.signature with
          params := inheritDefaults f.signature.params d.params } })
        else .error _) = Except.ok r' at h
      split at h
      · cases h
        exact ⟨d, rfl, rfl⟩
      · cases h

theorem implement_grows {r r' : Registry} {owner : Text} {f : Function}
    (h : r.implement owner f = .ok r') : r.Grows r' f := by
  obtain ⟨d, hd, rfl⟩ := implement_eq h
  exact add_grows r ⟨rfl, rfl, rfl, fun P ht hf => inheritDefaults_all hf (declared_defaults ht hd)⟩

end Registry

namespace Compile

variable {d₀ d d' : Draft} {held : List Register} {owed unmade : List Nat} {g : Grammar}

theorem functionBody_post (hg : Faithful g) (h : Reached d₀ d held owed unmade) (header : Header) :
    Post (functionBody g header) d fun i d' => Reached d₀ d' held owed unmade ∧
      d'.program.HasKind .function i := by
  refine within_post (fun i d₁ d₂ u h₁ => ⟨h₁.1.silent u.undisturbed, u.program ▸ h₁.2⟩) fun d₁ u₁ => ?_
  have h := h.silent u₁.undisturbed
  refine openScope_bind h.sound (by decide) fun d₂ o h₂ => ?_
  refine Ensures.bind (declareParams_post h₂ rfl _) fun _ d₃ h₃ => ?_
  have hbody : ∀ d₄, Undisturbed d₃ d₄ → Post (do
      functionStatements g
      closeScope
      return d₂.current) d₄ fun i d' => Reached d₀ d' held owed unmade ∧
        d'.program.HasKind .function i := by
    intro d₄ u₄
    refine Ensures.bind (functionStatements_post hg (h₃.silent u₄)) fun _ d₅ h₅ => ?_
    refine Ensures.bind (closeScope_post h.sound o h₅.1 h₅.2) fun _ d₆ h₆ => ?_
    exact Ensures.pure ⟨h.trans h₆.1, h₆.2⟩
  dsimp only
  split
  · exact (discreet_declare _ _).then fun _ d₄ u₄ => hbody d₄ u₄
  · exact Ensures.pure_bind (hbody d₃ (Undisturbed.refl d₃))

theorem Reached.grow (h : Reached d₀ d held owed unmade) {r : Registry} {f : Function}
    (hr : d.program.modules.Grows r f)
    (hf : f.isNative = false → d.program.HasKind .function f.scope) :
    Reached d₀ { d with program := { d.program with modules := r } } held owed unmade := by
  refine h.amend rfl rfl (h.sound.register rfl rfl fun x hx hn => ?_)
  rcases hr.functions x hx with hx | ha
  · exact h.sound.functions x hx hn
  · rw [ha.scope]
    exact hf (ha.isNative ▸ hn)

theorem register_post (h : Reached d₀ d held owed unmade)
    {change : Registry → Except RegistryError Registry} {f : Function}
    (hgrows : ∀ r, change d.program.modules = .ok r → d.program.modules.Grows r f)
    (hf : f.isNative = false → d.program.HasKind .function f.scope) :
    Post (register change) d fun _ d' => Reached d₀ d' held owed unmade ∧
      d'.program.scopes = d.program.scopes := by
  refine Ensures.get_bind ?_
  split
  · rename_i r hr
    exact Ensures.change ⟨h.grow (hgrows r hr) hf, rfl⟩
  · exact trivial

theorem declareTrait_post (h : Reached d₀ d held owed unmade) (t : Trait) :
    Post (register fun r => r.declareTrait t) d fun _ d' => Reached d₀ d' held owed unmade ∧
      d'.program.scopes = d.program.scopes := by
  refine Ensures.get_bind ?_
  split
  · rename_i r hr
    refine Ensures.change ⟨h.amend rfl rfl (h.sound.register rfl rfl ?_), rfl⟩
    rw [(Registry.declareTrait_registry hr).1]
    exact h.sound.functions
  · exact trivial

theorem functionDefinition_leaves (hg : Faithful g) :
    Leaves (fun _ => []) (functionDefinition g) := by
  refine silent_tags.leaves fun tags => (silent_header _ _).leaves fun header => ?_
  intro d owed unmade h
  refine Ensures.bind (functionBody_post hg (Reached.refl h) header) fun i d₁ h₁ => ?_
  refine (register_post h₁.1 (fun r hr => Registry.defineFunction_grows hr) fun _ => h₁.2).imp ?_
  exact fun _ _ h₂ => h₂.1

theorem nestedFunction_yields (hg : Faithful g) : Yields (nestedFunction g) := by
  refine (silent_header _ _).leaves fun header => ?_
  split
  · exact fun _ _ _ _ => trivial
  intro d owed unmade h
  refine Ensures.bind (closureBody_post hg (Reached.refl h) header _ _) fun closure d₁ h₁ => ?_
  refine output_bind h₁ (fun _ => rfl) (fun _ => rfl) (by simp [Operation.reads]) (by simp [Operation.entered])
    (fun _ => trivial) (fun _ => .refl _) (fun _ => .refl _) fun out d₂ h₂ => ?_
  refine effect_bind h₂ (by simp [Operation.reads, Known]) rfl ⟨rfl, rfl, rfl, trivial⟩ ?_
  intro d₃ h₃
  refine (discreet_declareCallable _).then fun _ d₄ u₄ => ?_
  exact Ensures.pure (((h₃.silent u₄).hold (known_none _)).weaken (by simp))

theorem members_post {α : Type} {I : α → Draft → Prop} {member : α → Compile α} {what : Text}
    (hsilent : ∀ a d d', Still d d' → I a d → I a d')
    (hmember : ∀ a d, I a d → Post (member a) d I) {a : α} (h : I a d) :
    Post (members a what member) d I := by
  refine Follows.then silent_skipSeparators fun _ d₁ u₁ => ?_
  refine Ensures.bind (R := I) ?_ fun a d₂ h₂ =>
    Follows.then silent_advance fun _ d₃ u₃ => Ensures.pure (hsilent a d₂ d₃ u₃ h₂)
  refine whileReading_post (fun a d h => ?_) (hsilent a d d₁ u₁ h)
  refine Follows.then (silent_check _) fun done d₁ u₁ => ?_
  have h₁ := hsilent a d d₁ u₁ h
  split
  · exact Ensures.pure h₁
  refine Follows.then silent_isAtEnd fun atEnd d₂ u₂ => ?_
  split
  · exact silent_peek.then fun _ _ _ => trivial
  refine Ensures.bind (hmember a d₂ (hsilent a d₁ d₂ u₂ h₁)) fun b d₃ h₃ => ?_
  exact Follows.then silent_skipSeparators fun _ d₄ u₄ => Ensures.pure (hsilent b d₃ d₄ u₄ h₃)

def Runs (d : Draft) (f : Function) : Prop := f.isNative = false → d.program.HasKind .function f.scope

theorem Reached.runs (h : Reached d₀ d held owed unmade) {f : Function} (hf : Runs d₀ f) :
    Runs d f := fun hn => h.kinds _ _ (hf hn)

theorem traitMember_post (hg : Faithful g) (owner : Text) (h : d.Sound owed unmade) :
    Post (traitMember g owner) d fun member d' =>
      Reached d d' [] owed unmade ∧ ∀ f ∈ member.2, Runs d' f := by
  refine silent_tags.then fun tags d₁ u₁ => (silent_header _ _).then fun header d₂ u₂ => ?_
  refine silent_isDeclarationOnly.then fun alone d₃ u₃ => ?_
  have h₃ := (Reached.refl h).silent ((u₁.trans u₂).trans u₃)
  split
  · refine silent_endStatement.then fun _ d₄ u₄ => Ensures.pure ?_
    exact ⟨h₃.silent u₄, by simp⟩
  · refine Ensures.bind (functionBody_post hg h₃ header) fun i d₄ h₄ => Ensures.pure ⟨h₄.1, ?_⟩
    rintro f ⟨⟩ -
    exact h₄.2

theorem implementAll_post {owner : Text} {fs : List Function} (h : Reached d₀ d held owed unmade)
    (hfs : ∀ f ∈ fs, Runs d f) :
    Post (fs.forM fun f => register fun r => r.implement owner f) d fun _ d' =>
      Reached d₀ d' held owed unmade := by
  induction fs generalizing d with
  | nil => exact Ensures.pure h
  | cons f fs ih =>
    refine Ensures.bind (register_post h (fun r hr => Registry.implement_grows hr)
      (hfs f (by simp))) fun _ d₁ h₁ => ih h₁.1 ?_
    intro e he hn
    have hk := hfs e (List.mem_cons_of_mem _ he) hn
    unfold Program.HasKind at hk ⊢
    rw [h₁.2]
    exact hk

theorem traitDeclaration_leaves (hg : Faithful g) : Leaves (fun _ => []) (traitDeclaration g) := by
  refine silent_advance.leaves fun _ => (silent_expect _ _).leaves fun name => ?_
  intro d owed unmade h
  refine Ensures.bind (R := fun found d' => Reached d d' [] owed unmade ∧
    ∀ member ∈ found, ∀ f ∈ member.2, Runs d' f) ?_ fun found d₁ h₁ => ?_
  · refine members_post ?_ ?_ ⟨Reached.refl h, by simp⟩
    · intro found d₁ d₂ u h₁
      refine ⟨h₁.1.silent u.undisturbed, fun member hm f hf hn => ?_⟩
      rw [u.program]
      exact h₁.2 member hm f hf hn
    · rintro found d₁ ⟨h₁, hruns⟩
      refine Ensures.bind (traitMember_post hg _ h₁.sound) fun member d₂ h₂ => Ensures.pure ?_
      refine ⟨h₁.trans h₂.1, List.forall_mem_cons.2 ⟨h₂.2, fun m hm f hf => ?_⟩⟩
      exact h₂.1.runs (hruns m hm f hf)
  · refine Ensures.bind (declareTrait_post h₁.1 _) fun _ d₂ h₂ => ?_
    refine implementAll_post h₂.1 fun f hf hn => ?_
    obtain ⟨member, hm, hf⟩ := List.mem_filterMap.1 hf
    have hk := h₁.2 member (List.mem_reverse.1 hm) f hf hn
    unfold Program.HasKind at hk ⊢
    rw [h₂.2]
    exact hk

theorem implementAt_post (h : Reached d₀ d held owed unmade) (owner : Text) {f : Function}
    (hf : Runs d f) (site : Token) :
    Post (implementAt owner f site) d fun _ d' => Reached d₀ d' held owed unmade := by
  refine Ensures.get_bind ?_
  split
  · rename_i r hr
    exact Ensures.change (h.grow (Registry.implement_grows hr) hf)
  · exact trivial

theorem implMember_leaves (hg : Faithful g) (owner : Text) :
    Leaves (fun _ => []) (implMember g owner) := by
  refine silent_tags.leaves fun tags => (silent_header _ _).leaves fun header => ?_
  intro d owed unmade h
  refine Ensures.bind (functionBody_post hg (Reached.refl h) header) fun i d₁ h₁ => ?_
  exact implementAt_post h₁.1 owner (fun _ => h₁.2) _

theorem adoptTrait_leaves (name : Text) : Leaves (fun _ => []) (adoptTrait name) := by
  intro d owed unmade h
  refine Ensures.get_bind ?_
  dsimp only
  split
  · exact (declareTrait_post (Reached.refl h) _).imp fun _ _ h₁ => h₁.1
  · exact Ensures.pure (Reached.refl h)

theorem implBlock_leaves (hg : Faithful g) : Leaves (fun _ => []) (implBlock g) := by
  refine silent_advance.leaves fun _ => (silent_expect _ _).leaves fun name => ?_
  intro d owed unmade h
  refine Ensures.bind (adoptTrait_leaves name.text d owed unmade h) fun _ d₁ h₁ => ?_
  refine Ensures.get_bind ?_
  split
  · exact trivial
  · refine members_post (fun _ _ _ u h₂ => h₂.silent u.undisturbed) (fun _ d₂ h₂ => ?_) h₁
    exact (implMember_leaves hg _).after h₂

theorem objectMember_post (hg : Faithful g) (owner : Text) (fields : List Field)
    (h : Reached d₀ d [] owed unmade) :
    Post (objectMember g owner fields) d fun _ d' => Reached d₀ d' [] owed unmade := by
  refine (silent_accept _).then fun attr d₁ u₁ => ?_
  split
  · exact silent_field.then fun f d₂ u₂ => Ensures.pure ((h.silent u₁).silent u₂)
  refine (silent_checkAny _).then fun found d₂ u₂ => ?_
  split
  · refine silent_tags.then fun tags d₃ u₃ => (silent_header _ _).then fun header d₄ u₄ => ?_
    have h₄ := h.silent (((u₁.trans u₂).trans u₃).trans u₄)
    refine Ensures.bind (functionBody_post hg h₄ header) fun i d₅ h₅ => ?_
    refine Ensures.bind (register_post h₅.1 (fun r hr => Registry.defineFunction_grows hr)
      fun _ => h₅.2) fun _ d₆ h₆ => Ensures.pure h₆.1
  · exact silent_peek.then fun _ _ _ => trivial

theorem objectDeclaration_leaves (hg : Faithful g) :
    Leaves (fun _ => []) (objectDeclaration g) := by
  refine silent_advance.leaves fun _ => (silent_expect _ _).leaves fun name => ?_
  split
  · exact fun _ _ _ _ => trivial
  intro d owed unmade h
  refine Ensures.bind (R := fun _ d' => Reached d d' [] owed unmade) ?_ fun fields d₁ h₁ => ?_
  · exact members_post (fun _ _ _ u h₁ => h₁.silent u.undisturbed)
      (fun fields d₁ h₁ => objectMember_post hg _ fields h₁) (Reached.refl h)
  refine Ensures.get_bind (Ensures.change_bind ?_)
  have h₂ := h₁.amend (p := { d₁.program with
    recordTypes := d₁.program.recordTypes ++ [⟨⟨d₁.program.id, d₁.program.recordTypes.length⟩,
      name.text, fields.reverse⟩] }) rfl rfl (h₁.sound.register rfl rfl h₁.sound.functions)
  refine (register_post h₂ (fun r hr => Registry.defineFunction_grows hr) ?_).imp fun _ _ h₃ => h₃.1
  rintro ⟨⟩

theorem importStatement_leaves : Leaves (fun _ => []) importStatement := by
  refine silent_advance.leaves fun _ => (silent_expect _ _).leaves fun name => ?_
  intro d owed unmade h
  refine Ensures.get_bind ?_
  dsimp only
  split
  · exact Ensures.change ((Reached.refl h).amend rfl rfl (h.register rfl rfl h.functions))
  · exact trivial

end Compile

end ScriptMachine
