import ScriptMachine.Proofs.Compiler.ResolvedExpressions
import ScriptMachine.Proofs.Compiler.Declarations

set_option autoImplicit false

namespace ScriptMachine

namespace Compile

variable {bound : List (List Text)} {d₀ d d₁ d' : Draft} {g : Grammar} {f k : Function}

abbrev GrowsAtTop {α : Type} (x : Compile α) : Prop :=
  ∀ d, Tidy [] d → Post x d fun _ d' => Grown [] d d'

theorem GrowsAtTop.after {α : Type} {x : Compile α} (hx : GrowsAtTop x) (c : Grown [] d₀ d) :
    Post x d fun _ d' => Grown [] d₀ d' := (hx d c.tidy).imp fun _ _ h => c.trans h

theorem Silent.atTop {α β : Type} {x : Compile α} {f : α → Compile β} (hx : Silent x)
    (hf : ∀ a, GrowsAtTop (f a)) : GrowsAtTop (x >>= f) := fun _ ht =>
  Ensures.bind (hx _) fun a _ u => (hf a).after (still_composed ht u).toGrown

/-- A function that can be registered: its body is resolved, and nothing else has this body. -/
structure Implementable (d : Draft) (f : Function) : Prop where
  interpreted : f.isNative = false
  inert : f.Inert
  body : ∃ s, d.program.scopes[f.scope]? = some s ∧
    d.program.Scoped 0 (.body d.program f.scope (f.boundNames s))
  closures : ∀ c ∈ d.program.closures, f.scope ≠ c.scope
  functions : ∀ k ∈ d.program.modules.functions, k.isNative = false → k.scope ≠ f.scope

theorem Implementable.lt (h : Implementable d f) : f.scope < d.program.scopes.size := by
  obtain ⟨s, hs, -⟩ := h.body
  exact (Array.getElem?_eq_some_iff.1 hs).1

theorem Implementable.later (h : Implementable d f) (hd : d.Layered []) (c : Grown [] d d')
    (hfunctions : ∀ k ∈ d'.program.modules.functions, k.isNative = false → k.scope ≠ f.scope) :
    Implementable d' f := by
  obtain ⟨s, hs, hscoped⟩ := h.body
  have hcarried := c.carried
  rw [hd.current_main] at hcarried
  refine ⟨h.interpreted, h.inert, ⟨s, hcarried.scope (hscoped _ .refl).1 hs, ?_⟩, fun k hk => ?_,
    hfunctions⟩
  · exact hscoped.later hcarried (.body (c.topLevel_within hd) _ _)
  · rcases c.fresh k hk with hk | hk
    · exact h.closures k hk
    · exact Nat.ne_of_lt (Nat.lt_of_lt_of_le h.lt hk)

/-- What is read at the top level leaves a function with a body of its own. -/
theorem functionBody_composed (hg : Resolving g) (ht : Tidy [] d) (h : Header) :
    Post (functionBody g h) d fun i d' => Composed [] d d' ∧ i = d.program.scopes.size ∧
      ∀ f : Function, f.isNative = false → f.Inert → f.scope = i →
        f.signature.receiver = h.signature.receiver → Implementable d' f := by
  let params : List Text := h.signature.params.map (·.name)
  let names : List Text := params ++ if h.signature.receiver.isSome then [("self" : Text)] else []
  refine Ensures.imp (R := fun i d' => i = d.program.scopes.size ∧ ∃ s u,
    Finished [] d d' true false params none names s u) ?_ ?_
  · refine within_post ?_ fun d₁ u₁ => ?_
    · rintro i d₂ d₃ u₂ ⟨hi, s, u, hfinished⟩
      exact ⟨hi, s, u, hfinished.still u₂⟩
    refine Ensures.bind (openScope_fresh _ _ _ _ _) fun i d₂ h₂ => ?_
    obtain ⟨rfl, h₂⟩ := h₂
    have h₂ := h₂.since u₁
    rw [u₁.program]
    refine Ensures.bind (h₂.declareParams _) fun _ d₃ h₃ => ?_
    have hbody : ∀ d₄, Fresh d d₄ true false params none names → Post (do
        functionStatements g
        closeScope
        return d.program.scopes.size) d₄ fun i d' => i = d.program.scopes.size ∧ ∃ s u,
          Finished [] d d' true false params none names s u := by
      intro d₄ h₄
      refine (Composed.refl (h₄.tidy ht)).toGrown.next (functionStatements_grows hg) ?_
      intro _ d₅ c₅
      obtain ⟨u, -, hfinished⟩ := h₄.close ht c₅
      exact Ensures.change_bind (Ensures.pure ⟨rfl, _, u, hfinished⟩)
    dsimp only
    split
    · refine Ensures.bind (h₃.declareAs _ _) fun _ d₄ h₄ => hbody d₄ (h₄.congr fun n => ?_)
      simp [names, params, *, or_comm]
    · exact Ensures.pure_bind (hbody d₃ (h₃.congr fun n => by simp [names, params, *]))
  · rintro i d' ⟨rfl, s, u, hfinished⟩
    refine ⟨hfinished.composed, rfl, fun f hn hinert hscope hreceiver => ?_⟩
    have hnames : f.boundNames s = names := by
      rw [Function.boundNames, hfinished.params, Function.isExtension, hreceiver]
    have hresolved := hfinished.resolved
    rw [OpenScope.place, hfinished.isFunction, hfinished.number, ht.layered.current_main] at hresolved
    refine ⟨hn, hinert, ⟨s, hscope ▸ hfinished.scope, ?_⟩, fun c hc => ?_, fun k hk hkn => ?_⟩
    · rw [hscope, hnames]
      exact hresolved
    · rw [hscope]
      exact (hfinished.unused c hc).symm
    · rw [hfinished.composed.registry] at hk
      rw [hscope]
      exact Nat.ne_of_lt (ht.inventory.functionsLt k hk hkn)

theorem grown_of_modules (ht : Tidy [] d) {p : Program} (hscopes : p.scopes = d.program.scopes)
    (hclosures : p.closures = d.program.closures) (hsettled : p.Settled) (hinventory : p.Inventory) :
    Grown [] d { d with program := p } := by
  have hl : ScriptMachine.Layered p d.opened [] := by
    refine (Layered.congr ht.layered (Nat.le_of_eq (by rw [hscopes])) fun s _ j => ?_).1
    rw [Program.codeOf_congr (p := d.program) (by rw [hscopes])]
  refine grown_of_kept ht hl (widened_refl _) (Nat.le_of_eq (by rw [hscopes]))
    (fun i _ => by rw [hscopes]) (fun j f hf => ?_) (fun f hf => Or.inl ?_) (fun h => absurd rfl h)
    (fun _ => hsettled) hinventory rfl
  · exact hclosures ▸ hf
  · exact hclosures ▸ hf

theorem carried_of_modules {r : Registry} (p : Program) :
    Program.Carried p { p with modules := r } 0 := ⟨fun _ _ _ => rfl, fun _ _ => id⟩

/-- A function that is registered has a body which is resolved, unless it is native. -/
theorem enroll_grown (ht : Tidy [] d) {r : Registry} (hr : d.program.modules.Grows r f)
    (hf : f.isNative = false → Implementable d f) (hinert : f.Inert) :
    Grown [] d { d with program := { d.program with modules := r } } := by
  have hold := ht.inventory
  have hadopted : ∀ x ∈ r.functions, x ∈ d.program.modules.functions ∨
      f.Adopted d.program.modules.traits x := hr.functions
  refine grown_of_modules ht rfl rfl (fun x hx hn => ?_) ?_
  · have hlater : ∀ x : Function, (∃ s, d.program.scopes[x.scope]? = some s ∧
        d.program.Scoped 0 (.body d.program x.scope (x.boundNames s))) →
        ∃ s, d.program.scopes[x.scope]? = some s ∧
          Program.Scoped { d.program with modules := r } 0
            (.body { d.program with modules := r } x.scope (x.boundNames s)) := by
      rintro x ⟨s, hs, hscoped⟩
      exact ⟨s, hs, hscoped.later (carried_of_modules _) (.body (.refl _) _ _)⟩
    rcases hadopted x hx with hx | ha
    · exact hlater x (ht.functions rfl x hx hn)
    · obtain ⟨s, hs⟩ := (hf (ha.isNative ▸ hn)).body
      refine hlater x ⟨s, ?_⟩
      rwa [ha.scope, Function.boundNames, ha.isExtension]
  · refine ⟨hold.closuresLt, fun x hx hn => ?_, hold.closures, fun x hx y hy hxn hyn he => ?_,
      fun x hx hn => ?_, ⟨fun x hx => ?_, ?_⟩, hold.inert.2⟩
    · rcases hadopted x hx with hx | ha
      · exact hold.functionsLt x hx hn
      · exact ha.scope ▸ (hf (ha.isNative ▸ hn)).lt
    · rcases hadopted x hx with hx | hax
      · rcases hadopted y hy with hy | hay
        · exact hold.functions x hx y hy hxn hyn he
        · have hne := (hf (hay.isNative ▸ hyn)).functions x hx hxn
          rw [he, hay.scope] at hne
          exact absurd rfl hne
      · rcases hadopted y hy with hy | hay
        · have hne := (hf (hax.isNative ▸ hxn)).functions y hy hyn
          rw [← he, hax.scope] at hne
          exact absurd rfl hne
        · rw [hax.isExtension, hay.isExtension]
    · rcases hadopted x hx with hx | ha
      · exact hold.mixed x hx hn
      · rw [ha.scope]
        exact (hf (ha.isNative ▸ hn)).closures
    · rcases hadopted x hx with hx | ha
      · exact hold.inert.1.functions x hx
      · exact ha.inert hold.inert.1.traits hinert
    · change ∀ e ∈ r.traits, e.2.Inert
      rw [hr.traits]
      exact hold.inert.1.traits

theorem Implementable.enroll {r : Registry} (h : Implementable d k) (hd : d.Layered [])
    (hr : d.program.modules.Grows r f) (hne : f.scope ≠ k.scope)
    (c : Grown [] d { d with program := { d.program with modules := r } }) :
    Implementable { d with program := { d.program with modules := r } } k := by
  refine h.later hd c fun x hx hn => ?_
  rcases hr.functions x hx with hx | ha
  · exact h.functions x hx hn
  · rwa [ha.scope]

theorem register_grown (ht : Tidy [] d) {change : Registry → Except RegistryError Registry}
    (hgrows : ∀ r, change d.program.modules = .ok r → d.program.modules.Grows r f)
    (hf : f.isNative = false → Implementable d f) (hinert : f.Inert) :
    Post (register change) d fun _ d' => Grown [] d d' ∧
      ∀ k, Implementable d k → f.scope ≠ k.scope → Implementable d' k := by
  refine Ensures.get_bind ?_
  split
  · rename_i r hr
    have c := enroll_grown ht (hgrows r hr) hf hinert
    exact Ensures.change ⟨c, fun k hk hne => hk.enroll ht.layered (hgrows r hr) hne c⟩
  · exact trivial

/-- A trait brings no functions with it. -/
theorem declareTrait_grown (ht : Tidy [] d) {t : Trait} (hinert : t.Inert) :
    Post (register fun r => r.declareTrait t) d fun _ d' => Grown [] d d' ∧
      ∀ k, Implementable d k → Implementable d' k := by
  refine Ensures.get_bind ?_
  split
  · rename_i r hr
    obtain ⟨hfunctions, htraits⟩ := Registry.declareTrait_registry hr
    have hold := ht.inventory
    have c : Grown [] d { d with program := { d.program with modules := r } } := by
      refine grown_of_modules ht rfl rfl ?_ ?_
      · refine (ht.functions rfl).later (carried_of_modules _) (.refl _) fun f hf hn => ?_
        exact ⟨f, hfunctions ▸ hf, hn, rfl, rfl⟩
      · refine ⟨hold.closuresLt, hfunctions ▸ hold.functionsLt, hold.closures,
          hfunctions ▸ hold.functions, hfunctions ▸ hold.mixed,
          ⟨hfunctions ▸ hold.inert.1.functions, fun e he => ?_⟩, hold.inert.2⟩
        rcases htraits e he with he | he
        · exact hold.inert.1.traits e he
        · exact he ▸ hinert
    exact Ensures.change ⟨c, fun k hk => hk.later ht.layered c (hfunctions ▸ hk.functions)⟩
  · exact trivial

theorem grown_of_aside (ht : Tidy [] d) {p : Program} (hscopes : p.scopes = d.program.scopes)
    (hclosures : p.closures = d.program.closures) (hmodules : p.modules = d.program.modules) :
    Grown [] d { d with program := p } := by
  have hc : Program.Carried d.program p 0 := ⟨fun _ _ _ => by rw [hscopes], fun _ _ hf => hclosures ▸ hf⟩
  have htop : Environment.topLevel p = .topLevel d.program :=
    Environment.topLevel_congr fun j => by rw [Program.codeOf_congr (p := d.program) (by rw [hscopes])]
  refine grown_of_modules ht hscopes hclosures ?_ ?_
  · refine (ht.functions rfl).later hc (htop ▸ .refl _) fun f hf hn => ?_
    exact ⟨f, hmodules ▸ hf, hn, rfl, rfl⟩
  · exact ht.inventory.later (Nat.le_of_eq (by rw [hscopes])) hmodules hclosures

theorem functionDefinition_grows (hg : Resolving g) : GrowsAtTop (functionDefinition g) := by
  refine silent_tags.atTop fun tags d ht => header_then fun h d₁ hinert u₁ => ?_
  have c₁ := still_composed ht u₁
  refine Ensures.bind (functionBody_composed hg c₁.tidy h) fun i d₂ h₂ => ?_
  obtain ⟨c₂, -, hbody⟩ := h₂
  have hf : Function.Inert (h.interpreted i) := ⟨hinert, nofun⟩
  refine (register_grown c₂.tidy (fun r hr => Registry.defineFunction_grows hr)
    (fun _ => hbody _ rfl hf rfl rfl) hf).imp fun _ _ h₃ => ?_
  exact (c₁.trans c₂).toGrown.trans h₃.1

theorem nestedFunction_grows (hg : Resolving g) : Follows Grows (nestedFunction g) := by
  refine grows_of fun bound d ht => header_then fun h d₁ hinert u₁ => ?_
  have c₁ := still_composed ht u₁
  split
  · exact trivial
  refine Ensures.bind (closureBody_composed hg c₁.tidy hinert _ _) fun j d₂ h₂ => ?_
  refine (c₁.trans h₂.1).next alloc_follows fun out d₃ c₃ e₃ => ?_
  refine Ensures.bind (c₃.make (h₂.2.later h₂.1.tidy e₃) out h.token) fun _ d₄ c₄ => ?_
  have hrecord : Follows Grows do
      emit (.loadLet h.name out) h.token
      declareAs h.name ⟨false, true⟩
      return noneRegister :=
    record_grows rfl rfl rfl rfl rfl _ _ (Follows.pure _)
  exact (hrecord d₄).imp fun _ d₅ h₅ => c₄.toGrown.trans (h₅ bound c₄.tidy)

/-- Functions that wait to be registered, each with a body of its own. -/
structure Pending (d : Draft) (fs : List Function) : Prop where
  distinct : (fs.map Function.scope).Nodup
  each : ∀ f ∈ fs, Implementable d f

theorem implementAll_grown {owner : Text} {fs : List Function} (c : Grown [] d₀ d)
    (hp : Pending d fs) :
    Post (fs.forM fun f => register fun r => r.implement owner f) d fun _ d' => Grown [] d₀ d' := by
  induction fs generalizing d with
  | nil => exact Ensures.pure c
  | cons f fs ih =>
    obtain ⟨hf, hfs⟩ := List.forall_mem_cons.1 hp.each
    obtain ⟨hne, hdistinct⟩ := List.nodup_cons.1 hp.distinct
    refine Ensures.bind (register_grown c.tidy (fun r hr => Registry.implement_grows hr)
      (fun _ => hf) hf.inert) fun _ d₁ h₁ => ih (c.trans h₁.1) ⟨hdistinct, fun k hk => ?_⟩
    refine h₁.2 k (hfs k hk) fun he => hne ?_
    exact List.mem_map.2 ⟨k, hk, he.symm⟩

/-- What is known of the members of a trait that have been read. -/
structure Members (d₀ d : Draft) (found : List ((Text × Signature) × Option Function)) : Prop where
  grown : Grown [] d₀ d
  pending : Pending d (found.filterMap Prod.snd)
  registry : d.program.modules = d₀.program.modules
  signatures : ∀ member ∈ found, member.1.2.Inert

theorem traitMember_grown (hg : Resolving g) (owner : Text)
    {found : List ((Text × Signature) × Option Function)} (h : Members d₀ d found) :
    Post (traitMember g owner) d fun member d' => Members d₀ d' (member :: found) := by
  refine Ensures.bind (silent_tags d) fun tags d₁ u₁ => header_then fun header d₂ hinert u₂ => ?_
  refine Ensures.bind (silent_isDeclarationOnly d₂) fun alone d₃ u₃ => ?_
  have hmembers : ∀ d', Composed [] d d' → ∀ f ∈ found.filterMap Prod.snd, Implementable d' f :=
    fun d' c f hf => (h.pending.each f hf).later h.grown.tidy.layered c.toGrown
      (c.registry ▸ (h.pending.each f hf).functions)
  have c₃ := still_composed h.grown.tidy (Flow.trans (Flow.trans u₁ u₂) u₃)
  split
  · refine Ensures.bind (silent_endStatement d₃) fun _ d₄ u₄ => Ensures.pure ?_
    have c₄ := c₃.trans (still_composed c₃.tidy u₄)
    exact ⟨h.grown.trans c₄.toGrown, ⟨h.pending.distinct, hmembers d₄ c₄⟩,
      c₄.registry.trans h.registry, List.forall_mem_cons.2 ⟨hinert, h.signatures⟩⟩
  · refine Ensures.bind (functionBody_composed hg c₃.tidy header) fun i d₄ h₄ => Ensures.pure ?_
    obtain ⟨e₄, rfl, hbody⟩ := h₄
    have c₄ := c₃.trans e₄
    have hf : Function.Inert { header.interpreted d₃.program.scopes.size with module := owner } :=
      ⟨hinert, nofun⟩
    refine ⟨h.grown.trans c₄.toGrown, ⟨List.nodup_cons.2 ⟨fun hmem => ?_, h.pending.distinct⟩,
      List.forall_mem_cons.2 ⟨hbody _ rfl hf rfl rfl, hmembers d₄ c₄⟩⟩,
      c₄.registry.trans h.registry, List.forall_mem_cons.2 ⟨hinert, h.signatures⟩⟩
    obtain ⟨k, hk, he⟩ := List.mem_map.1 hmem
    exact absurd (he ▸ (hmembers d₃ c₃ k hk).lt) (Nat.lt_irrefl _)

theorem traitDeclaration_grows (hg : Resolving g) : GrowsAtTop (traitDeclaration g) := by
  refine silent_advance.atTop fun _ => (silent_expect _ _).atTop fun name d ht => ?_
  have c := (Composed.refl ht).toGrown
  refine Ensures.bind (R := fun found d' => Members d d' found) ?_ fun found d₁ h₁ => ?_
  · refine members_post (fun found d₁ d₂ u h₁ => ?_) (fun found d₁ h₁ => ?_)
      ⟨c, ⟨List.nodup_nil, List.forall_mem_nil _⟩, rfl, List.forall_mem_nil _⟩
    · have e := still_composed h₁.grown.tidy u
      refine ⟨h₁.grown.trans e.toGrown, ⟨h₁.pending.distinct, fun f hf => ?_⟩,
        e.registry.trans h₁.registry, h₁.signatures⟩
      have hf := h₁.pending.each f hf
      exact hf.later h₁.grown.tidy.layered e.toGrown (e.registry ▸ hf.functions)
    · exact Ensures.bind (traitMember_grown hg _ h₁) fun member d₂ h₂ => Ensures.pure h₂
  · have hinert : Trait.Inert ⟨name.text, found.reverse.map Prod.fst⟩ := by
      intro e he
      obtain ⟨member, hmember, rfl⟩ := List.mem_map.1 he
      exact h₁.signatures member (List.mem_reverse.1 hmember)
    refine Ensures.bind (declareTrait_grown h₁.grown.tidy hinert) fun _ d₂ h₂ => ?_
    refine implementAll_grown (h₁.grown.trans h₂.1) ⟨?_, fun f hf => h₂.2 f ?_⟩
    · rw [List.filterMap_reverse, List.map_reverse]
      exact List.pairwise_reverse.2 (h₁.pending.distinct.imp Ne.symm)
    · rw [List.filterMap_reverse, List.mem_reverse] at hf
      exact h₁.pending.each f hf

theorem implementAt_grown (c : Grown [] d₀ d) (owner : Text) (hf : Implementable d f)
    (site : Token) : Post (implementAt owner f site) d fun _ d' => Grown [] d₀ d' := by
  refine Ensures.get_bind ?_
  split
  · rename_i r hr
    exact Ensures.change (c.trans (enroll_grown c.tidy (Registry.implement_grows hr) (fun _ => hf)
      hf.inert))
  · exact trivial

theorem implMember_grows (hg : Resolving g) (owner : Text) : GrowsAtTop (implMember g owner) := by
  refine silent_tags.atTop fun tags d ht => header_then fun h d₁ hinert u₁ => ?_
  have c₁ := still_composed ht u₁
  refine Ensures.bind (functionBody_composed hg c₁.tidy h) fun i d₂ h₂ => ?_
  obtain ⟨c₂, -, hbody⟩ := h₂
  have hf : Function.Inert { h.interpreted i with module := owner } := ⟨hinert, nofun⟩
  exact implementAt_grown (c₁.trans c₂).toGrown owner (hbody _ rfl hf rfl rfl) h.token

theorem adoptTrait_grows (name : Text) : GrowsAtTop (adoptTrait name) := by
  intro d ht
  refine Ensures.get_bind ?_
  split
  · rename_i t hnone ht'
    obtain ⟨b, hb, hfound⟩ := Option.bind_eq_some_iff.1 ht'
    exact (declareTrait_grown ht (ht.builtins b hb _ (mem_of_lookup hfound))).imp fun _ _ h => h.1
  · exact Ensures.pure (Composed.refl ht).toGrown

theorem implBlock_grows (hg : Resolving g) : GrowsAtTop (implBlock g) := by
  refine silent_advance.atTop fun _ => (silent_expect _ _).atTop fun name d ht => ?_
  refine Ensures.bind (adoptTrait_grows name.text d ht) fun _ d₁ c₁ => Ensures.get_bind ?_
  split
  · exact trivial
  · exact members_post (fun _ _ _ u c₂ => c₂.trans (still_composed c₂.tidy u).toGrown)
      (fun _ d₂ c₂ => (implMember_grows hg _).after c₂) c₁

theorem objectMember_grown (hg : Resolving g) (owner : Text) {fields : List Field}
    (c : Grown [] d₀ d) (hfields : ∀ f ∈ fields, f.Inert) :
    Post (objectMember g owner fields) d fun fields d' =>
      Grown [] d₀ d' ∧ ∀ f ∈ fields, f.Inert := by
  refine c.next (silent_accept _).follows fun attr d₁ c₁ => ?_
  split
  · refine Ensures.bind (post_both (field_literal d₁) (silent_field d₁)) fun f d₂ h₂ => Ensures.pure ?_
    exact ⟨c₁.trans (still_composed c₁.tidy h₂.2).toGrown, List.forall_mem_cons.2 ⟨h₂.1.inert, hfields⟩⟩
  refine c₁.next (silent_checkAny _).follows fun found d₂ c₂ => ?_
  split
  · refine c₂.next silent_tags.follows fun tags d₃ c₃ => header_then fun h d₄ hinert u₄ => ?_
    have e₄ := still_composed c₃.tidy u₄
    refine Ensures.bind (functionBody_composed hg e₄.tidy h) fun i d₅ h₅ => ?_
    obtain ⟨e₅, -, hbody⟩ := h₅
    have hf : Function.Inert { h.interpreted i with module := owner } := ⟨hinert, nofun⟩
    refine Ensures.bind (register_grown e₅.tidy (fun r hr => Registry.defineFunction_grows hr)
      (fun _ => hbody _ rfl hf rfl rfl) hf) fun _ d₆ h₆ => Ensures.pure ?_
    exact ⟨(c₃.trans (e₄.trans e₅).toGrown).trans h₆.1, hfields⟩
  · exact silent_peek.then fun _ _ _ => trivial

theorem objectDeclaration_grows (hg : Resolving g) : GrowsAtTop (objectDeclaration g) := by
  refine silent_advance.atTop fun _ => (silent_expect _ _).atTop fun name => ?_
  split
  · exact fun _ _ => trivial
  intro d ht
  refine Ensures.bind (R := fun fields d' => Grown [] d d' ∧ ∀ f ∈ fields, Field.Inert f) ?_
    fun fields d₁ h₁ => ?_
  · exact members_post (fun _ _ _ u h => ⟨h.1.trans (still_composed h.1.tidy u).toGrown, h.2⟩)
      (fun fields d₁ h₁ => objectMember_grown hg _ h₁.1 h₁.2)
      ⟨(Composed.refl ht).toGrown, List.forall_mem_nil _⟩
  refine Ensures.get_bind (Ensures.change_bind ?_)
  have c₂ := h₁.1.trans (grown_of_aside h₁.1.tidy (p := { d₁.program with
    recordTypes := d₁.program.recordTypes ++ [⟨⟨d₁.program.id, d₁.program.recordTypes.length⟩,
      name.text, fields.reverse⟩] }) rfl rfl rfl)
  refine (register_grown c₂.tidy (fun r hr => Registry.defineFunction_grows hr) ?_
    (constructor_inert _ fun f hf => h₁.2 f (List.mem_reverse.1 hf))).imp fun _ _ h₃ => c₂.trans h₃.1
  rintro ⟨⟩

theorem importStatement_grows : GrowsAtTop importStatement := by
  refine silent_advance.atTop fun _ => (silent_expect _ _).atTop fun name d ht => ?_
  refine Ensures.get_bind ?_
  dsimp only
  split
  · exact Ensures.change (grown_of_aside ht rfl rfl rfl)
  · exact trivial

end Compile

end ScriptMachine
