import ScriptMachine.Proofs.Compiler.Scoping

set_option autoImplicit false

namespace ScriptMachine

namespace Compile

variable {bound : List (List Text)} {d₀ d d₁ d₂ d' : Draft} {names names' params : List Text}
  {selfName : Option Text} {isFunction isClosure : Bool} {i j : Nat}

/-- A scope has just been opened. Its names are known, and it has no code. -/
structure Fresh (d d₁ : Draft) (isFunction isClosure : Bool) (params : List Text)
    (selfName : Option Text) (names : List Text) : Prop where
  program : ∃ t : Scope, d₁.program = { d.program with scopes := d.program.scopes.push t } ∧
    t.operations = [] ∧ t.params = params ∧ t.selfName = selfName
  opened : ∃ known : List (Text × NameInfo),
    d₁.opened = ⟨d.program.scopes.size, known, isFunction, isClosure, []⟩ :: d.opened ∧
      ∀ n, (known.lookup n).isSome ↔ n ∈ names
  builtins : d₁.builtins = d.builtins

theorem openScope_fresh (kind : ScopeKind) (name : Text) (isFunction isClosure : Bool)
    (site : Token) :
    Post (openScope kind name isFunction isClosure site) d fun i d₁ =>
      i = d.program.scopes.size ∧ Fresh d d₁ isFunction isClosure [] none [] := by
  refine Ensures.intro (fun i d₁ h => ?_) fun _ _ _ => trivial
  cases h
  exact ⟨rfl, ⟨_, rfl, rfl, rfl, rfl⟩, ⟨[], rfl, by simp⟩, rfl⟩

/-- What is left of a scope that was opened, written and closed. -/
structure Finished (bound : List (List Text)) (d d' : Draft) (isFunction isClosure : Bool)
    (params : List Text) (selfName : Option Text) (names : List Text) (s : Scope) (u : OpenScope) :
    Prop where
  composed : Composed bound d d'
  scope : d'.program.scopes[d.program.scopes.size]? = some s
  params : s.params = params
  selfName : s.selfName = selfName
  number : u.scope = d.program.scopes.size
  isFunction : u.isFunction = isFunction
  isClosure : u.isClosure = isClosure
  captures : ∀ n ∈ u.captures, n ∉ names ∧ ∃ e, d'.whole bound n = some (.declared e)
  resolved : d'.program.Scoped d.current (u.place d'.program names (d'.whole bound))
  kept : ∀ i < d.program.scopes.size, d'.program.scopes[i]? = d.program.scopes[i]?
  unused : ∀ f ∈ d'.program.closures, f.scope ≠ d.program.scopes.size

theorem Finished.still {s : Scope} {u : OpenScope}
    (h : Finished bound d d₁ isFunction isClosure params selfName names s u) (e : Still d₁ d₂) :
    Finished bound d d₂ isFunction isClosure params selfName names s u := by
  have hwhole : d₂.whole bound = d₁.whole bound := by
    unfold Draft.whole Draft.standing
    rw [e.program, e.opened]
  refine { h with composed := h.composed.trans (still_composed h.composed.tidy e),
                  scope := e.program ▸ h.scope, captures := hwhole ▸ h.captures, resolved := ?_,
                  kept := e.program ▸ h.kept, unused := e.program ▸ h.unused }
  rw [hwhole, e.program]
  exact h.resolved

namespace Fresh

theorem congr (h : Fresh d d₁ isFunction isClosure params selfName names)
    (hn : ∀ n, n ∈ names ↔ n ∈ names') : Fresh d d₁ isFunction isClosure params selfName names' := by
  obtain ⟨known, hopened, hknown⟩ := h.opened
  exact ⟨h.program, ⟨known, hopened, fun n => (hknown n).trans (hn n)⟩, h.builtins⟩

theorem since (h : Fresh d₀ d₁ isFunction isClosure params selfName names) (u : Still d d₀) :
    Fresh d d₁ isFunction isClosure params selfName names := by
  obtain ⟨hprogram, hopened, hbuiltins⟩ := h
  rw [u.program] at hprogram hopened
  rw [u.opened] at hopened
  exact ⟨hprogram, hopened, hbuiltins.trans u.builtins⟩

theorem declareAs (h : Fresh d d₁ isFunction isClosure params selfName names) (name : Text)
    (info : NameInfo) : Post (declareAs name info) d₁ fun _ d₂ =>
      Fresh d d₂ isFunction isClosure params selfName (name :: names) := by
  obtain ⟨known, hopened, hknown⟩ := h.opened
  refine Ensures.run (declareAs_run name info hopened)
    ⟨h.program, ⟨_, rfl, fun n => ?_⟩, h.builtins⟩
  refine (Layered.lookup_declare ⟨d.program.scopes.size, known, isFunction, isClosure, []⟩
    name info n).trans ?_
  rw [List.mem_cons]
  exact (or_congr_left (hknown n)).trans Or.comm

theorem declareAll (h : Fresh d d₁ isFunction isClosure params selfName names)
    {α : Type} (name : α → Text) (items : List α) :
    Post (items.forM fun a => declare (name a) false) d₁ fun _ d₂ =>
      Fresh d d₂ isFunction isClosure params selfName (items.map name ++ names) := by
  induction items generalizing d₁ names with
  | nil => exact Ensures.pure h
  | cons a items ih =>
    refine Ensures.bind (h.declareAs (name a) _) fun _ d₂ h₂ => (ih h₂).imp fun _ _ h₃ => ?_
    exact h₃.congr fun n => by simp [or_left_comm]

theorem describe (h : Fresh d d₁ isFunction isClosure params selfName names) {f : Scope → Scope}
    {params' : List Text} {selfName' : Option Text}
    (hcode : ∀ t, (f t).operations = t.operations)
    (hparams : ∀ t, t.params = params → (f t).params = params')
    (hself : ∀ t, t.selfName = selfName → (f t).selfName = selfName') :
    Post (modifyScope d.program.scopes.size f) d₁ fun _ d₂ =>
      Fresh d d₂ isFunction isClosure params' selfName' names := by
  obtain ⟨t, hprogram, ht, hp, hs⟩ := h.program
  refine Ensures.change ⟨⟨f t, ?_, (hcode t).trans ht, hparams t hp, hself t hs⟩, h.opened, h.builtins⟩
  rw [hprogram]
  refine congrArg (fun scopes => ({ d.program with scopes } : Program)) (Array.ext_getElem? fun k => ?_)
  simp only [Array.getElem?_modify, Array.getElem?_push]
  by_cases hk : k = d.program.scopes.size
  · simp [hk]
  · simp [hk, Ne.symm hk]

section
variable (h : Fresh d d₁ isFunction isClosure params selfName names)
include h

theorem size : d₁.program.scopes.size = d.program.scopes.size + 1 := by
  obtain ⟨t, hprogram, -⟩ := h.program
  rw [hprogram, Array.size_push]

theorem scopes (hi : i < d.program.scopes.size) :
    d₁.program.scopes[i]? = d.program.scopes[i]? := by
  obtain ⟨t, hprogram, -⟩ := h.program
  rw [hprogram, Array.getElem?_push, if_neg (Nat.ne_of_lt hi)]

theorem current : d₁.current = d.program.scopes.size := by
  obtain ⟨known, hopened, -⟩ := h.opened
  simp [Draft.current, Draft.openScopes, hopened]

theorem code : d₁.program.codeOf d.program.scopes.size = [] := by
  obtain ⟨t, hprogram, ht, -⟩ := h.program
  refine (Program.codeOf_eq ?_).trans ht
  rw [hprogram, Array.getElem?_push, if_pos rfl]

/-- The new scope lies inside the others. -/
theorem tidy (hd : Tidy bound d) : Tidy (names :: bound) d₁ := by
  obtain ⟨known, hopened, hknown⟩ := h.opened
  obtain ⟨s, rest, hs, -⟩ := hd.layered.opened_eq
  have hlayered := hd.layered
  have hl : d₁.Layered (names :: bound) := by
    unfold Draft.Layered at hlayered ⊢
    have hcode : ∀ t ∈ d.opened, ∀ j,
        declaredAt (d₁.program.codeOf t.scope) j = declaredAt (d.program.codeOf t.scope) j := by
      intro t ht j
      rw [Program.codeOf_congr (h.scopes (hd.layered.open_lt t ht))]
    have hin := (hlayered.congr (by rw [h.size]; omega) hcode).1
    rw [hs] at hin hlayered
    rw [hopened, hs]
    refine .inner hin hlayered.scope_lt ?_ (fun n => ?_) fun n hn => absurd hn List.not_mem_nil
    · rw [h.size]
      exact Nat.lt_succ_self _
    · simp [hknown, h.code, declaredAt]
  obtain ⟨t, hprogram, -⟩ := h.program
  refine ⟨hl, fun k op hop => ?_, fun h => absurd h (List.cons_ne_nil _ _), hd.inventory.later (by rw [h.size]; omega) ?_ ?_,
    h.builtins ▸ hd.builtins⟩
  · rw [hl.standing_scope, h.current, h.code] at hop
    cases hop
  · rw [hprogram]
  · rw [hprogram]

end

/-- A scope that is closed leaves no declaration behind, all that it leads to is resolved, and it is the
body of no closure yet. -/
theorem close (h : Fresh d d₁ isFunction isClosure params selfName names) (ht : Tidy bound d)
    (g : Grown (names :: bound) d₁ d₂) :
    let d₃ : Draft := { d₂ with opened := d₂.opened.tail }
    ∃ u, d₂.opened.head? = some u ∧
      Finished bound d d₃ isFunction isClosure params selfName names d₂.scope u := by
  intro d₃
  obtain ⟨known, hopened, -⟩ := h.opened
  obtain ⟨t, hprogram, -, hparams, hself⟩ := h.program
  obtain ⟨s, rest, hs, -⟩ := ht.layered.opened_eq
  have hw := g.widened
  have hlayered := g.tidy.layered
  unfold Draft.Layered at hlayered
  rw [hopened] at hw
  have hscope₁ : d₁.scope = t := by
    unfold Draft.scope
    rw [h.current, hprogram, Array.getElem?_push, if_pos rfl]
    rfl
  have hcurrent₂ : d₂.current = d.program.scopes.size := g.current.trans h.current
  have hscope₂ := g.tidy.layered.scope_eq
  rw [hcurrent₂] at hscope₂
  have hstanding := g.tidy.code
  unfold Draft.standing at hstanding
  cases hd₂ : d₂.opened with
  | nil => rw [hd₂] at hw; cases hw
  | cons u opened =>
    rw [hd₂] at hw hlayered hstanding
    have hd₃ : d₃.opened = opened := by simp [d₃, hd₂]
    cases hw with
    | cons hu hw =>
      cases hopened' : opened with
      | nil => rw [hopened', hs] at hw; cases hw
      | cons u' opened' =>
        rw [hopened'] at hlayered hstanding
        cases hlayered with
        | inner hin habove hsize hnames hcaptures =>
          have hl : d₃.Layered bound := by
            unfold Draft.Layered
            rw [hd₃, hopened']
            exact hin
          have hwhole : d₃.whole bound = (standing d₂.program (u' :: opened') bound).whole d₂.program := by
            unfold Draft.whole Draft.standing
            rw [hd₃, hopened']
          have hfresh : ∀ f ∈ d₂.program.closures,
              f ∈ d.program.closures ∨ d.program.scopes.size + 1 ≤ f.scope := by
            intro f hf
            have hf := g.fresh f hf
            rwa [h.size, hprogram] at hf
          have hkept : ∀ k < d.program.scopes.size,
              d₂.program.scopes[k]? = d.program.scopes[k]? := by
            intro k hk
            refine (g.frozen k (by rw [h.size]; omega) ?_).trans (h.scopes hk)
            rw [h.current]
            exact Nat.ne_of_lt hk
          refine ⟨u, rfl, ?_, hscope₂, by rw [g.params, hscope₁, hparams],
            by rw [g.selfName, hscope₁, hself], hu.scope, hu.isFunction, hu.isClosure, ?_, ?_, hkept,
            fun f hf => ?_⟩
          · have hle : d.program.scopes.size ≤ d₃.program.scopes.size :=
              Nat.le_trans (by rw [h.size]; omega) g.size
            refine composed_of_kept ht hl (hd₃ ▸ hw) hle hkept (fun k f hf => ?_)
              (fun f hf => (hfresh f hf).imp_right Nat.le_of_succ_le) ?_ g.tidy.inventory
              (g.builtins.trans h.builtins)
            · exact g.closures k f (by rw [hprogram]; exact hf)
            · exact (g.modules (List.cons_ne_nil _ _)).trans (by rw [hprogram])
          · rw [hwhole]
            exact hcaptures
          · rw [hwhole]
            refine Program.Scoped.of_resolves ?_ ?_ fun k op hop => ?_
            · rw [OpenScope.place_scope, hu.scope]
              exact ht.layered.current_lt
            · rw [OpenScope.place_scope]
              exact hsize
            · refine (hstanding k op hop).imp fun a ha => ha.mono ?_
              rw [hcurrent₂]
              exact Nat.le_of_lt ht.layered.current_lt
          · rcases hfresh f hf with hf | hf
            · exact Nat.ne_of_lt (ht.inventory.closuresLt f hf)
            · exact Nat.ne_of_gt hf

end Fresh

def Ready (bound : List (List Text)) (d : Draft) (i : Nat) (names : List Text → List Text) : Prop :=
  ∃ s, d.program.scopes[i]? = some s ∧
    d.program.Scoped d.current (.block (d.whole bound) i (names s.params))

def Makeable (bound : List (List Text)) (d : Draft) (j : Nat) : Prop :=
  ∃ f s, d.program.closures[j]? = some f ∧ d.program.scopes[f.scope]? = some s ∧
    (∀ n ∈ s.captures, n ∉ s.ownNames ∧ ∃ e, d.whole bound n = some (.declared e)) ∧
    d.program.Scoped d.current (.closure (d.whole bound) f.scope s.ownNames s.captures)

theorem Ready.later {names : List Text → List Text} (h : Ready bound d i names) (ht : Tidy bound d)
    (c : Composed bound d d') : Ready bound d' i names := by
  obtain ⟨s, hs, hscoped⟩ := h
  refine ⟨s, c.carried.scope (hscoped _ .refl).1 hs, ?_⟩
  rw [c.current]
  exact hscoped.later c.carried (.block (c.whole_within ht.layered) i _)

theorem Makeable.later (h : Makeable bound d j) (ht : Tidy bound d) (c : Composed bound d d') :
    Makeable bound d' j := by
  obtain ⟨f, s, hf, hs, hcaptures, hscoped⟩ := h
  have hw := c.whole_within ht.layered
  refine ⟨f, s, c.closures j f hf, c.carried.scope (hscoped _ .refl).1 hs, fun n hn => ?_, ?_⟩
  · obtain ⟨hown, e, he⟩ := hcaptures n hn
    exact ⟨hown, e, hw n _ he⟩
  · rw [c.current]
    exact hscoped.later c.carried (.closure hw _ _ (List.Subset.refl _))

theorem resolved_of_ready {op : Operation} (hu : op.uses? = none) (hm : op.made = [])
    (hl : op.literal? = none) (he : ∀ e ∈ op.entries, ∀ b ∈ e.1, Ready bound d b e.2) :
    op.Resolved d.program (d.program.Scoped d.current) (d.whole bound) :=
  ⟨by simp [hu], he, by simp [hm], by simp [hl]⟩

theorem resolved_of_makeable {out : Register} (h : Makeable bound d j) :
    (Operation.makeClosure j out).Resolved d.program (d.program.Scoped d.current)
      (d.whole bound) := by
  refine ⟨nofun, nofun, fun k hk => ?_, nofun⟩
  rw [show k = j by simpa [Operation.made] using hk]
  exact h

theorem resolved_of_use {op : Operation} {name : Text} (hu : op.uses? = some name)
    (he : op.entries = []) (hm : op.made = []) (hl : op.literal? = none)
    (h : (d.whole bound name).isSome) :
    op.Resolved d.program (d.program.Scoped d.current) (d.whole bound) := by
  refine ⟨fun n hn => ?_, by simp [he], by simp [hm], by simp [hl]⟩
  rw [hu] at hn
  cases hn
  exact h

/-- Moving code that declares nothing into a block makes the block ready and changes no names. -/
theorem moveCode_composed (ht : Tidy bound d) {start : Nat} (value : Register) (keyword : Token)
    (hbare : ∀ k, start ≤ k → declaredAt d.code k = none) :
    Composed bound d (moveCode d start value keyword) ∧
      Ready bound (moveCode d start value keyword) d.program.scopes.size fun _ => [] := by
  have hd := ht.layered
  have hcutCode : ∀ k, declaredAt (d.code.take start) k = declaredAt d.code k := by
    intro k
    unfold declaredAt
    rw [List.getElem?_take]
    split
    · rfl
    · exact (hbare k (Nat.le_of_not_lt ‹_›)).symm
  have hcut : Composed bound d (d.rewrite (cutAt start)) := by
    refine composed_rewrite ht (fun k => ?_) rfl rfl fun k op hop => ?_
    · rw [cutAt_operations]
      exact hcutCode k
    · rw [cutAt_operations, List.getElem?_take] at hop
      split at hop
      · exact ht.code k op (by rw [hd.standing_scope, ← Draft.code_eq]; exact hop)
      · cases hop
  have hsize : (d.rewrite (cutAt start)).program.scopes.size = d.program.scopes.size := rewrite_size
  -- the new block comes last and changes nothing else
  have hkept : ∀ k < d.program.scopes.size, (moveCode d start value keyword).program.scopes[k]? =
      (d.rewrite (cutAt start)).program.scopes[k]? := by
    intro k hk
    change ((d.program.scopes.modify d.current (cutAt start)).push _)[k]? = _
    rw [Array.getElem?_push, if_neg (by rw [Array.size_modify]; exact Nat.ne_of_lt hk)]
    rfl
  have hlayered : (moveCode d start value keyword).Layered bound := by
    refine (Layered.congr hcut.tidy.layered ?_ fun t htm j => ?_).1
    · change _ ≤ ((d.program.scopes.modify d.current (cutAt start)).push _).size
      rw [Array.size_push]
      exact Nat.le_succ _
    · rw [Program.codeOf_congr (hkept _ (hd.open_lt t htm))]
  have hmoved : Composed bound (d.rewrite (cutAt start)) (moveCode d start value keyword) := by
    refine composed_of_kept hcut.tidy hlayered (widened_refl _) ?_ (fun k hk => hkept k (hsize ▸ hk))
      (fun _ _ => id) (fun _ => Or.inl) rfl (hcut.tidy.inventory.later ?_ rfl rfl) rfl
    · change _ ≤ ((d.program.scopes.modify d.current (cutAt start)).push _).size
      rw [Array.size_push]
      exact Nat.le_succ _
    · change _ ≤ ((d.program.scopes.modify d.current (cutAt start)).push _).size
      rw [Array.size_push]
      exact Nat.le_succ _
  have c := hcut.trans hmoved
  have hbody : (moveCode d start value keyword).program.scopes[d.program.scopes.size]? =
      some (guardBody d.scope start value keyword) := by
    change ((d.program.scopes.modify d.current (cutAt start)).push _)[d.program.scopes.size]? = _
    rw [Array.getElem?_push, if_pos (by rw [Array.size_modify])]
  refine ⟨c, _, hbody, ?_⟩
  have hops : (moveCode d start value keyword).program.codeOf d.program.scopes.size =
      d.code.drop start ++ [.ret value] := by
    rw [Program.codeOf_eq hbody, guardBody_operations]
    rfl
  have hbareBody : ∀ k, declaredAt (d.code.drop start ++ [.ret value]) k = none := by
    intro k
    rw [declaredAt_append]
    split
    · rfl
    · unfold declaredAt
      rw [List.getElem?_drop]
      exact hbare (start + k) (Nat.le_add_right _ _)
  have hlt : (moveCode d start value keyword).current < d.program.scopes.size := hd.current_lt
  refine Program.Scoped.of_resolves hlt ?_ fun k op hop => ?_
  · exact (Array.getElem?_eq_some_iff.1 hbody).1
  rw [Place.block_scope, hops] at hop
  have henv : (Place.block ((moveCode d start value keyword).whole bound) d.program.scopes.size
      []).environment (moveCode d start value keyword).program k =
        (moveCode d start value keyword).whole bound := by
    rw [Place.environment_inner (by rw [Place.block_scope]; omega), Place.block_scope, hops,
      Locals.before_bare (Nat.zero_le k) fun j _ _ => hbareBody j]
    rfl
  rw [henv]
  rcases Nat.lt_or_ge k (d.code.drop start).length with hk | hk
  · -- an operation that was moved had the same names before it
    rw [List.getElem?_append_left hk, List.getElem?_drop] at hop
    have hold := ht.code (start + k) op (by rwa [hd.standing_scope, ← Draft.code_eq])
    refine c.carried.scoped ?_ hold
    have hend : (d.standing bound).environment d.program (start + k) = d.whole bound := by
      unfold Draft.whole Place.whole Place.environment
      rw [hd.standing_scope, ← Draft.code_eq]
      split
      · rfl
      · rw [Locals.before_bare (Nat.le_add_right start k) fun j hj _ => hbare j hj]
        rcases Nat.le_total start d.code.length with hle | hle
        · rw [Locals.before_bare hle fun j hj _ => hbare j hj]
        · rw [Locals.before_bare hle fun j hj _ => Locals.declaredAt_of_le hj]
    rw [hend]
    exact c.whole_within hd
  · rw [List.getElem?_append_right hk] at hop
    have hret : op = .ret value := by
      have hmem := List.mem_of_getElem? hop
      simpa using hmem
    rw [hret]
    exact .plain rfl rfl rfl nofun

end Compile

end ScriptMachine
