import ScriptMachine.Proofs.Compiler.Layers

set_option autoImplicit false

namespace ScriptMachine

namespace Program

def Settled (p : Program) : Prop := ∀ f ∈ p.modules.functions, f.isNative = false →
  ∃ s, p.scopes[f.scope]? = some s ∧ p.Scoped 0 (.body p f.scope (f.boundNames s))

/-- Every function and every closure has a body of its own, and none brings closures with it. -/
structure Inventory (p : Program) : Prop where
  closuresLt : ∀ f ∈ p.closures, f.scope < p.scopes.size
  functionsLt : ∀ f ∈ p.modules.functions, f.isNative = false → f.scope < p.scopes.size
  closures : (p.closures.toList.map Function.scope).Nodup
  functions : ∀ f ∈ p.modules.functions, ∀ g ∈ p.modules.functions, f.isNative = false →
    g.isNative = false → f.scope = g.scope → f.isExtension = g.isExtension
  mixed : ∀ f ∈ p.modules.functions, f.isNative = false → ∀ g ∈ p.closures, f.scope ≠ g.scope
  inert : p.modules.Inert ∧ ∀ f ∈ p.closures, f.Inert

variable {p p' : Program}

theorem Settled.later (h : p.Settled) (hc : Carried p p' 0)
    (htop : (Environment.topLevel p).Within (.topLevel p'))
    (hf : ∀ f ∈ p'.modules.functions, f.isNative = false → ∃ g ∈ p.modules.functions,
      g.isNative = false ∧ f.scope = g.scope ∧ f.isExtension = g.isExtension) : p'.Settled := by
  intro f hm hn
  obtain ⟨g, hg, hgn, hscope, hext⟩ := hf f hm hn
  obtain ⟨s, hs, hscoped⟩ := h g hg hgn
  refine ⟨s, ?_, ?_⟩
  · rw [hscope]
    exact hc.scope (hscoped _ .refl).1 hs
  · have hnames : f.boundNames s = g.boundNames s := by simp only [Function.boundNames, hext]
    rw [hscope, hnames]
    exact hscoped.later hc (.body htop _ _)

theorem Inventory.later (h : p.Inventory) (hsize : p.scopes.size ≤ p'.scopes.size)
    (hmodules : p'.modules = p.modules) (hclosures : p'.closures = p.closures) : p'.Inventory where
  closuresLt := hclosures ▸ fun f hf => Nat.lt_of_lt_of_le (h.closuresLt f hf) hsize
  functionsLt := hmodules ▸ fun f hf hn => Nat.lt_of_lt_of_le (h.functionsLt f hf hn) hsize
  closures := hclosures ▸ h.closures
  functions := hmodules ▸ h.functions
  mixed := by
    rw [hmodules, hclosures]
    exact h.mixed
  inert := by
    rw [hmodules, hclosures]
    exact h.inert

end Program

namespace Draft

variable {d : Draft}

theorem code_eq : d.code = d.program.codeOf d.current := by
  unfold code scope Program.codeOf
  cases d.program.scopes[d.current]? with
  | none => rfl
  | some s => rfl

def standing (d : Draft) (bound : List (List Text)) : Place :=
  ScriptMachine.standing d.program d.opened bound

def whole (d : Draft) (bound : List (List Text)) : Environment := (d.standing bound).whole d.program

def Layered (d : Draft) (bound : List (List Text)) : Prop :=
  ScriptMachine.Layered d.program d.opened bound

theorem Layered.opened_eq {bound : List (List Text)} (h : d.Layered bound) :
    ∃ s rest, d.opened = s :: rest ∧ d.current = s.scope := by
  cases hd : d.opened with
  | nil => exact absurd hd h.ne_nil
  | cons s rest => exact ⟨s, rest, rfl, by simp [current, openScopes, hd]⟩

theorem Layered.standing_scope {bound : List (List Text)} (h : d.Layered bound) :
    (d.standing bound).scope = d.current := by
  obtain ⟨s, rest, hopened, hcurrent⟩ := h.opened_eq
  unfold Layered at h
  unfold standing
  rw [hopened] at h ⊢
  rw [h.standing_scope, hcurrent]

theorem Layered.current_lt {bound : List (List Text)} (h : d.Layered bound) :
    d.current < d.program.scopes.size := by
  obtain ⟨s, rest, hopened, hcurrent⟩ := h.opened_eq
  unfold Layered at h
  rw [hopened] at h
  rw [hcurrent]
  exact h.scope_lt

theorem Layered.scope_eq {bound : List (List Text)} (h : d.Layered bound) :
    d.program.scopes[d.current]? = some d.scope := by
  unfold scope
  rw [Array.getElem?_eq_getElem h.current_lt]
  rfl

theorem Layered.outer {bound : List (List Text)} (h : d.Layered bound) :
    ∀ t ∈ d.opened.tail, t.scope < d.current := by
  obtain ⟨s, rest, hopened, hcurrent⟩ := h.opened_eq
  unfold Layered at h
  rw [hopened] at h
  rw [hopened, hcurrent]
  exact h.lies_above

theorem Layered.open_lt {bound : List (List Text)} (h : d.Layered bound) :
    ∀ t ∈ d.opened, t.scope < d.program.scopes.size := by
  obtain ⟨s, rest, hopened, hcurrent⟩ := h.opened_eq
  intro t ht
  rw [hopened] at ht
  rcases List.mem_cons.1 ht with rfl | ht
  · exact hcurrent ▸ h.current_lt
  · refine Nat.lt_trans (h.outer t ?_) h.current_lt
    rw [hopened]
    exact ht

theorem Layered.current_main (h : d.Layered []) : d.current = 0 := by
  obtain ⟨s, rest, hopened, hcurrent⟩ := h.opened_eq
  unfold Layered at h
  rw [hopened] at h
  rw [hcurrent]
  cases h with
  | main hscope => exact hscope

end Draft

namespace Compile

/-- The names in the code being written are resolved; at the top level also those in the bodies of
functions. -/
structure Tidy (bound : List (List Text)) (d : Draft) : Prop where
  layered : d.Layered bound
  code : d.program.Resolves (d.program.Scoped d.current) (d.standing bound)
  functions : bound = [] → d.program.Settled
  inventory : d.program.Inventory
  builtins : ∀ b ∈ d.builtins, ∀ e ∈ b.traits, e.2.Inert

structure Grown (bound : List (List Text)) (d d' : Draft) : Prop where
  tidy : Tidy bound d'
  widened : List.Forall₂ OpenScope.Widened d.opened d'.opened
  size : d.program.scopes.size ≤ d'.program.scopes.size
  frozen : ∀ i < d.program.scopes.size, i ≠ d.current →
    d'.program.scopes[i]? = d.program.scopes[i]?
  params : d'.scope.params = d.scope.params
  selfName : d'.scope.selfName = d.scope.selfName
  closures : ∀ (j : Nat) (f : Function),
    d.program.closures[j]? = some f → d'.program.closures[j]? = some f
  fresh : ∀ f ∈ d'.program.closures, f ∈ d.program.closures ∨ d.program.scopes.size ≤ f.scope
  modules : bound ≠ [] → d'.program.modules = d.program.modules
  builtins : d'.builtins = d.builtins

structure Composed (bound : List (List Text)) (d d' : Draft) : Prop extends Grown bound d d' where
  declares : ∀ k, declaredAt d'.code k = declaredAt d.code k
  registry : d'.program.modules = d.program.modules

variable {bound : List (List Text)} {d d' d'' : Draft}

namespace Grown

theorem current (h : Grown bound d d') : d'.current = d.current := by
  unfold Draft.current Draft.openScopes
  rw [widened_scopes h.widened]

theorem carried (h : Grown bound d d') : Program.Carried d.program d'.program d.current :=
  ⟨fun i hi hlt => h.frozen i hlt (Nat.ne_of_gt hi), h.closures⟩

theorem topLevel_within (h : Grown bound d d') (hd : d.Layered bound) :
    (Environment.topLevel d.program).Within (.topLevel d'.program) :=
  ScriptMachine.Layered.topLevel_within hd h.tidy.layered h.widened

theorem within (h : Grown bound d d') (hd : d.Layered bound) :
    (d.standing bound).Within (d'.standing bound) := by
  refine ScriptMachine.Layered.standing_within hd h.widened (fun t ht j => ?_) (h.topLevel_within hd)
  have hlt := hd.outer t ht
  rw [Program.codeOf_congr (h.frozen _ (Nat.lt_trans hlt hd.current_lt) (Nat.ne_of_lt hlt))]

theorem trans (h : Grown bound d d') (h' : Grown bound d' d'') : Grown bound d d'' where
  tidy := h'.tidy
  widened := widened_trans h.widened h'.widened
  size := Nat.le_trans h.size h'.size
  frozen := fun i hi hc => by
    rw [h'.frozen i (Nat.lt_of_lt_of_le hi h.size) (h.current ▸ hc), h.frozen i hi hc]
  params := h'.params.trans h.params
  selfName := h'.selfName.trans h.selfName
  closures := fun j f hf => h'.closures j f (h.closures j f hf)
  fresh := fun f hf => by
    rcases h'.fresh f hf with hf | hf
    · exact h.fresh f hf
    · exact Or.inr (Nat.le_trans h.size hf)
  modules := fun hb => (h'.modules hb).trans (h.modules hb)
  builtins := h'.builtins.trans h.builtins

end Grown

theorem still_composed (hd : Tidy bound d) (u : Still d d') : Composed bound d d' := by
  obtain ⟨hprogram, hopened, hbuiltins⟩ := u
  have hscope : d'.scope = d.scope := by
    unfold Draft.scope Draft.current Draft.openScopes
    rw [hprogram, hopened]
  refine { tidy := ⟨?_, ?_, ?_, hprogram ▸ hd.inventory, hbuiltins ▸ hd.builtins⟩, widened := ?_,
           size := ?_, frozen := ?_, params := ?_, selfName := ?_, closures := ?_, fresh := ?_,
           modules := ?_, builtins := hbuiltins, declares := ?_, registry := by rw [hprogram] }
  · unfold Draft.Layered
    rw [hprogram, hopened]
    exact hd.layered
  · unfold Draft.standing Draft.current Draft.openScopes
    rw [hprogram, hopened]
    exact hd.code
  · exact hprogram ▸ hd.functions
  · rw [hopened]
    exact widened_refl _
  · exact Nat.le_of_eq (by rw [hprogram])
  · exact fun _ _ _ => by rw [hprogram]
  · rw [hscope]
  · rw [hscope]
  · exact fun _ _ hf => hprogram ▸ hf
  · exact fun _ hf => Or.inl (hprogram ▸ hf)
  · exact fun _ => by rw [hprogram]
  · exact fun _ => by rw [Draft.code, hscope, Draft.code]

namespace Composed

theorem refl (hd : Tidy bound d) : Composed bound d d := still_composed hd (Still.refl d)

theorem trans (h : Composed bound d d') (h' : Composed bound d' d'') : Composed bound d d'' where
  toGrown := h.toGrown.trans h'.toGrown
  declares := fun k => (h'.declares k).trans (h.declares k)
  registry := h'.registry.trans h.registry

theorem whole_within (h : Composed bound d d') (hd : d.Layered bound) :
    (d.whole bound).Within (d'.whole bound) := by
  refine (h.within hd).whole (fun _ => h.topLevel_within hd) fun j => ?_
  rw [hd.standing_scope, ← Draft.code_eq, ← h.current, ← Draft.code_eq, h.declares]

end Composed

def Composes (d d' : Draft) : Prop := ∀ bound, Tidy bound d → Composed bound d d'

def Grows (d d' : Draft) : Prop := ∀ bound, Tidy bound d → Grown bound d d'

instance : Flow Composes where
  still := fun u _ hd => still_composed hd u
  trans := fun h h' bound hd => (h bound hd).trans (h' bound (h bound hd).tidy)

instance : Flow Grows where
  still := fun u _ hd => (still_composed hd u).toGrown
  trans := fun h h' bound hd => (h bound hd).trans (h' bound (h bound hd).tidy)

theorem Follows.grows {α : Type} {x : Compile α} (hx : Follows Composes x) : Follows Grows x :=
  fun d => (hx d).imp fun _ _ h bound hd => (h bound hd).toGrown

section

variable (ht : Tidy bound d) (hl : d'.Layered bound)
  (hw : List.Forall₂ OpenScope.Widened d.opened d'.opened)
  (hsize : d.program.scopes.size ≤ d'.program.scopes.size)
  (hscopes : ∀ i < d.program.scopes.size, d'.program.scopes[i]? = d.program.scopes[i]?)
  (hclosures : ∀ (j : Nat) (f : Function),
    d.program.closures[j]? = some f → d'.program.closures[j]? = some f)
  (hfresh : ∀ f ∈ d'.program.closures, f ∈ d.program.closures ∨ d.program.scopes.size ≤ f.scope)
include ht hl hw hsize hscopes hclosures hfresh

/-- A change that leaves all scopes as they are. -/
theorem grown_of_kept (hmodules : bound ≠ [] → d'.program.modules = d.program.modules)
    (hsettled : bound = [] → d'.program.Settled) (hinventory : d'.program.Inventory)
    (hbuiltins : d'.builtins = d.builtins) : Grown bound d d' := by
  have hd := ht.layered
  have hcurrent : d'.current = d.current := by
    unfold Draft.current Draft.openScopes
    rw [widened_scopes hw]
  have hscope : d'.scope = d.scope := by
    unfold Draft.scope
    rw [hcurrent, hscopes _ hd.current_lt]
  have hcode : d'.program.codeOf d.current = d.program.codeOf d.current :=
    Program.codeOf_congr (hscopes _ hd.current_lt)
  have htop : (Environment.topLevel d.program).Within (.topLevel d'.program) :=
    ScriptMachine.Layered.topLevel_within hd hl hw
  have hwithin : (d.standing bound).Within (d'.standing bound) := by
    refine ScriptMachine.Layered.standing_within hd hw (fun t ht j => ?_) htop
    rw [Program.codeOf_congr (hscopes _ (Nat.lt_trans (hd.outer t ht) hd.current_lt))]
  have hcarried : Program.Carried d.program d'.program d.current :=
    ⟨fun i _ hi => hscopes i hi, hclosures⟩
  refine { tidy := ⟨hl, fun k op hop => ?_, hsettled, hinventory, hbuiltins ▸ ht.builtins⟩,
           widened := hw, size := hsize, frozen := fun i hi _ => hscopes i hi, params := by rw [hscope],
           selfName := by rw [hscope], closures := hclosures, fresh := hfresh, modules := hmodules,
           builtins := hbuiltins }
  rw [hl.standing_scope, hcurrent, hcode] at hop
  rw [hcurrent]
  have hold := ht.code k op (by rwa [hd.standing_scope])
  refine hcarried.scoped (hwithin.environment (fun _ => htop) fun j _ => ?_) hold
  rw [hd.standing_scope, hcode]

theorem composed_of_kept (hmodules : d'.program.modules = d.program.modules)
    (hinventory : d'.program.Inventory) (hbuiltins : d'.builtins = d.builtins) :
    Composed bound d d' := by
  have hgrown := grown_of_kept ht hl hw hsize hscopes hclosures hfresh (fun _ => hmodules)
    (fun hb => ?_) hinventory hbuiltins
  · refine ⟨hgrown, fun _ => ?_, hmodules⟩
    rw [Draft.code, Draft.code, Draft.scope, hgrown.current, hscopes _ ht.layered.current_lt]
    rfl
  · refine (ht.functions hb).later ⟨fun i _ hi => hscopes i hi, hclosures⟩
      (ScriptMachine.Layered.topLevel_within ht.layered hl hw) fun f hm hn => ⟨f, ?_, hn, rfl, rfl⟩
    rwa [hmodules] at hm

end

section
variable {f : Scope → Scope} {opened : List OpenScope}

theorem rewrite_codeOf (hd : d.Layered bound) :
    (d.rewrite f).program.codeOf d.current = (f d.scope).operations := by
  refine Program.codeOf_eq ?_
  change (d.program.scopes.modify d.current f)[d.current]? = _
  rw [Array.getElem?_modify, if_pos rfl, hd.scope_eq]
  rfl

theorem rewritten_scope (hd : d.Layered bound) : (d.rewrite f).scope = f d.scope := by
  change ((d.program.scopes.modify d.current f)[d.current]?).getD default = _
  rw [Array.getElem?_modify, if_pos rfl, hd.scope_eq]
  rfl

theorem rewrite_frozen {i : Nat} (hi : i ≠ d.current) :
    (d.rewrite f).program.scopes[i]? = d.program.scopes[i]? := by
  change (d.program.scopes.modify d.current f)[i]? = _
  rw [Array.getElem?_modify, if_neg (Ne.symm hi)]

theorem rewrite_size : (d.rewrite f).program.scopes.size = d.program.scopes.size := Array.size_modify

/-- A change of the current scope, by which names may become known in it. Code whose names are
resolved has to have the same declarations before it. -/
theorem grown_rewrite (ht : Tidy bound d)
    (hl : ScriptMachine.Layered (d.rewrite f).program opened bound)
    (hw : List.Forall₂ OpenScope.Widened d.opened opened)
    (hparams : (f d.scope).params = d.scope.params)
    (hself : (f d.scope).selfName = d.scope.selfName)
    (hops : ∀ k (op : Operation), (f d.scope).operations[k]? = some op →
      (∀ j < k, declaredAt (f d.scope).operations j = declaredAt d.code j) ∧
      op.Resolved d.program (d.program.Scoped d.current) ((d.standing bound).environment d.program k)) :
    Grown bound d { d.rewrite f with opened } := by
  have hd := ht.layered
  have hcurrent : Draft.current { d.rewrite f with opened } = d.current := by
    unfold Draft.current Draft.openScopes
    rw [widened_scopes hw]
  have hscope : Draft.scope { d.rewrite f with opened } = f d.scope := by
    unfold Draft.scope
    rw [hcurrent]
    exact rewritten_scope hd
  have htop : (Environment.topLevel d.program).Within (.topLevel (d.rewrite f).program) :=
    ScriptMachine.Layered.topLevel_within hd hl hw
  have hwithin : (d.standing bound).Within
      (ScriptMachine.standing (d.rewrite f).program opened bound) := by
    refine ScriptMachine.Layered.standing_within hd hw (fun t ht j => ?_) htop
    rw [Program.codeOf_congr (rewrite_frozen (Nat.ne_of_lt (hd.outer t ht)))]
  have hcarried : Program.Carried d.program (d.rewrite f).program d.current :=
    ⟨fun i hi _ => rewrite_frozen (Nat.ne_of_gt hi), fun _ _ hf => hf⟩
  have hsize := Nat.le_of_eq (rewrite_size (d := d) (f := f)).symm
  refine { tidy := ⟨hl, ?_, fun hb => ?_, ht.inventory.later hsize rfl rfl, ht.builtins⟩, widened := hw,
           size := hsize, frozen := fun i _ hi => rewrite_frozen hi, params := by rw [hscope, hparams],
           selfName := by rw [hscope, hself], closures := fun _ _ hf => hf,
           fresh := fun _ hf => Or.inl hf, modules := fun _ => rfl, builtins := rfl }
  · intro k op hop
    change ((d.rewrite f).program.codeOf (ScriptMachine.standing (d.rewrite f).program opened
      bound).scope)[k]? = some op at hop
    rw [hwithin.scope, hd.standing_scope, rewrite_codeOf hd] at hop
    obtain ⟨hsame, hres⟩ := hops k op hop
    rw [hcurrent]
    refine hcarried.scoped (hwithin.environment (fun _ => htop) fun j hj => ?_) hres
    rw [hd.standing_scope, rewrite_codeOf hd, hsame j hj, Draft.code_eq]
  · subst hb
    refine (ht.functions rfl).later (hd.current_main ▸ hcarried) htop fun g hm hn => ?_
    exact ⟨g, hm, hn, rfl, rfl⟩

/-- A change of the current scope that declares nothing else, by which the code stays resolved. -/
theorem composed_rewrite (ht : Tidy bound d)
    (hdeclares : ∀ k, declaredAt (f d.scope).operations k = declaredAt d.code k)
    (hparams : (f d.scope).params = d.scope.params)
    (hself : (f d.scope).selfName = d.scope.selfName)
    (hops : ∀ k (op : Operation), (f d.scope).operations[k]? = some op →
      op.Resolved d.program (d.program.Scoped d.current) ((d.standing bound).environment d.program k)) :
    Composed bound d (d.rewrite f) := by
  have hd := ht.layered
  have hall : ∀ i j, declaredAt ((d.rewrite f).program.codeOf i) j =
      declaredAt (d.program.codeOf i) j := by
    intro i j
    by_cases hi : i = d.current
    · rw [hi, rewrite_codeOf hd, hdeclares, Draft.code_eq]
    · rw [Program.codeOf_congr (rewrite_frozen hi)]
  have hl := (ScriptMachine.Layered.congr hd (Nat.le_of_eq rewrite_size.symm) fun s _ => hall s.scope).1
  have hgrown := grown_rewrite ht hl (widened_refl _) hparams hself fun k op hop =>
    ⟨fun j _ => hdeclares j, hops k op hop⟩
  refine ⟨hgrown, fun k => ?_, rfl⟩
  rw [Draft.code_eq, Draft.code_eq]
  exact hall _ k

end

end Compile

end ScriptMachine
