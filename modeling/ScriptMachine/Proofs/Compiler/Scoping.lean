import ScriptMachine.Proofs.Compiler.Composition
import ScriptMachine.Proofs.Compiler.Branches

set_option autoImplicit false

namespace ScriptMachine

/-- An operation that has to do with names only through the blocks that it enters. -/
structure Operation.Bare (op : Operation) : Prop where
  declares : op.declares? = none
  uses : op.uses? = none
  made : op.made = []
  literal : op.literal? = none

/-- An operation that has to do with no names and no scopes. -/
structure Operation.Plain (op : Operation) : Prop where
  declares : op.declares? = none
  uses : op.uses? = none
  entries : op.entries = []
  made : op.made = []
  literal : ∀ v ∈ op.literal?, v.Inert

theorem Operation.Bare.plain {op : Operation} (h : op.Bare) (he : op.entries = []) : op.Plain :=
  ⟨h.declares, h.uses, he, h.made, by simp [h.literal]⟩

theorem declaredAt_append {code : List Operation} {op : Operation} (k : Nat) :
    declaredAt (code ++ [op]) k = if k = code.length then op.declares? else declaredAt code k := by
  unfold declaredAt
  split
  · subst k
    simp
  · rename_i hk
    rcases Nat.lt_or_gt_of_ne hk with hlt | hgt
    · rw [List.getElem?_append_left hlt]
    · rw [List.getElem?_eq_none (Nat.le_of_lt hgt), List.getElem?_eq_none (by simp; omega)]

namespace Compile

variable {bound : List (List Text)} {d₀ d d₁ d₂ d' : Draft} {α β : Type} {x : Compile α}
  {f : α → Compile β} {Q : β → Draft → Prop} {op : Operation} {names : List Text}

theorem composes_of (h : ∀ bound d, Tidy bound d → Post x d fun _ d' => Composed bound d d') :
    Follows Composes x := fun d =>
  Ensures.intro (fun _ _ hx bound hd => (h bound d hd).of_ok hx) fun _ _ _ => trivial

theorem grows_of (h : ∀ bound d, Tidy bound d → Post x d fun _ d' => Grown bound d d') :
    Follows Grows x := fun d =>
  Ensures.intro (fun _ _ hx bound hd => (h bound d hd).of_ok hx) fun _ _ _ => trivial

theorem Composed.after (c : Composed bound d₀ d) (hx : Follows Composes x) :
    Post x d fun _ d' => Composed bound d₀ d' :=
  (hx d).imp fun _ _ h => c.trans (h bound c.tidy)

theorem Composed.next (c : Composed bound d₀ d) (hx : Follows Composes x)
    (hf : ∀ a d', Composed bound d₀ d' → Composed bound d d' → Post (f a) d' Q) :
    Post (x >>= f) d Q :=
  Ensures.bind (hx d) fun a d' h => hf a d' (c.trans (h bound c.tidy)) (h bound c.tidy)

theorem code_append (ht : Tidy bound d) {site : Token}
    (hr : op.Resolved d.program (d.program.Scoped d.current) (d.whole bound)) :
    ∀ k (o : Operation), (append op site d.scope).operations[k]? = some o →
      (∀ j < k, declaredAt (append op site d.scope).operations j = declaredAt d.code j) ∧
      o.Resolved d.program (d.program.Scoped d.current)
        ((d.standing bound).environment d.program k) := by
  intro k o ho
  rw [append_operations] at ho ⊢
  change (d.code ++ [op])[k]? = some o at ho
  have hle : k ≤ d.code.length := by
    have := (List.getElem?_eq_some_iff.1 ho).1
    simp at this
    omega
  refine ⟨fun j hj => (declaredAt_append j).trans (if_neg (Nat.ne_of_lt (Nat.lt_of_lt_of_le hj hle))), ?_⟩
  rcases Nat.lt_or_eq_of_le hle with hlt | rfl
  · rw [List.getElem?_append_left hlt] at ho
    exact ht.code k o (by rwa [ht.layered.standing_scope, ← Draft.code_eq])
  · rw [List.getElem?_concat_length] at ho
    cases ho
    unfold Draft.whole Place.whole at hr
    rwa [ht.layered.standing_scope, ← Draft.code_eq] at hr

theorem emit_composed (ht : Tidy bound d) (site : Token) (hd : op.declares? = none)
    (hr : op.Resolved d.program (d.program.Scoped d.current) (d.whole bound)) :
    Post (emit op site) d fun _ d' => Composed bound d d' := by
  refine Ensures.intro (fun _ d' h => ?_) fun _ _ _ => trivial
  rw [emit_run] at h
  cases h
  refine composed_rewrite ht (fun k => ?_) rfl rfl fun k o ho => (code_append ht hr k o ho).2
  rw [append_operations]
  refine (declaredAt_append k).trans ?_
  split
  · subst k
    rw [hd]
    exact (Locals.declaredAt_of_le (Nat.le_refl _)).symm
  · rfl

theorem emit_follows (h : op.Plain) (site : Token) : Follows Composes (emit op site) :=
  composes_of fun _ _ ht => emit_composed ht site h.declares (.plain h.uses h.entries h.made h.literal)

theorem describe_composed (ht : Tidy bound d) {g : Scope → Scope}
    (hcode : (g d.scope).operations = d.scope.operations)
    (hparams : (g d.scope).params = d.scope.params)
    (hself : (g d.scope).selfName = d.scope.selfName) : Composed bound d (d.rewrite g) := by
  refine composed_rewrite ht (fun k => by rw [hcode]; rfl) hparams hself fun k o ho => ?_
  rw [hcode] at ho
  exact ht.code k o (by rw [ht.layered.standing_scope, ← Draft.code_eq]; exact ho)

theorem alloc_follows : Follows Composes alloc := by
  refine composes_of fun bound d ht => Ensures.intro (fun r d' h => ?_) fun _ _ _ => trivial
  have hrun : alloc d = .ok d.scope.registerCount
      (d.rewrite fun s => { s with registerCount := d.scope.registerCount + 1 }) :=
    run_bind (currentScope_eq d)
  rw [hrun] at h
  cases h
  exact describe_composed ht rfl rfl rfl

theorem output_follows {op : Register → Operation} (h : ∀ out, (op out).Plain) (site : Token)
    {rest : Register → Compile β} (hrest : ∀ out, Follows Composes (rest out)) :
    Follows Composes (do let out ← alloc; emit (op out) site; rest out) :=
  alloc_follows.bind fun out => (emit_follows (h out) site).bind fun _ => hrest out

theorem lookup_composed (ht : Tidy bound d) (name : Text) :
    Post (lookup name) d fun found d' =>
      Composed bound d d' ∧ (found.isSome → (d'.whole bound name).isSome) := by
  refine Ensures.bind (R := fun e d' => e = d ∧ d' = d) (Ensures.get ⟨rfl, rfl⟩) ?_
  rintro e d' ⟨he, hd'⟩
  subst e d'
  dsimp only
  split
  · rename_i info isLocal opened hr
    obtain ⟨hl, hw, m, hm, -⟩ :=
      ht.layered.resolve (fun n hn => (ht.layered.globals n).1 hn) hr
    refine Ensures.bind (R := fun _ d' => Composed bound d d' ∧ (d'.whole bound name).isSome)
      (Ensures.set ⟨?_, ?_⟩) fun _ d₁ h₁ => Ensures.pure ⟨h₁.1, fun _ => h₁.2⟩
    · have hl : Draft.Layered { d with opened } bound := hl
      exact composed_of_kept ht hl hw (Nat.le_refl _) (fun _ _ => rfl) (fun _ _ => id)
        (fun _ => Or.inl) rfl ht.inventory rfl
    · exact Option.isSome_iff_exists.2 ⟨m, hm⟩
  · exact Ensures.pure ⟨Composed.refl ht, nofun⟩

theorem declareAs_run {s : OpenScope} {opened : List OpenScope} (name : Text) (info : NameInfo)
    (hd : d.opened = s :: opened) :
    declareAs name info d = .ok () { d with opened := s.declare name info :: opened } := by
  obtain ⟨ahead, previous, final, builtins, program, opened', functionName⟩ := d
  cases hd
  rfl

/-- An operation declares a variable, and the compiler takes note of it. -/
theorem record_grows {name : Text} (hd : op.declares? = some name)
    (hu : op.uses? = none) (he : op.entries = []) (hm : op.made = [])
    (hliteral : op.literal? = none) (site : Token) (info : NameInfo) {rest : Compile β}
    (hrest : Follows Grows rest) :
    Follows Grows (do emit op site; declareAs name info; rest) := by
  have hrecord : Follows Grows (do emit op site; declareAs name info) := by
    refine grows_of fun bound d ht => ?_
    refine Ensures.run (emit_run op site d) ?_
    obtain ⟨s, opened, hopened, hcurrent⟩ := ht.layered.opened_eq
    have hlayered := ht.layered
    unfold Draft.Layered at hlayered
    rw [hopened] at hlayered
    have hcode : (d.rewrite (append op site)).program.codeOf s.scope = d.code ++ [op] := by
      rw [← hcurrent, rewrite_codeOf ht.layered, append_operations]
      rfl
    have hl : Layered (d.rewrite (append op site)).program (s.declare name info :: opened) bound := by
      refine hlayered.record info (Nat.le_of_eq rewrite_size.symm)
        (fun i hi => rewrite_frozen (hcurrent ▸ hi)) fun n => ?_
      rw [hcode, ← hcurrent, ← Draft.code_eq]
      constructor
      · rintro ⟨j, hj⟩
        rw [declaredAt_append] at hj
        split at hj
        · rw [hd] at hj
          exact Or.inr (Option.some.inj hj).symm
        · exact Or.inl ⟨j, hj⟩
      · rintro (⟨j, hj⟩ | rfl)
        · refine ⟨j, (declaredAt_append j).trans ((if_neg fun hlen => ?_).trans hj)⟩
          rw [hlen, Locals.declaredAt_of_le (Nat.le_refl _)] at hj
          cases hj
        · exact ⟨d.code.length, (declaredAt_append _).trans ((if_pos rfl).trans hd)⟩
    have hw : List.Forall₂ OpenScope.Widened d.opened (s.declare name info :: opened) := by
      rw [hopened]
      exact .cons (Layered.widened_declare s name info) (widened_refl _)
    have hgrown := grown_rewrite (f := append op site) ht hl hw rfl rfl
      (code_append ht (.plain hu he hm (by simp [hliteral])))
    have hrun := declareAs_run (d := d.rewrite (append op site)) name info hopened
    unfold Ensures
    rw [hrun]
    exact hgrown
  have hbind := hrecord.bind fun _ => hrest
  rwa [bind_assoc] at hbind

end Compile

end ScriptMachine
