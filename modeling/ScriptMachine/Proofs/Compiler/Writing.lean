import ScriptMachine.Proofs.Compiler.Ledger

set_option autoImplicit false

namespace ScriptMachine

namespace Draft

def openScopes (d : Draft) : List Nat := d.opened.map (·.scope)

/-- The number of the scope being written. -/
def current (d : Draft) : Nat := d.openScopes.head?.getD 0

def scope (d : Draft) : Scope := (d.program.scopes[d.current]?).getD default

/-- The code of the scope being written. -/
def code (d : Draft) : List Operation := d.scope.operations

def Sound (d : Draft) (owed unmade : List Nat) : Prop := d.program.Sound d.openScopes owed unmade

/-- The draft with its current scope changed. -/
def rewrite (d : Draft) (f : Scope → Scope) : Draft :=
  { d with program := { d.program with scopes := d.program.scopes.modify d.current f } }

/-- Whether an operation of the current scope may write a register. -/
def Allotted (d : Draft) (r : Register) : Prop := firstScratch ≤ r ∧ r < d.scope.registerCount

/-- A register of the current scope that has been taken after all that its code writes. -/
def Free (d : Draft) (r : Register) : Prop := d.Allotted r ∧ ∀ q ∈ outs d.code, q < r

end Draft

namespace Compile

variable {d₀ d d' : Draft} {held held' : List Register} {owed unmade owed' unmade' : List Nat}

theorem current_mem (h : d.Sound owed unmade) : d.current ∈ d.openScopes := by
  unfold Draft.current
  cases hs : d.openScopes with
  | nil => simpa [hs] using h.bottom
  | cons i rest => simp

theorem scope_eq (h : d.Sound owed unmade) : d.program.scopes[d.current]? = some d.scope := by
  have hlt := h.exist _ (current_mem h)
  unfold Draft.scope
  rw [Array.getElem?_eq_getElem hlt]
  rfl

theorem scope_mem (h : d.Sound owed unmade) : d.scope ∈ d.program.scopes.toList := by
  have hs := scope_eq h
  rw [← Array.getElem?_toList] at hs
  exact List.mem_of_getElem? hs

theorem currentScope_eq (d : Draft) : currentScope d = .ok d.current d := by
  simp only [Draft.current, Draft.openScopes, List.head?_map]
  rfl

theorem Undisturbed.openScopes (u : Undisturbed d d') : d'.openScopes = d.openScopes := u.opened

theorem Undisturbed.scope (u : Undisturbed d d') : d'.scope = d.scope := by
  unfold Draft.scope Draft.current
  rw [u.openScopes, u.program]

theorem Undisturbed.free (u : Undisturbed d d') {r : Register} (h : d.Free r) : d'.Free r := by
  unfold Draft.Free Draft.Allotted Draft.code
  rw [u.scope]
  exact h

theorem Undisturbed.sound (u : Undisturbed d d') (h : d.Sound owed unmade) :
    d'.Sound owed unmade := by
  unfold Draft.Sound
  rw [u.openScopes, u.program]
  exact h

structure Reached (d₀ d : Draft) (held : List Register) (owed unmade : List Nat) : Prop where
  sound : d.Sound owed unmade
  identity : d.program.id = d₀.program.id
  opened : d.openScopes = d₀.openScopes
  kinds : ∀ kind i, d₀.program.HasKind kind i → d.program.HasKind kind i
  frozen : ∀ i < d₀.program.scopes.size, i ≠ d₀.current →
    d.program.scopes[i]? = d₀.program.scopes[i]?
  written : ∃ ops, d.code = d₀.code ++ ops ∧ Movable ops ∧ ∀ r ∈ held, Known (outs ops) r

namespace Reached

theorem refl (h : d.Sound owed unmade) : Reached d d [] owed unmade :=
  ⟨h, rfl, rfl, fun _ _ => id, fun _ _ _ => rfl, [], by simp, .nil, by simp⟩

theorem current (h : Reached d₀ d held owed unmade) : d.current = d₀.current := by
  unfold Draft.current
  rw [h.opened]

theorem weaken (h : Reached d₀ d held owed unmade) (hs : held' ⊆ held) :
    Reached d₀ d held' owed unmade := by
  obtain ⟨ops, hcode, hd, hheld⟩ := h.written
  exact { h with written := ⟨ops, hcode, hd, fun r hr => hheld r (hs hr)⟩ }

theorem hold (h : Reached d₀ d held owed unmade) {r : Register} (hr : Known held r) :
    Reached d₀ d (r :: held) owed unmade := by
  obtain ⟨ops, hcode, hd, hheld⟩ := h.written
  refine { h with written := ⟨ops, hcode, hd, ?_⟩ }
  intro q hq
  rcases List.mem_cons.1 hq with rfl | hq
  · exact hr.elim Or.inl (hheld q)
  · exact hheld q hq

theorem silent (h : Reached d₀ d held owed unmade) (u : Undisturbed d d') :
    Reached d₀ d' held owed unmade where
  sound := u.sound h.sound
  identity := (congrArg Program.id u.program).trans h.identity
  opened := u.openScopes.trans h.opened
  kinds := by
    rw [u.program]
    exact h.kinds
  frozen := by
    rw [u.program]
    exact h.frozen
  written := by
    unfold Draft.code
    rw [u.scope]
    exact h.written

theorem exists_scope (h : Reached d₀ d held owed unmade) {i : Nat}
    (hi : i < d₀.program.scopes.size) : i < d.program.scopes.size := by
  refine (h.kinds (d₀.program.scopes[i]).kind i ?_).lt
  simp [Program.HasKind, Array.getElem?_eq_getElem hi]

theorem trans {d₁ d₂ : Draft} (h : Reached d₀ d₁ held owed unmade)
    (h' : Reached d₁ d₂ held' owed' unmade') : Reached d₀ d₂ (held' ++ held) owed' unmade' where
  sound := h'.sound
  identity := h'.identity.trans h.identity
  opened := h'.opened.trans h.opened
  kinds := fun kind i hi => h'.kinds kind i (h.kinds kind i hi)
  frozen := by
    intro i hi hc
    rw [h'.frozen i (h.exists_scope hi) (h.current ▸ hc), h.frozen i hi hc]
  written := by
    obtain ⟨ops, hcode, hd, hheld⟩ := h.written
    obtain ⟨ops', hcode', hd', hheld'⟩ := h'.written
    refine ⟨ops ++ ops', by rw [hcode', hcode, List.append_assoc], hd.join hd', ?_⟩
    intro r hr
    rw [outs_append]
    rcases List.mem_append.1 hr with hr | hr
    · exact known_mono (List.subset_append_right _ _) (hheld' r hr)
    · exact known_mono (List.subset_append_left _ _) (hheld r hr)

end Reached

theorem rewrite_scope (h : d.Sound owed unmade) (f : Scope → Scope) :
    (d.rewrite f).scope = f d.scope := by
  change ((d.program.scopes.modify d.current f)[d.current]?).getD default = _
  rw [Array.getElem?_modify, if_pos rfl, scope_eq h]
  rfl

theorem rewrite_rewrite (d : Draft) (f f' : Scope → Scope) :
    (d.rewrite f).rewrite f' = d.rewrite (f' ∘ f) := by
  unfold Draft.rewrite
  simp only [Draft.mk.injEq, Program.mk.injEq, true_and, and_true]
  change (d.program.scopes.modify d.current f).modify d.current f' = _
  refine Array.ext_getElem? fun i => ?_
  simp only [Array.getElem?_modify]
  split
  · rw [Option.map_map]
  · rfl

theorem Reached.rewrite (h : Reached d₀ d held owed unmade) {f : Scope → Scope}
    (hkind : (f d.scope).kind = d.scope.kind) (hsound : (d.rewrite f).Sound owed' unmade')
    (hwritten : ∃ ops, (f d.scope).operations = d₀.code ++ ops ∧ Movable ops ∧
      ∀ r ∈ held', Known (outs ops) r) :
    Reached d₀ (d.rewrite f) held' owed' unmade' where
  sound := hsound
  identity := h.identity
  opened := h.opened
  kinds := fun kind i hi =>
    (Program.kind_modify (scope_eq h.sound) hkind kind i).2 (h.kinds kind i hi)
  frozen := by
    intro i hi hc
    change (d.program.scopes.modify d.current f)[i]? = _
    rw [Array.getElem?_modify, if_neg (by rw [h.current]; exact Ne.symm hc)]
    exact h.frozen i hi hc
  written := by
    unfold Draft.code
    rw [rewrite_scope h.sound]
    exact hwritten

/-- A change that keeps the code. -/
theorem Reached.describe (h : Reached d₀ d held owed unmade) {f : Scope → Scope}
    (hkind : (f d.scope).kind = d.scope.kind) (hcode : (f d.scope).operations = d.scope.operations)
    (hcount : d.scope.registerCount ≤ (f d.scope).registerCount) :
    Reached d₀ (d.rewrite f) held owed unmade := by
  have hblocks : (f d.scope).blocks = d.scope.blocks := by simp only [Scope.blocks, hcode]
  have hmade : (f d.scope).made = d.scope.made := by simp only [Scope.made, hcode]
  refine h.rewrite hkind ?_ (by rw [hcode]; exact h.written)
  refine Program.Sound.replace h.sound (scope_eq h.sound) hkind ?_ ?_ ?_ ?_ ?_ ?_ h.sound.owedBlocks
    h.sound.unmadeClosures (by simp [hblocks]) (by simp [hmade])
  · rw [hcode]
    exact h.sound.defined _ (scope_mem h.sound)
  · rw [hcode]
    exact h.sound.laid _ (scope_mem h.sound)
  · intro op hop r hr
    rw [hcode] at hop
    obtain ⟨hlow, hhigh⟩ := h.sound.writes _ (scope_mem h.sound) op hop r hr
    exact ⟨hlow, Nat.lt_of_lt_of_le hhigh hcount⟩
  · exact Nat.le_trans (h.sound.scratch _ (scope_mem h.sound)) hcount
  · exact fun hn => absurd (current_mem h.sound) hn
  · rw [hcode]
    exact fun op hop => h.sound.admits op (Program.mem_operations.2 ⟨_, scope_mem h.sound, hop⟩)

theorem alloc_post (h : Reached d₀ d held owed unmade) :
    Post alloc d fun r d' => Reached d₀ d' held owed unmade ∧ d'.Free r := by
  have hrun : alloc d = .ok d.scope.registerCount
      (d.rewrite fun s => { s with registerCount := d.scope.registerCount + 1 }) :=
    run_bind (currentScope_eq d)
  refine Ensures.intro (fun r d' hr => ?_) fun _ _ _ => trivial
  rw [hrun] at hr
  cases hr
  refine ⟨h.describe rfl rfl (Nat.le_succ _), ⟨h.sound.scratch _ (scope_mem h.sound), ?_⟩, ?_⟩
  · rw [rewrite_scope h.sound]
    exact Nat.lt_succ_self _
  · rw [Draft.code, rewrite_scope h.sound]
    intro q hq
    obtain ⟨op, hop, hout⟩ := List.mem_filterMap.1 hq
    exact (h.sound.writes _ (scope_mem h.sound) op hop q hout).2

/-- What an operation needs that is written after some others: registers that are held, a register to
write to, and blocks and closures that are taken from those that wait. A call that compares needs
something before it. -/
structure Fits (d : Draft) (held : List Register) (owed unmade owed' unmade' : List Nat)
    (op : Operation) : Prop where
  reads : ∀ r ∈ op.reads, Known held r
  out : ∀ r, op.out? = some r → d.Allotted r
  lays : Lays d.code op
  follows : op.compares = true → ∃ r ∈ held, firstScratch ≤ r
  entered : ∀ t ∈ op.entered, t.isSome
  paired : op.Paired
  blocks : ∀ i, owed.count i = op.blocks.count i + owed'.count i
  made : ∀ j, unmade.count j = op.made.count j + unmade'.count j

def append (op : Operation) (site : Token) (s : Scope) : Scope :=
  { s with code := s.code.push ⟨op, place site⟩ }

theorem append_operations (op : Operation) (site : Token) (s : Scope) :
    (append op site s).operations = s.operations ++ [op] := by
  simp [append, Scope.operations]

theorem emit_run (op : Operation) (site : Token) (d : Draft) :
    emit op site d = .ok ⟨⟩ (d.rewrite (append op site)) := run_bind (currentScope_eq d)

theorem mem_of_count_eq {xs ys zs : List Nat} (h : ∀ i, xs.count i = ys.count i + zs.count i) :
    ys ⊆ xs ∧ zs ⊆ xs := by
  refine ⟨fun i hi => List.count_pos_iff.1 ?_, fun i hi => List.count_pos_iff.1 ?_⟩
  · have := List.count_pos_iff.2 hi
    have := h i
    omega
  · have := List.count_pos_iff.2 hi
    have := h i
    omega

theorem Reached.append {op : Operation} {site : Token} (h : Reached d₀ d held owed unmade)
    (hf : Fits d held owed unmade owed' unmade' op) :
    Reached d₀ (d.rewrite (append op site)) (op.out?.toList ++ held) owed' unmade' := by
  obtain ⟨ops, hcode, hd, hheld⟩ := h.written
  have hreads : ∀ r ∈ op.reads, Known (outs ops) r := fun r hr =>
    (hf.reads r hr).elim Or.inl (hheld r)
  have howed := mem_of_count_eq hf.blocks
  have hunmade := mem_of_count_eq hf.made
  have hadmits := h.sound.admits_owed hf.entered (fun i hi => howed.1 hi)
    (fun j hj => hunmade.1 hj) hf.paired
  have hmem := scope_mem h.sound
  have hscratch : firstScratch ≤ d.scope.registerCount := h.sound.scratch _ hmem
  have hfollows : op.compares = true → ops ≠ [] := by
    rintro hop rfl
    obtain ⟨r, hr, hlow⟩ := hf.follows hop
    rcases hheld r hr with hlt | hmem
    · exact absurd hlow (Nat.not_le.2 hlt)
    · cases hmem
  refine h.rewrite rfl ?_ ⟨ops ++ [op], ?_, hd.snoc hreads hfollows, ?_⟩
  · refine Program.Sound.replace h.sound (scope_eq h.sound) rfl ?_ ?_ ?_ hscratch ?_ ?_
      (fun j hj => h.sound.owedBlocks j (howed.2 hj))
      (fun j hj => h.sound.unmadeClosures j (hunmade.2 hj)) ?_ ?_
    · rw [append_operations]
      refine defined_snoc (h.sound.defined _ hmem) fun r hr => known_mono ?_ (hreads r hr)
      change outs ops ⊆ outs d.code
      rw [hcode, outs_append]
      exact List.subset_append_right _ _
    · rw [append_operations]
      exact (h.sound.laid _ hmem).snoc hf.lays
    · intro q hq r hr
      rw [append_operations, List.mem_append, List.mem_singleton] at hq
      rcases hq with hq | rfl
      · exact h.sound.writes _ hmem q hq r hr
      · exact hf.out r hr
    · exact fun hn => absurd (current_mem h.sound) hn
    · intro q hq
      rw [append_operations, List.mem_append, List.mem_singleton] at hq
      rcases hq with hq | rfl
      · exact h.sound.admits q (Program.mem_operations.2 ⟨_, hmem, hq⟩)
      · exact hadmits
    · intro j
      have hb := hf.blocks j
      simp only [Scope.blocks, append_operations, List.flatMap_append, List.count_append,
        List.flatMap_singleton]
      omega
    · intro j
      have hm := hf.made j
      simp only [Scope.made, append_operations, List.flatMap_append, List.count_append,
        List.flatMap_singleton]
      omega
  · rw [append_operations, ← List.append_assoc]
    exact congrArg (· ++ [op]) hcode
  · intro r hr
    rw [outs_append]
    rcases List.mem_append.1 hr with hr | hr
    · refine Or.inr (List.mem_append_right _ ?_)
      simpa [outs_cons] using hr
    · exact known_mono (List.subset_append_left _ _) (hheld r hr)

theorem emit_post {op : Operation} {site : Token} (h : Reached d₀ d held owed unmade)
    (hf : Fits d held owed unmade owed' unmade' op) :
    Post (emit op site) d fun _ d' => Reached d₀ d' (op.out?.toList ++ held) owed' unmade' ∧
      d'.code = d.code ++ [op] ∧ ∀ r, d.Allotted r → d'.Allotted r := by
  refine Ensures.intro (fun _ d' hr => ?_) fun _ _ _ => trivial
  rw [emit_run] at hr
  cases hr
  unfold Draft.code Draft.Allotted
  rw [rewrite_scope h.sound, append_operations]
  exact ⟨h.append hf, rfl, fun _ => id⟩

theorem Fits.taking {op : Operation} (hop : op.compares = false) (hreads : ∀ r ∈ op.reads, Known held r)
    (hout : ∀ r, op.out? = some r → d.Free r) (hentered : ∀ t ∈ op.entered, t.isSome)
    (hpaired : op.Paired) (hblocks : owed.Perm (op.blocks ++ owed'))
    (hmade : unmade.Perm (op.made ++ unmade')) : Fits d held owed unmade owed' unmade' op where
  reads := hreads
  out := fun r hr => (hout r hr).1
  lays := .fresh hop fun r hr => (hout r hr).2
  follows := fun h => absurd (hop.symm.trans h) Bool.false_ne_true
  entered := hentered
  paired := hpaired
  blocks := fun i => by rw [hblocks.count_eq, List.count_append]
  made := fun j => by rw [hmade.count_eq, List.count_append]

theorem compares_of_entered {op : Operation} (h : op.entered = []) : op.compares = false := by
  cases op with
  | callCompared => cases h
  | _ => rfl

theorem Fits.plain {op : Operation} (hreads : ∀ r ∈ op.reads, Known held r)
    (hout : ∀ r, op.out? = some r → d.Free r) (hentered : op.entered = [])
    (hspare : op.spare = []) (hmade : op.made = []) (hpaired : op.Paired) :
    Fits d held owed unmade owed unmade op := by
  refine Fits.taking (compares_of_entered hentered) hreads hout (by simp [hentered]) hpaired ?_ ?_
  · simp [Operation.blocks, hentered, hspare]
  · simp [hmade]

theorem effect_bind {op : Operation} {site : Token} {α : Type} {rest : Compile α}
    {Q : α → Draft → Prop} (h : Reached d₀ d held owed unmade)
    (hreads : ∀ r ∈ op.reads, Known held r) (hout : op.out? = none)
    (hplain : op.entered = [] ∧ op.spare = [] ∧ op.made = [] ∧ op.Paired)
    (hrest : ∀ d', Reached d₀ d' held owed unmade → Post rest d' Q) :
    Post (do emit op site; rest) d Q := by
  obtain ⟨he, hs, hm, hp⟩ := hplain
  have hfits : Fits d held owed unmade owed unmade op :=
    Fits.plain hreads (by simp [hout]) he hs hm hp
  refine Ensures.bind (emit_post h hfits) fun _ d₁ h₁ => hrest d₁ ?_
  simpa [hout] using h₁.1

theorem output_bind {op : Register → Operation} {site : Token} {α : Type}
    {f : Register → Compile α} {Q : α → Draft → Prop} (h : Reached d₀ d held owed unmade)
    (hop : ∀ out, (op out).compares = false) (hout : ∀ out, (op out).out? = some out)
    (hreads : ∀ out, ∀ r ∈ (op out).reads, Known held r)
    (hentered : ∀ out, ∀ t ∈ (op out).entered, t.isSome) (hpaired : ∀ out, (op out).Paired)
    (hblocks : ∀ out, owed.Perm ((op out).blocks ++ owed'))
    (hmade : ∀ out, unmade.Perm ((op out).made ++ unmade'))
    (hf : ∀ out d', Reached d₀ d' (out :: held) owed' unmade' → Post (f out) d' Q) :
    Post (do let out ← alloc; emit (op out) site; f out) d Q := by
  refine Ensures.bind (alloc_post h) fun out d₁ h₁ => ?_
  obtain ⟨h₁, hfree⟩ := h₁
  have hfits : Fits d₁ held owed unmade owed' unmade' (op out) := by
    refine Fits.taking (hop out) (hreads out) (fun r hr => ?_) (hentered out) (hpaired out) (hblocks out)
      (hmade out)
    rw [hout out] at hr
    cases hr
    exact hfree
  refine Ensures.bind (emit_post h₁ hfits) fun _ d₂ h₂ => hf out d₂ ?_
  simpa [hout out] using h₂.1

theorem output_post {op : Register → Operation} {site : Token} {α : Type}
    {f : Register → Compile α} {Q : α → Draft → Prop} (h : Reached d₀ d held owed unmade)
    (hreads : ∀ out, ∀ r ∈ (op out).reads, Known held r) (hout : ∀ out, (op out).out? = some out)
    (hplain : ∀ out, (op out).entered = [] ∧ (op out).spare = [] ∧ (op out).made = [] ∧
      (op out).Paired)
    (hf : ∀ out d', Reached d₀ d' (out :: held) owed unmade → Post (f out) d' Q) :
    Post (do let out ← alloc; emit (op out) site; f out) d Q := by
  refine output_bind h (fun out => compares_of_entered (hplain out).1) hout hreads ?_ (fun out => (hplain out).2.2.2) ?_ ?_ hf
  · simp [hplain]
  · simp [Operation.blocks, hplain]
  · simp [hplain]

/-- A new scope is open, with nothing in it. -/
structure Opened (d d' : Draft) (kind : ScopeKind) (i : Nat) : Prop where
  opened : d'.openScopes = i :: d.openScopes
  number : i = d.program.scopes.size
  program : ∃ t, d'.program = { d.program with scopes := d.program.scopes.push t } ∧ t.kind = kind

theorem openScope_post (h : d.Sound owed unmade) {kind : ScopeKind} (hkind : kind ≠ .main)
    (name : Text) (isFunction isClosure : Bool) (site : Token) :
    Post (openScope kind name isFunction isClosure site) d fun i d' =>
      Opened d d' kind i ∧ d'.Sound owed unmade ∧ d'.current = i := by
  let t : Scope := ⟨name, kind, [], #[], firstScratch, place site, [], none⟩
  refine Ensures.intro (fun i d' hr => ?_) fun _ _ _ => trivial
  cases hr
  refine ⟨⟨rfl, rfl, t, rfl, rfl⟩, ?_, rfl⟩
  have hempty : t.operations = [] := rfl
  refine Program.Sound.push (t := t) h (Or.inr rfl) hkind ?_ ?_ ?_ (Nat.le_refl _) (by simp) ?_
    (fun j hj => Or.inl (h.owedBlocks j hj)) h.unmadeClosures ?_ ?_ ?_
  · rw [hempty]
    trivial
  · rw [hempty]
    exact .nil
  · intro op hop
    rw [hempty] at hop
    cases hop
  · intro op hop
    rw [hempty] at hop
    cases hop
  · simp [Scope.blocks, hempty]
  · intro _
    have hnot : owed.count d.program.scopes.size = 0 :=
      List.count_eq_zero.2 fun hm => Nat.lt_irrefl _ (h.owedBlocks _ hm).lt
    simp [hnot]
  · simp [Scope.made, hempty]

/-- A finished scope is closed; a block is owed from then on. -/
theorem Sound.close {p : Program} {i : Nat} {opened : List Nat}
    (h : p.Sound (i :: opened) owed unmade) (hopened : opened ≠ []) {s : Scope}
    (hs : p.scopes[i]? = some s) (hret : ∃ r, s.last? = some (.ret r)) :
    p.Sound opened (if s.kind = .block then i :: owed else owed) unmade := by
  have hkind : p.HasKind s.kind i := by simp [Program.HasKind, hs]
  refine { h with distinct := (List.nodup_cons.1 h.distinct).2, bottom := ?_, exist := ?_, ends := ?_,
                  owedBlocks := ?_, entered := ?_ }
  · rw [← h.bottom]
    obtain ⟨j, rest, rfl⟩ := List.exists_cons_of_ne_nil hopened
    simp
  · exact fun j hj => h.exist j (List.mem_cons_of_mem _ hj)
  · intro j t ht hj
    by_cases he : j = i
    · subst j
      rw [hs] at ht
      cases ht
      exact hret
    · exact h.ends j t ht (by simp [he, hj])
  · intro j hj
    split at hj
    · rcases List.mem_cons.1 hj with rfl | hj
      · simpa [*] using hkind
      · exact h.owedBlocks j hj
    · exact h.owedBlocks j hj
  · intro j hj
    have hold := h.entered j hj
    simp only [List.count_append, List.count_cons] at hold ⊢
    split
    · simp only [List.count_cons]
      omega
    · have hne : j ≠ i := by
        rintro rfl
        simp only [Program.HasKind, hs, Option.map_some, Option.some.injEq] at hj
        exact absurd hj ‹_›
      simpa [beq_iff_eq, Ne.symm hne] using hold

theorem Opened.current {kind : ScopeKind} {i : Nat} (o : Opened d d' kind i) : d'.current = i := by
  simp [Draft.current, o.opened]

theorem Opened.kinds {kind : ScopeKind} {i : Nat} (o : Opened d d' kind i) (k : ScopeKind) (j : Nat)
    (h : d.program.HasKind k j) : d'.program.HasKind k j := by
  obtain ⟨t, hp, -⟩ := o.program
  rw [hp]
  exact Program.kind_push.2 (Or.inl h)

theorem Opened.hasKind {kind : ScopeKind} {i : Nat} (o : Opened d d' kind i) :
    d'.program.HasKind kind i := by
  obtain ⟨t, hp, hk⟩ := o.program
  rw [hp]
  exact Program.kind_push.2 (Or.inr ⟨o.number, hk⟩)

theorem Opened.frozen {kind : ScopeKind} {i : Nat} (o : Opened d d' kind i) {j : Nat}
    (hj : j < d.program.scopes.size) : d'.program.scopes[j]? = d.program.scopes[j]? := by
  obtain ⟨t, hp, -⟩ := o.program
  rw [hp, Array.getElem?_push, if_neg (Nat.ne_of_lt hj)]

/-- From the outside, all that a scope which is opened, written and closed leaves behind is the scope
itself. -/
theorem closeScope_post {d₁ d₂ : Draft} {kind : ScopeKind} {i : Nat} (hd : d.Sound owed' unmade')
    (o : Opened d d₁ kind i) (h : Reached d₁ d₂ held owed unmade)
    (hret : ∃ r, d₂.code.getLast? = some (.ret r)) :
    Post closeScope d₂ fun _ d₃ =>
      Reached d d₃ [] (if kind = .block then i :: owed else owed) unmade ∧
        d₃.program.HasKind kind i := by
  refine Ensures.intro (fun _ d₃ hr => ?_) fun _ _ _ => trivial
  cases hr
  have hcurrent : d₂.current = i := h.current.trans o.current
  have hopened : d₂.openScopes = i :: d.openScopes := h.opened.trans o.opened
  have hkind : d₂.program.HasKind kind i := h.kinds kind i o.hasKind
  have hscope := scope_eq h.sound
  rw [hcurrent] at hscope
  have hk : d₂.scope.kind = kind := by simpa [Program.HasKind, hscope] using hkind
  have hne : d.openScopes ≠ [] := List.ne_nil_of_mem (current_mem hd)
  have hold : ∀ j < d.program.scopes.size, d₂.program.scopes[j]? = d.program.scopes[j]? := by
    intro j hj
    rw [h.frozen j ?_ ?_, o.frozen hj]
    · obtain ⟨t, hp, -⟩ := o.program
      rw [hp, Array.size_push]
      omega
    · rw [o.current, o.number]
      exact Nat.ne_of_lt hj
  -- the scopes that stay open, and the current one among them, are as they were before
  have hscopes : ({ d₂ with opened := d₂.opened.tail } : Draft).openScopes = d.openScopes := by
    have htail := congrArg List.tail hopened
    simpa [Draft.openScopes] using htail
  refine ⟨⟨?_, ?_, hscopes, ?_, fun j hj _ => hold j hj, [], ?_, .nil, by simp⟩, hkind⟩
  · have hsound := h.sound
    unfold Draft.Sound at hsound
    rw [hopened] at hsound
    have hclosed := Sound.close hsound hne hscope hret
    rw [hk] at hclosed
    unfold Draft.Sound
    rw [hscopes]
    exact hclosed
  · obtain ⟨t, hp, -⟩ := o.program
    have hsame : d₁.program.id = d.program.id := by rw [hp]
    exact h.identity.trans hsame
  · exact fun k j hj => h.kinds k j (o.kinds k j hj)
  · have hcode := hold d.current (hd.exist _ (current_mem hd))
    unfold Draft.code Draft.scope Draft.current
    rw [hscopes, List.append_nil]
    exact congrArg (fun s => (Option.getD s default).operations) hcode

theorem within_post {α : Type} {name : Text} {body : Compile α} {Q : α → Draft → Prop}
    (hQ : ∀ a d₁ d₂, Still d₁ d₂ → Q a d₁ → Q a d₂)
    (hbody : ∀ d', Still d d' → Post body d' Q) : Post (within name body) d Q := by
  have hset : ∀ (name : Text) d₁, Still d₁ { d₁ with functionName := name } :=
    fun name d₁ => Still.rename d₁ name
  refine Ensures.get_bind (Ensures.change_bind ?_)
  refine Ensures.bind (hbody _ (hset name d)) fun a d₁ h₁ => ?_
  exact Ensures.change_bind (Ensures.pure (hQ a d₁ _ (hset _ d₁) h₁))

end Compile

end ScriptMachine
