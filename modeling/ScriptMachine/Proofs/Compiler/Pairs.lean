import ScriptMachine.Proofs.Compiler.Bodies

set_option autoImplicit false

namespace ScriptMachine

def Operation.Guards (op : Operation) (out : Register) (j : Nat) : Prop :=
  (∃ truth condition, op = .branch truth condition (some j) out) ∨
    ∃ equal left right, op = .callCompared equal left right (some j) out

/-- All that the scope returns is lists of two values, and none where a trailing condition fails. -/
inductive Pairs (scopes : Nat → Option Scope) : Nat → Prop where
  | made {i : Nat} {t : Scope} {front : List Operation} {key entry out : Register}
    (ht : scopes i = some t) (hcode : t.operations = front ++ [.makeList [key, entry] out, .ret out])
    (hfront : ∀ r, .ret r ∉ front) : Pairs scopes i
  | guarded {i j : Nat} {t : Scope} {front : List Operation} {op : Operation} {out : Register}
    (ht : scopes i = some t) (hcode : t.operations = front ++ [op, .ret out])
    (hfront : ∀ r, .ret r ∉ front) (hop : op.Guards out j) (hj : Pairs scopes j) : Pairs scopes i

def Operation.MakesPair (scopes : Nat → Option Scope) (op : Operation) (out : Register) : Prop :=
  (∃ key entry, op = .makeList [key, entry] out) ∨ ∃ j, op.Guards out j ∧ Pairs scopes j

/-- The names of loop variables: one, or two that differ. -/
def LoopNames (params : List Text) : Prop := (∃ x, params = [x]) ∨ ∃ x y, x ≠ y ∧ params = [x, y]

/-- The scope that a comprehension enters for every element. -/
structure LoopBody (scopes : Nat → Option Scope) (toMap : Bool) (i : Nat) : Prop where
  names : ∃ t, scopes i = some t ∧ LoopNames t.params
  pairs : toMap = true → Pairs scopes i

section
variable {scopes scopes' : Nat → Option Scope} {i : Nat} {t : Scope} {op : Operation} {out : Register}

theorem Operation.Guards.not_ret {j : Nat} (h : op.Guards out j) (r : Register) : op ≠ .ret r := by
  rintro rfl
  rcases h with ⟨_, _, h⟩ | ⟨_, _, _, h⟩ <;> cases h

theorem Operation.MakesPair.not_ret (h : op.MakesPair scopes out) (r : Register) : op ≠ .ret r := by
  rcases h with ⟨_, _, rfl⟩ | ⟨j, h, -⟩
  · nofun
  · exact h.not_ret r

theorem Pairs.of_last {front : List Operation} (ht : scopes i = some t)
    (hcode : t.operations = front ++ [op, .ret out]) (hfront : ∀ r, .ret r ∉ front)
    (hop : op.MakesPair scopes out) : Pairs scopes i := by
  rcases hop with ⟨key, entry, rfl⟩ | ⟨j, hguards, hj⟩
  · exact .made ht hcode hfront
  · exact .guarded ht hcode hfront hguards hj

theorem Pairs.last (h : Pairs scopes i) : ∃ t front op out, scopes i = some t ∧
    t.operations = front ++ [op, .ret out] ∧ (∀ r, .ret r ∉ front) ∧ op.MakesPair scopes out := by
  cases h with
  | made ht hcode hfront => exact ⟨_, _, _, _, ht, hcode, hfront, .inl ⟨_, _, rfl⟩⟩
  | guarded ht hcode hfront hop hj => exact ⟨_, _, _, _, ht, hcode, hfront, .inr ⟨_, hop, hj⟩⟩

theorem Pairs.mono (h : Pairs scopes i) (hs : ∀ i t, scopes i = some t → scopes' i = some t) :
    Pairs scopes' i := by
  induction h with
  | made ht hcode hfront => exact .made (hs _ _ ht) hcode hfront
  | guarded ht hcode hfront hop _ ih => exact .guarded (hs _ _ ht) hcode hfront hop ih

theorem Operation.MakesPair.mono (h : op.MakesPair scopes out)
    (hs : ∀ i t, scopes i = some t → scopes' i = some t) : op.MakesPair scopes' out :=
  h.imp id fun ⟨j, hguards, hj⟩ => ⟨j, hguards, hj.mono hs⟩

theorem LoopBody.mono {toMap : Bool} (h : LoopBody scopes toMap i)
    (hs : ∀ i t, scopes i = some t → scopes' i = some t) : LoopBody scopes' toMap i := by
  obtain ⟨t, ht, hparams⟩ := h.names
  exact ⟨⟨t, hs i t ht, hparams⟩, fun hm => (h.pairs hm).mono hs⟩

end

def Program.finished (p : Program) (i : Nat) : Option Scope := p.scopes[i]?

def Operation.Embodied (scopes : Nat → Option Scope) (op : Operation) : Prop :=
  ∀ toMap source target out, op = .collect toMap source target out →
    ∃ i, target = some i ∧ LoopBody scopes toMap i

theorem Operation.Embodied.mono {scopes scopes' : Nat → Option Scope} {op : Operation}
    (h : op.Embodied scopes) (hs : ∀ i t, scopes i = some t → scopes' i = some t) :
    op.Embodied scopes' := by
  intro toMap source target out hop
  obtain ⟨i, ht, hi⟩ := h toMap source target out hop
  exact ⟨i, ht, hi.mono hs⟩

def Operation.ordinary : Operation → Bool
  | .ret _ => false
  | .collect .. => false
  | _ => true

theorem Operation.Embodied.of_ordinary {scopes : Nat → Option Scope} {op : Operation}
    (h : op.ordinary = true) : op.Embodied scopes := by
  rintro toMap source target out rfl
  cases h

namespace Draft

def finished (d : Draft) (i : Nat) : Option Scope :=
  if i ∈ d.openScopes then none else d.program.scopes[i]?

end Draft

namespace Compile

/-- All comprehensions that have been written have their bodies. -/
structure Furnished (d : Draft) : Prop where
  opened : d.openScopes ≠ []
  exist : ∀ i ∈ d.openScopes, i < d.program.scopes.size
  bodies : ∀ (i : Nat) (t : Scope), d.program.scopes[i]? = some t →
    ∀ op ∈ t.operations, op.Embodied d.finished

variable {d d' d'' : Draft} {i : Nat}

/-- In between, new scopes were written, and the current one, which has no new returns. -/
structure Extended (d d' : Draft) : Prop where
  furnished : Furnished d'
  opened : d'.openScopes = d.openScopes
  size : d.program.scopes.size ≤ d'.program.scopes.size
  frozen : ∀ i < d.program.scopes.size, i ≠ d.current →
    d'.program.scopes[i]? = d.program.scopes[i]?
  params : d'.scope.params = d.scope.params
  returns : ∀ r, .ret r ∈ d'.code → .ret r ∈ d.code

def Extends (d d' : Draft) : Prop := Furnished d → Extended d d'

theorem Furnished.current_mem (h : Furnished d) : d.current ∈ d.openScopes := by
  unfold Draft.current
  cases hs : d.openScopes with
  | nil => exact absurd hs h.opened
  | cons i rest => simp

theorem Furnished.current_lt (h : Furnished d) : d.current < d.program.scopes.size :=
  h.exist _ (current_mem h)

theorem Furnished.scope_eq (h : Furnished d) : d.program.scopes[d.current]? = some d.scope := by
  unfold Draft.scope
  rw [Array.getElem?_eq_getElem h.current_lt]
  rfl

namespace Extended

theorem current (h : Extended d d') : d'.current = d.current := by
  unfold Draft.current
  rw [h.opened]

theorem finished (h : Extended d d') (hd : Furnished d) (i : Nat) (t : Scope)
    (ht : d.finished i = some t) : d'.finished i = some t := by
  unfold Draft.finished at ht ⊢
  rw [h.opened]
  split at ht
  · cases ht
  · rename_i hi
    obtain ⟨hlt, -⟩ := Array.getElem?_eq_some_iff.1 ht
    have hne : i ≠ d.current := by
      rintro rfl
      exact hi hd.current_mem
    rw [if_neg hi, h.frozen i hlt hne, ht]

theorem of_scopes (hd : Furnished d) (hscopes : d'.program.scopes = d.program.scopes)
    (hopened : d'.openScopes = d.openScopes) : Extended d d' := by
  have hfinished : d'.finished = d.finished := by
    funext i
    unfold Draft.finished
    rw [hscopes, hopened]
  have hscope : d'.scope = d.scope := by
    unfold Draft.scope Draft.current
    rw [hscopes, hopened]
  refine ⟨⟨hopened ▸ hd.opened, ?_, ?_⟩, hopened, ?_, ?_, ?_, ?_⟩
  · rw [hscopes, hopened]
    exact hd.exist
  · rw [hscopes, hfinished]
    exact hd.bodies
  · exact Nat.le_of_eq (congrArg Array.size hscopes).symm
  · intro i _ _
    rw [hscopes]
  · rw [hscope]
  · intro r
    unfold Draft.code
    rw [hscope]
    exact id

theorem trans (h : Extended d d') (h' : Extended d' d'') : Extended d d'' where
  furnished := h'.furnished
  opened := h'.opened.trans h.opened
  size := Nat.le_trans h.size h'.size
  frozen := by
    intro i hi hc
    rw [h'.frozen i (Nat.lt_of_lt_of_le hi h.size) (h.current ▸ hc), h.frozen i hi hc]
  params := h'.params.trans h.params
  returns := fun r hr => h.returns r (h'.returns r hr)

end Extended

instance : Flow Extends where
  still := fun u hd => .of_scopes hd (congrArg Program.scopes u.program)
    u.undisturbed.opened
  trans := fun h h' hd => (h hd).trans (h' (h hd).furnished)

section
variable {α : Type} {x : Compile α} {f : Scope → Scope} {t : Scope} {op : Operation}

theorem extends_of (h : ∀ d, Furnished d → Post x d fun _ d' => Extended d d') : Follows Extends x :=
  fun d => Ensures.intro (fun _ _ hx hd => (h d hd).of_ok hx) fun _ _ _ => trivial

theorem Extended.after {d₀ : Draft} (e : Extended d₀ d) (hx : Follows Extends x) :
    Post x d fun _ d' => Extended d₀ d' ∧ Extended d d' :=
  (hx d).imp fun _ _ h => ⟨e.trans (h e.furnished), h e.furnished⟩

theorem Discreet.extends (hx : Discreet x) : Follows Extends x := fun d =>
  (hx d).imp fun _ _ u hd => .of_scopes hd (congrArg Program.scopes u.program) u.opened

theorem Furnished.rewritten_scope (hd : Furnished d) : (d.rewrite f).scope = f d.scope := by
  change ((d.program.scopes.modify d.current f)[d.current]?).getD default = _
  rw [Array.getElem?_modify, if_pos rfl, hd.scope_eq]
  rfl

theorem Furnished.rewrite_code (hd : Furnished d) : (d.rewrite f).code = (f d.scope).operations := by
  rw [Draft.code, hd.rewritten_scope]

theorem Furnished.append_code (hd : Furnished d) (op : Operation) (site : Token) :
    (d.rewrite (append op site)).code = d.code ++ [op] := by
  rw [hd.rewrite_code, append_operations]
  rfl

theorem Furnished.rewrite_finished (hd : Furnished d) (f : Scope → Scope) :
    (d.rewrite f).finished = d.finished := by
  funext i
  change (if i ∈ d.openScopes then none else (d.program.scopes.modify d.current f)[i]?) = _
  unfold Draft.finished
  split
  · rfl
  · rename_i hi
    have hne : d.current ≠ i := by
      rintro rfl
      exact hi hd.current_mem
    rw [Array.getElem?_modify, if_neg hne]

theorem Furnished.rewrite (hd : Furnished d)
    (hcode : ∀ op ∈ (f d.scope).operations, op ∈ d.code ∨ op.Embodied d.finished) :
    Furnished (d.rewrite f) where
  opened := hd.opened
  exist := fun i hi => Nat.lt_of_lt_of_eq (hd.exist i hi) Array.size_modify.symm
  bodies := by
    intro i t ht op hop
    rw [hd.rewrite_finished]
    change (d.program.scopes.modify d.current f)[i]? = some t at ht
    rw [Array.getElem?_modify] at ht
    split at ht
    · subst i
      rw [hd.scope_eq] at ht
      cases ht
      exact (hcode op hop).elim (hd.bodies _ _ hd.scope_eq op) id
    · exact hd.bodies i t ht op hop

theorem Extended.rewrite (hd : Furnished d) (hparams : (f d.scope).params = d.scope.params)
    (hcode : ∀ op ∈ (f d.scope).operations,
      op ∈ d.code ∨ op.Embodied d.finished ∧ ∀ r, op ≠ .ret r) : Extended d (d.rewrite f) where
  furnished := hd.rewrite fun op hop => (hcode op hop).imp id And.left
  opened := rfl
  size := Nat.le_of_eq Array.size_modify.symm
  frozen := by
    intro i _ hi
    change (d.program.scopes.modify d.current f)[i]? = _
    rw [Array.getElem?_modify, if_neg (Ne.symm hi)]
  params := by rw [hd.rewritten_scope, hparams]
  returns := by
    intro r hr
    rw [hd.rewrite_code] at hr
    exact (hcode _ hr).elim id fun h => absurd rfl (h.2 r)

theorem Extended.snoc (hd : Furnished d) (site : Token) (hop : op.Embodied d.finished)
    (hret : ∀ r, op ≠ .ret r) : Extended d (d.rewrite (append op site)) := by
  refine .rewrite hd rfl fun o ho => ?_
  rw [append_operations] at ho
  refine (List.mem_append.1 ho).imp id fun ho => ?_
  rw [List.mem_singleton.1 ho]
  exact ⟨hop, hret⟩

theorem Extended.write (hd : Furnished d) (op : Operation) (site : Token) (hop : op.ordinary = true) :
    Extended d (d.rewrite (append op site)) := by
  refine .snoc hd site (.of_ordinary hop) ?_
  rintro r rfl
  cases hop

theorem emit_extends (site : Token) (hop : op.ordinary = true) : Follows Extends (emit op site) :=
  fun d => Ensures.of_run (emit_run op site d) fun hd => .write hd _ site hop

theorem alloc_extends : Follows Extends alloc := fun d =>
  Ensures.of_run (run_bind (currentScope_eq d)) fun hd => .rewrite hd rfl fun _ => .inl

theorem emitTo_extends {op : Register → Operation} (site : Token) (hop : ∀ out, (op out).ordinary = true)
    (f : Register → α) : Follows Extends (do
      let out ← alloc
      emit (op out) site
      return f out) :=
  alloc_extends.bind fun out => (emit_extends site (hop out)).bind fun _ => .pure (f out)

theorem modifyProgram_extends {f : Program → Program} (hf : ∀ p, (f p).scopes = p.scopes) :
    Follows Extends (modifyProgram f) := fun _ => Ensures.change fun hd => .of_scopes hd (hf _) rfl

theorem register_extends (f : Registry → Except RegistryError Registry) :
    Follows Extends (register f) := by
  refine fun d => Ensures.get_bind ?_
  split
  · rename_i modules _
    exact modifyProgram_extends (f := fun p => { p with modules }) (fun _ => rfl) d
  · trivial

theorem within_extends (name : Text) (hx : Follows Extends x) : Follows Extends (within name x) := by
  have hset : ∀ name : Text, Silent (modify fun d => { d with functionName := name }) :=
    fun name => silent_modify fun d => Still.rename d name
  refine silent_get.before fun d => (hset name).before fun _ => hx.bind fun a => ?_
  exact (hset d.functionName).before fun _ => .pure a

def pushScope (t : Scope) (d : Draft) : Draft :=
  { d with program := { d.program with scopes := d.program.scopes.push t } }

theorem pushScope_ne {j : Nat} (hj : j ≠ d.program.scopes.size) :
    (pushScope t d).program.scopes[j]? = d.program.scopes[j]? := by
  change (d.program.scopes.push t)[j]? = _
  rw [Array.getElem?_push, if_neg hj]

theorem pushScope_last : (pushScope t d).program.scopes[d.program.scopes.size]? = some t := by
  change (d.program.scopes.push t)[d.program.scopes.size]? = _
  rw [Array.getElem?_push, if_pos rfl]

theorem Extended.push (hd : Furnished d) (ht : ∀ op ∈ t.operations, op.Embodied d.finished) :
    Extended d (pushScope t d) := by
  have hfinished : ∀ j u, d.finished j = some u → (pushScope t d).finished j = some u := by
    intro j u hu
    change (if j ∈ d.openScopes then none else (pushScope t d).program.scopes[j]?) = _
    unfold Draft.finished at hu
    split at hu
    · cases hu
    · rename_i hj
      obtain ⟨hlt, -⟩ := Array.getElem?_eq_some_iff.1 hu
      rw [if_neg hj, pushScope_ne (Nat.ne_of_lt hlt), hu]
  have hscope : (pushScope t d).scope = d.scope := by
    change ((pushScope t d).program.scopes[d.current]?).getD default = _
    rw [pushScope_ne (Nat.ne_of_lt hd.current_lt)]
    rfl
  have hsize : (pushScope t d).program.scopes.size = d.program.scopes.size + 1 := Array.size_push _
  refine ⟨⟨hd.opened, fun i hi => ?_, fun i u hu op hop => ?_⟩, rfl, by omega, ?_, by rw [hscope], ?_⟩
  · have hlt := hd.exist i hi
    omega
  · by_cases hi : i = d.program.scopes.size
    · subst i
      rw [pushScope_last] at hu
      cases hu
      exact (ht op hop).mono hfinished
    · rw [pushScope_ne hi] at hu
      exact (hd.bodies i u hu op hop).mono hfinished
  · exact fun i hi _ => pushScope_ne (Nat.ne_of_lt hi)
  · intro r
    unfold Draft.code
    rw [hscope]
    exact id

theorem Extended.moveCode (hd : Furnished d) (start : Nat) (value : Register) (keyword : Token) :
    Extended d (moveCode d start value keyword) := by
  have hcut : Extended d (d.rewrite (cutAt start)) := by
    refine .rewrite hd rfl fun op hop => .inl ?_
    rw [cutAt_operations] at hop
    exact List.mem_of_mem_take hop
  refine hcut.trans (Extended.push hcut.furnished fun op hop => ?_)
  rw [hd.rewrite_finished]
  rw [guardBody_operations] at hop
  rcases List.mem_append.1 hop with hop | hop
  · exact hd.bodies _ _ hd.scope_eq op (List.mem_of_mem_drop hop)
  · rw [List.mem_singleton.1 hop]
    nofun

theorem moveCode_finished (hd : Furnished d) (start : Nat) (value : Register) (keyword : Token) :
    (moveCode d start value keyword).finished d.program.scopes.size =
      some (guardBody d.scope start value keyword) := by
  have hsize : (d.rewrite (cutAt start)).program.scopes.size = d.program.scopes.size :=
    Array.size_modify
  have hopen : d.program.scopes.size ∉ d.openScopes := fun h => Nat.lt_irrefl _ (hd.exist _ h)
  change (if d.program.scopes.size ∈ d.openScopes then none else _) = _
  rw [if_neg hopen]
  refine Eq.trans ?_ (pushScope_last (t := guardBody d.scope start value keyword)
    (d := d.rewrite (cutAt start)))
  rw [hsize]
  rfl

end

/-- The scope `i` has been opened, and nothing of what was there before has changed. -/
structure Inner (d : Draft) (i : Nat) (d₁ : Draft) : Prop where
  furnished : Furnished d₁
  opened : d₁.openScopes = i :: d.openScopes
  number : i = d.program.scopes.size
  frozen : ∀ j < d.program.scopes.size, d₁.program.scopes[j]? = d.program.scopes[j]?

section
variable {d₁ d₂ : Draft} {α β : Type} {x : Compile α}

theorem openScope_inner (hd : Furnished d) (kind : ScopeKind) (name : Text) (isFunction isClosure : Bool)
    (site : Token) :
    Post (openScope kind name isFunction isClosure site) d fun i d₁ => Inner d i d₁ ∧ d₁.code = [] := by
  let t : Scope := ⟨name, kind, [], #[], firstScratch, place site, [], none⟩
  let i := d.program.scopes.size
  let d₁ : Draft :=
    { pushScope t d with opened := ⟨i, [], isFunction, isClosure, []⟩ :: d.opened }
  have hcurrent : d₁.program.scopes[i]? = some t := pushScope_last
  have hfinished : ∀ j u, d.finished j = some u → d₁.finished j = some u := by
    intro j u hu
    unfold Draft.finished at hu
    split at hu
    · cases hu
    · rename_i hj
      obtain ⟨hlt, -⟩ := Array.getElem?_eq_some_iff.1 hu
      have hne : j ≠ i := Nat.ne_of_lt hlt
      change (if j ∈ i :: d.openScopes then none else (pushScope t d).program.scopes[j]?) = _
      rw [if_neg (by simp [hj, hne]), pushScope_ne hne, hu]
  have hsize : d₁.program.scopes.size = i + 1 := Array.size_push _
  refine Ensures.of_run (t := d₁) (a := i) rfl ⟨⟨⟨nofun, fun j hj => ?_, fun j u hu op hop => ?_⟩, rfl, rfl,
    fun j hj => pushScope_ne (Nat.ne_of_lt hj)⟩, ?_⟩
  · rw [hsize]
    rcases List.mem_cons.1 hj with rfl | hj
    · exact Nat.lt_succ_self i
    · exact Nat.lt_succ_of_lt (hd.exist j hj)
  · by_cases hj : j = i
    · subst j
      rw [hcurrent] at hu
      cases hu
      cases hop
    · rw [show d₁.program.scopes[j]? = d.program.scopes[j]? from pushScope_ne hj] at hu
      exact (hd.bodies j u hu op hop).mono hfinished
  · change ((d₁.program.scopes[i]?).getD default).operations = []
    rw [hcurrent]
    rfl

namespace Inner

theorem current (h : Inner d i d₁) : d₁.current = i := by
  simp [Draft.current, h.opened]

theorem size (h : Inner d i d₁) : d.program.scopes.size < d₁.program.scopes.size :=
  h.number ▸ h.furnished.exist i (by simp [h.opened])

theorem step (h : Inner d i d₁) (e : Extended d₁ d₂) : Inner d i d₂ where
  furnished := e.furnished
  opened := e.opened.trans h.opened
  number := h.number
  frozen := by
    intro j hj
    have hne : j ≠ d₁.current := by
      rw [h.current, h.number]
      exact Nat.ne_of_lt hj
    rw [e.frozen j (Nat.lt_trans hj h.size) hne, h.frozen j hj]

theorem next {Q : β → Draft → Prop} {f : α → Compile β} (h : Inner d i d₁) (hx : Follows Extends x)
    (hf : ∀ a d₂, Inner d i d₂ → Post (f a) d₂ Q) : Post (x >>= f) d₁ Q :=
  Ensures.bind (hx d₁) fun a d₂ e => hf a d₂ (h.step (e h.furnished))

theorem rewrite {f : Scope → Scope} (h : Inner d i d₁)
    (hcode : ∀ op ∈ (f d₁.scope).operations, op ∈ d₁.code ∨ op.Embodied d₁.finished) :
    Inner d i (d₁.rewrite f) where
  furnished := h.furnished.rewrite hcode
  opened := h.opened
  number := h.number
  frozen := by
    intro j hj
    have hne : d₁.current ≠ j := by
      rw [h.current, h.number]
      exact Nat.ne_of_gt hj
    change (d₁.program.scopes.modify d₁.current f)[j]? = _
    rw [Array.getElem?_modify, if_neg hne, h.frozen j hj]

theorem ret (h : Inner d i d₁) (value : Register) (site : Token) :
    Inner d i (d₁.rewrite (append (.ret value) site)) := by
  refine h.rewrite fun op hop => ?_
  rw [append_operations] at hop
  refine (List.mem_append.1 hop).imp id fun hop => ?_
  rw [List.mem_singleton.1 hop]
  nofun

theorem describe {f : Scope → Scope} {rest : Compile α} {Q : α → Draft → Prop} (h : Inner d i d₁)
    (hcode : (f d₁.scope).operations = d₁.scope.operations)
    (hrest : Inner d i (d₁.rewrite f) → Post rest (d₁.rewrite f) Q) :
    Post (do modifyScope i f; rest) d₁ Q := by
  have hrun : modifyScope i f d₁ = .ok ⟨⟩ (d₁.rewrite f) := by
    rw [← h.current]
    rfl
  refine Ensures.run hrun (hrest (h.rewrite fun op hop => .inl ?_))
  rw [hcode] at hop
  exact hop

/-- The scope is finished. -/
theorem close (hd : Furnished d) (h : Inner d i d₁) : Post closeScope d₁ fun _ d₂ => Extended d d₂ ∧
    d₂.finished i = some d₁.scope ∧ ∀ j t, d₁.finished j = some t → d₂.finished j = some t := by
  let d₂ : Draft := { d₁ with opened := d₁.opened.tail }
  have hopened : d₂.openScopes = d.openScopes := by
    have htail : d₁.openScopes.tail = d.openScopes := by
      rw [h.opened]
      rfl
    exact List.map_tail.trans htail
  have hfinished : ∀ j t, d₁.finished j = some t → d₂.finished j = some t := by
    intro j t ht
    unfold Draft.finished at ht ⊢
    rw [h.opened] at ht
    rw [hopened]
    split at ht
    · cases ht
    · rename_i hj
      rw [if_neg fun hm => hj (List.mem_cons_of_mem i hm)]
      exact ht
  have hscope : d₂.scope = d.scope := by
    unfold Draft.scope Draft.current
    rw [hopened]
    exact congrArg (Option.getD · default) (h.frozen _ hd.current_lt)
  have hlast : d₂.finished i = some d₁.scope := by
    have hnot : i ∉ d.openScopes := fun hi => Nat.lt_irrefl _ (h.number ▸ hd.exist i hi)
    have heq := h.furnished.scope_eq
    rw [h.current] at heq
    unfold Draft.finished
    rw [hopened, if_neg hnot]
    exact heq
  refine Ensures.of_run (t := d₂) rfl ⟨⟨⟨?_, ?_, ?_⟩, hopened, Nat.le_of_lt h.size, ?_, ?_, ?_⟩, hlast, hfinished⟩
  · rw [hopened]
    exact hd.opened
  · intro j hj
    rw [hopened] at hj
    exact Nat.lt_trans (hd.exist j hj) h.size
  · intro j t ht op hop
    exact (h.furnished.bodies j t ht op hop).mono hfinished
  · exact fun j hj _ => h.frozen j hj
  · rw [hscope]
  · intro r
    unfold Draft.code
    rw [hscope]
    exact id

theorem finish (hd : Furnished d) (h : Inner d i d₁) (a : α) :
    Post (do closeScope; return a) d₁ fun _ d₂ => Extended d d₂ :=
  Ensures.bind (h.close hd) fun _ _ h' => Ensures.pure h'.1

end Inner

end

end Compile

end ScriptMachine
