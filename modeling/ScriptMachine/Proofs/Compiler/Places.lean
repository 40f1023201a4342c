import ScriptMachine.Proofs.Compiler.Lexical

set_option autoImplicit false

namespace ScriptMachine

/-- An element that a list of lists has once, only one of them has. -/
theorem flatMap_index_eq {α β : Type} [BEq β] [LawfulBEq β] {g : α → List β} {l : List α} {x : β}
    {i j : Nat} {a b : α} (h : (l.flatMap g).count x ≤ 1) (hi : l[i]? = some a)
    (hj : l[j]? = some b) (ha : x ∈ g a) (hb : x ∈ g b) : i = j := by
  induction l generalizing i j with
  | nil => cases hi
  | cons c l ih =>
    rw [List.flatMap_cons, List.count_append] at h
    have hrest : ∀ {k : Nat} {d : α}, l[k]? = some d → x ∈ g d → 1 ≤ (l.flatMap g).count x :=
      fun hk hd => List.count_pos_iff.2 (List.mem_flatMap.2 ⟨_, List.mem_of_getElem? hk, hd⟩)
    cases i with
    | zero =>
      obtain rfl : c = a := Option.some.inj hi
      have hfirst : 1 ≤ (g c).count x := List.count_pos_iff.2 ha
      cases j with
      | zero => rfl
      | succ j =>
        have hlater := hrest hj hb
        omega
    | succ i =>
      cases j with
      | zero =>
        obtain rfl : c = b := Option.some.inj hj
        have hfirst : 1 ≤ (g c).count x := List.count_pos_iff.2 hb
        have hlater := hrest hi ha
        omega
      | succ j => exact congrArg Nat.succ (ih (Nat.le_trans (Nat.le_add_left _ _) h) hi hj)

namespace Operation

variable {op : Operation}

theorem blocks_eq (op : Operation) : op.blocks = op.entries.flatMap fun e => e.1.toList := by
  cases op with
  | call scope => cases scope <;> rfl
  | callCompared _ _ _ scope => cases scope <;> rfl
  | ifElse _ scope otherwise => cases scope <;> cases otherwise <;> rfl
  | branch _ _ scope => cases scope <;> rfl
  | tryCatch scope handler => cases scope <;> cases handler <;> rfl
  | collect _ _ scope => cases scope <;> rfl
  | _ => rfl

theorem declares?_of_entry {e : Target × (List Text → List Text)} (he : e ∈ op.entries) :
    op.declares? = none := by
  cases op with
  | loadLet _ _ | loadMut _ _ => cases he
  | _ => rfl

end Operation

namespace Place

variable {p : Program} {a : Place} {k : Nat} {n : Text}

def locals (a : Place) (p : Program) (k : Nat) : Locals :=
  fun n => (Locals.before a.scope (p.codeOf a.scope) k n).or (a.own n)

theorem locals_zero : a.locals p 0 = a.own := by
  funext n
  simp [locals, Locals.before, Locals.empty]

theorem locals_succ : a.locals p (k + 1) n =
    if declaredAt (p.codeOf a.scope) k = some n then some (.operation a.scope k)
    else a.locals p k n := by
  unfold locals
  rw [Locals.before, Locals.declare]
  cases hd : declaredAt (p.codeOf a.scope) k with
  | none => simp
  | some name =>
    by_cases hn : n = name
    · simp [hn]
    · simp [hn, Ne.symm hn]

theorem closure_own_isSome {E : Environment} {i : Nat} {names captures : List Text}
    (h : ∀ n ∈ captures, ∃ d, E n = some (.declared d)) :
    ((closure E i names captures).own n).isSome ↔ n ∈ names ∨ n ∈ captures := by
  unfold closure
  dsimp only
  by_cases hn : n ∈ names
  · simp [hn]
  · by_cases hc : n ∈ captures
    · obtain ⟨d, hd⟩ := h n hc
      simp [hn, hc, hd, Meaning.declared?]
    · simp [hn, hc]

theorem environment_succ (h : declaredAt (p.codeOf a.scope) k = none) :
    a.environment p (k + 1) = a.environment p k := by
  unfold environment
  split
  · rfl
  · rw [Locals.before_bare (Nat.le_succ k) fun j hk hj => ?_]
    rwa [Nat.le_antisymm (Nat.le_of_lt_succ hj) hk]

theorem environment_locals (h : a.scope ≠ 0) :
    a.environment p k = a.outside.inside (a.locals p k) := by
  funext n
  rw [environment_inner h]
  simp only [entry, Environment.inside, locals]
  cases Locals.before a.scope (p.codeOf a.scope) k n <;> rfl

end Place

namespace Program

variable {p : Program} {a b : Place} {i j k k' : Nat} {s s' : Scope} {op op' : Operation}

/-- What is named once in the program has one position in its code. -/
theorem position_unique {g : Operation → List Nat} {x m m' : Nat}
    (h : (p.operations.flatMap g).count x = 1) (hop : (p.codeOf m)[k]? = some op)
    (hop' : (p.codeOf m')[k']? = some op') (hx : x ∈ g op) (hx' : x ∈ g op') :
    m = m' ∧ k = k' ∧ (g op).count x ≤ 1 := by
  have hscope : ∀ {m k : Nat} {op : Operation}, (p.codeOf m)[k]? = some op →
      ∃ s, p.scopes.toList[m]? = some s ∧ s.operations[k]? = some op := by
    intro m k op hop
    cases hs : p.scopes[m]? with
    | none => simp [codeOf, hs] at hop
    | some s => exact ⟨s, by simpa using hs, by rwa [codeOf_eq hs] at hop⟩
  obtain ⟨s, hs, hk⟩ := hscope hop
  obtain ⟨s', hs', hk'⟩ := hscope hop'
  have hin : ∀ {s : Scope} {k : Nat} {op : Operation}, s.operations[k]? = some op → x ∈ g op →
      x ∈ s.operations.flatMap g :=
    fun hk hx => List.mem_flatMap.2 ⟨_, List.mem_of_getElem? hk, hx⟩
  have hall : p.operations.flatMap g = p.scopes.toList.flatMap fun s => s.operations.flatMap g := by
    rw [operations, List.flatMap_assoc]
  -- what a part of a list names is named by the whole
  have hpart : ∀ {α : Type} {f : α → List Nat} {l : List α} {a : α}, a ∈ l →
      (f a).count x ≤ (l.flatMap f).count x := by
    intro α f l a ha
    obtain ⟨before, after, rfl⟩ := List.append_of_mem ha
    rw [List.flatMap_append, List.flatMap_cons, List.count_append, List.count_append]
    omega
  rw [hall] at h
  obtain rfl : m = m' := flatMap_index_eq (Nat.le_of_eq h) hs hs' (hin hk hx) (hin hk' hx')
  rw [hs] at hs'
  cases hs'
  have hscopeOnce : (s.operations.flatMap g).count x ≤ 1 :=
    Nat.le_trans (hpart (f := fun s : Scope => s.operations.flatMap g) (List.mem_of_getElem? hs))
      (Nat.le_of_eq h)
  exact ⟨rfl, flatMap_index_eq hscopeOnce hk hk' hx hx',
    Nat.le_trans (hpart (List.mem_of_getElem? hk)) hscopeOnce⟩

theorem WellFormed.entry_unique (hw : p.WellFormed) (hi : p.HasKind .block i) {m m' : Nat}
    {e e' : Target × (List Text → List Text)} (hop : (p.codeOf m)[k]? = some op)
    (hop' : (p.codeOf m')[k']? = some op') (he : e ∈ op.entries) (he' : e' ∈ op'.entries)
    (hb : e.1 = some i) (hb' : e'.1 = some i) : m = m' ∧ k = k' ∧ e = e' := by
  have hblock : ∀ {op : Operation} {e : Target × (List Text → List Text)}, e ∈ op.entries →
      e.1 = some i → i ∈ op.blocks := by
    intro op e he hb
    rw [Operation.blocks_eq]
    exact List.mem_flatMap.2 ⟨e, he, by simp [hb]⟩
  obtain ⟨rfl, rfl, honce⟩ := position_unique (hw.enteredOnce i hi) hop hop' (hblock he hb)
    (hblock he' hb')
  rw [hop] at hop'
  cases hop'
  rw [Operation.blocks_eq] at honce
  obtain ⟨x, hx⟩ := List.mem_iff_getElem?.1 he
  obtain ⟨x', hx'⟩ := List.mem_iff_getElem?.1 he'
  obtain rfl := flatMap_index_eq honce hx hx' (by simp [hb]) (by simp [hb'])
  rw [hx] at hx'
  exact ⟨rfl, rfl, Option.some.inj hx'⟩

theorem WellFormed.made_unique (hw : p.WellFormed) (hj : j < p.closures.size) {m m' : Nat}
    (hop : (p.codeOf m)[k]? = some op) (hop' : (p.codeOf m')[k']? = some op') (hm : j ∈ op.made)
    (hm' : j ∈ op'.made) : m = m' ∧ k = k' := by
  obtain ⟨rfl, rfl, -⟩ := position_unique (hw.madeOnce j hj) hop hop' hm hm'
  exact ⟨rfl, rfl⟩

theorem WellFormed.entry_kind (hw : p.WellFormed) {m : Nat} {e : Target × (List Text → List Text)}
    (hop : (p.codeOf m)[k]? = some op) (he : e ∈ op.entries) (hb : e.1 = some i) :
    p.HasKind .block i := by
  have hmem : op ∈ p.operations := by
    cases hs : p.scopes[m]? with
    | none => simp [codeOf, hs] at hop
    | some s =>
      rw [codeOf_eq hs] at hop
      refine List.mem_flatMap.2 ⟨s, ?_, List.mem_of_getElem? hop⟩
      exact Array.mem_toList_iff.2 (Array.mem_of_getElem? hs)
  refine (hw.admits op hmem).blocks i ?_
  rw [Operation.blocks_eq]
  exact List.mem_flatMap.2 ⟨e, he, by simp [hb]⟩

theorem HasKind.unique {kind kind' : ScopeKind} (h : p.HasKind kind i) (h' : p.HasKind kind' i) :
    kind = kind' := by
  unfold HasKind at h h'
  rw [h] at h'
  exact Option.some.inj h'

theorem Encloses.ne_function (h : p.Encloses a b) (hw : p.WellFormed) (hl : p.Lexical) {f : Function}
    (hf : f ∈ p.modules.functions) (hn : f.isNative = false) : b.scope ≠ f.scope := by
  intro he
  cases h with
  | block hop hentry hi hs =>
    have hkind := hw.entry_kind hop hentry hi
    rw [Place.block_scope] at he
    rw [he] at hkind
    exact absurd (hkind.unique (hw.functions f hf hn)) nofun
  | closure hop hj hg hs => exact hl.inventory.mixed f hf hn _ (Array.mem_of_getElem? hg) he.symm

/-- What leads to one scope, leads to one place. -/
theorem Encloses.unique {a' b' : Place} (h : p.Encloses a' a) (h' : p.Encloses b' b)
    (hw : p.WellFormed) (hl : p.Lexical) (hscope : a.scope = b.scope)
    (houter : a'.scope = b'.scope → a' = b') : a = b := by
  have hbody : ∀ {j : Nat} {f : Function}, p.closures[j]? = some f → p.HasKind .function f.scope :=
    fun hf => (hw.closures _ (Array.mem_of_getElem? hf)).2
  cases h with
  | @block k op e i s hop he hi hs =>
    have hkind := hw.entry_kind hop he hi
    cases h' with
    | @block k' op' e' i' s' hop' he' hi' hs' =>
      obtain rfl : i = i' := hscope
      obtain ⟨hm, rfl, rfl⟩ := hw.entry_unique hkind hop hop' he he' hi hi'
      obtain rfl := houter hm
      rw [hs] at hs'
      cases hs'
      rfl
    | @closure k' op' j' f' s' hop' hj' hf' hs' =>
      obtain rfl : i = f'.scope := hscope
      exact absurd (hkind.unique (hbody hf')) nofun
  | @closure k op j f s hop hj hf hs =>
    cases h' with
    | @block k' op' e' i' s' hop' he' hi' hs' =>
      obtain rfl : f.scope = i' := hscope
      exact absurd ((hw.entry_kind hop' he' hi').unique (hbody hf)) nofun
    | @closure k' op' j' f' s' hop' hj' hf' hs' =>
      have hscope : f.scope = f'.scope := hscope
      have hat : ∀ {j : Nat} {f : Function}, p.closures[j]? = some f →
          (p.closures.toList.map Function.scope)[j]? = some f.scope := by
        intro j f hf
        simp [hf]
      have hlt : j < (p.closures.toList.map Function.scope).length := by
        simpa using (Array.getElem?_eq_some_iff.1 hf).1
      obtain rfl : j = j' :=
        (List.getElem?_inj hlt hl.inventory.closures).1 (by rw [hat hf, hat hf', hscope])
      rw [hf] at hf'
      cases hf'
      obtain ⟨hm, rfl⟩ := hw.made_unique (Array.getElem?_eq_some_iff.1 hf).1 hop hop' hj hj'
      obtain rfl := houter hm
      rw [hs] at hs'
      cases hs'
      rfl

namespace Placed

theorem main_or_scoped (hl : p.Lexical) (ha : p.Placed a) : a = .main ∨ p.Scoped 0 a := by
  induction ha with
  | main => exact .inl rfl
  | function hf hn hs =>
    obtain ⟨s', hs', hscoped⟩ := hl.functions _ hf hn
    rw [hs] at hs'
    cases hs'
    exact .inr hscoped
  | inner _ hb ih =>
    refine .inr ?_
    rcases ih with rfl | h
    · exact hl.main.encloses hb
    · exact h.encloses hb

theorem resolves (hl : p.Lexical) (ha : p.Placed a) : p.Resolves (p.Scoped 0) a := by
  rcases ha.main_or_scoped hl with rfl | h
  · exact hl.main
  · exact h.resolves

theorem inner_pos (hl : p.Lexical) (ha : p.Placed a) (hb : p.Encloses a b) : 0 < b.scope :=
  ((ha.resolves hl).encloses hb b .refl).1

theorem function_pos (hl : p.Lexical) {f : Function} (hf : f ∈ p.modules.functions)
    (hn : f.isNative = false) : 0 < f.scope := by
  obtain ⟨s, hs, hscoped⟩ := hl.functions f hf hn
  exact (hscoped _ .refl).1

/-- A scope has one place. -/
theorem unique (hw : p.WellFormed) (hl : p.Lexical) (ha : p.Placed a) (hb : p.Placed b)
    (h : a.scope = b.scope) : a = b := by
  induction ha generalizing b with
  | main =>
    cases hb with
    | main => rfl
    | function hf hn hs => exact absurd h (Nat.ne_of_lt (function_pos hl hf hn))
    | inner hb hin => exact absurd h (Nat.ne_of_lt (hb.inner_pos hl hin))
  | @function f s hf hn hs =>
    cases hb with
    | main => exact absurd h.symm (Nat.ne_of_lt (function_pos hl hf hn))
    | @function g t hg hgn ht =>
      have hscope : f.scope = g.scope := h
      have hext := hl.inventory.functions f hf g hg hn hgn hscope
      rw [hscope, ht] at hs
      cases hs
      simp only [hscope, Function.boundNames, hext]
    | inner hb hin => exact absurd h.symm (hin.ne_function hw hl hf hn)
  | inner ha hin ih =>
    cases hb with
    | main => exact absurd h.symm (Nat.ne_of_lt (ha.inner_pos hl hin))
    | function hf hn hs => exact absurd h (hin.ne_function hw hl hf hn)
    | inner hb hin' => exact hin.unique hin' hw hl h fun hm => ih hb hm

end Placed

end Program

end ScriptMachine
