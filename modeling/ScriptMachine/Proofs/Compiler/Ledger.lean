import ScriptMachine.Proofs.Compiler.Reading
import ScriptMachine.Proofs.Program.Layout

set_option autoImplicit false

namespace ScriptMachine

namespace Scope

def blocks (s : Scope) : List Nat := s.operations.flatMap Operation.blocks

def made (s : Scope) : List Nat := s.operations.flatMap Operation.made

end Scope

namespace Program

/-- `opened` are the scopes being written, `owed` the finished blocks that no operation enters yet, and
`unmade` the closures that no operation makes yet. -/
structure Sound (p : Program) (opened owed unmade : List Nat) : Prop where
  distinct : opened.Nodup
  bottom : opened.getLast? = some 0
  exist : ∀ i ∈ opened, i < p.scopes.size
  main : ∀ i, p.HasKind .main i ↔ i = 0
  defined : ∀ s ∈ p.scopes.toList, Defined [] s.operations
  laid : ∀ s ∈ p.scopes.toList, Laid s.operations
  writes : ∀ s ∈ p.scopes.toList, s.WritesAllotted
  scratch : ∀ s ∈ p.scopes.toList, firstScratch ≤ s.registerCount
  ends : ∀ i s, p.scopes[i]? = some s → i ∉ opened → ∃ r, s.last? = some (.ret r)
  admits : ∀ op ∈ p.operations, p.Admits op
  functions : ∀ f ∈ p.modules.functions, f.isNative = false → p.HasKind .function f.scope
  closures : ∀ f ∈ p.closures, f.isNative = false ∧ p.HasKind .function f.scope
  owedBlocks : ∀ i ∈ owed, p.HasKind .block i
  unmadeClosures : ∀ j ∈ unmade, j < p.closures.size
  entered : ∀ i, p.HasKind .block i → p.blockOperands.count i + (owed ++ opened).count i = 1
  made : ∀ j < p.closures.size, p.closureOperands.count j + unmade.count j = 1

theorem scopes_split {p : Program} {i : Nat} {s : Scope} (h : p.scopes[i]? = some s) :
    ∃ before after, p.scopes.toList = before ++ s :: after ∧
      ∀ f, (p.scopes.modify i f).toList = before ++ f s :: after := by
  obtain ⟨hi, hs⟩ := Array.getElem?_eq_some_iff.1 h
  refine ⟨p.scopes.toList.take i, p.scopes.toList.drop (i + 1), ?_, fun f => ?_⟩
  · rw [← hs, ← Array.getElem_toList, List.getElem_cons_drop, List.take_append_drop]
  · rw [Array.toList_modify, List.modify_eq_take_cons_drop (by simpa using hi),
      Array.getElem_toList, hs]

theorem mem_operations {p : Program} {op : Operation} :
    op ∈ p.operations ↔ ∃ s ∈ p.scopes.toList, op ∈ s.operations := List.mem_flatMap

theorem kind_modify {p : Program} {i : Nat} {s : Scope} {f : Scope → Scope}
    (hs : p.scopes[i]? = some s) (hf : (f s).kind = s.kind) (kind : ScopeKind) (j : Nat) :
    ({ p with scopes := p.scopes.modify i f }).HasKind kind j ↔ p.HasKind kind j := by
  unfold HasKind
  rw [Array.getElem?_modify]
  split
  · subst j
    simp only [hs, Option.map_some, hf]
  · rfl

theorem Admits.of_kinds {p q : Program} {op : Operation}
    (hk : ∀ i, p.HasKind .block i → q.HasKind .block i) (hc : p.closures.size ≤ q.closures.size)
    (h : p.Admits op) : q.Admits op where
  entered := fun t ht => (h.entered t ht).imp fun i hi => ⟨hi.1, hk i hi.2⟩
  spare := fun i hi => hk i (h.spare i hi)
  made := fun j hj => Nat.lt_of_lt_of_le (h.made j hj) hc
  paired := h.paired

theorem Admits.blocks {p : Program} {op : Operation} (h : p.Admits op) :
    ∀ j ∈ op.blocks, p.HasKind .block j := by
  intro j hj
  obtain ⟨t, ht, rfl⟩ := List.mem_filterMap.1 hj
  rcases List.mem_append.1 ht with ht | ht
  · obtain ⟨k, hk, hkind⟩ := h.entered _ ht
    cases hk
    exact hkind
  · exact h.spare j ht

theorem Sound.admits_owed {p : Program} {opened owed unmade : List Nat} {op : Operation}
    (h : p.Sound opened owed unmade) (hentered : ∀ t ∈ op.entered, t.isSome)
    (hblocks : ∀ i ∈ op.blocks, i ∈ owed) (hmade : ∀ j ∈ op.made, j ∈ unmade)
    (hpaired : op.Paired) : p.Admits op where
  entered := by
    intro t ht
    obtain ⟨i, rfl⟩ := Option.isSome_iff_exists.1 (hentered t ht)
    refine ⟨i, rfl, h.owedBlocks i (hblocks i ?_)⟩
    exact List.mem_filterMap.2 ⟨some i, List.mem_append_left _ ht, rfl⟩
  spare := fun i hi => h.owedBlocks i
    (hblocks i (List.mem_filterMap.2 ⟨some i, List.mem_append_right _ hi, rfl⟩))
  made := fun j hj => h.unmadeClosures j (hmade j hj)
  paired := hpaired

section
variable {p : Program} {opened owed unmade owed' unmade' : List Nat} {i : Nat} {s : Scope}
  {f : Scope → Scope}

theorem mem_scopes_modify (hs : p.scopes[i]? = some s) {t : Scope}
    (ht : t ∈ (p.scopes.modify i f).toList) : t ∈ p.scopes.toList ∨ t = f s := by
  obtain ⟨before, after, hp, hf⟩ := scopes_split hs
  rw [hf] at ht
  rw [hp]
  simp only [List.mem_append, List.mem_cons] at ht ⊢
  tauto

/-- A scope may be replaced by one of its kind whose code keeps the books balanced. -/
theorem Sound.replace (h : p.Sound opened owed unmade) (hs : p.scopes[i]? = some s)
    (hkind : (f s).kind = s.kind) (hdefined : Defined [] (f s).operations)
    (hlaid : Laid (f s).operations) (hwrites : (f s).WritesAllotted)
    (hscratch : firstScratch ≤ (f s).registerCount)
    (hends : i ∉ opened → ∃ r, (f s).last? = some (.ret r))
    (hadmits : ∀ op ∈ (f s).operations, p.Admits op)
    (howed : ∀ j ∈ owed', p.HasKind .block j) (hunmade : ∀ j ∈ unmade', j < p.closures.size)
    (hblocks : ∀ j, (f s).blocks.count j + owed'.count j = s.blocks.count j + owed.count j)
    (hmade : ∀ j, (f s).made.count j + unmade'.count j = s.made.count j + unmade.count j) :
    ({ p with scopes := p.scopes.modify i f }).Sound opened owed' unmade' := by
  obtain ⟨before, after, hp, hf⟩ := scopes_split hs
  have hk := fun kind j => kind_modify (f := f) hs hkind kind j
  have hscope : ∀ t ∈ (p.scopes.modify i f).toList, t ∈ p.scopes.toList ∨ t = f s :=
    fun t ht => mem_scopes_modify hs ht
  refine ⟨h.distinct, h.bottom, ?_, fun j => (hk _ j).trans (h.main j), ?_, ?_, ?_, ?_, ?_, ?_, ?_, ?_,
    fun j hj => (hk _ j).2 (howed j hj), hunmade, ?_, ?_⟩
  · simpa using h.exist
  · exact fun t ht => (hscope t ht).elim (h.defined t) fun he => he ▸ hdefined
  · exact fun t ht => (hscope t ht).elim (h.laid t) fun he => he ▸ hlaid
  · exact fun t ht => (hscope t ht).elim (h.writes t) fun he => he ▸ hwrites
  · exact fun t ht => (hscope t ht).elim (h.scratch t) fun he => he ▸ hscratch
  · intro j t ht hj
    rw [Array.getElem?_modify] at ht
    split at ht
    · subst j
      rw [hs] at ht
      cases ht
      exact hends hj
    · exact h.ends j t ht hj
  · intro op hop
    obtain ⟨t, ht, hop⟩ := mem_operations.1 hop
    refine Admits.of_kinds (p := p) (fun j => (hk _ j).2) (Nat.le_refl _) ?_
    rcases hscope t ht with ht | rfl
    · exact h.admits op (mem_operations.2 ⟨t, ht, hop⟩)
    · exact hadmits op hop
  · exact fun g hg hn => (hk _ _).2 (h.functions g hg hn)
  · exact fun g hg => (h.closures g hg).imp_right (hk _ _).2
  · intro j hj
    have hold := h.entered j ((hk _ j).1 hj)
    have hb := hblocks j
    simp only [blockOperands, operations, hp, hf, Scope.blocks, List.flatMap_append,
      List.flatMap_cons, List.count_append] at hold hb ⊢
    omega
  · intro j hj
    have hold := h.made j hj
    have hm := hmade j
    simp only [closureOperands, operations, hp, hf, Scope.made, List.flatMap_append,
      List.flatMap_cons, List.count_append] at hold hm ⊢
    omega

theorem kind_push {t : Scope} {kind : ScopeKind} {j : Nat} :
    ({ p with scopes := p.scopes.push t }).HasKind kind j ↔
      p.HasKind kind j ∨ (j = p.scopes.size ∧ t.kind = kind) := by
  unfold HasKind
  rw [Array.getElem?_push]
  split
  · subst j
    simp
  · simp [*]

theorem HasKind.lt {kind : ScopeKind} {j : Nat} (h : p.HasKind kind j) : j < p.scopes.size := by
  by_contra hj
  simp [HasKind, Array.getElem?_eq_none (Nat.le_of_not_lt hj)] at h

theorem Sound.blockOperands_lt (h : p.Sound opened owed unmade) {j : Nat}
    (hj : j ∈ p.blockOperands) : j < p.scopes.size := by
  obtain ⟨op, hop, hj⟩ := List.mem_flatMap.1 hj
  exact ((h.admits op hop).blocks j hj).lt

/-- A scope may be added. It is open, or else complete; if it is a block, then it is open or owed. -/
theorem Sound.push (h : p.Sound opened owed unmade) {t : Scope} {fresh : List Nat}
    (hfresh : fresh = [] ∨ fresh = [p.scopes.size]) (hkind : t.kind ≠ .main)
    (hdefined : Defined [] t.operations) (hlaid : Laid t.operations) (hwrites : t.WritesAllotted)
    (hscratch : firstScratch ≤ t.registerCount)
    (hends : fresh = [] → ∃ r, t.last? = some (.ret r))
    (hadmits : ∀ op ∈ t.operations, p.Admits op)
    (howed : ∀ j ∈ owed', p.HasKind .block j ∨ (j = p.scopes.size ∧ t.kind = .block))
    (hunmade : ∀ j ∈ unmade', j < p.closures.size)
    (hblocks : ∀ j < p.scopes.size, t.blocks.count j + owed'.count j = owed.count j)
    (hnew : t.kind = .block → (owed' ++ fresh).count p.scopes.size = 1)
    (hmade : ∀ j, t.made.count j + unmade'.count j = unmade.count j) :
    ({ p with scopes := p.scopes.push t }).Sound (fresh ++ opened) owed' unmade' := by
  have hlt : ∀ j ∈ opened, j < p.scopes.size := h.exist
  have hnot : p.scopes.size ∉ opened := fun hm => Nat.lt_irrefl _ (hlt _ hm)
  have hscope : ∀ u ∈ (p.scopes.push t).toList, u ∈ p.scopes.toList ∨ u = t := by
    intro u hu
    simpa using hu
  have hold : ∀ op, p.Admits op → ({ p with scopes := p.scopes.push t }).Admits op := fun op =>
    Admits.of_kinds (fun j hj => kind_push.2 (Or.inl hj)) (Nat.le_refl _)
  have hnone : p.blockOperands.count p.scopes.size = 0 :=
    List.count_eq_zero.2 fun hm => Nat.lt_irrefl _ (h.blockOperands_lt hm)
  have htnone : t.blocks.count p.scopes.size = 0 := by
    refine List.count_eq_zero.2 fun hm => ?_
    obtain ⟨op, hop, hm⟩ := List.mem_flatMap.1 hm
    exact Nat.lt_irrefl _ ((hadmits op hop).blocks _ hm).lt
  refine ⟨?_, ?_, ?_, ?_, ?_, ?_, ?_, ?_, ?_, ?_, ?_, ?_, ?_, hunmade, ?_, ?_⟩
  · rcases hfresh with rfl | rfl
    · exact h.distinct
    · exact List.nodup_cons.2 ⟨hnot, h.distinct⟩
  · rw [List.getLast?_append, h.bottom]
    rfl
  · intro j hj
    simp only [Array.size_push]
    rcases List.mem_append.1 hj with hj | hj
    · rcases hfresh with rfl | rfl
      · cases hj
      · rw [List.mem_singleton.1 hj]
        omega
    · exact Nat.lt_succ_of_lt (hlt j hj)
  · intro j
    rw [kind_push, h.main]
    simp [hkind]
  · exact fun u hu => (hscope u hu).elim (h.defined u) fun he => he ▸ hdefined
  · exact fun u hu => (hscope u hu).elim (h.laid u) fun he => he ▸ hlaid
  · exact fun u hu => (hscope u hu).elim (h.writes u) fun he => he ▸ hwrites
  · exact fun u hu => (hscope u hu).elim (h.scratch u) fun he => he ▸ hscratch
  · intro j u hu hj
    rw [List.mem_append, not_or] at hj
    rw [Array.getElem?_push] at hu
    split at hu
    · cases hu
      refine hends ?_
      rcases hfresh with rfl | rfl
      · rfl
      · subst j
        exact absurd (List.mem_singleton_self _) hj.1
    · exact h.ends j u hu hj.2
  · intro op hop
    obtain ⟨u, hu, hmem⟩ := mem_operations.1 hop
    rcases hscope u hu with hu | rfl
    · exact hold op (h.admits op (mem_operations.2 ⟨u, hu, hmem⟩))
    · exact hold op (hadmits op hmem)
  · exact fun g hg hn => kind_push.2 (Or.inl (h.functions g hg hn))
  · exact fun g hg => (h.closures g hg).imp_right fun hk => kind_push.2 (Or.inl hk)
  · exact fun j hj => kind_push.2 (howed j hj)
  · intro j hj
    have hops : ({ p with scopes := p.scopes.push t }).blockOperands = p.blockOperands ++ t.blocks := by
      simp [blockOperands, operations, Scope.blocks]
    rw [hops]
    simp only [List.count_append] at *
    rcases kind_push.1 hj with hj | ⟨rfl, hb⟩
    · have hentered := h.entered j hj
      have hb := hblocks j hj.lt
      have hf : fresh.count j = 0 := by
        refine List.count_eq_zero.2 fun hm => ?_
        rcases hfresh with rfl | rfl
        · cases hm
        · exact absurd (List.mem_singleton.1 hm) (Nat.ne_of_lt hj.lt)
      simp only [List.count_append] at hentered
      omega
    · have hn := hnew hb
      have ho : opened.count p.scopes.size = 0 := List.count_eq_zero.2 hnot
      omega
  · intro j hj
    have hops : ({ p with scopes := p.scopes.push t }).closureOperands =
        p.closureOperands ++ t.made := by
      simp [closureOperands, operations, Scope.made]
    rw [hops, List.count_append]
    have hold := h.made j hj
    have hm := hmade j
    omega

/-- The body of a closure may be added to the closures. -/
theorem Sound.pushClosure (h : p.Sound opened owed unmade) {f : Function} (hf : f.isNative = false)
    (hk : p.HasKind .function f.scope) :
    ({ p with closures := p.closures.push f }).Sound opened owed (p.closures.size :: unmade) := by
  have hnone : p.closureOperands.count p.closures.size = 0 := by
    refine List.count_eq_zero.2 fun hm => ?_
    obtain ⟨op, hop, hm⟩ := List.mem_flatMap.1 hm
    exact Nat.lt_irrefl _ ((h.admits op hop).made _ hm)
  have hunmade : unmade.count p.closures.size = 0 :=
    List.count_eq_zero.2 fun hm => Nat.lt_irrefl _ (h.unmadeClosures _ hm)
  refine { h with admits := ?_, closures := ?_, unmadeClosures := ?_, made := ?_ }
  · exact fun op hop => Admits.of_kinds (p := p) (fun _ hk => hk) (by simp) (h.admits op hop)
  · intro g hg
    rcases Array.mem_push.1 hg with hg | rfl
    · exact h.closures g hg
    · exact ⟨hf, hk⟩
  · intro j hj
    simp only [Array.size_push]
    rcases List.mem_cons.1 hj with rfl | hj
    · omega
    · exact Nat.lt_succ_of_lt (h.unmadeClosures j hj)
  · intro j hj
    simp only [Array.size_push] at hj
    change p.closureOperands.count j + _ = 1
    by_cases he : j = p.closures.size
    · subst j
      rw [List.count_cons_self]
      omega
    · rw [List.count_cons_of_ne (Ne.symm he)]
      exact h.made j (by omega)

/-- Nothing but the scopes, the closures and the functions matters, and functions may be registered
whose bodies are scopes of functions. -/
theorem Sound.register (h : p.Sound opened owed unmade) {q : Program} (hscopes : q.scopes = p.scopes)
    (hclosures : q.closures = p.closures)
    (hf : ∀ f ∈ q.modules.functions, f.isNative = false → p.HasKind .function f.scope) :
    q.Sound opened owed unmade := by
  have hkind : ∀ kind i, q.HasKind kind i ↔ p.HasKind kind i := by simp [HasKind, hscopes]
  have hops : q.operations = p.operations := by simp [operations, hscopes]
  refine ⟨h.distinct, h.bottom, hscopes ▸ h.exist, fun i => (hkind _ i).trans (h.main i),
    hscopes ▸ h.defined, hscopes ▸ h.laid, hscopes ▸ h.writes, hscopes ▸ h.scratch, hscopes ▸ h.ends, ?_,
    fun f hm hn => (hkind _ _).2 (hf f hm hn), ?_, fun i hi => (hkind _ i).2 (h.owedBlocks i hi),
    hclosures ▸ h.unmadeClosures, ?_, ?_⟩
  · intro op hop
    rw [hops] at hop
    exact Admits.of_kinds (fun i => (hkind _ i).2) (by simp [hclosures]) (h.admits op hop)
  · intro f hm
    rw [hclosures] at hm
    exact (h.closures f hm).imp_right (hkind _ _).2
  · intro i hi
    rw [blockOperands, hops]
    exact h.entered i ((hkind _ i).1 hi)
  · intro j hj
    rw [closureOperands, hops]
    exact h.made j (hclosures ▸ hj)

end

end Program

end ScriptMachine
