import ScriptMachine.Proofs.Compiler.Writing

set_option autoImplicit false

namespace ScriptMachine

namespace Compile

variable {d₀ d d' : Draft} {held : List Register} {owed unmade : List Nat}

def Leaves {α : Type} (registers : α → List Register) (x : Compile α) : Prop :=
  ∀ d owed unmade, d.Sound owed unmade → Post x d fun a d' =>
    Reached d d' (registers a) owed unmade

theorem Leaves.after {α : Type} {registers : α → List Register} {x : Compile α}
    (hx : Leaves registers x) (h : Reached d₀ d held owed unmade) :
    Post x d fun a d' => Reached d₀ d' (registers a ++ held) owed unmade :=
  (hx d owed unmade h.sound).imp fun _ _ h' => h.trans h'

abbrev Yields (x : Compile Register) : Prop := Leaves (fun r => [r]) x

theorem Yields.bind {α : Type} {x : Compile Register} {f : Register → Compile α}
    {Q : α → Draft → Prop} (hx : Yields x) (h : Reached d₀ d held owed unmade)
    (hf : ∀ r d', Reached d₀ d' (r :: held) owed unmade → Post (f r) d' Q) : Post (x >>= f) d Q :=
  Ensures.bind (hx.after h) hf

/-- The recursive parts of a grammar leave their values in registers. -/
structure Faithful (g : Grammar) : Prop where
  expression : Yields g.expression
  operand : Yields g.operand
  statement : Yields g.statement

def dropLast (s : Scope) : Scope := { s with code := s.code.pop }

theorem dropLast_operations (s : Scope) : (dropLast s).operations = s.operations.dropLast := by
  simp [dropLast, Scope.operations, List.map_dropLast]

/-- The operation that wrote a held register can be taken back if it is the last one. What it read
can still be read. -/
theorem Reached.retract {op : Operation} {condition : Register} {before : List Operation}
    (h : Reached d₀ d [condition] owed unmade) (hlast : d.code = before ++ [op])
    (hout : op.out? = some condition) (hblocks : op.blocks = []) (hmade : op.made = []) :
    Reached d₀ (d.rewrite dropLast) op.reads owed unmade := by
  obtain ⟨ops, hcode, hd, hheld⟩ := h.written
  have hmem := scope_mem h.sound
  have hlow : firstScratch ≤ condition :=
    (h.sound.writes _ hmem op (by change op ∈ d.code; simp [hlast]) condition hout).1
  -- the operation was written since the base, because its result was
  have hne : ops ≠ [] := by
    rintro rfl
    rcases hheld condition (by simp) with hc | hc
    · exact absurd hc (Nat.not_lt.2 hlow)
    · cases hc
  obtain ⟨front, last, rfl⟩ := (List.eq_nil_or_concat ops).resolve_left hne
  have hsplit : before ++ [op] = (d₀.code ++ front) ++ [last] := by
    rw [← hlast, hcode, List.concat_eq_append, List.append_assoc]
  obtain ⟨rfl, hop⟩ := List.append_inj' hsplit rfl
  cases hop
  rw [List.concat_eq_append] at hd
  have hpre : (dropLast d.scope).operations = d₀.code ++ front := by
    rw [dropLast_operations]
    change d.code.dropLast = _
    rw [hlast, List.dropLast_concat]
  have hwas : d.scope.operations = d₀.code ++ front ++ [op] := hlast
  refine h.rewrite rfl ?_ ⟨front, hpre, hd.front, ?_⟩
  · refine Program.Sound.replace h.sound (scope_eq h.sound) rfl ?_ ?_ ?_
      (h.sound.scratch _ hmem : firstScratch ≤ d.scope.registerCount) ?_ ?_ h.sound.owedBlocks
      h.sound.unmadeClosures ?_ ?_
    · have hall := h.sound.defined _ hmem
      rw [hwas] at hall
      rw [hpre]
      exact (defined_append.1 hall).1
    · have hall := h.sound.laid _ hmem
      rw [hwas] at hall
      rw [hpre]
      exact hall.front
    · intro q hq r hr
      rw [hpre] at hq
      exact h.sound.writes _ hmem q (by rw [hwas]; exact List.mem_append_left _ hq) r hr
    · exact fun hn => absurd (current_mem h.sound) hn
    · intro q hq
      rw [hpre] at hq
      refine h.sound.admits q (Program.mem_operations.2 ⟨_, hmem, ?_⟩)
      rw [hwas]
      exact List.mem_append_left _ hq
    · intro j
      simp [Scope.blocks, hpre, hwas, hblocks]
    · intro j
      simp [Scope.made, hpre, hwas, hmade]
  · intro r hr
    simpa using defined_reads hd.defined r hr

theorem back_operations {s : Scope} {op : Operation} {l : Location}
    (h : s.code.back? = some ⟨op, l⟩) : ∃ before, s.operations = before ++ [op] := by
  refine ⟨s.operations.dropLast, ?_⟩
  have hlast : s.operations.getLast? = some op := by
    rw [Scope.operations, List.getLast?_map, Array.getLast?_toList, h]
    rfl
  exact (List.dropLast_append_getLast? op hlast).symm

theorem vacant_of_last {op : BinaryOp} {left right condition out : Register} {before : List Operation}
    (h : d.Sound owed unmade) (hlast : d.code = before ++ [.binary op left right condition])
    (hout : d.Free out) : Vacant before left right out condition := by
  have hmem := scope_mem h
  have hwrites := h.writes _ hmem (.binary op left right condition)
    (by change _ ∈ d.code; simp [hlast]) condition rfl
  have hlaid : Laid (before ++ .binary op left right condition :: []) := hlast ▸ h.laid _ hmem
  have hbefore : ∀ q ∈ outs before, q < condition := by
    cases hlaid before _ [] rfl with
    | fresh _ hfresh => exact hfresh condition rfl
  have hreads : ∀ r ∈ [left, right], r < condition := by
    have hdefined : Defined [] (before ++ .binary op left right condition :: []) :=
      hlast ▸ h.defined _ hmem
    intro r hr
    rcases defined_reads hdefined r hr with hlow | hknown
    · exact Nat.lt_of_lt_of_le hlow hwrites.1
    · exact hbefore r (by simpa using hknown)
  refine ⟨hwrites.1, hreads left (by simp), hreads right (by simp), hbefore, hout.2 condition ?_⟩
  simp [hlast, outs_cons, Operation.out?]

/-- A branch on an equality either takes the place of the comparison or is not made. -/
theorem equalityBranch_post {condition out : Register} {truth : Bool} {scope : Nat} {site : Token}
    (h : Reached d₀ d [condition] (scope :: owed) unmade) (hout : d.Free out) :
    Post (equalityBranch condition truth scope out site) d fun fused d' =>
      if fused then Reached d₀ d' [out] owed unmade
      else Reached d₀ d' [condition] (scope :: owed) unmade ∧ d'.Free out := by
  have hstay : Post (pure false) d fun fused d' =>
      if fused then Reached d₀ d' [out] owed unmade
      else Reached d₀ d' [condition] (scope :: owed) unmade ∧ d'.Free out :=
    Ensures.pure ⟨h, hout⟩
  unfold equalityBranch
  refine Ensures.run (currentScope_eq d) ?_
  refine Ensures.run (show scopeAt d.current d = .ok d.scope d from rfl) ?_
  split
  · rename_i op left right target l hback
    split
    · rename_i hc
      simp only [Bool.and_eq_true, decide_eq_true_eq] at hc
      obtain ⟨rfl, -⟩ := hc
      obtain ⟨before, hlast⟩ := back_operations hback
      have hvacant := vacant_of_last h.sound hlast hout
      have h₁ := h.retract hlast rfl rfl rfl
      have hpre : (d.rewrite dropLast).code = before := by
        rw [Draft.code, rewrite_scope h.sound, dropLast_operations, hlast, List.dropLast_concat]
      have hfree : (d.rewrite dropLast).Free out := by
        refine ⟨?_, fun q hq => Nat.lt_trans (hvacant.front q (hpre ▸ hq)) hvacant.out⟩
        unfold Draft.Allotted
        rw [rewrite_scope h.sound]
        exact hout.1
      refine Ensures.run (show modifyScope d.current dropLast d = .ok () (d.rewrite dropLast) from rfl)
        ?_
      have hcopy : Fits (d.rewrite dropLast) [left, right] (scope :: owed) unmade (scope :: owed)
          unmade (.copy noneRegister out) := by
        refine Fits.plain ?_ ?_ rfl rfl rfl trivial
        · simpa [Operation.reads] using known_none _
        · simpa [Operation.out?] using hfree
      refine Ensures.bind (emit_post h₁ hcopy) fun _ d₂ h₂ => ?_
      obtain ⟨h₂, hcode₂, hallotted₂⟩ := h₂
      rw [hpre] at hcode₂
      have hcall : Fits d₂ [out, left, right] (scope :: owed) unmade owed unmade
          (.callCompared ((op = .eq : Bool) == truth) left right (some scope) out) := by
        refine ⟨?_, ?_, .compared hcode₂ hvacant, fun _ => ⟨out, by simp, hout.1.1⟩,
          by simp [Operation.entered], trivial, fun i => ?_, fun _ => by simp [Operation.made]⟩
        · simp [Operation.reads, Known]
        · simpa [Operation.out?] using hallotted₂ out hfree.1
        · change ([scope] ++ owed).count i = [scope].count i + owed.count i
          exact List.count_append
      refine Ensures.bind (emit_post h₂ hcall) fun _ d₃ h₃ => ?_
      exact Ensures.pure (h₃.1.weaken (by simp [Operation.out?]))
    · exact hstay
  · exact hstay

def cutAt (start : Nat) (s : Scope) : Scope := { s with code := s.code.extract 0 start }

def guardBody (s : Scope) (start : Nat) (value : Register) (keyword : Token) : Scope :=
  ⟨"<guard>", .block, [], (s.code.extract start s.code.size).push ⟨.ret value, place keyword⟩,
    s.registerCount, place keyword, [], none⟩

theorem cutAt_operations (start : Nat) (s : Scope) :
    (cutAt start s).operations = s.operations.take start := by
  simp [cutAt, Scope.operations, List.map_take]

theorem guardBody_operations (s : Scope) (start : Nat) (value : Register) (keyword : Token) :
    (guardBody s start value keyword).operations = s.operations.drop start ++ [.ret value] := by
  have hdrop : (s.code.extract start s.code.size).toList = s.code.toList.drop start := by
    rw [Array.toList_extract, List.extract_eq_take_drop, List.take_of_length_le (by simp)]
  simp only [guardBody, Scope.operations, Array.toList_push, hdrop, List.map_append, List.map_drop,
    List.map_cons, List.map_nil]

def moveCode (d : Draft) (start : Nat) (value : Register) (keyword : Token) : Draft :=
  { d with program := { d.program with
      scopes := (d.program.scopes.modify d.current (cutAt start)).push
        (guardBody d.scope start value keyword) } }

theorem Reached.moveCode {start : Nat} {value : Register} (h : Reached d₀ d held owed unmade)
    (hvalue : Known held value) (hstart : start = d₀.code.length) (keyword : Token) :
    Reached d₀ (moveCode d start value keyword) [] (d.program.scopes.size :: owed) unmade := by
  obtain ⟨ops, hcode, hd, hheld⟩ := h.written
  have hmem := scope_mem h.sound
  have hwas : d.scope.operations = d₀.code ++ ops := hcode
  have hcut : (cutAt start d.scope).operations = d₀.code := by
    rw [cutAt_operations, hwas, hstart, List.take_left]
  have hbody : (guardBody d.scope start value keyword).operations = ops ++ [.ret value] := by
    rw [guardBody_operations, hwas, hstart, List.drop_left]
  have hlaid : Laid (d₀.code ++ ops) := hwas ▸ h.sound.laid _ hmem
  have hadmits : ∀ op ∈ d₀.code ++ ops, d.program.Admits op := fun op hop =>
    h.sound.admits op (Program.mem_operations.2 ⟨_, hmem, hwas ▸ hop⟩)
  have hblocks : ∀ j ∈ ops.flatMap Operation.blocks, d.program.HasKind .block j := by
    intro j hj
    obtain ⟨op, hop, hj⟩ := List.mem_flatMap.1 hj
    exact (hadmits op (List.mem_append_right _ hop)).blocks j hj
  have hmade : ∀ j ∈ ops.flatMap Operation.made, j < d.program.closures.size := by
    intro j hj
    obtain ⟨op, hop, hj⟩ := List.mem_flatMap.1 hj
    exact (hadmits op (List.mem_append_right _ hop)).made j hj
  have hkinds := Program.kind_modify (f := cutAt start) (scope_eq h.sound) rfl
  have hwrites : ∀ op ∈ d₀.code ++ ops, ∀ r, op.out? = some r → d.Allotted r := fun op hop r hr =>
    h.sound.writes _ hmem op (hwas ▸ hop) r hr
  -- with the code away, what it named is owed again
  have hsound : ({ d.program with
      scopes := d.program.scopes.modify d.current (cutAt start) } : Program).Sound d.openScopes
        (ops.flatMap Operation.blocks ++ owed) (ops.flatMap Operation.made ++ unmade) := by
    refine Program.Sound.replace h.sound (scope_eq h.sound) rfl ?_ ?_ ?_
      (h.sound.scratch _ hmem : firstScratch ≤ d.scope.registerCount) ?_ ?_ ?_ ?_ ?_ ?_
    · have hall := h.sound.defined _ hmem
      rw [hwas] at hall
      rw [hcut]
      exact (defined_append.1 hall).1
    · rw [hcut]
      exact hlaid.front
    · intro op hop r hr
      rw [hcut] at hop
      exact hwrites op (List.mem_append_left _ hop) r hr
    · exact fun hn => absurd (current_mem h.sound) hn
    · intro op hop
      rw [hcut] at hop
      exact hadmits op (List.mem_append_left _ hop)
    · intro j hj
      exact (List.mem_append.1 hj).elim (hblocks j) (h.sound.owedBlocks j)
    · intro j hj
      exact (List.mem_append.1 hj).elim (hmade j) (h.sound.unmadeClosures j)
    · intro j
      simp only [Scope.blocks, hcut, hwas, List.flatMap_append, List.count_append, Nat.add_assoc]
    · intro j
      simp only [Scope.made, hcut, hwas, List.flatMap_append, List.count_append, Nat.add_assoc]
  have hsize : (d.program.scopes.modify d.current (cutAt start)).size = d.program.scopes.size := by
    simp
  have hfinal : (Compile.moveCode d start value keyword).Sound (d.program.scopes.size :: owed)
      unmade := by
    refine Program.Sound.push hsound (Or.inl (rfl : ([] : List Nat) = [])) (by simp [guardBody]) ?_ ?_ ?_
      (h.sound.scratch _ hmem : firstScratch ≤ d.scope.registerCount) ?_ ?_ ?_
      h.sound.unmadeClosures ?_ ?_ ?_
    · rw [hbody]
      refine defined_snoc hd.defined fun r hr => ?_
      rw [List.mem_singleton.1 hr]
      exact hvalue.elim Or.inl (hheld value)
    · rw [hbody]
      exact (hlaid.moved hd.head).snoc (.fresh rfl fun _ hr => by cases hr)
    · intro op hop r hr
      rw [hbody, List.mem_append, List.mem_singleton] at hop
      rcases hop with hop | rfl
      · exact hwrites op (List.mem_append_right _ hop) r hr
      · cases hr
    · intro _
      exact ⟨value, by simp [Scope.last?, hbody]⟩
    · intro op hop
      rw [hbody, List.mem_append, List.mem_singleton] at hop
      rcases hop with hop | rfl
      · refine Program.Admits.of_kinds (fun j hj => (hkinds _ j).2 hj) (Nat.le_refl _) ?_
        exact hadmits op (List.mem_append_right _ hop)
      · exact ⟨by simp [Operation.entered], by simp [Operation.spare], by simp [Operation.made],
          trivial⟩
    · intro j hj
      rcases List.mem_cons.1 hj with rfl | hj
      · exact Or.inr ⟨hsize.symm, rfl⟩
      · exact Or.inl ((hkinds _ j).2 (h.sound.owedBlocks j hj))
    · intro j hj
      have hne : d.program.scopes.size ≠ j := Nat.ne_of_gt (hsize ▸ hj)
      simp [Scope.blocks, hbody, List.count_cons_of_ne hne, Operation.blocks, Operation.entered,
        Operation.spare]
    · intro _
      have hnot : owed.count d.program.scopes.size = 0 :=
        List.count_eq_zero.2 fun hm => Nat.lt_irrefl _ (h.sound.owedBlocks _ hm).lt
      simp [hsize, hnot]
    · intro j
      simp [Scope.made, hbody, Operation.made]
  refine ⟨hfinal, h.identity, h.opened, ?_, ?_, [], ?_, .nil, by simp⟩
  · exact fun kind i hi => Program.kind_push.2 (Or.inl ((hkinds _ i).2 (h.kinds kind i hi)))
  · intro i hi hc
    change ((d.program.scopes.modify d.current (cutAt start)).push _)[i]? = _
    rw [Array.getElem?_push, if_neg (hsize ▸ Nat.ne_of_lt (h.exists_scope hi)), Array.getElem?_modify,
      if_neg (by rw [h.current]; exact Ne.symm hc)]
    exact h.frozen i hi hc
  · have hlt := h.sound.exist _ (current_mem h.sound)
    have hscope : (Compile.moveCode d start value keyword).scope = cutAt start d.scope := by
      change (((d.program.scopes.modify d.current (cutAt start)).push _)[d.current]?).getD default = _
      rw [Array.getElem?_push, if_neg (hsize ▸ Nat.ne_of_lt hlt), Array.getElem?_modify, if_pos rfl,
        scope_eq h.sound]
      rfl
    rw [Draft.code, hscope, hcut, List.append_nil]

def addGuard (d : Draft) (keyword : Token) : Draft :=
  { d with program := { d.program with
      scopes := d.program.scopes.push
        ⟨"<guard>", .block, [], #[], firstScratch, place keyword, [], none⟩ } }

theorem scopeAt_addGuard (hlt : d.current < d.program.scopes.size) (keyword : Token) :
    scopeAt d.current (addGuard d keyword) = .ok d.scope (addGuard d keyword) := by
  change EStateM.Result.ok (((d.program.scopes.push _)[d.current]?).getD default) _ = _
  rw [Array.getElem?_push, if_neg (Nat.ne_of_lt hlt)]
  rfl

theorem moveCode_scopes (hlt : d.current < d.program.scopes.size) (start : Nat) (value : Register)
    (keyword : Token) :
    ((addGuard d keyword).program.scopes.modify d.program.scopes.size fun t =>
        { t with
          code := (d.scope.code.extract start d.scope.code.size).push ⟨.ret value, place keyword⟩
          registerCount := d.scope.registerCount }).modify d.current (cutAt start) =
      (moveCode d start value keyword).program.scopes := by
  apply Array.ext_getElem?
  intro i
  simp only [addGuard, moveCode, Array.getElem?_modify, Array.getElem?_push, Array.size_modify]
  by_cases hc : d.current = i
  · subst i
    simp [Nat.ne_of_lt hlt, Nat.ne_of_gt hlt]
  · by_cases hn : i = d.program.scopes.size
    · subst i
      simp [hc, guardBody]
    · simp [hc, hn, Ne.symm hn]

/-- A trailing condition is read after the code has moved. -/
theorem guard_moved {α : Type} (hlt : d.current < d.program.scopes.size) {start : Nat}
    {value : Register} {keyword : Token} {rest : Nat → Compile α} {Q : α → Draft → Prop}
    (hrest : Post (rest d.program.scopes.size) (moveCode d start value keyword) Q) :
    Post (do
      let source ← currentScope
      let guarded ← addScope .block "<guard>" keyword
      let s ← scopeAt source
      modifyScope guarded fun t =>
        { t with
          code := (s.code.extract start s.code.size).push ⟨.ret value, place keyword⟩
          registerCount := s.registerCount }
      modifyScope source fun s => { s with code := s.code.extract 0 start }
      rest guarded) d Q := by
  refine Ensures.run (currentScope_eq d) ?_
  refine Ensures.run (t := addGuard d keyword) rfl ?_
  refine Ensures.run (scopeAt_addGuard hlt keyword) ?_
  refine Ensures.run rfl (Ensures.run (a := ()) (t := moveCode d start value keyword) ?_ hrest)
  exact congrArg (fun scopes =>
    EStateM.Result.ok () { d with program := { d.program with scopes } })
    (moveCode_scopes hlt start value keyword)

theorem applyGuard_post {g : Grammar} (hg : Faithful g) {start : Nat} {value : Register}
    (h : Reached d₀ d [value] owed unmade) (hstart : start = d₀.code.length) :
    Post (applyGuard g start value) d fun r d' => Reached d₀ d' [r] owed unmade := by
  refine silent_advance.then fun keyword d₁ u₁ => ?_
  have h₁ := h.silent u₁
  refine guard_moved (h₁.sound.exist _ (current_mem h₁.sound)) ?_
  have h₂ := h₁.moveCode (Or.inr (List.mem_singleton_self value)) hstart keyword
  refine hg.expression.bind h₂ fun condition d₃ h₃ => ?_
  refine Ensures.bind (alloc_post h₃) fun out d₄ h₄ => ?_
  obtain ⟨h₄, hfree⟩ := h₄
  refine Ensures.bind (equalityBranch_post h₄ hfree) fun fused d₅ h₅ => ?_
  cases fused with
  | true => exact Ensures.pure h₅
  | false =>
    obtain ⟨h₅, hfree₅⟩ := h₅
    have hbranch : Fits d₅ [condition] (d₁.program.scopes.size :: owed) unmade owed unmade
        (.branch (keyword.kind = .kwIf) condition (some d₁.program.scopes.size) out) := by
      refine Fits.taking rfl ?_ ?_ (by simp [Operation.entered]) trivial (.refl _) (.refl _)
      · simp [Operation.reads, Known]
      · simpa [Operation.out?] using hfree₅
    refine Ensures.bind (emit_post h₅ hbranch) fun _ d₆ h₆ => ?_
    exact Ensures.pure (h₆.1.weaken (by simp [Operation.out?]))

theorem guards_post {g : Grammar} (hg : Faithful g) {start : Nat} {value : Register}
    (h : Reached d₀ d [value] owed unmade) (hstart : start = d₀.code.length) :
    Post (guards g start value) d fun r d' => Reached d₀ d' [r] owed unmade := by
  refine whileReading_post (I := fun r d' => Reached d₀ d' [r] owed unmade) (fun value d h => ?_) h
  refine (silent_checkAny _).then fun b d₁ u₁ => ?_
  split
  · exact Ensures.bind (applyGuard_post hg (h.silent u₁) hstart) fun r d₂ h₂ => Ensures.pure h₂
  · exact Ensures.pure (h.silent u₁)

theorem codeSize_eq (d : Draft) : codeSize d = .ok d.code.length d := by
  refine (run_bind (currentScope_eq d)).trans ?_
  change EStateM.Result.ok d.scope.code.size d = _
  simp [Draft.code, Scope.operations]

theorem guardedExpression_yields {g : Grammar} (hg : Faithful g) : Yields (guardedExpression g) := by
  intro d owed unmade h
  refine Ensures.run (codeSize_eq d) ?_
  refine hg.expression.bind (Reached.refl h) fun r d₁ h₁ => ?_
  exact guards_post hg h₁ rfl

end Compile

end ScriptMachine
