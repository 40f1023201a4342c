import ScriptMachine.Proofs.Program.Definedness

set_option autoImplicit false

namespace ScriptMachine

/-- A call that compares. -/
def Operation.compares : Operation → Bool
  | .callCompared .. => true
  | _ => false

theorem Operation.eq_of_compares {op : Operation} (h : op.compares = true) :
    ∃ equal left right target out, op = .callCompared equal left right target out := by
  cases op with
  | callCompared equal left right target out => exact ⟨equal, left, right, target, out, rfl⟩
  | _ => cases h

/-- A register which was that of a comparison, before a branch on it became a call that compares. -/
structure Vacant (front : List Operation) (left right out condition : Register) : Prop where
  scratch : firstScratch ≤ condition
  left : left < condition
  right : right < condition
  front : ∀ q ∈ outs front, q < condition
  out : condition < out

/-- How an operation stands after others. -/
inductive Lays (before : List Operation) : Operation → Prop
  | fresh {op : Operation} (hop : op.compares = false) (h : ∀ r, op.out? = some r → ∀ q ∈ outs before, q < r) :
    Lays before op
  | compared {front : List Operation} {equal : Bool} {left right out condition : Register}
    {target : Target} (hbefore : before = front ++ [.copy noneRegister out])
    (h : Vacant front left right out condition) : Lays before (.callCompared equal left right target out)

/-- Every operation stands after those before it as it should. -/
def Laid (ops : List Operation) : Prop :=
  ∀ before op after, ops = before ++ op :: after → Lays before op

/-- Code that can be moved: it needs no registers from elsewhere, nor an operation before it. -/
structure Movable (ops : List Operation) : Prop where
  defined : Defined [] ops
  head : ∀ op ∈ ops.head?, op.compares = false

namespace Movable

variable {xs ys ops : List Operation} {op : Operation}

theorem nil : Movable [] := ⟨trivial, nofun⟩

theorem join (hx : Movable xs) (hy : Movable ys) : Movable (xs ++ ys) := by
  refine ⟨defined_join hx.defined hy.defined, fun op hop => ?_⟩
  cases xs with
  | nil => exact hy.head op hop
  | cons x xs => exact hx.head op hop

theorem front (h : Movable (xs ++ ys)) : Movable xs := by
  refine ⟨(defined_append.1 h.defined).1, fun op hop => h.head op ?_⟩
  cases xs with
  | nil => cases hop
  | cons x xs => exact hop

theorem snoc (hx : Movable xs) (hr : ∀ r ∈ op.reads, Known (outs xs) r)
    (hop : op.compares = true → xs ≠ []) : Movable (xs ++ [op]) := by
  refine ⟨defined_snoc hx.defined hr, fun o ho => ?_⟩
  cases xs with
  | nil =>
    cases ho
    exact Bool.eq_false_iff.2 fun h => hop h rfl
  | cons x xs => exact hx.head o ho

end Movable

namespace Laid

variable {xs ys ops : List Operation} {op : Operation}

theorem nil : Laid [] := by
  intro before op after h
  cases before <;> cases h

theorem front (h : Laid (xs ++ ys)) : Laid xs := by
  rintro before op after rfl
  exact h before op (after ++ ys) (by simp)

theorem snoc (hx : Laid xs) (hop : Lays xs op) : Laid (xs ++ [op]) := by
  intro before o after h
  rcases List.append_eq_append_iff.1 h with ⟨as, rfl, has⟩ | ⟨bs, rfl, hbs⟩
  · cases as with
    | nil =>
      cases has
      simpa using hop
    | cons a as => simp at has
  · cases bs with
    | nil =>
      cases hbs
      simpa using hop
    | cons b bs =>
      cases hbs
      exact hx before o bs rfl

theorem moved (h : Laid (xs ++ ys)) (hy : ∀ op ∈ ys.head?, op.compares = false) : Laid ys := by
  rintro before op after rfl
  have hlays := h (xs ++ before) op after (by simp)
  cases hlays with
  | fresh hop hfresh =>
    exact .fresh hop fun r hr q hq => hfresh r hr q (by simp [hq])
  | compared hbefore hvacant =>
    rcases List.eq_nil_or_concat before with rfl | ⟨front, last, rfl⟩
    · exact absurd (hy _ rfl) (by simp [Operation.compares])
    · rw [List.concat_eq_append, ← List.append_assoc] at hbefore
      obtain ⟨rfl, hlast⟩ := List.append_inj' hbefore rfl
      cases hlast
      refine .compared (List.concat_eq_append ..) { hvacant with front := fun q hq => ?_ }
      exact hvacant.front q (by simp [hq])

theorem rises (h : Laid (xs ++ ys)) {p q : Register} (hp : p ∈ outs xs) (hq : q ∈ outs ys) : p ≤ q := by
  obtain ⟨op, hop, hout⟩ := List.mem_filterMap.1 hq
  obtain ⟨before, after, rfl⟩ := List.append_of_mem hop
  have hlays := h (xs ++ before) op after (by simp)
  have hbefore : p ∈ outs (xs ++ before) := by simp [hp]
  cases hlays with
  | fresh _ hfresh => exact Nat.le_of_lt (hfresh q hout p hbefore)
  | compared hcopy hvacant =>
    cases hout
    rw [hcopy, outs_append, List.mem_append] at hbefore
    rcases hbefore with hfront | hcopied
    · exact Nat.le_of_lt (Nat.lt_trans (hvacant.front p hfront) hvacant.out)
    · exact Nat.le_of_eq (by simpa [outs, Operation.out?] using hcopied)

theorem untouched {front rest : List Operation} {left right out condition : Register}
    (h : Laid ops) (hreads : ∀ op ∈ ops, ∀ r ∈ op.reads, Known (outs ops) r)
    (hops : ops = front ++ .copy noneRegister out :: rest)
    (hv : Vacant front left right out condition) :
    ∀ op ∈ ops, op.out? ≠ some condition ∧ condition ∉ op.reads := by
  have hunwritten : condition ∉ outs ops := by
    subst hops
    have hlaid : Laid ((front ++ [.copy noneRegister out]) ++ rest) := by
      rwa [List.append_assoc]
    rw [outs_append, outs_cons]
    simp only [Operation.out?, Option.toList_some, List.mem_append, List.mem_singleton, not_or]
    refine ⟨fun hq => Nat.lt_irrefl _ (hv.front _ hq), Nat.ne_of_lt hv.out, fun hq => ?_⟩
    have hout : out ∈ outs (front ++ [.copy noneRegister out]) := by simp [outs_cons, Operation.out?]
    exact Nat.lt_irrefl _ (Nat.lt_of_lt_of_le hv.out (hlaid.rises hout hq))
  intro op hop
  refine ⟨fun hout => hunwritten (List.mem_filterMap.2 ⟨op, hop, hout⟩), fun hread => ?_⟩
  rcases hreads op hop condition hread with hlow | hknown
  · exact Nat.lt_irrefl _ (Nat.lt_of_le_of_lt hv.scratch hlow)
  · exact hunwritten hknown

end Laid

theorem Scope.ReadsDefined.known {s : Scope} (h : s.ReadsDefined) :
    ∀ op ∈ s.operations, ∀ r ∈ op.reads, Known (outs s.operations) r := by
  intro op hop r hr
  obtain ⟨k, hk⟩ := List.getElem?_of_mem hop
  rcases h k op hk r hr with rfl | rfl | ⟨j, earlier, -, hj, hout⟩
  · exact known_none _
  · exact .inl (by decide)
  · exact .inr (List.mem_filterMap.2 ⟨earlier, List.mem_of_getElem? hj, hout⟩)

end ScriptMachine
