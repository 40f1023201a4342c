import ScriptMachine.Proofs.Program.WellFormed

set_option autoImplicit false

namespace ScriptMachine

/-- The registers that operations write. -/
def outs (ops : List Operation) : List Register := ops.filterMap Operation.out?

/-- Whether a register can be read where some registers are known. -/
def Known (known : List Register) (r : Register) : Prop := r < firstScratch ∨ r ∈ known

def Defined : List Register → List Operation → Prop
  | _, [] => True
  | known, op :: rest => (∀ r ∈ op.reads, Known known r) ∧ Defined (op.out?.toList ++ known) rest

theorem known_mono {xs ys : List Register} (h : xs ⊆ ys) {r : Register} (hr : Known xs r) :
    Known ys r := hr.imp_right (fun hm => h hm)

theorem known_none (known : List Register) : Known known noneRegister := Or.inl (by decide)

@[simp] theorem outs_nil : outs [] = [] := rfl

@[simp] theorem outs_append (xs ys : List Operation) : outs (xs ++ ys) = outs xs ++ outs ys :=
  List.filterMap_append

theorem outs_cons (op : Operation) (ops : List Operation) :
    outs (op :: ops) = op.out?.toList ++ outs ops := by
  cases h : op.out? <;> simp [outs, h]

theorem defined_mono {xs ys : List Register} {ops : List Operation} (h : xs ⊆ ys)
    (hd : Defined xs ops) : Defined ys ops := by
  induction ops generalizing xs ys with
  | nil => trivial
  | cons op ops ih =>
    refine ⟨fun r hr => known_mono h (hd.1 r hr), ih ?_ hd.2⟩
    exact List.append_subset.2
      ⟨List.subset_append_left _ _, List.Subset.trans h (List.subset_append_right _ _)⟩

theorem defined_append {known : List Register} {xs ys : List Operation} :
    Defined known (xs ++ ys) ↔ Defined known xs ∧ Defined (outs xs ++ known) ys := by
  induction xs generalizing known with
  | nil => simp [Defined]
  | cons op xs ih =>
    have hs : ∀ r, r ∈ outs xs ++ (op.out?.toList ++ known) ↔ r ∈ outs (op :: xs) ++ known := by
      intro r
      rw [outs_cons]
      simp only [List.mem_append]
      tauto
    have he : Defined (outs xs ++ (op.out?.toList ++ known)) ys ↔
        Defined (outs (op :: xs) ++ known) ys :=
      ⟨defined_mono fun r => (hs r).1, defined_mono fun r => (hs r).2⟩
    simp only [List.cons_append, Defined, ih, he]
    exact and_assoc.symm

theorem defined_singleton {known : List Register} {op : Operation} :
    Defined known [op] ↔ ∀ r ∈ op.reads, Known known r := by
  simp [Defined]

theorem defined_join {xs ys : List Operation} (hx : Defined [] xs) (hy : Defined [] ys) :
    Defined [] (xs ++ ys) :=
  defined_append.2 ⟨hx, defined_mono (List.nil_subset _) hy⟩

theorem defined_snoc {xs : List Operation} {op : Operation} (hx : Defined [] xs)
    (hr : ∀ r ∈ op.reads, Known (outs xs) r) : Defined [] (xs ++ [op]) := by
  refine defined_append.2 ⟨hx, defined_singleton.2 ?_⟩
  simpa using hr

theorem defined_reads {known : List Register} {xs : List Operation} {op : Operation}
    {ys : List Operation} (h : Defined known (xs ++ op :: ys)) :
    ∀ r ∈ op.reads, Known (outs xs ++ known) r :=
  (defined_append.1 h).2.1

theorem Scope.readsDefined_of_defined {s : Scope} (h : Defined [] s.operations) :
    s.ReadsDefined := by
  intro k op hk r hr
  obtain ⟨hlt, hget⟩ := List.getElem?_eq_some_iff.1 hk
  have hsplit : s.operations = s.operations.take k ++ op :: s.operations.drop (k + 1) := by
    rw [← hget, List.getElem_cons_drop, List.take_append_drop]
  rw [hsplit] at h
  rcases defined_reads h r hr with hconst | hmem
  · have hr01 := Nat.le_one_iff_eq_zero_or_eq_one.1 (Nat.le_of_lt_succ hconst)
    exact hr01.imp_right Or.inl
  · rw [List.append_nil] at hmem
    obtain ⟨earlier, he, hout⟩ := List.mem_filterMap.1 hmem
    obtain ⟨j, hj⟩ := List.getElem?_of_mem he
    rw [List.getElem?_take] at hj
    split at hj
    · exact Or.inr (Or.inr ⟨j, earlier, ‹j < k›, hj, hout⟩)
    · cases hj

end ScriptMachine
