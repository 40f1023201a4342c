import ScriptMachine.Proofs.Value.Indifference
import ScriptMachine.Proofs.Machine.Cells
import ScriptMachine.Proofs.Outcome
import ScriptMachine.Machine.Step

set_option autoImplicit false

/-!
# Machines that mirror one another

Two machines that differ only in the numbers of objects, runs and cells do the same. The arena of the
second may hold cells besides: those that were there when the run began stay as they are, and those
that were free then are taken in the order in which the first machine makes new ones.
-/
namespace ScriptMachine

namespace Renaming

def cell (ρ : Renaming) (i : UInt32) (c : Cell) : Cell :=
  { c with value := ρ.value c.value, generation := c.generation + ρ.generation i }

end Renaming

/-- The slots of the first arena, which end at the limit, are found in the second one under other numbers.
One that the first arena has not yet made is free in the second one, or not made either. `rest` are the
slots that are free in the second arena only. -/
structure Arena.Mirrors (ρ : Renaming) (a a' : Arena) : Prop where
  live : a.live ≤ a'.live
  size : a'.cells.size ≤ 2 ^ 32
  cells : ∀ i c, a.cells[i.toNat]? = some c → a'.cells[(ρ.index i).toNat]? = some (ρ.cell i c)
  spare : ∀ i c, a.cells.size ≤ i.toNat → i.toNat < ρ.limit → a'.cells[(ρ.index i).toNat]? = some c →
    c.occupied = false ∧ c.generation = ρ.generation i
  unmade : ∀ i, a.cells.size ≤ i.toNat → i.toNat < ρ.limit → a'.cells[(ρ.index i).toNat]? = none →
    ρ.generation i = 0
  within : ∀ i ∈ a.free, i.toNat < a.cells.size
  free : ∃ rest, a'.free = a.free.map ρ.index ++ rest ∧ (∀ i ∈ rest, i.toNat < a'.cells.size) ∧
    a.cells.size + rest.length + 2 ^ 32 = ρ.limit + a'.cells.size ∧
    ∀ k, a.cells.size + k < ρ.limit → (ρ.index (a.cells.size + k).toUInt32).toNat =
      (rest[k]?).elim (a'.cells.size + (k - rest.length)) UInt32.toNat

/-- What the second arena answers to the same question. Of all that the first one may report, only a
conflict of two borrows counts. -/
def Echoes {α β : Type} (R : α → β → Prop) (r : Except Fault α) (r' : Except Fault β) : Prop :=
  match r with
  | .ok x => ∃ y, r' = .ok y ∧ R x y
  | .error e => e = Arena.conflict → r' = .error Arena.conflict

namespace Echoes

variable {α β γ δ : Type} {R : α → β → Prop} {S : γ → δ → Prop} {r : Except Fault α}
  {r' : Except Fault β}

theorem ok {x : α} {y : β} (h : R x y) : Echoes R (.ok x) (.ok y) := ⟨y, rfl, h⟩

theorem bind {f : α → Except Fault γ} {f' : β → Except Fault δ} (h : Echoes R r r')
    (hf : ∀ x y, R x y → Echoes S (f x) (f' y)) : Echoes S (r >>= f) (r' >>= f') := by
  cases r with
  | ok x =>
    obtain ⟨y, rfl, hxy⟩ := h
    exact hf x y hxy
  | error e =>
    intro he
    rw [h he]
    rfl

theorem ite {c : Prop} [Decidable c] {s : Except Fault α} {s' : Except Fault β} (h : Echoes R r r')
    (h' : Echoes R s s') : Echoes R (if c then r else s) (if c then r' else s') := by
  split
  · exact h
  · exact h'

theorem conflict : Echoes R (Arena.borrowFault : Except Fault α) Arena.borrowFault := fun _ => rfl

theorem other {e : Fault} (h : e ≠ Arena.conflict) : Echoes R (.error e) r' := fun he => absurd he h

end Echoes

namespace Arena

variable {ρ : Renaming} {a a' : Arena} {h : CellHandle} {v : Value} {c : Cell}

def Ample (a : Arena) : Prop := a.free = [] → a.cells.size < 2 ^ 32

theorem Ample.discard (ha : a.Ample) (h : CellHandle) : (a.discard h).Ample := by
  obtain ⟨hsame, -⟩ | ⟨c, -, -, -, hsame⟩ := discard_cases a h
  · rwa [hsame]
  · rw [hsame]
    exact nofun

/-- What both arenas answer when a cell is made. -/
def Placed (ρ : Renaming) (made made' : CellHandle × Arena) : Prop :=
  made'.1 = ρ.handle made.1 ∧ made.1.index.toNat < ρ.limit ∧ made.2.Mirrors ρ made'.2

theorem index_of_look (hl : a.look h = some c) : h.index.toNat < a.cells.size :=
  (Array.getElem?_eq_some_iff.1 (look_eq_some.1 hl).1).1

namespace Mirrors

theorem index_lt (hm : Mirrors ρ a a') {i : UInt32} (hi : i.toNat < a.cells.size) :
    (ρ.index i).toNat < a'.cells.size := by
  have hc := hm.cells i _ (Array.getElem?_eq_getElem hi)
  exact (Array.getElem?_eq_some_iff.1 hc).1

theorem size_le (hm : Mirrors ρ a a') : a.cells.size ≤ ρ.limit := by
  obtain ⟨rest, -, -, hcount, -⟩ := hm.free
  have hsize := hm.size
  omega

theorem look (hm : Mirrors ρ a a') (hl : a.look h = some c) :
    a'.look (ρ.handle h) = some (ρ.cell h.index c) := by
  obtain ⟨hc, ho, hg⟩ := look_eq_some.1 hl
  exact look_eq_some.2 ⟨hm.cells _ _ hc, ho, congrArg (· + _) hg⟩

theorem look_eq (hm : Mirrors ρ a a') (hi : h.index.toNat < ρ.limit) :
    a'.look (ρ.handle h) = (a.look h).map (ρ.cell h.index) := by
  unfold Arena.look
  rw [Renaming.handle_index]
  cases hc : a.cells[h.index.toNat]? with
  | some c =>
    rw [hm.cells _ _ hc]
    simp [Option.filter, Renaming.cell, Renaming.handle]
  | none =>
    cases hc' : a'.cells[(ρ.index h.index).toNat]? with
    | none => rfl
    | some c' =>
      have hspare := (hm.spare _ _ (by simpa using hc) hi hc').1
      simp [Option.filter, hspare]

theorem cell (hm : Mirrors ρ a a') (h : CellHandle) :
    Echoes (fun c c' => a.look h = some c ∧ c' = ρ.cell h.index c) (a.cell h)
      (a'.cell (ρ.handle h)) := by
  cases hl : a.look h with
  | some c =>
    rw [cell_of_look hl]
    exact ⟨_, cell_of_look (hm.look hl), rfl, rfl⟩
  | none =>
    obtain ⟨e, he⟩ := cell_of_none hl
    rw [he]
    intro hconflict
    rw [hconflict] at he
    unfold Arena.cell at he
    split at he
    · cases he
    · split at he <;> cases he

theorem setCell (hm : Mirrors ρ a a') {i : UInt32} (hi : i.toNat < a.cells.size) (c : Cell) :
    Mirrors ρ (a.setCell i.toNat c) (a'.setCell (ρ.index i).toNat (ρ.cell i c)) := by
  have hother : ∀ j : UInt32, a.cells.size ≤ j.toNat →
      (a'.setCell (ρ.index i).toNat (ρ.cell i c)).cells[(ρ.index j).toNat]? = a'.cells[(ρ.index j).toNat]? := by
    intro j hj
    refine Array.getElem?_setIfInBounds_ne fun he => ?_
    rw [UInt32.toNat_inj, Renaming.index_inj] at he
    subst he
    omega
  refine ⟨hm.live, ?_, fun j d hj => ?_, fun j d hj hlimit hd => ?_, fun j hj hlimit hd => ?_, ?_, ?_⟩
  · simpa [Arena.setCell] using hm.size
  · simp only [Arena.setCell, Array.getElem?_setIfInBounds, UInt32.toNat_inj, Renaming.index_inj] at hj ⊢
    split
    · subst j
      rw [if_pos rfl, if_pos hi] at hj
      cases hj
      rw [if_pos (hm.index_lt hi)]
    · rw [if_neg ‹_›] at hj
      exact hm.cells j d hj
  · have hj : a.cells.size ≤ j.toNat := by simpa [Arena.setCell] using hj
    rw [hother j hj] at hd
    exact hm.spare j d hj hlimit hd
  · have hj : a.cells.size ≤ j.toNat := by simpa [Arena.setCell] using hj
    rw [hother j hj] at hd
    exact hm.unmade j hj hlimit hd
  · simpa [Arena.setCell] using hm.within
  · simpa [Arena.setCell] using hm.free

theorem setBeyond (hm : Mirrors ρ a a') {i : UInt32} (hi : ρ.limit ≤ i.toNat) (c : Cell) :
    Mirrors ρ a (a'.setCell (ρ.index i).toNat c) := by
  have hother : ∀ j : UInt32, j.toNat < ρ.limit →
      (a'.setCell (ρ.index i).toNat c).cells[(ρ.index j).toNat]? = a'.cells[(ρ.index j).toNat]? := by
    intro j hj
    refine Array.getElem?_setIfInBounds_ne fun he => ?_
    rw [UInt32.toNat_inj, Renaming.index_inj] at he
    subst he
    omega
  refine ⟨hm.live, ?_, fun j d hj => ?_, fun j d hj hlimit hd => ?_, fun j hj hlimit hd => ?_, hm.within, ?_⟩
  · simpa [Arena.setCell] using hm.size
  · rw [hother j (Nat.lt_of_lt_of_le (Array.getElem?_eq_some_iff.1 hj).1 hm.size_le)]
    exact hm.cells j d hj
  · exact hm.spare j d hj hlimit (hother j hlimit ▸ hd)
  · exact hm.unmade j hj hlimit (hother j hlimit ▸ hd)
  · simpa [Arena.setCell] using hm.free

theorem isBorrowed (hm : Mirrors ρ a a') (h : CellHandle) :
    Echoes (· = ·) (a.isBorrowed h) (a'.isBorrowed (ρ.handle h)) := by
  refine (hm.cell h).bind fun c c' hc => ?_
  obtain ⟨-, rfl⟩ := hc
  exact .ok rfl

theorem isPinned (hm : Mirrors ρ a a') (h : CellHandle) :
    Echoes (· = ·) (a.isPinned h) (a'.isPinned (ρ.handle h)) := by
  refine (hm.cell h).bind fun c c' hc => ?_
  obtain ⟨-, rfl⟩ := hc
  exact .ok rfl

theorem read (hm : Mirrors ρ a a') (h : CellHandle) :
    Echoes (fun v v' => v' = ρ.value v) (a.read h) (a'.read (ρ.handle h)) := by
  refine (hm.cell h).bind fun c c' hc => ?_
  obtain ⟨-, rfl⟩ := hc
  exact .ite .conflict (.ok rfl)

theorem borrowed (hm : Mirrors ρ a a') (h : CellHandle) :
    Echoes (fun v v' => v' = ρ.value v) (a.borrowed h) (a'.borrowed (ρ.handle h)) := by
  refine (hm.cell h).bind fun c c' hc => ?_
  obtain ⟨-, rfl⟩ := hc
  exact .ite (.ok rfl) (.other nofun)

theorem write (hm : Mirrors ρ a a') (h : CellHandle) (v : Value) :
    Echoes (Mirrors ρ) (a.write h v) (a'.write (ρ.handle h) (ρ.value v)) := by
  refine (hm.cell h).bind fun c c' hc => ?_
  obtain ⟨hl, rfl⟩ := hc
  exact .ite .conflict (.ok (hm.setCell (index_of_look hl) { c with value := v }))

theorem setBorrowed (hm : Mirrors ρ a a') (h : CellHandle) (v : Value) :
    Echoes (Mirrors ρ) (a.setBorrowed h v) (a'.setBorrowed (ρ.handle h) (ρ.value v)) := by
  refine (hm.cell h).bind fun c c' hc => ?_
  obtain ⟨hl, rfl⟩ := hc
  exact .ite (.ok (hm.setCell (index_of_look hl) { c with value := v })) (.other nofun)

theorem beginExclusive (hm : Mirrors ρ a a') (h : CellHandle) :
    Echoes (fun r r' => r'.1 = ρ.value r.1 ∧ Mirrors ρ r.2 r'.2) (a.beginExclusive h)
      (a'.beginExclusive (ρ.handle h)) := by
  refine (hm.cell h).bind fun c c' hc => ?_
  obtain ⟨hl, rfl⟩ := hc
  exact .ite .conflict (.ok ⟨rfl, hm.setCell (index_of_look hl) { c with exclusive := true }⟩)

theorem pin (hm : Mirrors ρ a a') (h : CellHandle) :
    Echoes (Mirrors ρ) (a.pin h) (a'.pin (ρ.handle h)) := by
  refine (hm.cell h).bind fun c c' hc => ?_
  obtain ⟨hl, rfl⟩ := hc
  exact Echoes.ok (hm.setCell (index_of_look hl) { c with pinned := true })

theorem endBorrow (hm : Mirrors ρ a a') (h : CellHandle) :
    Mirrors ρ (a.endBorrow h) (a'.endBorrow (ρ.handle h)) := by
  cases hl : a.look h with
  | some c =>
    rw [endBorrow_of_look hl, endBorrow_of_look (hm.look hl)]
    exact hm.setCell (index_of_look hl) { c with exclusive := false }
  | none =>
    rw [endBorrow_of_none hl]
    cases hl' : a'.look (ρ.handle h) with
    | none => rwa [endBorrow_of_none hl']
    | some c' =>
      rw [endBorrow_of_look hl']
      refine hm.setBeyond (Nat.le_of_not_lt fun hi => ?_) _
      rw [hm.look_eq hi, hl] at hl'
      cases hl'

theorem vacate (hm : Mirrors ρ a a') (hl : a.look h = some c) :
    Mirrors ρ (a.vacate h c) (a'.vacate (ρ.handle h) (ρ.cell h.index c)) := by
  have hi := index_of_look hl
  have hset := hm.setCell hi ⟨.none, c.generation + 1, false, false, false⟩
  have hcell : ρ.cell h.index ⟨.none, c.generation + 1, false, false, false⟩ =
      ⟨.none, (ρ.cell h.index c).generation + 1, false, false, false⟩ := by
    simp only [Renaming.cell, Renaming.value_none, Cell.mk.injEq, and_true, true_and]
    rw [UInt32.add_assoc, UInt32.add_comm 1, ← UInt32.add_assoc]
  rw [hcell] at hset
  obtain ⟨rest, hfree, hrest⟩ := hset.free
  refine ⟨Nat.sub_le_sub_right hm.live 1, hset.size, hset.cells, hset.spare, hset.unmade, ?_, rest, ?_, hrest⟩
  · exact List.forall_mem_cons.2 ⟨by simpa [Arena.vacate, Arena.setCell] using hi, hset.within⟩
  · exact congrArg (ρ.index h.index :: ·) hfree

theorem releaseIfFree (hm : Mirrors ρ a a') (hi : h.index.toNat < ρ.limit) :
    Mirrors ρ (a.releaseIfFree h) (a'.releaseIfFree (ρ.handle h)) := by
  obtain ⟨hsame, hborrowed⟩ | ⟨c, hl, hx, hsame⟩ := releaseIfFree_cases a h
  · obtain ⟨hsame', -⟩ | ⟨c', hl', hx', -⟩ := releaseIfFree_cases a' (ρ.handle h)
    · rwa [hsame, hsame']
    · rw [hm.look_eq hi] at hl'
      obtain ⟨c, hl, rfl⟩ := Option.map_eq_some_iff.1 hl'
      exact Bool.noConfusion ((hborrowed c hl).symm.trans hx')
  · obtain ⟨-, hborrowed⟩ | ⟨c', hl', -, hsame'⟩ := releaseIfFree_cases a' (ρ.handle h)
    · exact Bool.noConfusion ((hborrowed _ (hm.look hl)).symm.trans hx)
    · cases (hm.look hl).symm.trans hl'
      rw [hsame, hsame']
      exact hm.vacate hl

theorem discard (hm : Mirrors ρ a a') (hi : h.index.toNat < ρ.limit) :
    Mirrors ρ (a.discard h) (a'.discard (ρ.handle h)) := by
  obtain ⟨hsame, hfirm⟩ | ⟨c, hl, hx, hp, hsame⟩ := discard_cases a h
  · obtain ⟨hsame', -⟩ | ⟨c', hl', hx', hp', -⟩ := discard_cases a' (ρ.handle h)
    · rwa [hsame, hsame']
    · rw [hm.look_eq hi] at hl'
      obtain ⟨c, hl, rfl⟩ := Option.map_eq_some_iff.1 hl'
      exact absurd ⟨c, hl, hx', hp'⟩ hfirm
  · obtain ⟨-, hfirm⟩ | ⟨c', hl', -, -, hsame'⟩ := discard_cases a' (ρ.handle h)
    · exact absurd ⟨_, hm.look hl, hx, hp⟩ hfirm
    · cases (hm.look hl).symm.trans hl'
      rw [hsame, hsame']
      exact hm.vacate hl

/-- The first arena makes a new slot. -/
theorem push {i : UInt32} {rest : List UInt32} {b b' : Arena} (hm : Mirrors ρ a a')
    (hi : i.toNat = a.cells.size) (hlive : b.live ≤ b'.live) (hsize : b'.cells.size ≤ 2 ^ 32)
    (hcells : b.cells = a.cells.push c) (hnone : b.free = [])
    (hnew : b'.cells[(ρ.index i).toNat]? = some (ρ.cell i c))
    (hold : ∀ j, j ≠ i → b'.cells[(ρ.index j).toNat]? = a'.cells[(ρ.index j).toNat]?)
    (hfree : b'.free = rest) (hlt : ∀ i ∈ rest, i.toNat < b'.cells.size)
    (hcount : a.cells.size + 1 + rest.length + 2 ^ 32 = ρ.limit + b'.cells.size)
    (hrest : ∀ k, a.cells.size + 1 + k < ρ.limit → (ρ.index (a.cells.size + 1 + k).toUInt32).toNat =
      (rest[k]?).elim (b'.cells.size + (k - rest.length)) UInt32.toNat) : Mirrors ρ b b' := by
  have hgrown : b.cells.size = a.cells.size + 1 := by simp [hcells]
  have hne : ∀ j : UInt32, b.cells.size ≤ j.toNat → j ≠ i := by
    rintro j hj rfl
    omega
  refine ⟨hlive, hsize, fun j d hj => ?_, fun j d hj hlimit hd => ?_, fun j hj hlimit hd => ?_, ?_, rest, ?_,
    hlt, ?_, ?_⟩
  · rw [hcells, Array.getElem?_push] at hj
    split at hj
    · cases hj
      obtain rfl : j = i := UInt32.toNat_inj.1 (by omega)
      exact hnew
    · rw [hold j fun he => ‹¬ _› (he ▸ hi)]
      exact hm.cells j d hj
  · rw [hold j (hne j hj)] at hd
    exact hm.spare j d (by omega) hlimit hd
  · rw [hold j (hne j hj)] at hd
    exact hm.unmade j (by omega) hlimit hd
  · simp [hnone]
  · simp [hnone, hfree]
  · rwa [hgrown]
  · rwa [hgrown]

theorem reuse {i : UInt32} {free : List UInt32} (hm : Mirrors ρ a a') (hf : a.free = i :: free) (v : Value) :
    Placed ρ (a.allocate v) (a'.allocate (ρ.value v)) := by
  obtain ⟨rest, hfree, hlt, hcount, hrest⟩ := hm.free
  have hi : i.toNat < a.cells.size := hm.within i (by simp [hf])
  obtain ⟨c, hc⟩ : ∃ c, a.cells[i.toNat]? = some c := ⟨_, Array.getElem?_eq_getElem hi⟩
  have hset := hm.setCell hi ⟨v, c.generation, true, false, false⟩
  rw [hf] at hfree
  rw [allocate_of_free hf hc, allocate_of_free hfree (hm.cells i c hc)]
  refine ⟨rfl, Nat.lt_of_lt_of_le hi hm.size_le, Nat.add_le_add_right hm.live 1, hset.size, hset.cells,
    hset.spare, hset.unmade, ?_, rest, rfl, ?_, ?_, ?_⟩
  · exact fun j hj => hset.within j (by simp [Arena.setCell, hf, hj])
  · simpa [Arena.setCell] using hlt
  · simpa [Arena.setCell] using hcount
  · simpa [Arena.setCell] using hrest

theorem size_lt (hm : Mirrors ρ a a') (hf : a.free = []) (hample : a'.Ample) : a.cells.size < ρ.limit := by
  obtain ⟨rest, hfree, -, hcount, -⟩ := hm.free
  have hsize := hm.size
  rw [hf, List.map_nil, List.nil_append] at hfree
  cases rest with
  | nil =>
    have hlast := hample hfree
    rw [List.length_nil] at hcount
    omega
  | cons i rest =>
    rw [List.length_cons] at hcount
    omega

theorem next_place (hroom : a.cells.size < ρ.limit) :
    a.cells.size.toUInt32.toNat = a.cells.size :=
  UInt32.toNat_ofNat_of_lt' (Nat.lt_of_lt_of_le hroom ρ.limit_le)

/-- A slot that is free in the second arena only is used when the first one makes a new slot. -/
theorem take {i : UInt32} {rest : List UInt32} (hm : Mirrors ρ a a') (hf : a.free = [])
    (hf' : a'.free = i :: rest) (hroom : a.cells.size < ρ.limit) (v : Value) :
    Placed ρ (a.allocate v) (a'.allocate (ρ.value v)) := by
  obtain ⟨spares, hfree, hlt, hcount, hrest⟩ := hm.free
  obtain rfl : i :: rest = spares := by simpa [hf, hf'] using hfree
  have hplace := next_place hroom
  have hfirst := hrest 0 hroom
  rw [Nat.add_zero] at hfirst
  obtain rfl : i = ρ.index a.cells.size.toUInt32 := (UInt32.toNat_inj.1 hfirst).symm
  have hi := hlt _ List.mem_cons_self
  obtain ⟨d, hd⟩ : ∃ d, a'.cells[(ρ.index a.cells.size.toUInt32).toNat]? = some d :=
    ⟨_, Array.getElem?_eq_getElem hi⟩
  have hgeneration := (hm.spare _ d (Nat.le_of_eq hplace.symm) (hplace.symm ▸ hroom) hd).2
  rw [allocate_of_full hf (Nat.lt_of_lt_of_le hroom ρ.limit_le), allocate_of_free hf' hd, hgeneration]
  refine ⟨by simp [Renaming.handle], hplace.symm ▸ hroom, ?_⟩
  refine hm.push hplace (Nat.add_le_add_right hm.live 1) ?_ rfl rfl ?_ (fun j hj => ?_) rfl ?_ ?_ fun k hk => ?_
  · simpa using hm.size
  · simp [hi, Renaming.cell]
  · exact Array.getElem?_setIfInBounds_ne fun he => hj (ρ.index_injective (UInt32.toNat_inj.1 he)).symm
  · simpa using fun i hi => hlt i (List.mem_cons_of_mem _ hi)
  · simp only [List.length_cons] at hcount
    simp only [Array.size_setIfInBounds]
    omega
  · have hnext := hrest (k + 1) (by omega)
    simpa [Nat.add_assoc, Nat.add_comm 1] using hnext

theorem grow (hm : Mirrors ρ a a') (hf : a.free = []) (hf' : a'.free = []) (hroom : a.cells.size < ρ.limit)
    (hlast : a'.cells.size < 2 ^ 32) (v : Value) : Placed ρ (a.allocate v) (a'.allocate (ρ.value v)) := by
  obtain ⟨spares, hfree, -, hcount, hrest⟩ := hm.free
  obtain rfl : [] = spares := by simpa [hf, hf'] using hfree
  have hplace := next_place hroom
  have hnew : (ρ.index a.cells.size.toUInt32).toNat = a'.cells.size := hrest 0 hroom
  have hindex : ρ.index a.cells.size.toUInt32 = a'.cells.size.toUInt32 :=
    UInt32.toNat_inj.1 (hnew.trans (UInt32.toNat_ofNat_of_lt' hlast).symm)
  have hgeneration := hm.unmade _ (Nat.le_of_eq hplace.symm) (hplace.symm ▸ hroom) (by simp [hnew])
  rw [allocate_of_full hf (Nat.lt_of_lt_of_le hroom ρ.limit_le), allocate_of_full hf' hlast]
  refine ⟨by simp [Renaming.handle, hindex, hgeneration], hplace.symm ▸ hroom, ?_⟩
  refine hm.push hplace (Nat.add_le_add_right hm.live 1) ?_ rfl rfl ?_ (fun j hj => ?_) rfl
    (List.forall_mem_nil _) ?_ fun k hk => ?_
  · rwa [Array.size_push]
  · simp [hnew, Renaming.cell, hgeneration]
  · have hne : (ρ.index j).toNat ≠ a'.cells.size := fun he =>
      hj (ρ.index_injective (UInt32.toNat_inj.1 (he.trans hnew.symm)))
    simp [Array.getElem?_push, hne]
  · simp only [List.length_nil, Array.size_push] at hcount ⊢
    omega
  · have hnext := hrest (k + 1) (by omega)
    simpa [Nat.add_assoc, Nat.add_comm 1] using hnext

theorem allocate (hm : Mirrors ρ a a') (hample : a'.Ample) (v : Value) :
    Placed ρ (a.allocate v) (a'.allocate (ρ.value v)) := by
  cases hf : a.free with
  | cons i free => exact hm.reuse hf v
  | nil =>
    have hroom := hm.size_lt hf hample
    cases hf' : a'.free with
    | cons i rest => exact hm.take hf hf' hroom v
    | nil => exact hm.grow hf hf' hroom (hample hf') v

end Mirrors

end Arena

namespace Renaming

def binding (ρ : Renaming) : Binding → Binding
  | .fixed v => .fixed (ρ.value v)
  | .cell h => .cell (ρ.handle h)
  | .borrowed h => .borrowed (ρ.handle h)
  | .captured h => .captured (ρ.handle h)

@[simp] theorem binding_cell (ρ : Renaming) (h : CellHandle) :
    ρ.binding (.cell h) = .cell (ρ.handle h) := rfl

@[simps]
def frame (ρ : Renaming) (f : Frame) : Frame :=
  { f with
    registers := f.registers.map ρ.value
    bindings := f.bindings.map fun e => (e.1, ρ.binding e.2)
    owned := f.owned.map ρ.handle
    borrow := f.borrow.map ρ.handle
    loop := f.loop.map ρ.loop }

def trap (ρ : Renaming) : Trap → Trap
  | .script e => .script (ρ.fault e)
  | .cell e => .cell e

end Renaming

/-- Both hosts hand out corresponding numbers from now on, and the same text has been written since
`old` and `old'` were the texts so far. -/
structure Host.Mirrors (ρ : Renaming) (old old' : List Text) (h h' : Host) : Prop where
  numbers : ∀ k, ρ.number (h.nextId + k) = h'.nextId + k
  dated : ρ.time ≤ h.nextId
  output : ∃ new, h.console.out = new ++ old ∧ h'.console.out = new ++ old'

/-- What is remembered of functions that are tagged for it does not count. Where cells are given up, all
slots have their counterparts. -/
structure Machine.Mirrors (s : Setup) (ρ : Renaming) (old old' : List Text) (m m' : Machine) : Prop where
  whole : s.options.keepCells = false → ρ.limit = 2 ^ 32
  frames : m'.frames = m.frames.map ρ.frame
  arena : m.arena.Mirrors ρ m'.arena
  halted : m'.halted = m.halted.map ρ.value
  result : m'.entryResult = ρ.value m.entryResult
  location : m'.location = m.location
  trace : m'.faultTrace = m.faultTrace
  pinned : m'.pinned = m.pinned.map ρ.handle
  run : m'.runId = ρ.number m.runId
  dated : ρ.time ≤ m.runId
  host : m.host.Mirrors ρ old old' m'.host

end ScriptMachine
