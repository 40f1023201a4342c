import ScriptMachine.Arena
import Mathlib.Algebra.Group.Nat.Defs
import Mathlib.Data.List.Nodup

set_option autoImplicit false

/-!
# Cells by their handles

An arena is seen as a partial map from handles to cells. Every operation changes the map at one
handle, and at most one handle of a slot is alive at a time, whatever the generations are. A slot has
one of 2^32 numbers, so that a new cell has a slot of its own only while fewer cells are in use.
-/
namespace ScriptMachine

namespace Arena

/-- The cell of a handle that is alive. -/
def look (a : Arena) (h : CellHandle) : Option Cell :=
  (a.cells[h.index.toNat]?).filter fun c => c.occupied && c.generation == h.generation

structure WellFormed (a : Arena) : Prop where
  counted : a.live = a.cells.countP (·.occupied)
  size : a.cells.size ≤ 2 ^ 32
  distinct : a.free.Nodup
  listed : ∀ i : UInt32, i ∈ a.free ↔ ∃ c, a.cells[i.toNat]? = some c ∧ c.occupied = false

/-- Fewer than 2^32 cells are in use. -/
def Roomy (a : Arena) : Prop := a.live < 2 ^ 32

instance decidableRoomy (a : Arena) : Decidable a.Roomy := inferInstanceAs (Decidable (_ < _))

variable {a a' : Arena} {h k : CellHandle} {c c' d : Cell}

theorem look_eq_some : a.look h = some c ↔
    a.cells[h.index.toNat]? = some c ∧ c.occupied = true ∧ c.generation = h.generation := by
  simp [look, Option.filter_eq_some_iff]

theorem cell_of_look (hl : a.look h = some c) : a.cell h = .ok c := by
  obtain ⟨hc, ho, hg⟩ := look_eq_some.1 hl
  simp [cell, hc, ho, hg]

theorem look_of_cell (hc : a.cell h = .ok c) : a.look h = some c := by
  unfold cell at hc
  split at hc
  · cases hc
  · split at hc
    · rename_i hi hb
      cases hc
      simpa [look_eq_some, hi] using hb
    · cases hc

theorem cell_of_none (hl : a.look h = none) : ∃ e, a.cell h = .error e := by
  cases hc : a.cell h with
  | error e => exact ⟨e, rfl⟩
  | ok c =>
    rw [look_of_cell hc] at hl
    cases hl

theorem cell_error_payload {e : Fault} (hc : a.cell h = .error e) : e.payload = none := by
  unfold cell at hc
  split at hc
  · cases hc
    rfl
  · split at hc
    · cases hc
    · cases hc
      rfl

def conflict : Fault := .borrowConflict "Value is already mutably borrowed"

theorem alive_iff : a.alive h = true ↔ ∃ c, a.look h = some c := by
  unfold alive
  constructor
  · intro hb
    split at hb
    · cases hb
    · rename_i c hc
      exact ⟨c, by simpa [look_eq_some, hc] using hb⟩
  · rintro ⟨c, hl⟩
    obtain ⟨hc, ho, hg⟩ := look_eq_some.1 hl
    simp [hc, ho, hg]

theorem isBorrowed_iff : a.isBorrowed h = .ok true ↔ ∃ c, a.look h = some c ∧ c.exclusive = true := by
  constructor
  · intro hb
    cases hl : a.look h with
    | none =>
      obtain ⟨e, he⟩ := cell_of_none hl
      simp [isBorrowed, he, bind, Except.bind] at hb
    | some c =>
      simp only [isBorrowed, cell_of_look hl, bind, Except.bind] at hb
      cases hx : c.exclusive with
      | true => exact ⟨c, rfl, hx⟩
      | false =>
        rw [hx] at hb
        cases hb
  · rintro ⟨c, hl, hx⟩
    simp only [isBorrowed, cell_of_look hl, bind, Except.bind, hx]
    rfl

theorem isPinned_of_look (hl : a.look h = some c) (hp : c.pinned = true) :
    a.isPinned h = .ok true := by
  simp only [isPinned, cell_of_look hl, bind, Except.bind, hp]
  rfl

theorem place_ne (hi : k.index ≠ h.index) : h.index.toNat ≠ k.index.toNat := fun he =>
  hi (UInt32.toNat_inj.1 he.symm)

theorem handle_eq_iff (hi : k.index = h.index) : k = h ↔ k.generation = h.generation := by
  cases k
  cases h
  cases hi
  simp

theorem look_unique (hl : a.look h = some c) (hk : a.look k = some c') (hi : h.index = k.index) :
    h = k := by
  obtain ⟨hc, -, hg⟩ := look_eq_some.1 hl
  obtain ⟨hc', -, hg'⟩ := look_eq_some.1 hk
  rw [hi, hc'] at hc
  cases hc
  exact (handle_eq_iff hi).2 (hg.symm.trans hg')

theorem look_setCell (hl : a.look h = some c) (ho : d.occupied = true)
    (hg : d.generation = c.generation) (k : CellHandle) :
    (a.setCell h.index.toNat d).look k = if k = h then some d else a.look k := by
  obtain ⟨hc, hoc, hgc⟩ := look_eq_some.1 hl
  have hlt : h.index.toNat < a.cells.size := (Array.getElem?_eq_some_iff.1 hc).1
  by_cases hk : k.index = h.index
  · have hold : a.look k = if k = h then some c else none := by
      split
      · rename_i he
        rw [he, hl]
      · rename_i hne
        refine Option.eq_none_iff_forall_ne_some.2 fun e he => hne ?_
        exact look_unique he hl hk
    have hnew : (a.setCell h.index.toNat d).look k = if k = h then some d else none := by
      have hkh : k = h ↔ d.generation = k.generation := by
        rw [handle_eq_iff hk, hg, hgc, eq_comm]
      simp [look, setCell, hk, hlt, Option.filter, ho, hkh]
    rw [hnew, hold]
    split
    · rfl
    · rfl
  · have hne : k ≠ h := fun he => hk (he ▸ rfl)
    rw [if_neg hne]
    simp [look, setCell, Array.getElem?_setIfInBounds_ne (place_ne hk)]

/-- What a handle names was there before, or is the cell that was changed. -/
theorem look_setCell_cases (hl : a.look h = some c) (ho : d.occupied = true)
    (hg : d.generation = c.generation) (k : CellHandle) :
    (k = h ∧ a.look k = some c ∧ (a.setCell h.index.toNat d).look k = some d) ∨
      (a.setCell h.index.toNat d).look k = a.look k := by
  rw [look_setCell hl ho hg]
  split
  · rename_i he
    exact .inl ⟨he, he ▸ hl, rfl⟩
  · exact .inr rfl

theorem setCell_cells (hl : a.look h = some c) (d : Cell) (j : Nat) :
    (a.setCell h.index.toNat d).cells[j]? = if j = h.index.toNat then some d else a.cells[j]? := by
  have hlt := (Array.getElem?_eq_some_iff.1 (look_eq_some.1 hl).1).1
  rw [setCell, Array.getElem?_setIfInBounds, if_pos hlt]
  simp only [eq_comm]

theorem slots_of_places {cells cells' : Array Cell} {i : UInt32} {x : Option Cell}
    (h : ∀ j, cells'[j]? = if j = i.toNat then x else cells[j]?) (j : UInt32) :
    cells'[j.toNat]? = if j = i then x else cells[j.toNat]? := by
  simp only [h, UInt32.toNat_inj]

theorem WellFormed.put {i : UInt32} (ha : a.WellFormed) (hcounted : a'.live = a'.cells.countP (·.occupied))
    (hdistinct : a'.free.Nodup)
    (hcells : ∀ j, a'.cells[j]? = if j = i.toNat then some d else a.cells[j]?)
    (hfree : ∀ j, j ∈ a'.free ↔ if j = i then d.occupied = false else j ∈ a.free) : a'.WellFormed := by
  refine ⟨hcounted, ?_, hdistinct, fun j => ?_⟩
  · refine Nat.le_of_not_lt fun hlt => ?_
    have hlast := Array.getElem?_eq_getElem hlt
    rw [hcells, if_neg (Nat.ne_of_gt i.toNat_lt), Array.getElem?_eq_none ha.size] at hlast
    cases hlast
  · rw [hfree, slots_of_places hcells]
    split
    · exact ⟨fun hd => ⟨d, rfl, hd⟩, fun ⟨c, hc, ho⟩ => Option.some.inj hc ▸ ho⟩
    · exact ha.listed j

theorem wellFormed_setCell (ha : a.WellFormed) (hl : a.look h = some c) (ho : d.occupied = true) :
    (a.setCell h.index.toNat d).WellFormed := by
  obtain ⟨hc, hoc, -⟩ := look_eq_some.1 hl
  obtain ⟨hlt, hget⟩ := Array.getElem?_eq_some_iff.1 hc
  refine ha.put ?_ ha.distinct (setCell_cells hl d) fun j => ?_
  · have hpos : 0 < a.cells.countP (·.occupied) := by
      rw [Array.countP_pos_iff]
      exact ⟨c, hget ▸ Array.getElem_mem hlt, hoc⟩
    rw [setCell, Array.setIfInBounds_def, dif_pos hlt]
    simp only [Array.countP_set, hget, hoc, ho, if_true, ha.counted]
    omega
  · split
    · rename_i hj
      refine iff_of_false (fun hfree => ?_) (ho ▸ nofun)
      obtain ⟨e, he, hoe⟩ := (ha.listed j).1 hfree
      cases hc.symm.trans (hj ▸ he)
      exact Bool.noConfusion (hoc.symm.trans hoe)
    · exact Iff.rfl

theorem setBorrowed_of_look (hl : a.look h = some c) (hx : c.exclusive = true) (v : Value) :
    a.setBorrowed h v = .ok (a.setCell h.index.toNat { c with value := v }) := by
  simp only [setBorrowed, cell_of_look hl, bind, Except.bind, hx]
  rfl

theorem beginExclusive_of_look (hl : a.look h = some c) (hx : c.exclusive = false) :
    a.beginExclusive h = .ok (c.value, a.setCell h.index.toNat { c with exclusive := true }) := by
  simp only [beginExclusive, cell_of_look hl, bind, Except.bind, hx]
  rfl

theorem pin_of_look (hl : a.look h = some c) :
    a.pin h = .ok (a.setCell h.index.toNat { c with pinned := true }) := by
  simp only [pin, cell_of_look hl]
  rfl

theorem endBorrow_of_none (hl : a.look h = none) : a.endBorrow h = a := by
  obtain ⟨e, he⟩ := cell_of_none hl
  simp only [endBorrow, endExclusive, he, bind, Except.bind]
  rfl

theorem endBorrow_of_look (hl : a.look h = some c) :
    a.endBorrow h = a.setCell h.index.toNat { c with exclusive := false } := by
  simp only [endBorrow, endExclusive, cell_of_look hl, bind, Except.bind]
  rfl

theorem look_endBorrow (a : Arena) (h k : CellHandle) : (a.endBorrow h).look k =
    if k = h then (a.look h).map fun c => { c with exclusive := false } else a.look k := by
  cases hl : a.look h with
  | none =>
    rw [endBorrow_of_none hl]
    split
    · rename_i hk
      rw [hk, hl]
      rfl
    · rfl
  | some c =>
    obtain ⟨-, ho, -⟩ := look_eq_some.1 hl
    rw [endBorrow_of_look hl, Option.map_some]
    exact look_setCell (d := { c with exclusive := false }) hl ho rfl k

theorem wellFormed_endBorrow (ha : a.WellFormed) (h : CellHandle) : (a.endBorrow h).WellFormed := by
  cases hl : a.look h with
  | none => rwa [endBorrow_of_none hl]
  | some c =>
    rw [endBorrow_of_look hl]
    exact wellFormed_setCell ha hl (look_eq_some.1 hl).2.1

@[simp]
theorem endBorrow_live (a : Arena) (h : CellHandle) : (a.endBorrow h).live = a.live := by
  cases hl : a.look h with
  | none => rw [endBorrow_of_none hl]
  | some c =>
    rw [endBorrow_of_look hl]
    rfl

theorem endBorrow_lent {v : Value} (hx : c.exclusive = false)
    (hlent : ∀ k, a'.look k =
      if k = h then some { c with value := v, exclusive := true } else a.look k) (k : CellHandle) :
    (a'.endBorrow h).look k = if k = h then some { c with value := v } else a.look k := by
  have hback : ({ c with value := v, exclusive := false } : Cell) = { c with value := v } := by
    rw [← hx]
  rw [look_endBorrow, hlent h, if_pos rfl]
  split
  · exact congrArg some hback
  · rename_i hk
    rw [hlent, if_neg hk]

def vacate (a : Arena) (h : CellHandle) (c : Cell) : Arena :=
  { a.setCell h.index.toNat ⟨.none, c.generation + 1, false, false, false⟩ with
    free := h.index :: a.free, live := a.live - 1 }

theorem release_eq_vacate (hl : a.look h = some c) (hx : c.exclusive = false) :
    a.release h = .ok (a.vacate h c) := by
  simp only [release, cell_of_look hl, hx, bind, Except.bind]
  rfl

theorem look_vacate (hl : a.look h = some c) (k : CellHandle) :
    (a.vacate h c).look k = if k = h then none else a.look k := by
  obtain ⟨hlt, -⟩ := Array.getElem?_eq_some_iff.1 (look_eq_some.1 hl).1
  by_cases hk : k.index = h.index
  · have hnew : (a.vacate h c).look k = none := by
      simp [look, vacate, setCell, hk, hlt, Option.filter]
    refine hnew.trans ?_
    split
    · rfl
    · rename_i hne
      refine (Option.eq_none_iff_forall_ne_some.2 fun d hd => hne ?_).symm
      exact look_unique hd hl hk
  · have hne : k ≠ h := fun he => hk (he ▸ rfl)
    rw [if_neg hne]
    simp [look, vacate, setCell, Array.getElem?_setIfInBounds_ne (place_ne hk)]

theorem wellFormed_vacate (ha : a.WellFormed) (hl : a.look h = some c) : (a.vacate h c).WellFormed := by
  obtain ⟨hc, hoc, -⟩ := look_eq_some.1 hl
  obtain ⟨hlt, hget⟩ := Array.getElem?_eq_some_iff.1 hc
  refine ha.put ?_ (List.nodup_cons.2 ⟨fun hm => ?_, ha.distinct⟩) (setCell_cells hl _) fun j => ?_
  · change a.live - 1 = Array.countP _ (a.cells.setIfInBounds h.index.toNat _)
    rw [Array.setIfInBounds_def, dif_pos hlt]
    simp [Array.countP_set, hget, hoc, ha.counted]
  · obtain ⟨e, he, hoe⟩ := (ha.listed _).1 hm
    cases hc.symm.trans he
    exact Bool.noConfusion (hoc.symm.trans hoe)
  · rw [vacate, List.mem_cons]
    split
    · exact iff_of_true (.inl ‹_›) rfl
    · exact or_iff_right ‹_›

def Loose (a : Arena) (h : CellHandle) : Prop :=
  ∃ c, a.look h = some c ∧ c.exclusive = false ∧ c.pinned = false

theorem releaseIfFree_cases (a : Arena) (h : CellHandle) :
    (a.releaseIfFree h = a ∧ ∀ c, a.look h = some c → c.exclusive = true) ∨
      ∃ c, a.look h = some c ∧ c.exclusive = false ∧ a.releaseIfFree h = a.vacate h c := by
  cases hl : a.look h with
  | none =>
    obtain ⟨e, he⟩ := cell_of_none hl
    refine .inl ⟨?_, nofun⟩
    simp only [releaseIfFree, release, he, bind, Except.bind]
    rfl
  | some c =>
    cases hx : c.exclusive with
    | true =>
      refine .inl ⟨?_, fun _ he => Option.some.inj he ▸ hx⟩
      simp only [releaseIfFree, release, cell_of_look hl, bind, Except.bind, hx]
      rfl
    | false =>
      refine .inr ⟨c, rfl, hx, ?_⟩
      rw [releaseIfFree, release_eq_vacate hl hx]
      rfl

theorem wellFormed_releaseIfFree (ha : a.WellFormed) (h : CellHandle) :
    (a.releaseIfFree h).WellFormed := by
  obtain ⟨hsame, -⟩ | ⟨c, hl, -, hsame⟩ := releaseIfFree_cases a h
  · rwa [hsame]
  · rw [hsame]
    exact wellFormed_vacate ha hl

theorem live_releaseIfFree_le (a : Arena) (h : CellHandle) : (a.releaseIfFree h).live ≤ a.live := by
  obtain ⟨hsame, -⟩ | ⟨c, -, -, hsame⟩ := releaseIfFree_cases a h
  · exact Nat.le_of_eq (by rw [hsame])
  · rw [hsame]
    exact Nat.sub_le _ _

theorem holds_iff {test : Cell → Bool} :
    a.holds h test = true ↔ ∃ c, a.look h = some c ∧ test c = true := by
  unfold holds
  constructor
  · intro ht
    split at ht
    · exact ⟨_, look_of_cell ‹_›, ht⟩
    · cases ht
  · rintro ⟨c, hl, ht⟩
    simp [cell_of_look hl, ht]

theorem discard_cases (a : Arena) (h : CellHandle) :
    (a.discard h = a ∧ ¬a.Loose h) ∨
      ∃ c, a.look h = some c ∧ c.exclusive = false ∧ c.pinned = false ∧ a.discard h = a.vacate h c := by
  unfold discard
  split
  · rename_i hp
    obtain ⟨c, hl, hp⟩ := holds_iff.1 hp
    refine .inl ⟨rfl, ?_⟩
    rintro ⟨d, hd, -, hnp⟩
    cases hl.symm.trans hd
    exact Bool.noConfusion (hp.symm.trans hnp)
  · rename_i hp
    obtain ⟨hsame, hx⟩ | ⟨c, hl, hx, hsame⟩ := releaseIfFree_cases a h
    · refine .inl ⟨hsame, ?_⟩
      rintro ⟨c, hl, hxc, -⟩
      exact Bool.noConfusion ((hx c hl).symm.trans hxc)
    · refine .inr ⟨c, hl, hx, ?_, hsame⟩
      by_contra hc
      exact hp (holds_iff.2 ⟨c, hl, Bool.of_not_eq_false hc⟩)

theorem discard_eq_self_or_releaseIfFree (a : Arena) (h : CellHandle) :
    a.discard h = a ∨ a.discard h = a.releaseIfFree h := by
  unfold discard
  split
  · exact .inl rfl
  · exact .inr rfl

theorem wellFormed_discard (ha : a.WellFormed) (h : CellHandle) : (a.discard h).WellFormed := by
  rcases discard_eq_self_or_releaseIfFree a h with hsame | hsame
  · rwa [hsame]
  · rw [hsame]
    exact wellFormed_releaseIfFree ha h

theorem live_discard_le (a : Arena) (h : CellHandle) : (a.discard h).live ≤ a.live := by
  rcases discard_eq_self_or_releaseIfFree a h with hsame | hsame
  · exact Nat.le_of_eq (by rw [hsame])
  · rw [hsame]
    exact live_releaseIfFree_le a h

theorem wellFormed_discards (ha : a.WellFormed) (hs : List CellHandle) :
    (hs.foldl discard a).WellFormed := by
  induction hs generalizing a with
  | nil => exact ha
  | cons h hs ih => exact ih (wellFormed_discard ha h)

/-- Of cells that are discarded, those that are loose are gone, and no others. -/
theorem look_discards (a : Arena) (hs : List CellHandle) :
    (∀ k c, (hs.foldl discard a).look k = some c → a.look k = some c ∧ (k ∈ hs → ¬a.Loose k)) ∧
      ∀ k c, a.look k = some c → (hs.foldl discard a).look k = none → k ∈ hs ∧ a.Loose k := by
  induction hs generalizing a with
  | nil => exact ⟨fun k c hl => ⟨hl, nofun⟩, fun k c hl hn => by simp_all⟩
  | cons h hs ih =>
    obtain ⟨hstay, hgone⟩ := ih (a.discard h)
    rcases discard_cases a h with ⟨hsame, hfirm⟩ | ⟨c, hl, hx, hp, hsame⟩
    · rw [hsame] at hstay hgone
      rw [List.foldl_cons, hsame]
      refine ⟨fun k c hl => ?_, fun k c hl hn => ?_⟩
      · obtain ⟨hl, hk⟩ := hstay k c hl
        refine ⟨hl, fun hm => ?_⟩
        rcases List.mem_cons.1 hm with rfl | hm
        · exact hfirm
        · exact hk hm
      · exact (hgone k c hl hn).imp_left (List.mem_cons_of_mem _)
    · have hlook := look_vacate hl
      rw [← hsame] at hlook
      have hback : ∀ k, k ≠ h → (a.discard h).look k = a.look k := fun k hk => by
        rw [hlook, if_neg hk]
      refine ⟨fun k c hl => ?_, fun k d hd hn => ?_⟩
      · obtain ⟨hl, hk⟩ := hstay k c hl
        have hne : k ≠ h := by
          rintro rfl
          simp [hlook] at hl
        rw [hback k hne] at hl
        refine ⟨hl, fun hm hloose => ?_⟩
        obtain ⟨d, hd, hflags⟩ := hloose
        exact hk ((List.mem_cons.1 hm).resolve_left hne) ⟨d, (hback k hne).trans hd, hflags⟩
      · by_cases hk : k = h
        · exact ⟨by simp [hk], hk ▸ ⟨c, hl, hx, hp⟩⟩
        · obtain ⟨hm, e, he, hflags⟩ := hgone k d ((hback k hk).trans hd) hn
          exact ⟨List.mem_cons_of_mem _ hm, e, (hback k hk).symm.trans he, hflags⟩

theorem wellFormed_releases (ha : a.WellFormed) (hs : List CellHandle) :
    (hs.foldl releaseIfFree a).WellFormed := by
  induction hs generalizing a with
  | nil => exact ha
  | cons h hs ih => exact ih (wellFormed_releaseIfFree ha h)

theorem look_releases (a : Arena) (hs : List CellHandle) {k : CellHandle} {c : Cell}
    (hnow : (hs.foldl releaseIfFree a).look k = some c) :
    a.look k = some c ∧ (k ∈ hs → c.exclusive = true) := by
  induction hs generalizing a with
  | nil => exact ⟨hnow, nofun⟩
  | cons h hs ih =>
    obtain ⟨hl, hk⟩ := ih (a.releaseIfFree h) hnow
    rcases releaseIfFree_cases a h with ⟨hsame, hborrowed⟩ | ⟨d, hd, -, hsame⟩
    · rw [hsame] at hl
      refine ⟨hl, fun hm => ?_⟩
      rcases List.mem_cons.1 hm with he | hm
      · exact hborrowed c (he ▸ hl)
      · exact hk hm
    · rw [hsame, look_vacate hd] at hl
      split at hl
      · cases hl
      · exact ⟨hl, fun hm => hk ((List.mem_cons.1 hm).resolve_left ‹k ≠ h›)⟩

theorem empty_wellFormed : empty.WellFormed := ⟨rfl, Nat.zero_le _, List.nodup_nil, fun _ => ⟨nofun, nofun⟩⟩

theorem live_eq_zero (ha : a.WellFormed) (hnone : ∀ h, a.look h = none) : a.live = 0 := by
  rw [ha.counted, Array.countP_eq_zero]
  intro c hc ho
  obtain ⟨i, hi, rfl⟩ := Array.mem_iff_getElem.1 hc
  have hplace : i.toUInt32.toNat = i := UInt32.toNat_ofNat_of_lt' (Nat.lt_of_lt_of_le hi ha.size)
  have hl : a.look ⟨i.toUInt32, (a.cells[i]).generation⟩ = some a.cells[i] :=
    look_eq_some.2 ⟨by rw [hplace, Array.getElem?_eq_getElem hi], ho, rfl⟩
  rw [hnone] at hl
  cases hl

theorem nextSlot_cells {j : Nat} (hc : a.nextSlot.2.2[j]? = some c) (ho : c.occupied = true) :
    a.cells[j]? = some c := by
  unfold nextSlot at hc
  split at hc
  · exact hc
  · rw [Array.getElem?_push] at hc
    split at hc
    · cases hc
      cases ho
    · exact hc

/-- What is alive after a cell has been made is that cell or was alive before, even where a slot is filled that
is in use. -/
theorem look_of_allocate {v : Value} (hl : (a.allocate v).2.look k = some c) :
    k = (a.allocate v).1 ∧ c = ⟨v, (a.allocate v).1.generation, true, false, false⟩ ∨
      k ≠ (a.allocate v).1 ∧ a.look k = some c := by
  obtain ⟨hc, ho, hg⟩ := look_eq_some.1 hl
  simp only [allocate, Array.getElem?_setIfInBounds] at hc
  split at hc
  · rename_i hi
    split at hc
    · cases hc
      exact .inl ⟨(handle_eq_iff (UInt32.toNat_inj.1 hi).symm).2 hg.symm, rfl⟩
    · cases hc
  · rename_i hi
    refine .inr ⟨?_, look_eq_some.2 ⟨nextSlot_cells hc ho, ho, hg⟩⟩
    rintro rfl
    exact hi rfl

theorem WellFormed.size_lt (ha : a.WellFormed) (hroom : a.Roomy) (hf : a.free = []) :
    a.cells.size < 2 ^ 32 := by
  have hfull : a.cells.countP (·.occupied) = a.cells.size := by
    refine Array.countP_eq_size.2 fun c hc => ?_
    obtain ⟨i, hi, rfl⟩ := Array.mem_iff_getElem.1 hc
    by_contra ho
    have hplace : i.toUInt32.toNat = i := UInt32.toNat_ofNat_of_lt' (Nat.lt_of_lt_of_le hi ha.size)
    have hm : i.toUInt32 ∈ a.free :=
      (ha.listed _).2 ⟨a.cells[i], by rw [hplace, Array.getElem?_eq_getElem hi], Bool.eq_false_iff.2 ho⟩
    rw [hf] at hm
    cases hm
  rw [← hfull, ← ha.counted]
  exact hroom

theorem allocate_of_full (hf : a.free = []) (hsize : a.cells.size < 2 ^ 32) (v : Value) :
    a.allocate v = (⟨a.cells.size.toUInt32, 0⟩,
      ⟨a.cells.push ⟨v, 0, true, false, false⟩, [], a.live + 1⟩) := by
  have hplace : a.cells.size.toUInt32.toNat = a.cells.size := UInt32.toNat_ofNat_of_lt' hsize
  have hlast : ∀ b c : Cell, (a.cells.push b).setIfInBounds a.cells.size c = a.cells.push c := by
    intro b c
    refine Array.ext_getElem? fun j => ?_
    simp only [Array.getElem?_setIfInBounds, Array.getElem?_push, Array.size_push]
    grind
  simp only [allocate, nextSlot, hf, hplace, hlast, Array.getElem?_push_size, Option.map_some,
    Option.getD_some]

theorem allocate_of_free {i : UInt32} {free : List UInt32} (hf : a.free = i :: free)
    (hc : a.cells[i.toNat]? = some c) (v : Value) :
    a.allocate v = (⟨i, c.generation⟩,
      ⟨a.cells.setIfInBounds i.toNat ⟨v, c.generation, true, false, false⟩, free, a.live + 1⟩) := by
  simp only [allocate, nextSlot, hf, hc]
  rfl

/-- A new cell takes a slot from the free list, or a new slot. -/
theorem allocate_slot (ha : a.WellFormed) (hroom : a.Roomy) (v : Value) :
    (a.cells[(a.allocate v).1.index.toNat]? = none ∧ (a.allocate v).1 = ⟨a.cells.size.toUInt32, 0⟩ ∨
        ∃ c, a.cells[(a.allocate v).1.index.toNat]? = some c ∧ c.occupied = false ∧
          c.generation = (a.allocate v).1.generation) ∧
      (∀ j, (a.allocate v).2.cells[j]? = if j = (a.allocate v).1.index.toNat then
        some ⟨v, (a.allocate v).1.generation, true, false, false⟩ else a.cells[j]?) ∧
      ∀ j, j ∈ (a.allocate v).2.free ↔ j ∈ a.free ∧ j ≠ (a.allocate v).1.index := by
  cases hf : a.free with
  | nil =>
    have hsize := ha.size_lt hroom hf
    have hplace : a.cells.size.toUInt32.toNat = a.cells.size := UInt32.toNat_ofNat_of_lt' hsize
    rw [allocate_of_full hf hsize, hplace]
    exact ⟨.inl ⟨Array.getElem?_eq_none (Nat.le_refl _), rfl⟩, fun j => Array.getElem?_push, by simp⟩
  | cons i free =>
    have hdistinct := ha.distinct
    rw [hf] at hdistinct
    have hfresh := (List.nodup_cons.1 hdistinct).1
    obtain ⟨c, hc, ho⟩ := (ha.listed i).1 (hf ▸ List.mem_cons_self)
    rw [allocate_of_free hf hc]
    refine ⟨.inr ⟨c, hc, ho, rfl⟩, fun j => ?_, fun j => ?_⟩
    · have hlt := (Array.getElem?_eq_some_iff.1 hc).1
      rw [Array.getElem?_setIfInBounds, if_pos hlt]
      simp only [eq_comm]
    · rw [List.mem_cons]
      constructor
      · refine fun hj => ⟨.inr hj, ?_⟩
        rintro rfl
        exact hfresh hj
      · exact fun hj => hj.1.resolve_left hj.2

theorem wellFormed_allocate (ha : a.WellFormed) (hroom : a.Roomy) (v : Value) :
    (a.allocate v).2.WellFormed := by
  obtain ⟨-, hcells, hfree⟩ := allocate_slot ha hroom v
  refine ha.put ?_ ?_ hcells fun j => ?_
  · cases hf : a.free with
    | nil =>
      rw [allocate_of_full hf (ha.size_lt hroom hf)]
      simp [ha.counted]
    | cons i free =>
      obtain ⟨c, hc, ho⟩ := (ha.listed i).1 (hf ▸ List.mem_cons_self)
      obtain ⟨hlt, hget⟩ := Array.getElem?_eq_some_iff.1 hc
      rw [allocate_of_free hf hc]
      change a.live + 1 = Array.countP _ (a.cells.setIfInBounds i.toNat _)
      rw [Array.setIfInBounds_def, dif_pos hlt]
      simp [Array.countP_set, hget, ho, ha.counted]
  · have hdistinct := ha.distinct
    simp only [allocate, nextSlot]
    split
    · rename_i i free hf
      rw [hf] at hdistinct
      exact (List.nodup_cons.1 hdistinct).2
    · exact List.nodup_nil
  · rw [hfree]
    split
    · exact iff_of_false (fun hj => hj.2 ‹_›) Bool.noConfusion
    · exact and_iff_left ‹_›

/-- A new cell takes a slot in which nothing is alive. -/
theorem look_allocate (ha : a.WellFormed) (hroom : a.Roomy) (v : Value) :
    (∀ k, k.index = (a.allocate v).1.index → a.look k = none) ∧
      ∀ k, (a.allocate v).2.look k = if k = (a.allocate v).1 then
        some ⟨v, (a.allocate v).1.generation, true, false, false⟩ else a.look k := by
  obtain ⟨hslot, hcells, -⟩ := allocate_slot ha hroom v
  generalize (a.allocate v).1 = h at hslot hcells
  have hnone : ∀ k : CellHandle, k.index = h.index → a.look k = none := by
    intro k hk
    refine Option.eq_none_iff_forall_ne_some.2 fun c hl => ?_
    obtain ⟨hc, ho, -⟩ := look_eq_some.1 hl
    rw [hk] at hc
    obtain ⟨hnew, -⟩ | ⟨d, hd, hod, -⟩ := hslot
    · cases hnew.symm.trans hc
    · cases hd.symm.trans hc
      exact Bool.noConfusion (ho.symm.trans hod)
  refine ⟨hnone, fun k => ?_⟩
  by_cases hk : k.index = h.index
  · have he : k = h ↔ h.generation = k.generation := by
      rw [handle_eq_iff hk, eq_comm]
    rw [hnone k hk, look, hcells, hk, if_pos rfl]
    simp only [Option.filter, Bool.true_and, beq_iff_eq, he]
  · have hne : k ≠ h := fun he => hk (he ▸ rfl)
    rw [if_neg hne, look, hcells, if_neg (Ne.symm (place_ne hk)), look]

/-- The values that are left come from before, and no pinned cell is gone, as far as that is relied on. -/
structure Remains (trust : Prop) (a a' : Arena) : Prop where
  values : ∀ k c', a'.look k = some c' → ∃ c, a.look k = some c ∧ c'.value = c.value
  pinned : trust → ∀ k c, a.look k = some c → c.pinned = true →
    ∃ c', a'.look k = some c' ∧ c'.pinned = true

namespace Remains

variable {trust : Prop}

theorem refl (a : Arena) : Remains trust a a :=
  ⟨fun _ c hl => ⟨c, hl, rfl⟩, fun _ _ c hl hp => ⟨c, hl, hp⟩⟩

theorem trans {a'' : Arena} (h : Remains trust a a') (h' : Remains trust a' a'') : Remains trust a a'' := by
  refine ⟨fun k c hl => ?_, fun ht k c hl hp => ?_⟩
  · obtain ⟨c', hl', hv'⟩ := h'.values k c hl
    obtain ⟨c'', hl'', hv''⟩ := h.values k c' hl'
    exact ⟨c'', hl'', hv'.trans hv''⟩
  · obtain ⟨c', hl', hp'⟩ := h.pinned ht k c hl hp
    exact h'.pinned ht k c' hl' hp'

theorem endBorrow (a : Arena) (h : CellHandle) : Remains trust a (a.endBorrow h) := by
  refine ⟨fun k c hl => ?_, fun _ k c hl hp => ?_⟩
  · rw [look_endBorrow] at hl
    split at hl
    · rename_i hk
      obtain ⟨d, hd, rfl⟩ := Option.map_eq_some_iff.1 hl
      exact ⟨d, hk ▸ hd, rfl⟩
    · exact ⟨c, hl, rfl⟩
  · rw [look_endBorrow]
    split
    · rename_i hk
      rw [← hk, hl]
      exact ⟨{ c with exclusive := false }, rfl, hp⟩
    · exact ⟨c, hl, hp⟩

theorem of_gone (hback : ∀ k c, a'.look k = some c → a.look k = some c)
    (hgone : trust → ∀ k c, a.look k = some c → a'.look k = none → c.pinned = false) :
    Remains trust a a' := by
  refine ⟨fun k c hl => ⟨c, hback k c hl, rfl⟩, fun ht k c hl hp => ?_⟩
  cases hl' : a'.look k with
  | none => exact Bool.noConfusion (hp.symm.trans (hgone ht k c hl hl'))
  | some d =>
    cases hl.symm.trans (hback k d hl')
    exact ⟨c, rfl, hp⟩

theorem discards (a : Arena) (hs : List CellHandle) : Remains trust a (hs.foldl Arena.discard a) := by
  obtain ⟨hsub, hgone⟩ := look_discards a hs
  refine of_gone (fun k c hl => (hsub k c hl).1) fun _ k c hl hn => ?_
  obtain ⟨-, d, hd, -, hp⟩ := hgone k c hl hn
  cases hl.symm.trans hd
  exact hp

theorem releaseIfFree (a : Arena) (h : CellHandle) (hloose : trust → a.Loose h) :
    Remains trust a (a.releaseIfFree h) := by
  obtain ⟨hsame, -⟩ | ⟨c, hl, -, hsame⟩ := releaseIfFree_cases a h
  · rw [hsame]
    exact refl a
  · rw [hsame]
    refine of_gone (fun k d hk => ?_) fun ht k d hk hn => ?_
    · rw [look_vacate hl] at hk
      split at hk
      · cases hk
      · exact hk
    · rw [look_vacate hl] at hn
      split at hn
      · rename_i he
        obtain ⟨e, hk', -, hp⟩ := hloose ht
        cases (he ▸ hk).symm.trans hk'
        exact hp
      · cases hk.symm.trans hn

end Remains

end Arena

end ScriptMachine
