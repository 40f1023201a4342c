import ScriptMachine.Proofs.Machine.Cells
import Mathlib.Algebra.Group.Nat.Defs
import Mathlib.Data.List.Nodup

set_option autoImplicit false

/-!
# The slots of an arena

An arena answers requests one after another, in any order, with handles that are alive or stale or never were
handed out. A slot is used again and again, each time with the next generation: the handles of slot `i` are
handed out in the order `⟨i, 0⟩`, `⟨i, 1⟩`, … and taken back in the same order, and a generation comes again
only after the slot has been taken back 2^32 times. All this is about arenas in which fewer than 2^32 cells are
in use; then slots have different numbers. Main statement: `answers_requests`.
-/
namespace ScriptMachine

namespace Arena

/-- What can be asked of an arena. -/
inductive Request where
  | allocate (v : Value)
  | release (h : CellHandle)
  | read (h : CellHandle)
  | write (h : CellHandle) (v : Value)
  | beginExclusive (h : CellHandle)
  | endExclusive (h : CellHandle)
  | borrowed (h : CellHandle)
  | setBorrowed (h : CellHandle) (v : Value)
  | pin (h : CellHandle)

inductive Reply where
  | handle (h : CellHandle)
  | value (v : Value)
  | done

namespace Request

/-- The handle that a request comes with. -/
def handle? : Request → Option CellHandle
  | .allocate _ => none
  | .release h | .read h | .write h _ | .beginExclusive h | .endExclusive h | .borrowed h
  | .setBorrowed h _ | .pin h => some h

/-- Whether a request needs a cell that nobody has borrowed. -/
def isShared : Request → Bool
  | .release _ | .read _ | .write _ _ | .beginExclusive _ => true
  | _ => false

/-- Whether a request is that of the holder of a borrow. -/
def isHolders : Request → Bool
  | .borrowed _ | .setBorrowed _ _ => true
  | _ => false

def lends : Request → Bool → Bool
  | .beginExclusive _, _ => true
  | .endExclusive _, _ => false
  | _, lent => lent

end Request

/-- The answer to a request, and the arena afterwards. -/
def answer (a : Arena) : Request → Except Fault (Reply × Arena)
  | .allocate v => .ok (.handle (a.allocate v).1, (a.allocate v).2)
  | .release h => do return (.done, ← a.release h)
  | .read h => do return (.value (← a.read h), a)
  | .write h v => do return (.done, ← a.write h v)
  | .beginExclusive h => do
    let (v, a) ← a.beginExclusive h
    return (.value v, a)
  | .endExclusive h => do return (.done, ← a.endExclusive h)
  | .borrowed h => do return (.value (← a.borrowed h), a)
  | .setBorrowed h v => do return (.done, ← a.setBorrowed h v)
  | .pin h => do return (.done, ← a.pin h)

/-- The arena after a request; one that fails is as if it had not been made. -/
def after (a : Arena) (r : Request) : Arena :=
  match a.answer r with
  | .ok (_, a') => a'
  | .error _ => a

def afterAll (a : Arena) (rs : List Request) : Arena := rs.foldl after a

/-- Before each of the requests there is room for another cell. -/
def StaysRoomy : Arena → List Request → Prop
  | _, [] => True
  | a, r :: rs => a.Roomy ∧ StaysRoomy (a.after r) rs

instance decidableStaysRoomy : (a : Arena) → (rs : List Request) → Decidable (a.StaysRoomy rs)
  | _, [] => .isTrue trivial
  | a, r :: rs =>
    have := decidableStaysRoomy (a.after r) rs
    inferInstanceAs (Decidable (_ ∧ _))

/-- The handle that a request hands out. -/
def handsOut (a : Arena) (r : Request) : Option CellHandle :=
  match a.answer r with
  | .ok (.handle h, _) => some h
  | _ => none

/-- The handle that a request takes back. -/
def takesBack (a : Arena) (r : Request) : Option CellHandle :=
  match r, a.answer r with
  | .release h, .ok _ => some h
  | _, _ => none

/-- The handles that a sequence of requests hands out, in their order. -/
def handedOut : Arena → List Request → List CellHandle
  | _, [] => []
  | a, r :: rs => (a.handsOut r).toList ++ handedOut (a.after r) rs

def takenBack : Arena → List Request → List CellHandle
  | _, [] => []
  | a, r :: rs => (a.takesBack r).toList ++ takenBack (a.after r) rs

/-- Every slot is either occupied or blank and on the free list, where it stands once. -/
structure Tidy (a : Arena) : Prop extends WellFormed a where
  blank : ∀ c ∈ a.cells, c.occupied = false → c.value = .none ∧ c.exclusive = false ∧ c.pinned = false

/-- A request fails with the given kind of fault. -/
def Refuses (a : Arena) (r : Request) (kind : FaultKind) : Prop := ∃ e, a.answer r = .error e ∧ e.kind = kind

/-- Which requests fail, and how; and what those that begin and end a borrow do when they do not. -/
structure Guarded (a : Arena) : Prop where
  unchanged : ∀ r e, a.answer r = .error e → a.after r = a
  allocates : ∀ v, (a.answer (.allocate v)).isOk
  dead : ∀ r h, r.handle? = some h → a.alive h = false → a.Refuses r .runtimeError
  lent : ∀ r h, r.handle? = some h → a.isBorrowed h = .ok true →
    if r.isShared then a.Refuses r .borrowConflict else (a.answer r).isOk
  unlent : ∀ r h, r.handle? = some h → a.isBorrowed h = .ok false →
    if r.isHolders then a.Refuses r .runtimeError else (a.answer r).isOk
  begun : ∀ h, (a.answer (.beginExclusive h)).isOk → (a.after (.beginExclusive h)).isBorrowed h = .ok true
  ended : ∀ h, (a.answer (.endExclusive h)).isOk → (a.after (.endExclusive h)).isBorrowed h = .ok false

variable {a a' : Arena} {h k : CellHandle} {c d : Cell} {r : Request} {n : Nat}

theorem look_eq_none_iff : a.look h = none ↔ a.alive h = false := by
  rw [← Bool.not_eq_true, alive_iff, not_exists, Option.eq_none_iff_forall_ne_some]

theorem isBorrowed_of_look (hl : a.look h = some c) : a.isBorrowed h = .ok c.exclusive := by
  rw [isBorrowed, cell_of_look hl]
  rfl

theorem cell_error_kind {e : Fault} (hc : a.cell h = .error e) : e.kind = .runtimeError := by
  unfold cell at hc
  split at hc
  · cases hc
    rfl
  · split at hc <;> cases hc
    rfl

theorem answer_of_cell_error {e : Fault} (hr : r.handle? = some h) (hc : a.cell h = .error e) :
    a.answer r = .error e := by
  cases r <;> cases hr <;> simp only [answer, Arena.release, Arena.read, Arena.write, Arena.beginExclusive,
    Arena.endExclusive, Arena.borrowed, Arena.setBorrowed, Arena.pin, hc] <;> rfl

theorem idle_of_error {e : Fault} (he : a.answer r = .error e) :
    a.handsOut r = none ∧ a.takesBack r = none ∧ a.after r = a := by
  refine ⟨by rw [handsOut, he], ?_, by rw [after, he]⟩
  unfold takesBack
  rw [he]
  split
  · cases ‹Except.error e = _›
  · rfl

/-- A request with a handle that is alive is refused for the sake of a borrow, or the slot is given up, or its
cell is changed and stays occupied. -/
inductive Served (a : Arena) (h : CellHandle) (c : Cell) (r : Request) : Prop where
  | lent (e : Fault) : a.answer r = .error e → c.exclusive = true → r.isShared → e.kind = .borrowConflict →
      Served a h c r
  | unlent (e : Fault) : a.answer r = .error e → c.exclusive = false → r.isHolders → e.kind = .runtimeError →
      Served a h c r
  | released : r = .release h → c.exclusive = false → a.answer r = .ok (.done, a.vacate h c) → Served a h c r
  | changed (reply : Reply) (d : Cell) : a.answer r = .ok (reply, a.setCell h.index.toNat d) →
      (∀ k, reply ≠ .handle k) → (∀ k, r ≠ .release k) →
      (c.exclusive = true → r.isShared = false) → (c.exclusive = false → r.isHolders = false) →
      d.occupied = c.occupied → d.generation = c.generation → d.exclusive = r.lends c.exclusive →
      Served a h c r

theorem setCell_self (hl : a.look h = some c) : a.setCell h.index.toNat c = a := by
  obtain ⟨hc, -, -⟩ := look_eq_some.1 hl
  obtain ⟨hlt, rfl⟩ := Array.getElem?_eq_some_iff.1 hc
  rw [setCell, Array.setIfInBounds_def, dif_pos hlt, Array.set_getElem_self]

theorem served_shared {e : Fault} {reply : Reply} {d : Cell}
    (h : a.answer r = if c.exclusive then .error e else .ok (reply, a.setCell k.index.toNat d))
    (hr : r.isShared) (hh : r.isHolders = false) (hrelease : ∀ k, r ≠ .release k)
    (hreply : ∀ k, reply ≠ .handle k) (he : e.kind = .borrowConflict) (ho : d.occupied = c.occupied)
    (hg : d.generation = c.generation) (hd : d.exclusive = r.lends c.exclusive) : Served a k c r := by
  cases hx : c.exclusive with
  | true =>
    rw [hx, if_pos rfl] at h
    exact .lent e h hx hr he
  | false =>
    rw [hx, if_neg Bool.false_ne_true] at h
    exact .changed reply d h hreply hrelease (fun hx' => absurd (hx.symm.trans hx') Bool.false_ne_true)
      (fun _ => hh) ho hg hd

theorem served_holders {e : Fault} {reply : Reply} {d : Cell}
    (h : a.answer r = if c.exclusive then .ok (reply, a.setCell k.index.toNat d) else .error e)
    (hr : r.isHolders) (hs : r.isShared = false) (hrelease : ∀ k, r ≠ .release k)
    (hreply : ∀ k, reply ≠ .handle k) (he : e.kind = .runtimeError) (ho : d.occupied = c.occupied)
    (hg : d.generation = c.generation) (hd : d.exclusive = r.lends c.exclusive) : Served a k c r := by
  cases hx : c.exclusive with
  | true =>
    rw [hx, if_pos rfl] at h
    exact .changed reply d h hreply hrelease (fun _ => hs)
      (fun hx' => absurd (hx'.symm.trans hx) Bool.false_ne_true) ho hg hd
  | false =>
    rw [hx, if_neg Bool.false_ne_true] at h
    exact .unlent e h hx hr he

section
variable (hl : a.look h = some c)
include hl

theorem answer_read :
    a.answer (.read h) =
      if c.exclusive then .error conflict else .ok (.value c.value, a.setCell h.index.toNat c) := by
  simp only [answer, Arena.read, cell_of_look hl, setCell_self hl, bind, Except.bind]
  cases c.exclusive <;> rfl

theorem answer_write (v : Value) :
    a.answer (.write h v) =
      if c.exclusive then .error conflict else .ok (.done, a.setCell h.index.toNat { c with value := v }) := by
  simp only [answer, Arena.write, cell_of_look hl, bind, Except.bind]
  cases c.exclusive <;> rfl

theorem answer_beginExclusive :
    a.answer (.beginExclusive h) = if c.exclusive then .error conflict else
      .ok (.value c.value, a.setCell h.index.toNat { c with exclusive := true }) := by
  simp only [answer, Arena.beginExclusive, cell_of_look hl, bind, Except.bind]
  cases c.exclusive <;> rfl

theorem answer_endExclusive :
    a.answer (.endExclusive h) = .ok (.done, a.setCell h.index.toNat { c with exclusive := false }) := by
  simp only [answer, Arena.endExclusive, cell_of_look hl, bind, Except.bind]
  rfl

theorem answer_borrowed :
    a.answer (.borrowed h) = if c.exclusive then .ok (.value c.value, a.setCell h.index.toNat c) else
      .error (.runtimeError (h.describe ++ " is not borrowed")) := by
  simp only [answer, Arena.borrowed, cell_of_look hl, setCell_self hl, bind, Except.bind]
  cases c.exclusive <;> rfl

theorem answer_setBorrowed (v : Value) :
    a.answer (.setBorrowed h v) = if c.exclusive then .ok (.done, a.setCell h.index.toNat { c with value := v }) else
      .error (.runtimeError (h.describe ++ " is not borrowed")) := by
  simp only [answer, Arena.setBorrowed, cell_of_look hl, bind, Except.bind]
  cases c.exclusive <;> rfl

theorem answer_pin : a.answer (.pin h) = .ok (.done, a.setCell h.index.toNat { c with pinned := true }) := by
  simp only [answer, Arena.pin, cell_of_look hl, bind, Except.bind]
  rfl

theorem served_release : Served a h c (.release h) := by
  cases hx : c.exclusive with
  | true =>
    have hanswer : a.answer (.release h) =
        .error (.borrowConflict ("Cannot release " ++ h.describe ++ " while it is borrowed")) := by
      simp only [answer, Arena.release, cell_of_look hl, hx, bind, Except.bind]
      rfl
    exact .lent _ hanswer hx rfl rfl
  | false =>
    refine .released rfl hx ?_
    rw [answer, release_eq_vacate hl hx]
    rfl

theorem served_of_look (hr : r.handle? = some h) : Served a h c r := by
  cases r with
  | allocate => cases hr
  | release =>
    cases hr
    exact served_release hl
  | read =>
    cases hr
    exact served_shared (answer_read hl) rfl rfl nofun nofun rfl rfl rfl rfl
  | write _ v =>
    cases hr
    exact served_shared (answer_write hl v) rfl rfl nofun nofun rfl rfl rfl rfl
  | beginExclusive =>
    cases hr
    exact served_shared (answer_beginExclusive hl) rfl rfl nofun nofun rfl rfl rfl rfl
  | endExclusive =>
    cases hr
    exact .changed _ _ (answer_endExclusive hl) nofun nofun (fun _ => rfl) (fun _ => rfl) rfl rfl rfl
  | borrowed =>
    cases hr
    exact served_holders (answer_borrowed hl) rfl rfl nofun nofun rfl rfl rfl rfl
  | setBorrowed _ v =>
    cases hr
    exact served_holders (answer_setBorrowed hl v) rfl rfl nofun nofun rfl rfl rfl rfl
  | pin =>
    cases hr
    exact .changed _ _ (answer_pin hl) nofun nofun (fun _ => rfl) (fun _ => rfl) rfl rfl rfl

end

theorem isOk_of_eq {x : Reply × Arena} (h : a.answer r = .ok x) : (a.answer r).isOk := by
  rw [h]
  rfl

theorem Served.of_lent (h : Served a k c r) (hx : c.exclusive = true) :
    if r.isShared then a.Refuses r .borrowConflict else (a.answer r).isOk := by
  cases h with
  | lent e he _ hs hk =>
    rw [if_pos hs]
    exact ⟨e, he, hk⟩
  | unlent _ _ hx' => exact absurd (hx'.symm.trans hx) Bool.false_ne_true
  | released _ hx' => exact absurd (hx'.symm.trans hx) Bool.false_ne_true
  | changed _ _ ha _ _ hs =>
    rw [hs hx, if_neg Bool.false_ne_true]
    exact isOk_of_eq ha

theorem Served.of_unlent (h : Served a k c r) (hx : c.exclusive = false) :
    if r.isHolders then a.Refuses r .runtimeError else (a.answer r).isOk := by
  cases h with
  | lent _ _ hx' => exact absurd (hx.symm.trans hx') Bool.false_ne_true
  | unlent e he _ hh hk =>
    rw [if_pos hh]
    exact ⟨e, he, hk⟩
  | released hr _ ha =>
    rw [hr] at ha ⊢
    exact isOk_of_eq ha
  | changed _ _ ha _ _ _ hh =>
    rw [hh hx, if_neg Bool.false_ne_true]
    exact isOk_of_eq ha

theorem look_of_isBorrowed {b : Bool} (hb : a.isBorrowed h = .ok b) :
    ∃ c, a.look h = some c ∧ c.exclusive = b := by
  cases hl : a.look h with
  | none =>
    obtain ⟨e, he⟩ := cell_of_none hl
    rw [isBorrowed, he] at hb
    cases hb
  | some c =>
    rw [isBorrowed_of_look hl] at hb
    exact ⟨c, rfl, Except.ok.inj hb⟩

theorem look_of_isOk (hr : r.handle? = some h) (hok : (a.answer r).isOk) : ∃ c, a.look h = some c := by
  cases hl : a.look h with
  | some c => exact ⟨c, rfl⟩
  | none =>
    obtain ⟨e, he⟩ := cell_of_none hl
    rw [answer_of_cell_error hr he] at hok
    cases hok

theorem after_of_ok {x : Reply × Arena} (hx : a.answer r = .ok x) : a.after r = x.2 := by
  rw [after, hx]

theorem look_after_endExclusive (hl : a.look h = some c) (k : CellHandle) :
    (a.after (.endExclusive h)).look k = if k = h then some { c with exclusive := false } else a.look k := by
  rw [after_of_ok (answer_endExclusive hl)]
  exact look_setCell (d := { c with exclusive := false }) hl (look_eq_some.1 hl).2.1 rfl k

theorem look_after_beginExclusive (hl : a.look h = some c) (hx : c.exclusive = false) (k : CellHandle) :
    (a.after (.beginExclusive h)).look k = if k = h then some { c with exclusive := true } else a.look k := by
  have hanswer := answer_beginExclusive hl
  rw [hx, if_neg Bool.false_ne_true] at hanswer
  rw [after_of_ok hanswer]
  exact look_setCell (d := { c with exclusive := true }) hl (look_eq_some.1 hl).2.1 rfl k

theorem guarded (a : Arena) : a.Guarded where
  unchanged _ _ he := (idle_of_error he).2.2
  allocates _ := rfl
  dead r h hr hdead := by
    obtain ⟨e, he⟩ := cell_of_none (look_eq_none_iff.2 hdead)
    exact ⟨e, answer_of_cell_error hr he, cell_error_kind he⟩
  lent r h hr hb := by
    obtain ⟨c, hl, hx⟩ := look_of_isBorrowed hb
    exact (served_of_look hl hr).of_lent hx
  unlent r h hr hb := by
    obtain ⟨c, hl, hx⟩ := look_of_isBorrowed hb
    exact (served_of_look hl hr).of_unlent hx
  begun h hok := by
    obtain ⟨c, hl⟩ := look_of_isOk rfl hok
    cases hx : c.exclusive with
    | false => exact isBorrowed_of_look ((look_after_beginExclusive hl hx h).trans (if_pos rfl))
    | true =>
      rw [answer_beginExclusive hl, hx] at hok
      cases hok
  ended h hok := by
    obtain ⟨c, hl⟩ := look_of_isOk rfl hok
    exact isBorrowed_of_look ((look_after_endExclusive hl h).trans (if_pos rfl))

/-- What a request does: it hands a handle out, or takes one back, or fails, or changes a cell that stays
occupied. -/
theorem after_cases (a : Arena) (r : Request) :
    (∃ v, r = .allocate v ∧ a.handsOut r = some (a.allocate v).1 ∧ a.takesBack r = none ∧
        a.after r = (a.allocate v).2) ∨
      (∃ h c, r = .release h ∧ a.handsOut r = none ∧ a.takesBack r = some h ∧ a.look h = some c ∧
        c.exclusive = false ∧ a.after r = a.vacate h c) ∨
      a.handsOut r = none ∧ a.takesBack r = none ∧ (a.after r = a ∧ ¬(a.answer r).isOk ∨
        ∃ h c d, r.handle? = some h ∧ (a.answer r).isOk ∧ a.look h = some c ∧ d.occupied = c.occupied ∧
          d.generation = c.generation ∧ d.exclusive = r.lends c.exclusive ∧
          a.after r = a.setCell h.index.toNat d) := by
  have hfails : ∀ {e : Fault}, a.answer r = .error e → ¬(a.answer r).isOk := fun he => by
    rw [he]
    exact Bool.false_ne_true
  cases hr : r.handle? with
  | none =>
    cases r with
    | allocate v => exact .inl ⟨v, rfl, rfl, rfl, rfl⟩
    | _ => cases hr
  | some h =>
    refine .inr ?_
    cases hl : a.look h with
    | none =>
      obtain ⟨e, he⟩ := cell_of_none hl
      have hanswer := answer_of_cell_error hr he
      obtain ⟨hout, hback, hafter⟩ := idle_of_error hanswer
      exact .inr ⟨hout, hback, .inl ⟨hafter, hfails hanswer⟩⟩
    | some c =>
      cases served_of_look hl hr with
      | lent e he =>
        obtain ⟨hout, hback, hafter⟩ := idle_of_error he
        exact .inr ⟨hout, hback, .inl ⟨hafter, hfails he⟩⟩
      | unlent e he =>
        obtain ⟨hout, hback, hafter⟩ := idle_of_error he
        exact .inr ⟨hout, hback, .inl ⟨hafter, hfails he⟩⟩
      | released hrelease hx ha =>
        cases hrelease
        refine .inl ⟨h, c, rfl, ?_, ?_, hl, hx, after_of_ok ha⟩
        · rw [handsOut, ha]
        · unfold takesBack
          rw [ha]
      | changed reply d ha hreply hrelease _ _ ho hg hlent =>
        refine .inr ⟨?_, ?_, .inr ⟨h, c, d, rfl, isOk_of_eq ha, hl, ho, hg, hlent, after_of_ok ha⟩⟩
        · rw [handsOut, ha]
          split
          · rename_i heq
            cases heq
            exact absurd rfl (hreply _)
          · rfl
        · unfold takesBack
          split
          · exact absurd rfl (hrelease _)
          · rfl

theorem Tidy.put {i : Nat} (ht : a.Tidy) (hw : a'.WellFormed) (hblank : d.occupied = false →
      d.value = .none ∧ d.exclusive = false ∧ d.pinned = false)
    (hcells : ∀ j, a'.cells[j]? = if j = i then some d else a.cells[j]?) : a'.Tidy := by
  refine ⟨hw, fun c hc ho => ?_⟩
  obtain ⟨j, hj⟩ := Array.mem_iff_getElem?.1 hc
  rw [hcells] at hj
  split at hj
  · cases hj
    exact hblank ho
  · exact ht.blank c (Array.mem_of_getElem? hj) ho

theorem allocate_tidy (ht : a.Tidy) (hroom : a.Roomy) (v : Value) : (a.allocate v).2.Tidy := by
  obtain ⟨-, hcells, -⟩ := allocate_slot ht.toWellFormed hroom v
  refine ht.put (wellFormed_allocate ht.toWellFormed hroom v) (fun ho => ?_) hcells
  cases ho

theorem setCell_tidy (ht : a.Tidy) (hl : a.look h = some c) (ho : d.occupied = c.occupied) :
    (a.setCell h.index.toNat d).Tidy := by
  obtain ⟨-, hoc, -⟩ := look_eq_some.1 hl
  have hod := ho.trans hoc
  refine ht.put (wellFormed_setCell ht.toWellFormed hl hod) (fun hd => ?_) (setCell_cells hl d)
  exact absurd (hd.symm.trans hod) Bool.false_ne_true

theorem vacate_tidy (ht : a.Tidy) (hl : a.look h = some c) : (a.vacate h c).Tidy :=
  ht.put (wellFormed_vacate ht.toWellFormed hl) (fun _ => ⟨rfl, rfl, rfl⟩) (setCell_cells hl _)

theorem after_tidy (ht : a.Tidy) (hroom : a.Roomy) (r : Request) : (a.after r).Tidy := by
  obtain ⟨v, -, -, -, hafter⟩ | ⟨h, c, -, -, -, hl, -, hafter⟩ |
    ⟨-, -, ⟨hafter, -⟩ | ⟨h, c, d, -, -, hl, ho, -, -, hafter⟩⟩ := after_cases a r
  · rw [hafter]
    exact allocate_tidy ht hroom v
  · rw [hafter]
    exact vacate_tidy ht hl
  · rw [hafter]
    exact ht
  · rw [hafter]
    exact setCell_tidy ht hl ho

/-- The borrow of a cell begins and ends with the requests that say so. -/
theorem isBorrowed_after (ha : a.WellFormed) (hroom : a.Roomy) (r : Request) (k : CellHandle) :
    (a.after r).isBorrowed k = .ok true ↔
      r = .beginExclusive k ∧ (a.answer r).isOk ∨ a.isBorrowed k = .ok true ∧ r ≠ .endExclusive k := by
  obtain ⟨v, rfl, -, -, hafter⟩ | ⟨h, c, rfl, -, -, hl, hx, hafter⟩ |
    ⟨-, -, ⟨hafter, hfails⟩ | ⟨h, c, d, hr, hok, hl, ho, hg, hlent, hafter⟩⟩ := after_cases a r
  · obtain ⟨hfresh, hnew⟩ := look_allocate ha hroom v
    rw [hafter, isBorrowed_iff, isBorrowed_iff, hnew]
    split
    · rename_i hk
      rw [hfresh k (congrArg CellHandle.index hk)]
      simp
    · simp
  · rw [hafter, isBorrowed_iff, isBorrowed_iff, look_vacate hl]
    split
    · rename_i hk
      rw [hk, hl]
      simp [hx]
    · simp
  · rw [hafter]
    refine ⟨fun hb => .inr ⟨hb, ?_⟩, fun hb => hb.elim (fun hr => absurd hr.2 hfails) And.left⟩
    rintro rfl
    exact hfails ((guarded a).lent (.endExclusive k) k rfl hb)
  · have hod := ho.trans (look_eq_some.1 hl).2.1
    rw [hafter, isBorrowed_iff, isBorrowed_iff, look_setCell hl hod hg]
    split
    · rename_i hk
      rw [hk, hl]
      cases r <;> cases hr <;> simp [hlent, Request.lends, hok]
    · rename_i hk
      have hbegin : r ≠ .beginExclusive k := by
        rintro rfl
        exact hk (Option.some.inj hr)
      have hend : r ≠ .endExclusive k := by
        rintro rfl
        exact hk (Option.some.inj hr)
      simp [hbegin, hend]

def ofSlot (i : UInt32) (hs : List CellHandle) : List CellHandle := hs.filter (·.index == i)

def generations (i : UInt32) (n : Nat) : List CellHandle := (List.range n).map fun g => ⟨i, UInt32.ofNat g⟩

/-- The handles of every slot have been handed out and taken back in the order of their generations; the last
one is out if the slot is occupied. -/
structure Numbered (a : Arena) (out back : List CellHandle) : Prop where
  unused : ∀ i : UInt32, a.cells[i.toNat]? = none → ofSlot i out = [] ∧ ofSlot i back = []
  used : ∀ (i : UInt32) c, a.cells[i.toNat]? = some c → ∃ n, c.generation = UInt32.ofNat n ∧
    ofSlot i back = generations i n ∧ ofSlot i out = generations i (if c.occupied then n + 1 else n)
  size : a.cells.size ≤ out.length

variable {out back : List CellHandle}

theorem ofSlot_append (i : UInt32) (hs : List CellHandle) (h : CellHandle) :
    ofSlot i (hs ++ [h]) = if h.index = i then ofSlot i hs ++ [h] else ofSlot i hs := by
  rw [ofSlot, List.filter_append]
  split
  · rename_i hi
    rw [List.filter_cons_of_pos (by simp [hi])]
    rfl
  · rename_i hi
    rw [List.filter_cons_of_neg (by simp [hi])]
    exact List.append_nil _

theorem generations_succ (i : UInt32) (n : Nat) :
    generations i (n + 1) = generations i n ++ [⟨i, UInt32.ofNat n⟩] := by
  rw [generations, List.range_succ, List.map_append]
  rfl

theorem allocate_size_le (a : Arena) (v : Value) : (a.allocate v).2.cells.size ≤ a.cells.size + 1 := by
  simp only [allocate, nextSlot, Array.size_setIfInBounds]
  split
  · exact Nat.le_succ _
  · exact Nat.le_of_eq (Array.size_push _)

theorem allocate_next (ha : a.WellFormed) (hroom : a.Roomy) (hn : a.Numbered out back) (v : Value) :
    ∃ i n, (a.allocate v).1 = ⟨i, UInt32.ofNat n⟩ ∧ ofSlot i back = generations i n ∧
      ofSlot i out = generations i n := by
  obtain ⟨⟨hnew, hh⟩ | ⟨c, hold, ho, hg⟩, -, -⟩ := allocate_slot ha hroom v
  · rw [hh] at hnew
    obtain ⟨hout, hback⟩ := hn.unused _ hnew
    exact ⟨_, 0, hh, hback, hout⟩
  · obtain ⟨n, hgeneration, hback, hout⟩ := hn.used _ c hold
    rw [ho, if_neg Bool.false_ne_true] at hout
    exact ⟨_, n, congrArg (CellHandle.mk _) (hg.symm.trans hgeneration), hback, hout⟩

theorem allocate_numbered (ha : a.WellFormed) (hroom : a.Roomy) (hn : a.Numbered out back) (v : Value) :
    (a.allocate v).2.Numbered (out ++ [(a.allocate v).1]) back := by
  obtain ⟨i, n, hh, hback, hout⟩ := allocate_next ha hroom hn v
  obtain ⟨-, hplaces, -⟩ := allocate_slot ha hroom v
  have hcells := slots_of_places hplaces
  have hsize := allocate_size_le a v
  rw [hh] at hcells ⊢
  refine ⟨fun j hj => ?_, fun j d hj => ?_, ?_⟩
  · rw [hcells] at hj
    split at hj
    · cases hj
    · rw [ofSlot_append, if_neg (Ne.symm ‹_›)]
      exact hn.unused j hj
  · rw [hcells] at hj
    split at hj
    · rename_i hi
      cases hj
      refine ⟨n, rfl, hi ▸ hback, ?_⟩
      rw [ofSlot_append, if_pos hi.symm, if_pos rfl, generations_succ, hi, hout]
    · rw [ofSlot_append, if_neg (Ne.symm ‹_›)]
      exact hn.used j d hj
  · rw [List.length_append]
    exact Nat.le_trans hsize (Nat.succ_le_succ hn.size)

theorem vacate_numbered (hn : a.Numbered out back) (hl : a.look h = some c) :
    (a.vacate h c).Numbered out (back ++ [h]) := by
  obtain ⟨hc, ho, hg⟩ := look_eq_some.1 hl
  have hcells := slots_of_places (setCell_cells hl ⟨.none, c.generation + 1, false, false, false⟩)
  refine ⟨fun j hj => ?_, fun j d hj => ?_, ?_⟩
  · rw [vacate, hcells] at hj
    split at hj
    · cases hj
    · rw [ofSlot_append, if_neg (Ne.symm ‹_›)]
      exact hn.unused j hj
  · rw [vacate, hcells] at hj
    split at hj
    · rename_i hi
      cases hj
      obtain ⟨n, hgeneration, hback, hout⟩ := hn.used _ c hc
      rw [ho, if_pos rfl] at hout
      refine ⟨n + 1, ?_, ?_, hi ▸ hout⟩
      · rw [hgeneration, UInt32.ofNat_add]
        rfl
      · rw [ofSlot_append, if_pos hi.symm, hi, hback, generations_succ, ← hgeneration, hg]
    · rw [ofSlot_append, if_neg (Ne.symm ‹_›)]
      exact hn.used j d hj
  · exact Nat.le_trans (Nat.le_of_eq Array.size_setIfInBounds) hn.size

theorem setCell_numbered (hn : a.Numbered out back) (hl : a.look h = some c) (ho : d.occupied = c.occupied)
    (hg : d.generation = c.generation) : (a.setCell h.index.toNat d).Numbered out back := by
  have hcells := slots_of_places (setCell_cells hl d)
  refine ⟨fun j hj => ?_, fun j e hj => ?_, ?_⟩
  · rw [hcells] at hj
    split at hj
    · cases hj
    · exact hn.unused j hj
  · rw [hcells] at hj
    split at hj
    · rename_i hi
      cases hj
      rw [hi, ho, hg]
      exact hn.used _ c (look_eq_some.1 hl).1
    · exact hn.used j e hj
  · exact Nat.le_trans (Nat.le_of_eq Array.size_setIfInBounds) hn.size

theorem after_numbered (ha : a.WellFormed) (hroom : a.Roomy) (hn : a.Numbered out back) (r : Request) :
    (a.after r).Numbered (out ++ (a.handsOut r).toList) (back ++ (a.takesBack r).toList) := by
  obtain ⟨v, -, hout, hback, hafter⟩ | ⟨h, c, -, hout, hback, hl, -, hafter⟩ |
    ⟨hout, hback, ⟨hafter, -⟩ | ⟨h, c, d, -, -, hl, ho, hg, -, hafter⟩⟩ := after_cases a r
  · rw [hout, hback, hafter, Option.toList_none, List.append_nil]
    exact allocate_numbered ha hroom hn v
  · rw [hout, hback, hafter, Option.toList_none, List.append_nil]
    exact vacate_numbered hn hl
  · rw [hout, hback, hafter, Option.toList_none, List.append_nil, List.append_nil]
    exact hn
  · rw [hout, hback, hafter, Option.toList_none, List.append_nil, List.append_nil]
    exact setCell_numbered hn hl ho hg

theorem empty_tidy : empty.Tidy := ⟨empty_wellFormed, nofun⟩

theorem empty_numbered : empty.Numbered [] [] := ⟨fun _ _ => ⟨rfl, rfl⟩, nofun, Nat.le_refl 0⟩

theorem afterAll_tidy {rs : List Request} (ht : a.Tidy) (hroom : a.StaysRoomy rs) : (a.afterAll rs).Tidy := by
  induction rs generalizing a with
  | nil => exact ht
  | cons r rs ih => exact ih (after_tidy ht hroom.1 r) hroom.2

theorem afterAll_numbered {rs : List Request} (ht : a.Tidy) (hroom : a.StaysRoomy rs)
    (hn : a.Numbered out back) :
    (a.afterAll rs).Numbered (out ++ a.handedOut rs) (back ++ a.takenBack rs) := by
  induction rs generalizing a out back with
  | nil => rwa [handedOut, takenBack, List.append_nil, List.append_nil]
  | cons r rs ih =>
    have hrest := ih (after_tidy ht hroom.1 r) hroom.2 (after_numbered ht.toWellFormed hroom.1 hn r)
    rwa [List.append_assoc, List.append_assoc] at hrest

/-- A cell is borrowed from a request that was granted up to the one that ends the borrow. -/
def Borrows (a : Arena) (rs : List Request) (h : CellHandle) : Prop :=
  ∃ front back, rs = front ++ .beginExclusive h :: back ∧
    ((a.afterAll front).answer (.beginExclusive h)).isOk ∧ .endExclusive h ∉ back

theorem borrows_cons {rs : List Request} : a.Borrows (r :: rs) h ↔
    r = .beginExclusive h ∧ (a.answer r).isOk ∧ .endExclusive h ∉ rs ∨ (a.after r).Borrows rs h := by
  constructor
  · rintro ⟨front, back, heq, hok, hnone⟩
    cases front with
    | nil =>
      cases heq
      exact .inl ⟨rfl, hok, hnone⟩
    | cons q front =>
      cases heq
      exact .inr ⟨front, back, rfl, hok, hnone⟩
  · rintro (⟨rfl, hok, hnone⟩ | ⟨front, back, rfl, hok, hnone⟩)
    · exact ⟨[], rs, rfl, hok, hnone⟩
    · exact ⟨r :: front, back, rfl, hok, hnone⟩

theorem isBorrowed_afterAll {rs : List Request} (ht : a.Tidy) (hroom : a.StaysRoomy rs) (h : CellHandle) :
    (a.afterAll rs).isBorrowed h = .ok true ↔
      a.isBorrowed h = .ok true ∧ .endExclusive h ∉ rs ∨ a.Borrows rs h := by
  induction rs generalizing a with
  | nil =>
    refine ⟨fun hb => .inl ⟨hb, List.not_mem_nil⟩, fun hb => hb.elim And.left ?_⟩
    rintro ⟨front, back, heq, -⟩
    cases front <;> cases heq
  | cons r rs ih =>
    refine (ih (after_tidy ht hroom.1 r) hroom.2).trans ?_
    rw [isBorrowed_after ht.toWellFormed hroom.1, borrows_cons, List.mem_cons, not_or]
    have hr : r ≠ .endExclusive h ↔ .endExclusive h ≠ r := ne_comm
    tauto

theorem generation_inj {g g' : Nat} (hg : g < 2 ^ 32) (hg' : g' < 2 ^ 32) (h : UInt32.ofNat g = UInt32.ofNat g') :
    g = g' := by
  have hmod := congrArg UInt32.toNat h
  rwa [UInt32.toNat_ofNat_of_lt' hg, UInt32.toNat_ofNat_of_lt' hg'] at hmod

theorem generations_nodup (i : UInt32) (hn : n ≤ 2 ^ 32) : (generations i n).Nodup := by
  refine List.Nodup.map_on (fun g hg g' hg' h => ?_) List.nodup_range
  exact generation_inj (Nat.lt_of_lt_of_le (List.mem_range.1 hg) hn)
    (Nat.lt_of_lt_of_le (List.mem_range.1 hg') hn) (CellHandle.mk.inj h).2

theorem length_generations (i : UInt32) (n : Nat) : (generations i n).length = n := by
  rw [generations, List.length_map, List.length_range]

theorem nodup_of_ofSlot {hs : List CellHandle} (h : ∀ i, (ofSlot i hs).Nodup) : hs.Nodup := by
  refine List.nodup_iff_count_le_one.2 fun k => ?_
  rw [← List.count_filter (p := (·.index == k.index)) (beq_self_eq_true _)]
  exact List.nodup_iff_count_le_one.1 (h k.index) k

section
variable (hn : a.Numbered out back) (hfew : ∀ i, back.countP (·.index == i) < 2 ^ 32)
include hn hfew

theorem Numbered.nodup : out.Nodup := by
  refine nodup_of_ofSlot fun i => ?_
  cases hc : a.cells[i.toNat]? with
  | none =>
    rw [(hn.unused i hc).1]
    exact List.nodup_nil
  | some c =>
    obtain ⟨n, -, hback, hout⟩ := hn.used i c hc
    have hlt := hfew i
    rw [List.countP_eq_length_filter, show back.filter _ = _ from hback, length_generations] at hlt
    rw [hout]
    refine generations_nodup i ?_
    split
    · exact hlt
    · exact Nat.le_of_lt hlt

theorem Numbered.dead (hh : h ∈ back) : a.alive h = false := by
  rw [← look_eq_none_iff, Option.eq_none_iff_forall_ne_some]
  intro c hl
  obtain ⟨hc, -, hg⟩ := look_eq_some.1 hl
  obtain ⟨n, hgeneration, hback, -⟩ := hn.used _ c hc
  have hlt := hfew h.index
  rw [List.countP_eq_length_filter, show back.filter _ = _ from hback, length_generations] at hlt
  have hmem : h ∈ generations h.index n := hback ▸ List.mem_filter.2 ⟨hh, beq_self_eq_true _⟩
  obtain ⟨g, hg', hgh⟩ := List.mem_map.1 hmem
  have hsame : UInt32.ofNat g = UInt32.ofNat n := by
    rw [← hgeneration, hg, ← hgh]
  have hless := List.mem_range.1 hg'
  exact Nat.ne_of_lt hless (generation_inj (Nat.lt_trans hless hlt) hlt hsame)

end

theorem Numbered.index_lt (hn : a.Numbered out back) (hh : h ∈ out) : h.index.toNat < out.length := by
  refine Nat.lt_of_lt_of_le (Nat.lt_of_not_le fun hle => ?_) hn.size
  have hmem : h ∈ ofSlot h.index out := List.mem_filter.2 ⟨hh, beq_self_eq_true _⟩
  rw [(hn.unused _ (Array.getElem?_eq_none hle)).1] at hmem
  cases hmem

end Arena

open Arena in
/-- Whatever is asked of an arena, in whatever order: a request that fails changes nothing, and a borrow begins
and ends when it is said to. If there is always room for another cell: the count is that of the occupied cells,
the vacant slots are blank and stand on the free list once each, the slots are numbered in the order of their
first use, and a cell is borrowed from the request that was granted to the next one that ends the borrow. As long
as no slot is taken back 2^32 times, no handle is handed out twice, and nothing is answered to one that has been
taken back. -/
theorem answers_requests (rs : List Request) :
    (empty.afterAll rs).Guarded ∧
      (empty.StaysRoomy rs →
        (empty.afterAll rs).Tidy ∧
        (∀ h ∈ empty.handedOut rs, h.index.toNat < (empty.handedOut rs).length) ∧
        (∀ h, (empty.afterAll rs).isBorrowed h = .ok true ↔ empty.Borrows rs h) ∧
        ((∀ i, (empty.takenBack rs).countP (·.index == i) < 2 ^ 32) →
          (empty.handedOut rs).Nodup ∧ ∀ h ∈ empty.takenBack rs, (empty.afterAll rs).alive h = false ∧
            ∀ r, r.handle? = some h → (empty.afterAll rs).Refuses r .runtimeError)) := by
  have hguarded := guarded (empty.afterAll rs)
  refine ⟨hguarded, fun hroom => ?_⟩
  have hn := afterAll_numbered empty_tidy hroom empty_numbered
  refine ⟨afterAll_tidy empty_tidy hroom, fun h hh => hn.index_lt hh, fun h => ?_, fun hfew => ?_⟩
  · refine (isBorrowed_afterAll empty_tidy hroom h).trans (or_iff_right fun hb => ?_)
    cases hb.1
  · refine ⟨hn.nodup hfew, fun h hh => ?_⟩
    have hdead := hn.dead hfew hh
    exact ⟨hdead, fun r hr => hguarded.dead r h hr hdead⟩

open Arena in
/-- One slot is used three times. While it is borrowed it is not released, and an old handle of it comes back. -/
theorem answers_requests_reused :
    let front : List Request := [.allocate (.bool true), .pin ⟨0, 0⟩, .release ⟨0, 0⟩, .release ⟨0, 0⟩,
      .allocate .none, .beginExclusive ⟨0, 1⟩]
    let rs := front ++ [.release ⟨0, 1⟩, .endExclusive ⟨0, 1⟩, .release ⟨0, 1⟩, .allocate (.bool false)]
    empty.StaysRoomy rs ∧ (empty.afterAll front).isBorrowed ⟨0, 1⟩ = .ok true ∧
      (empty.afterAll front).Refuses (.release ⟨0, 1⟩) .borrowConflict ∧
      empty.handedOut rs = [⟨0, 0⟩, ⟨0, 1⟩, ⟨0, 2⟩] ∧ empty.takenBack rs = [⟨0, 0⟩, ⟨0, 1⟩] ∧
      (empty.handedOut rs).Nodup ∧ (empty.afterAll rs).Refuses (.read ⟨0, 1⟩) .runtimeError := by
  intro front rs
  have hback : empty.takenBack rs = [⟨0, 0⟩, ⟨0, 1⟩] := rfl
  have hfew : ∀ i, (empty.takenBack rs).countP (·.index == i) < 2 ^ 32 := fun i =>
    Nat.lt_of_le_of_lt List.countP_le_length (hback ▸ by decide)
  have hroom : empty.StaysRoomy rs := by decide
  obtain ⟨hguarded, hborrows⟩ := answers_requests front
  have hlent := (hborrows (by decide)).2.2.1 ⟨0, 1⟩ |>.2 ⟨front.dropLast, [], rfl, rfl, List.not_mem_nil⟩
  obtain ⟨-, hfresh⟩ := answers_requests rs
  obtain ⟨-, -, -, hfresh⟩ := hfresh hroom
  obtain ⟨hnodup, hdead⟩ := hfresh hfew
  exact ⟨hroom, hlent, hguarded.lent (.release ⟨0, 1⟩) _ rfl hlent, rfl, hback, hnodup,
    (hdead ⟨0, 1⟩ (hback ▸ by decide)).2 _ rfl⟩

end ScriptMachine
