import ScriptMachine.Proofs.Machine.Cells
import ScriptMachine.Machine.Run

set_option autoImplicit false

namespace ScriptMachine

/-- The part of a frame that refers to cells. -/
structure Holding where
  bindings : List (Text × Binding)
  owned : List CellHandle
  borrow : Option CellHandle
  looping : Bool

def Frame.holding (f : Frame) : Holding := ⟨f.bindings, f.owned, f.borrow, f.loop.isSome⟩

namespace Binding

def mutable? : Binding → Option CellHandle
  | .cell h => some h
  | _ => none

def receiver? : Binding → Option CellHandle
  | .borrowed h => some h
  | _ => none

end Binding

namespace Holding

def mutables (f : Holding) : List CellHandle := f.bindings.filterMap fun e => e.2.mutable?

def receivers (f : Holding) : List CellHandle := f.bindings.filterMap fun e => e.2.receiver?

def held (f : Holding) : List CellHandle := f.mutables ++ f.borrow.toList

structure Coherent (f : Holding) : Prop where
  owns : ∀ h ∈ f.mutables, h ∈ f.owned
  distinct : (f.mutables.map CellHandle.index).Nodup
  /-- Only the frame of a call borrows its receiver, and none of those is run in rounds. -/
  steady : f.looping = true → f.borrow = none

/-- One frame stands above another. -/
structure Above (f g : Holding) : Prop where
  apart : ∀ h ∈ f.owned, ∀ k ∈ g.held, h.index ≠ k.index
  borrow : ∀ h, f.borrow = some h → g.borrow ≠ some h

def Stacked : List Holding → Prop
  | [] => True
  | f :: below =>
    f.Coherent ∧ (∀ g ∈ below, f.Above g) ∧
      (∀ h ∈ f.receivers, ∃ g ∈ f :: below, g.borrow = some h) ∧ Stacked below

variable {f f' : Holding} {fs : List Holding} {name : Text} {h : CellHandle}

/-- What is found in a stack is found in it with another top frame, if this has it where the old one
did. -/
theorem exists_retop {P : Holding → Prop} (hf : ∃ g ∈ f :: fs, P g) (hp : P f → P f') :
    ∃ g ∈ f' :: fs, P g := by
  obtain ⟨g, hg, hpg⟩ := hf
  rcases List.mem_cons.1 hg with rfl | hg
  · exact ⟨f', List.mem_cons_self, hp hpg⟩
  · exact ⟨g, List.mem_cons_of_mem _ hg, hpg⟩

theorem exists_tail {P : Holding → Prop} (hf : ∃ g ∈ f :: fs, P g) (hp : ¬P f) : ∃ g ∈ fs, P g := by
  obtain ⟨g, hg, hpg⟩ := hf
  rcases List.mem_cons.1 hg with rfl | hg
  · exact absurd hpg hp
  · exact ⟨g, hg, hpg⟩

theorem exists_push {P : Holding → Prop} (hf : ∃ g ∈ fs, P g) : ∃ g ∈ f :: fs, P g := by
  obtain ⟨g, hg, hpg⟩ := hf
  exact ⟨g, List.mem_cons_of_mem _ hg, hpg⟩

theorem mem_mutables : h ∈ f.mutables ↔ ∃ name, (name, Binding.cell h) ∈ f.bindings := by
  simp only [mutables, List.mem_filterMap]
  constructor
  · rintro ⟨⟨name, b⟩, hm, hb⟩
    cases b <;> cases hb
    exact ⟨name, hm⟩
  · rintro ⟨name, hm⟩
    exact ⟨_, hm, rfl⟩

theorem mem_receivers : h ∈ f.receivers ↔ ∃ name, (name, Binding.borrowed h) ∈ f.bindings := by
  simp only [receivers, List.mem_filterMap]
  constructor
  · rintro ⟨⟨name, b⟩, hm, hb⟩
    cases b <;> cases hb
    exact ⟨name, hm⟩
  · rintro ⟨name, hm⟩
    exact ⟨_, hm, rfl⟩

theorem Stacked.receivers {fs : List Holding} (hs : Stacked fs) (hf : f ∈ fs)
    (hh : h ∈ f.receivers) : ∃ g ∈ fs, g.borrow = some h := by
  induction fs with
  | nil => cases hf
  | cons g fs ih =>
    rcases List.mem_cons.1 hf with rfl | hf
    · exact hs.2.2.1 h hh
    · exact exists_push (ih hs.2.2.2 hf)

theorem Stacked.above {g : Holding} {fs : List Holding} (hs : Stacked fs) {i j : Nat}
    (hi : fs[i]? = some f) (hj : fs[j]? = some g) (hlt : i < j) : f.Above g := by
  induction fs generalizing i j with
  | nil => simp at hi
  | cons k fs ih =>
    obtain ⟨j, rfl⟩ : ∃ n, j = n + 1 := ⟨j - 1, by omega⟩
    rw [List.getElem?_cons_succ] at hj
    cases i with
    | zero =>
      cases hi
      exact hs.2.1 g (List.mem_of_getElem? hj)
    | succ i =>
      rw [List.getElem?_cons_succ] at hi
      exact ih hs.2.2.2 hi hj (by omega)

def unbind (f : Holding) (name : Text) : Holding :=
  { f with bindings := f.bindings.filter fun e => e.1 != name }

def bind (f : Holding) (name : Text) (b : Binding) : Holding :=
  { f with bindings := (name, b) :: f.bindings.filter fun e => e.1 != name }

theorem mutables_unbind (f : Holding) (name : Text) :
    (f.unbind name).mutables.Sublist f.mutables :=
  List.Sublist.filterMap _ List.filter_sublist

theorem receivers_unbind (f : Holding) (name : Text) :
    (f.unbind name).receivers.Sublist f.receivers :=
  List.Sublist.filterMap _ List.filter_sublist

theorem mutables_bind (f : Holding) (name : Text) (b : Binding) :
    (f.bind name b).mutables = b.mutable?.toList ++ (f.unbind name).mutables := by
  cases b <;> rfl

theorem receivers_bind (f : Holding) (name : Text) (b : Binding) :
    (f.bind name b).receivers = b.receiver?.toList ++ (f.unbind name).receivers := by
  cases b <;> rfl

/-- A variable that is taken away shares its slot with none that stay. -/
theorem unbind_apart (hf : f.Coherent) (hl : f.bindings.lookup name = some (.cell h)) :
    ∀ k ∈ (f.unbind name).mutables, k.index ≠ h.index := by
  obtain ⟨front, back, hsplit, -⟩ := List.lookup_eq_some_iff.1 hl
  have hd := hf.distinct
  have hv : f.mutables = front.filterMap (fun e => e.2.mutable?) ++
      h :: back.filterMap (fun e => e.2.mutable?) := by
    simp [mutables, hsplit, Binding.mutable?]
  intro k hk hi
  have hmem : k ∈ front.filterMap (fun e => e.2.mutable?) ++
      back.filterMap (fun e => e.2.mutable?) := by
    obtain ⟨e, he, hek⟩ := List.mem_filterMap.1 hk
    rw [← List.filterMap_append]
    refine List.mem_filterMap.2 ⟨e, ?_, hek⟩
    have hm := List.mem_filter.1 he
    rw [hsplit] at hm
    rcases List.mem_append.1 hm.1 with hfront | hback
    · exact List.mem_append_left _ hfront
    · rcases List.mem_cons.1 hback with rfl | hback
      · simp at hm
      · exact List.mem_append_right _ hback
  rw [hv, List.map_append, List.map_cons, List.nodup_middle, List.nodup_cons] at hd
  refine hd.1 ?_
  rw [← List.map_append, ← hi]
  exact List.mem_map_of_mem hmem

end Holding

end ScriptMachine
