import ScriptMachine.Proofs.Machine.Holdings

set_option autoImplicit false

namespace ScriptMachine

def Arena.Exclusive (a : Arena) (h : CellHandle) : Prop := ∃ c, a.look h = some c ∧ c.exclusive = true

def Lent (a : Arena) : List CellHandle → List Holding → Prop
  | _, [] => True
  | above, f :: below =>
    (f.looping = true → f.borrow = none) ∧
      (∀ h ∈ f.receivers, ∃ g ∈ f :: below, g.borrow = some h) ∧
      (∀ h ∈ f.owned, a.Exclusive h → h ∈ f.borrow.toList ++ above) ∧
      Lent a (f.borrow.toList ++ above) below

namespace Arena

variable {a a' : Arena} {h k : CellHandle} {c : Cell} {v : Value} {hs : List CellHandle}

theorem Exclusive.of_allocate (hx : (a.allocate v).2.Exclusive k) :
    a.Exclusive k ∧ k ≠ (a.allocate v).1 := by
  obtain ⟨c, hl, hx⟩ := hx
  obtain ⟨-, hnew⟩ | ⟨hne, hold⟩ := look_of_allocate hl
  · cases hnew
    cases hx
  · exact ⟨⟨c, hold, hx⟩, hne⟩

theorem Exclusive.of_endBorrow (hx : (a.endBorrow h).Exclusive k) : a.Exclusive k ∧ k ≠ h := by
  obtain ⟨c, hl, hx⟩ := hx
  rw [look_endBorrow] at hl
  split at hl
  · obtain ⟨d, -, rfl⟩ := Option.map_eq_some_iff.1 hl
    cases hx
  · exact ⟨⟨c, hl, hx⟩, ‹_›⟩

theorem Exclusive.of_discards (hx : (hs.foldl discard a).Exclusive k) : a.Exclusive k :=
  hx.imp fun c hc => hc.imp_left fun hl => ((look_discards a hs).1 k c hl).1

theorem Exclusive.of_discard (hx : (a.discard h).Exclusive k) : a.Exclusive k :=
  hx.imp fun c hc => hc.imp_left fun hl => ((look_discards a [h]).1 k c hl).1

theorem Exclusive.of_releaseIfFree (hx : (a.releaseIfFree h).Exclusive k) : a.Exclusive k :=
  hx.imp fun _ hc => hc.imp_left fun hl => (look_releases a [h] hl).1

theorem Exclusive.of_pin (hl : a.look h = some c)
    (hx : (a.setCell h.index.toNat { c with pinned := true }).Exclusive k) : a.Exclusive k := by
  obtain ⟨d, hd, hx⟩ := hx
  have ho := (look_eq_some.1 hl).2.1
  obtain ⟨-, hold, hnew⟩ | hsame := look_setCell_cases (d := { c with pinned := true }) hl ho rfl k
  · cases hnew.symm.trans hd
    exact ⟨c, hold, hx⟩
  · exact ⟨d, hsame.symm.trans hd, hx⟩

theorem Exclusive.of_beginExclusive (hl : a.look h = some c)
    (hx : (a.setCell h.index.toNat { c with exclusive := true }).Exclusive k) : a.Exclusive k ∨ k = h := by
  obtain ⟨d, hd, hx⟩ := hx
  have ho := (look_eq_some.1 hl).2.1
  obtain ⟨hk, -⟩ | hsame := look_setCell_cases (d := { c with exclusive := true }) hl ho rfl k
  · exact .inr hk
  · exact .inl ⟨d, hsame.symm.trans hd, hx⟩

end Arena

namespace Lent

variable {a a' : Arena} {above above' : List CellHandle} {f f' : Holding} {fs : List Holding}
  {h : CellHandle} {c : Cell}

theorem mono (hl : Lent a above fs) (hx : ∀ k, a'.Exclusive k → k ∉ above' → a.Exclusive k ∧ k ∉ above) :
    Lent a' above' fs := by
  induction fs generalizing above above' with
  | nil => trivial
  | cons f fs ih =>
    obtain ⟨hsteady, hreceivers, howned, hbelow⟩ := hl
    refine ⟨hsteady, hreceivers, fun h hh hlent => ?_, ih hbelow fun k hk hnot => ?_⟩
    · by_cases hm : h ∈ above'
      · exact List.mem_append_right _ hm
      · obtain ⟨hold, hfree⟩ := hx h hlent hm
        exact List.mem_append_left _ ((List.mem_append.1 (howned h hh hold)).resolve_right hfree)
    · rw [List.mem_append, not_or] at hnot ⊢
      obtain ⟨hold, hfree⟩ := hx k hk hnot.2
      exact ⟨hold, hnot.1, hfree⟩

theorem same (hl : Lent a above fs) (hx : ∀ k, a'.Exclusive k → a.Exclusive k) : Lent a' above fs :=
  hl.mono fun k hk hfree => ⟨hx k hk, hfree⟩

theorem push (hl : Lent a above fs) : Lent a above (⟨[], [], none, false⟩ :: fs) :=
  ⟨nofun, nofun, nofun, hl⟩

theorem receivers (hl : Lent a above fs) (hf : f ∈ fs) (hh : h ∈ f.receivers) :
    ∃ g ∈ fs, g.borrow = some h := by
  induction fs generalizing above with
  | nil => cases hf
  | cons g fs ih =>
    rcases List.mem_cons.1 hf with rfl | hf
    · exact hl.2.1 h hh
    · exact Holding.exists_push (ih hl.2.2.2 hf)

theorem retop (hl : Lent a above (f :: fs)) (howned : ∀ h ∈ f'.owned, a.Exclusive h → h ∈ f.owned)
    (hborrow : f'.borrow = f.borrow) (hlooping : f'.looping = true → f.borrow = none)
    (hreceivers : ∀ h ∈ f'.receivers, ∃ g ∈ f :: fs, g.borrow = some h) : Lent a above (f' :: fs) := by
  obtain ⟨-, -, hown, hbelow⟩ := hl
  refine ⟨fun hloop => hborrow.trans (hlooping hloop),
    fun h hh => Holding.exists_retop (hreceivers h hh) hborrow.trans, fun h hh hx => ?_, ?_⟩
  · rw [hborrow]
    exact hown h (howned h hh hx) hx
  · rwa [hborrow]

theorem borrow (hl : Lent a above (f :: fs)) (hb : f.borrow = none) (hloop : f.looping = false)
    (hx : ∀ k, a'.Exclusive k → a.Exclusive k ∨ k = h) :
    Lent a' above ({ f with borrow := some h } :: fs) := by
  obtain ⟨-, hreceivers, howned, hbelow⟩ := hl
  rw [hb] at howned hbelow
  refine ⟨fun hloops => Bool.noConfusion (hloop.symm.trans hloops), fun k hk => ?_, fun k hk hlent => ?_,
    hbelow.mono fun k hlent hfree => ?_⟩
  · refine Holding.exists_push (Holding.exists_tail (hreceivers k hk) fun hfk => ?_)
    cases hb.symm.trans hfk
  · rcases hx k hlent with hold | rfl
    · exact List.mem_append_right _ (howned k hk hold)
    · exact List.mem_append_left _ List.mem_cons_self
  · rw [List.mem_append, not_or] at hfree
    exact ⟨(hx k hlent).resolve_right fun he => hfree.1 (he ▸ List.mem_cons_self), hfree.2⟩

theorem below (hl : Lent a [] (f :: fs)) (hx : ∀ k, a'.Exclusive k → a.Exclusive k ∧ f.borrow ≠ some k) :
    Lent a' [] fs := by
  refine hl.2.2.2.mono fun k hk _ => (hx k hk).imp_right fun hne => ?_
  rw [List.append_nil, Option.mem_toList]
  exact hne

end Lent

end ScriptMachine
