import ScriptMachine.Proofs.Machine.Custody

set_option autoImplicit false

namespace ScriptMachine

namespace Custody

variable {keep : Bool} {transit pinned : List CellHandle} {a a' : Arena} {f : Holding}
  {fs : List Holding} {h : CellHandle} {c : Cell} {name : Text} {b : Binding}

theorem held_alive (hc : Custody keep transit a fs pinned) (hf : f ∈ fs) (hh : h ∈ f.held) :
    ∃ c, a.look h = some c := by
  rcases List.mem_append.1 hh with hh | hh
  · exact hc.alive f hf h hh
  · obtain ⟨c, hl, -⟩ := hc.borrows f hf h (Option.mem_toList.1 hh)
    exact ⟨c, hl⟩

/-- A cell is made for a call. -/
theorem allocate (hc : Custody keep transit a fs pinned) (hroom : a.Roomy) (v : Value) :
    Custody keep ((a.allocate v).1 :: transit) (a.allocate v).2 fs pinned := by
  have hwf := Arena.wellFormed_allocate hc.arena hroom v
  obtain ⟨hfresh, hnew⟩ := Arena.look_allocate hc.arena hroom v
  generalize (a.allocate v).1 = h at hfresh hnew
  generalize (a.allocate v).2 = a' at hwf hnew
  have hne : ∀ k c, a.look k = some c → k.index ≠ h.index := by
    intro k c hl hi
    rw [hfresh k hi] at hl
    cases hl
  have hstay : ∀ k c, a.look k = some c → a'.look k = some c := by
    intro k c hl
    rw [hnew, if_neg fun he => hne k c hl (congrArg CellHandle.index he), hl]
  have hback : ∀ k c, a'.look k = some c → k = h ∧ c.exclusive = false ∧ c.pinned = false ∨
      a.look k = some c := by
    intro k c hl
    rw [hnew] at hl
    split at hl
    · cases hl
      exact Or.inl ⟨‹k = h›, rfl, rfl⟩
    · exact Or.inr hl
  refine ⟨hwf, hc.stacked, ?_, ?_, ?_, List.forall_mem_cons.2 ⟨⟨?_, ?_⟩, ?_⟩, ?_, ?_⟩
  · exact fun f hf k hk => (hc.alive f hf k hk).imp fun c => hstay k c
  · exact fun f hf k hk => (hc.borrows f hf k hk).imp fun c hl => ⟨hstay k c hl.1, hl.2⟩
  · intro k c hl hx
    rcases hback k c hl with ⟨-, hn, -⟩ | hl
    · rw [hn] at hx
      cases hx
    · exact hc.exclusive k c hl hx
  · exact ⟨_, (hnew h).trans (if_pos rfl), rfl, rfl⟩
  · intro f hf k hk
    obtain ⟨c, hl⟩ := hc.held_alive hf hk
    exact hne k c hl
  · intro k hk
    obtain ⟨⟨c, hl, hflags⟩, hapart⟩ := hc.moving k hk
    exact ⟨⟨c, hstay k c hl, hflags⟩, hapart⟩
  · intro hkeep k c hl
    rcases hback k c hl with ⟨rfl, -⟩ | hl
    · exact Or.inl List.mem_cons_self
    · exact (hc.accounted hkeep k c hl).imp_left (List.mem_cons_of_mem _)
  · intro hkeep k c hl hp
    rcases hback k c hl with ⟨-, -, hn⟩ | hl
    · rw [hn] at hp
      cases hp
    · exact hc.registered hkeep k c hl hp

/-- The frame of the call takes over the cell that was made for it. -/
theorem own (hc : Custody keep [h] a (f :: fs) pinned) :
    Custody keep [] a ({ f with owned := f.owned ++ [h] } :: fs) pinned := by
  obtain ⟨hf, habove, hreceivers, hfs⟩ := hc.stacked
  obtain ⟨-, hapart⟩ := hc.moving h List.mem_cons_self
  obtain ⟨-, hrest⟩ := List.forall_mem_cons.1 hapart
  refine ⟨hc.arena, ⟨⟨fun k hk => List.mem_append_left _ (hf.owns k hk), hf.distinct, hf.steady⟩,
    fun g hg => ⟨fun k hk => ?_, (habove g hg).borrow⟩, fun k hk => ?_, hfs⟩, ?_, ?_, ?_, nofun, ?_,
    hc.registered⟩
  · rcases List.mem_append.1 hk with hk | hk
    · exact (habove g hg).apart k hk
    · rw [List.mem_singleton.1 hk]
      exact fun j hj => (hrest g hg j hj).symm
  · exact Holding.exists_retop (hreceivers k hk) id
  · exact List.forall_mem_cons.2 (List.forall_mem_cons.1 hc.alive)
  · exact List.forall_mem_cons.2 (List.forall_mem_cons.1 hc.borrows)
  · exact fun k c hl hx => Holding.exists_retop (hc.exclusive k c hl hx) id
  · intro hkeep k c hl
    rcases hc.accounted hkeep k c hl with hm | hm | hm
    · refine Or.inr (Or.inr ⟨_, List.mem_cons_self, ?_⟩)
      exact List.mem_append_right _ hm
    · exact Or.inr (Or.inl hm)
    · exact Or.inr (Or.inr (Holding.exists_retop hm (List.mem_append_left _)))

theorem bind (hc : Custody keep transit a (f :: fs) pinned) (name : Text)
    (hm : b.mutable? = none) (hr : ∀ h, b.receiver? = some h → ∃ g ∈ f :: fs, g.borrow = some h) :
    Custody keep transit a (f.bind name b :: fs) pinned := by
  obtain ⟨hf, -, hreceivers, -⟩ := hc.stacked
  refine hc.retop rfl rfl hf.steady ?_ fun h hh => ?_
  · rw [Holding.mutables_bind, hm]
    exact f.mutables_unbind name
  · rw [Holding.receivers_bind] at hh
    rcases List.mem_append.1 hh with hh | hh
    · exact hr h (Option.mem_toList.1 hh)
    · exact hreceivers h ((f.receivers_unbind name).subset hh)

/-- The top frame binds a name to a cell that it owns and that none of its variables has. -/
theorem bindCell (hc : Custody keep [] a (f :: fs) pinned) (name : Text) (ho : h ∈ f.owned)
    (hl : a.look h = some c) (hd : ∀ k ∈ f.mutables, k.index ≠ h.index) :
    Custody keep [] a (f.bind name (.cell h) :: fs) pinned := by
  have hu := hc.unbind name
  obtain ⟨hf, habove, hreceivers, hfs⟩ := hu.stacked
  have hmutables : (f.bind name (.cell h)).mutables = h :: (f.unbind name).mutables :=
    f.mutables_bind name (.cell h)
  have hreceived : (f.bind name (.cell h)).receivers = (f.unbind name).receivers :=
    f.receivers_bind name (.cell h)
  refine ⟨hu.arena, ⟨⟨?_, ?_, hf.steady⟩, fun g hg => ⟨(habove g hg).apart, (habove g hg).borrow⟩,
    ?_, hfs⟩, ?_, List.forall_mem_cons.2 (List.forall_mem_cons.1 hu.borrows), ?_, nofun, ?_,
    hu.registered⟩
  · rw [hmutables]
    exact List.forall_mem_cons.2 ⟨ho, hf.owns⟩
  · rw [hmutables, List.map_cons, List.nodup_cons]
    refine ⟨fun hi => ?_, hf.distinct⟩
    obtain ⟨k, hk, he⟩ := List.mem_map.1 hi
    exact hd k ((f.mutables_unbind name).subset hk) he
  · rw [hreceived]
    exact fun k hk => Holding.exists_retop (hreceivers k hk) id
  · obtain ⟨hfirst, hrest⟩ := List.forall_mem_cons.1 hu.alive
    refine List.forall_mem_cons.2 ⟨?_, hrest⟩
    rw [hmutables]
    exact List.forall_mem_cons.2 ⟨⟨c, hl⟩, hfirst⟩
  · exact fun k d hd hx => Holding.exists_retop (hu.exclusive k d hd hx) id
  · intro hkeep k d hd
    refine (hu.accounted hkeep k d hd).imp_right fun ho => ho.imp_right fun hm => ?_
    exact Holding.exists_retop hm id

theorem declare (hc : Custody keep [] a (f :: fs) pinned) (hroom : a.Roomy) (name : Text) (v : Value) :
    Custody keep [] (a.allocate v).2
      ({ f.bind name (.cell (a.allocate v).1) with owned := f.owned ++ [(a.allocate v).1] } :: fs)
      pinned := by
  have hmade := hc.allocate hroom v
  obtain ⟨⟨c, hl, -⟩, hapart⟩ := hmade.moving _ List.mem_cons_self
  refine hmade.own.bindCell name (by simp) hl fun k hk => ?_
  exact (List.forall_mem_cons.1 hapart).1 k (List.mem_append_left _ hk)

/-- A cell that was made for a call is released when no frame has taken it over. -/
theorem releaseIfFree (hc : Custody keep [h] a fs pinned) :
    Custody keep [] (a.releaseIfFree h) fs pinned := by
  obtain ⟨⟨c, hl, hx, hp⟩, hapart⟩ := hc.moving h List.mem_cons_self
  obtain ⟨-, hborrowed⟩ | ⟨d, hd, -, hsame⟩ := Arena.releaseIfFree_cases a h
  · rw [hborrowed c hl] at hx
    cases hx
  have hnew := Arena.look_vacate hd
  rw [← hsame] at hnew
  have hback : ∀ k d, (a.releaseIfFree h).look k = some d → k ≠ h ∧ a.look k = some d := by
    intro k d hk
    rw [hnew] at hk
    split at hk
    · cases hk
    · exact ⟨‹k ≠ h›, hk⟩
  have hstay : ∀ f ∈ fs, ∀ k ∈ f.held, (a.releaseIfFree h).look k = a.look k := by
    intro f hf k hk
    rw [hnew, if_neg fun he => hapart f hf k hk (congrArg CellHandle.index he)]
  refine ⟨Arena.wellFormed_releaseIfFree hc.arena h, hc.stacked, ?_, ?_,
    fun k d hk => hc.exclusive k d (hback k d hk).2, nofun, ?_,
    fun hkeep k d hk => hc.registered hkeep k d (hback k d hk).2⟩
  · intro f hf k hk
    rw [hstay f hf k (List.mem_append_left _ hk)]
    exact hc.alive f hf k hk
  · intro f hf k hk
    rw [hstay f hf k (List.mem_append_right _ (Option.mem_toList.2 hk))]
    exact hc.borrows f hf k hk
  · intro hkeep k d hk
    obtain ⟨hne, hold⟩ := hback k d hk
    rcases hc.accounted hkeep k d hold with hm | hm
    · exact absurd (List.mem_singleton.1 hm) hne
    · exact Or.inr hm

/-- The frame of a call borrows the receiver. -/
theorem borrow (hc : Custody keep [] a (f :: fs) pinned) (hb : f.borrow = none)
    (hloop : f.looping = false) (hl : a.look h = some c) (hx : c.exclusive = false) :
    Custody keep [] (a.setCell h.index.toNat { c with exclusive := true })
      ({ f with borrow := some h } :: fs) pinned := by
  obtain ⟨hf, habove, hreceivers, hfs⟩ := hc.stacked
  obtain ⟨hoc, -⟩ := (Arena.look_eq_some.1 hl).2
  have hlook := Arena.look_setCell_cases (d := { c with exclusive := true }) hl hoc rfl
  have hkept : ∀ k d, a.look k = some d → ∃ d', (a.setCell h.index.toNat { c with exclusive := true }).look
      k = some d' ∧ (d.exclusive = true → d'.exclusive = true) := by
    intro k d hk
    obtain ⟨-, -, hnew⟩ | hsame := hlook k
    · exact ⟨_, hnew, fun _ => rfl⟩
    · exact ⟨d, hsame.trans hk, id⟩
  have hback : ∀ k d', (a.setCell h.index.toNat { c with exclusive := true }).look k = some d' →
      ∃ d, a.look k = some d ∧ d'.pinned = d.pinned ∧
        (d'.exclusive = true → k = h ∨ d.exclusive = true) := by
    intro k d' hk
    obtain ⟨he, hold, hnew⟩ | hsame := hlook k
    · cases hnew.symm.trans hk
      exact ⟨c, hold, rfl, fun _ => Or.inl he⟩
    · exact ⟨d', hsame.symm.trans hk, rfl, Or.inr⟩
  have hlent : ∀ k, (∃ g ∈ f :: fs, g.borrow = some k) →
      ∃ g ∈ ({ f with borrow := some h } : Holding) :: fs, g.borrow = some k := by
    intro k hk
    refine Holding.exists_push (Holding.exists_tail hk fun hfk => ?_)
    rw [hb] at hfk
    cases hfk
  refine ⟨Arena.wellFormed_setCell hc.arena hl hoc, ⟨⟨hf.owns, hf.distinct, ?_⟩,
    fun g hg => ⟨(habove g hg).apart, ?_⟩, ?_, hfs⟩, ?_, List.forall_mem_cons.2 ⟨?_, ?_⟩, ?_, nofun,
    ?_, ?_⟩
  · intro hloops
    rw [hloop] at hloops
    cases hloops
  · intro k hk hgk
    cases hk
    obtain ⟨d, hd, hxd⟩ := hc.borrows g (List.mem_cons_of_mem _ hg) h hgk
    rw [hl] at hd
    cases hd
    rw [hx] at hxd
    cases hxd
  · exact fun k hk => hlent k (hreceivers k hk)
  · have halive : ∀ g ∈ f :: fs, ∀ k ∈ g.mutables,
        ∃ d, (a.setCell h.index.toNat { c with exclusive := true }).look k = some d := by
      intro g hg k hk
      obtain ⟨d, hd⟩ := hc.alive g hg k hk
      exact (hkept k d hd).imp fun _ h => h.1
    exact List.forall_mem_cons.2 (List.forall_mem_cons.1 halive)
  · intro k hk
    cases hk
    exact ⟨_, (Arena.look_setCell (d := { c with exclusive := true }) hl hoc rfl h).trans (if_pos rfl), rfl⟩
  · intro g hg k hk
    obtain ⟨d, hd, hxd⟩ := hc.borrows g (List.mem_cons_of_mem _ hg) k hk
    obtain ⟨d', hd', hx'⟩ := hkept k d hd
    exact ⟨d', hd', hx' hxd⟩
  · intro k d' hk hxd
    obtain ⟨d, hd, -, himp⟩ := hback k d' hk
    rcases himp hxd with rfl | hxd
    · exact ⟨_, List.mem_cons_self, rfl⟩
    · exact hlent k (hc.exclusive k d hd hxd)
  · intro hkeep k d' hk
    obtain ⟨d, hd, -⟩ := hback k d' hk
    refine (hc.accounted hkeep k d hd).imp_right fun ho => ho.imp_right fun hm => ?_
    exact Holding.exists_retop hm id
  · intro hkeep k d' hk hpd
    obtain ⟨d, hd, hpin, -⟩ := hback k d' hk
    exact hc.registered hkeep k d hd (hpin ▸ hpd)

/-- A cell is pinned, and entered in the list of the run. -/
theorem pin (hc : Custody keep [] a fs pinned) (hl : a.look h = some c) :
    Custody keep [] (a.setCell h.index.toNat { c with pinned := true }) fs (pinned ++ [h]) := by
  obtain ⟨hoc, -⟩ := (Arena.look_eq_some.1 hl).2
  have hlook := Arena.look_setCell_cases (d := { c with pinned := true }) hl hoc rfl
  have hkept : ∀ k d, a.look k = some d → ∃ d', (a.setCell h.index.toNat { c with pinned := true }).look
      k = some d' ∧ d'.exclusive = d.exclusive := by
    intro k d hk
    obtain ⟨-, hold, hnew⟩ | hsame := hlook k
    · cases hold.symm.trans hk
      exact ⟨_, hnew, rfl⟩
    · exact ⟨d, hsame.trans hk, rfl⟩
  have hback : ∀ k d', (a.setCell h.index.toNat { c with pinned := true }).look k = some d' →
      ∃ d, a.look k = some d ∧ d'.exclusive = d.exclusive ∧
        (d'.pinned = true → k = h ∨ d.pinned = true) := by
    intro k d' hk
    obtain ⟨he, hold, hnew⟩ | hsame := hlook k
    · cases hnew.symm.trans hk
      exact ⟨c, hold, rfl, fun _ => Or.inl he⟩
    · exact ⟨d', hsame.symm.trans hk, rfl, Or.inr⟩
  refine ⟨Arena.wellFormed_setCell hc.arena hl hoc, hc.stacked, ?_, ?_, ?_, nofun, ?_, ?_⟩
  · intro g hg k hk
    obtain ⟨d, hd⟩ := hc.alive g hg k hk
    exact (hkept k d hd).imp fun _ h => h.1
  · intro g hg k hk
    obtain ⟨d, hd, hxd⟩ := hc.borrows g hg k hk
    obtain ⟨d', hd', hx'⟩ := hkept k d hd
    exact ⟨d', hd', hx'.trans hxd⟩
  · intro k d' hk hxd
    obtain ⟨d, hd, hx', -⟩ := hback k d' hk
    exact hc.exclusive k d hd (hx' ▸ hxd)
  · intro hkeep k d' hk
    obtain ⟨d, hd, -⟩ := hback k d' hk
    exact (hc.accounted hkeep k d hd).imp_right fun ho => ho.imp_left (List.mem_append_left _)
  · intro hkeep k d' hk hpd
    obtain ⟨d, hd, -, himp⟩ := hback k d' hk
    rcases himp hpd with rfl | hpd
    · exact List.mem_append_right _ List.mem_cons_self
    · exact List.mem_append_left _ (hc.registered hkeep k d hd hpd)

def releases (keep : Bool) (a : Arena) (pinned : List CellHandle) : Arena :=
  if keep then a else pinned.foldl Arena.releaseIfFree a

theorem releases_pinned (hc : Custody keep [] a [] pinned) :
    Custody keep [] (releases keep a pinned) [] [] := by
  cases keep with
  | true => exact ⟨hc.arena, hc.stacked, hc.alive, hc.borrows, hc.exclusive, nofun, nofun, nofun⟩
  | false =>
    have hgone : ∀ k c, (releases false a pinned).look k ≠ some c := by
      intro k c hk
      obtain ⟨hold, hborrowed⟩ := Arena.look_releases a pinned hk
      rcases hc.accounted rfl k c hold with hm | hm | ⟨f, hf, -⟩
      · cases hm
      · obtain ⟨f, hf, -⟩ := hc.exclusive k c hold (hborrowed hm)
        cases hf
      · cases hf
    refine ⟨Arena.wellFormed_releases hc.arena pinned, trivial, nofun, nofun,
      fun k c hk => absurd hk (hgone k c), nofun,
      fun _ k c hk => absurd hk (hgone k c), fun _ k c hk => absurd hk (hgone k c)⟩

theorem live_eq_zero (hc : Custody false [] a [] []) : a.live = 0 := by
  refine Arena.live_eq_zero hc.arena fun h => ?_
  refine Option.eq_none_iff_forall_ne_some.2 fun c hl => ?_
  rcases hc.accounted rfl h c hl with hm | hm | ⟨f, hf, -⟩
  · cases hm
  · cases hm
  · cases hf

end Custody

/-- What holds of the cells of a stack: which of them are lent always, and the custody of all where there is
room for the cells that are made. -/
structure Keeping (room : Prop) (keep : Bool) (transit : List CellHandle) (a : Arena) (fs : List Holding)
    (pinned : List CellHandle) : Prop where
  lent : Lent a [] fs
  unlent : ∀ h ∈ transit, ¬a.Exclusive h
  custody : room → Custody keep transit a fs pinned

namespace Keeping

variable {room : Prop} {keep : Bool} {transit pinned : List CellHandle} {a a' : Arena} {f : Holding}
  {fs : List Holding} {h : CellHandle} {c : Cell} {name : Text} {b : Binding}

theorem same (hk : Keeping room keep transit a fs pinned) (ha : a.WellFormed → a'.WellFormed)
    (hl : ∀ k, (a'.look k).map (fun c => (c.exclusive, c.pinned)) =
      (a.look k).map fun c => (c.exclusive, c.pinned)) : Keeping room keep transit a' fs pinned := by
  have hback : ∀ k, a'.Exclusive k → a.Exclusive k := by
    rintro k ⟨c', hk', hx⟩
    have hflags := (hl k).symm
    rw [hk'] at hflags
    obtain ⟨c, hc, he⟩ := Option.map_eq_some_iff.1 hflags
    exact ⟨c, hc, (Prod.mk.inj he).1.trans hx⟩
  exact ⟨hk.lent.same hback, fun k hh => mt (hback k) (hk.unlent k hh),
    fun hr => (hk.custody hr).same (ha (hk.custody hr).arena) hl⟩

theorem push (hk : Keeping room keep transit a fs pinned) :
    Keeping room keep transit a (⟨[], [], none, false⟩ :: fs) pinned :=
  ⟨hk.lent.push, hk.unlent, fun hr => (hk.custody hr).push⟩

theorem retop {f' : Holding} (hk : Keeping room keep transit a (f :: fs) pinned)
    (howned : f'.owned = f.owned) (hborrow : f'.borrow = f.borrow)
    (hlooping : f'.looping = true → f.borrow = none) (hmutables : f'.mutables.Sublist f.mutables)
    (hreceivers : ∀ h ∈ f'.receivers, ∃ g ∈ f :: fs, g.borrow = some h) :
    Keeping room keep transit a (f' :: fs) pinned :=
  ⟨hk.lent.retop (fun _ hh _ => howned ▸ hh) hborrow hlooping hreceivers, hk.unlent,
    fun hr => (hk.custody hr).retop howned hborrow hlooping hmutables hreceivers⟩

theorem unbind (hk : Keeping room keep transit a (f :: fs) pinned) (name : Text) :
    Keeping room keep transit a (f.unbind name :: fs) pinned :=
  hk.retop rfl rfl hk.lent.1 (f.mutables_unbind name) fun h hh =>
    hk.lent.2.1 h ((f.receivers_unbind name).subset hh)

theorem drop (hk : Keeping room keep transit a (f :: fs) pinned)
    (hl : f.bindings.lookup name = some (.cell h)) :
    Keeping room keep transit (a.discard h) (f.unbind name :: fs) pinned :=
  ⟨(hk.unbind name).lent.same fun _ => Arena.Exclusive.of_discard,
    fun k hm => mt Arena.Exclusive.of_discard (hk.unlent k hm), fun hr => (hk.custody hr).drop hl⟩

theorem allocate (hk : Keeping room keep transit a fs pinned) (hroom : room → a.Roomy) (v : Value) :
    Keeping room keep ((a.allocate v).1 :: transit) (a.allocate v).2 fs pinned :=
  ⟨hk.lent.same fun _ hx => hx.of_allocate.1,
    List.forall_mem_cons.2 ⟨fun hx => hx.of_allocate.2 rfl, fun k hm hx => hk.unlent k hm hx.of_allocate.1⟩,
    fun hr => (hk.custody hr).allocate (hroom hr) v⟩

theorem own (hk : Keeping room keep [h] a (f :: fs) pinned) :
    Keeping room keep [] a ({ f with owned := f.owned ++ [h] } :: fs) pinned := by
  refine ⟨hk.lent.retop (fun k hm hx => ?_) rfl hk.lent.1 hk.lent.2.1, nofun, fun hr => (hk.custody hr).own⟩
  refine (List.mem_append.1 hm).resolve_right fun hm => ?_
  exact hk.unlent h List.mem_cons_self (List.mem_singleton.1 hm ▸ hx)

theorem bind (hk : Keeping room keep transit a (f :: fs) pinned) (name : Text)
    (hm : b.mutable? = none) (hr : ∀ h, b.receiver? = some h → ∃ g ∈ f :: fs, g.borrow = some h) :
    Keeping room keep transit a (f.bind name b :: fs) pinned := by
  refine ⟨hk.lent.retop (fun _ hh _ => hh) rfl hk.lent.1 fun h hh => ?_, hk.unlent,
    fun hroom => (hk.custody hroom).bind name hm hr⟩
  rw [Holding.receivers_bind] at hh
  rcases List.mem_append.1 hh with hh | hh
  · exact hr h (Option.mem_toList.1 hh)
  · exact hk.lent.2.1 h ((f.receivers_unbind name).subset hh)

theorem declare (hk : Keeping room keep [] a (f :: fs) pinned) (hroom : room → a.Roomy) (name : Text)
    (v : Value) :
    Keeping room keep [] (a.allocate v).2
      ({ f.bind name (.cell (a.allocate v).1) with owned := f.owned ++ [(a.allocate v).1] } :: fs)
      pinned := by
  have howned := (hk.allocate hroom v).own.lent
  refine ⟨howned.retop (fun _ hh _ => hh) rfl howned.1 fun h hh => ?_, nofun,
    fun hr => (hk.custody hr).declare (hroom hr) name v⟩
  refine howned.2.1 h ((f.receivers_unbind name).subset ?_)
  exact hh

theorem releaseIfFree (hk : Keeping room keep [h] a fs pinned) :
    Keeping room keep [] (a.releaseIfFree h) fs pinned :=
  ⟨hk.lent.same fun _ => Arena.Exclusive.of_releaseIfFree, nofun, fun hr => (hk.custody hr).releaseIfFree⟩

theorem borrow (hk : Keeping room keep [] a (f :: fs) pinned) (hb : f.borrow = none)
    (hloop : f.looping = false) (hl : a.look h = some c) (hx : c.exclusive = false) :
    Keeping room keep [] (a.setCell h.index.toNat { c with exclusive := true })
      ({ f with borrow := some h } :: fs) pinned :=
  ⟨hk.lent.borrow hb hloop fun _ => Arena.Exclusive.of_beginExclusive hl, nofun,
    fun hr => (hk.custody hr).borrow hb hloop hl hx⟩

theorem pin (hk : Keeping room keep [] a fs pinned) (hl : a.look h = some c) :
    Keeping room keep [] (a.setCell h.index.toNat { c with pinned := true }) fs (pinned ++ [h]) :=
  ⟨hk.lent.same fun _ => Arena.Exclusive.of_pin hl, nofun, fun hr => (hk.custody hr).pin hl⟩

theorem pop (hk : Keeping room keep [] a (f :: fs) pinned) :
    Keeping room keep [] (Custody.discards keep (Custody.unborrowed a f.borrow) f.owned) fs pinned :=
  ⟨hk.lent.below fun _ hx => Custody.exclusive_of_unborrowed (Custody.exclusive_of_discards hx),
    nofun, fun hr => (hk.custody hr).pop⟩

theorem reset (hk : Keeping room keep [] a (f :: fs) pinned) (hl : f.looping = true) :
    Keeping room keep [] (Custody.discards keep a f.owned) (⟨[], [], none, true⟩ :: fs) pinned := by
  have hb := hk.lent.1 hl
  have hbare : Lent a [] (⟨[], [], none, true⟩ :: fs) := hk.lent.retop nofun hb.symm (fun _ => hb) nofun
  exact ⟨hbare.same fun _ => Custody.exclusive_of_discards, nofun, fun hr => (hk.custody hr).reset hl⟩

theorem releases_pinned (hk : Keeping room keep [] a [] pinned) :
    Keeping room keep [] (Custody.releases keep a pinned) [] [] :=
  ⟨trivial, nofun, fun hr => (hk.custody hr).releases_pinned⟩

end Keeping

end ScriptMachine
