import ScriptMachine.Proofs.Machine.Loans

set_option autoImplicit false

/-!
# Custody of cells

Every cell that is alive is held by a frame, pinned for the whole run, or in transit between the call
that it was made for and the frame of that call. What the frames hold is alive, and a cell is borrowed
when, and only when, a frame has borrowed it. Every change that the machine makes to its cells and
frames keeps this.
-/
namespace ScriptMachine

/-- The cells of an arena under the frames of a stack. `keep` says that cells outlive their frames,
`transit` are the cells that no frame owns yet. -/
structure Custody (keep : Bool) (transit : List CellHandle) (a : Arena) (fs : List Holding)
    (pinned : List CellHandle) : Prop where
  arena : a.WellFormed
  stacked : Holding.Stacked fs
  alive : ∀ f ∈ fs, ∀ h ∈ f.mutables, ∃ c, a.look h = some c
  borrows : ∀ f ∈ fs, ∀ h, f.borrow = some h → ∃ c, a.look h = some c ∧ c.exclusive = true
  exclusive : ∀ h c, a.look h = some c → c.exclusive = true → ∃ f ∈ fs, f.borrow = some h
  moving : ∀ h ∈ transit, a.Loose h ∧ ∀ f ∈ fs, ∀ k ∈ f.held, k.index ≠ h.index
  accounted : keep = false → ∀ h c, a.look h = some c →
    h ∈ transit ∨ h ∈ pinned ∨ ∃ f ∈ fs, h ∈ f.owned
  registered : keep = false → ∀ h c, a.look h = some c → c.pinned = true → h ∈ pinned

namespace Custody

def discards (keep : Bool) (a : Arena) (owned : List CellHandle) : Arena :=
  if keep then a else owned.foldl Arena.discard a

def unborrowed (a : Arena) : Option CellHandle → Arena
  | some h => a.endBorrow h
  | none => a

variable {keep : Bool} {transit pinned : List CellHandle} {a a' : Arena} {f : Holding}
  {fs : List Holding} {h : CellHandle} {c : Cell} {name : Text}

theorem exclusive_of_discards {owned : List CellHandle} (hx : (discards keep a owned).Exclusive h) :
    a.Exclusive h := by
  cases keep with
  | true => exact hx
  | false => exact Arena.Exclusive.of_discards hx

theorem exclusive_of_unborrowed {b : Option CellHandle} (hx : (unborrowed a b).Exclusive h) :
    a.Exclusive h ∧ b ≠ some h := by
  cases b with
  | none => exact ⟨hx, nofun⟩
  | some k =>
    obtain ⟨hold, hne⟩ := Arena.Exclusive.of_endBorrow hx
    exact ⟨hold, fun he => hne (Option.some.inj he).symm⟩

/-- Cells may change their values. -/
theorem same (hc : Custody keep transit a fs pinned) (ha : a'.WellFormed)
    (hl : ∀ k, (a'.look k).map (fun c => (c.exclusive, c.pinned)) =
      (a.look k).map fun c => (c.exclusive, c.pinned)) : Custody keep transit a' fs pinned := by
  have hnew : ∀ k c, a.look k = some c → ∃ c', a'.look k = some c' ∧ c'.exclusive = c.exclusive ∧
      c'.pinned = c.pinned := by
    intro k c hk
    have hk' := hl k
    rw [hk] at hk'
    obtain ⟨c', hc', he⟩ := Option.map_eq_some_iff.1 hk'
    exact ⟨c', hc', (Prod.mk.inj he).1, (Prod.mk.inj he).2⟩
  have hold : ∀ k c', a'.look k = some c' → ∃ c, a.look k = some c ∧ c'.exclusive = c.exclusive ∧
      c'.pinned = c.pinned := by
    intro k c' hk
    have hk' := (hl k).symm
    rw [hk] at hk'
    obtain ⟨c, hc, he⟩ := Option.map_eq_some_iff.1 hk'
    exact ⟨c, hc, (Prod.mk.inj he).1.symm, (Prod.mk.inj he).2.symm⟩
  refine ⟨ha, hc.stacked, ?_, ?_, ?_, ?_, ?_, ?_⟩
  · intro f hf h hh
    obtain ⟨c, hk⟩ := hc.alive f hf h hh
    obtain ⟨c', hk', -⟩ := hnew h c hk
    exact ⟨c', hk'⟩
  · intro f hf h hb
    obtain ⟨c, hk, hx⟩ := hc.borrows f hf h hb
    obtain ⟨c', hk', hx', -⟩ := hnew h c hk
    exact ⟨c', hk', hx'.trans hx⟩
  · intro h c' hk hx
    obtain ⟨c, hk, hx', -⟩ := hold h c' hk
    exact hc.exclusive h c hk (hx' ▸ hx)
  · intro h hh
    obtain ⟨⟨c, hk, hx, hp⟩, hapart⟩ := hc.moving h hh
    obtain ⟨c', hk', hx', hp'⟩ := hnew h c hk
    exact ⟨⟨c', hk', hx'.trans hx, hp'.trans hp⟩, hapart⟩
  · intro hkeep h c' hk
    obtain ⟨c, hk, -⟩ := hold h c' hk
    exact hc.accounted hkeep h c hk
  · intro hkeep h c' hk hp
    obtain ⟨c, hk, -, hp'⟩ := hold h c' hk
    exact hc.registered hkeep h c hk (hp' ▸ hp)

theorem push (hc : Custody keep transit a fs pinned) :
    Custody keep transit a (⟨[], [], none, false⟩ :: fs) pinned where
  arena := hc.arena
  stacked := ⟨⟨nofun, List.nodup_nil, nofun⟩, fun _ _ => ⟨nofun, nofun⟩, nofun, hc.stacked⟩
  alive := List.forall_mem_cons.2 ⟨nofun, hc.alive⟩
  borrows := List.forall_mem_cons.2 ⟨nofun, hc.borrows⟩
  exclusive := fun h c hl hx => Holding.exists_push (hc.exclusive h c hl hx)
  moving := fun h hh => (hc.moving h hh).imp_right fun hapart =>
    List.forall_mem_cons.2 ⟨nofun, hapart⟩
  accounted := fun hkeep h c hl => (hc.accounted hkeep h c hl).imp_right fun ho =>
    ho.imp_right Holding.exists_push
  registered := hc.registered

/-- The top frame may lose variables and gain others without a cell of their own. -/
theorem retop {f' : Holding} (hc : Custody keep transit a (f :: fs) pinned)
    (howned : f'.owned = f.owned) (hborrow : f'.borrow = f.borrow)
    (hlooping : f'.looping = true → f.borrow = none) (hmutables : f'.mutables.Sublist f.mutables)
    (hreceivers : ∀ h ∈ f'.receivers, ∃ g ∈ f :: fs, g.borrow = some h) :
    Custody keep transit a (f' :: fs) pinned := by
  obtain ⟨hf, habove, -, hfs⟩ := hc.stacked
  refine ⟨hc.arena, ⟨⟨?_, ?_, ?_⟩, ?_, ?_, hfs⟩, ?_, ?_, ?_, ?_, ?_, hc.registered⟩
  · intro h hh
    rw [howned]
    exact hf.owns h (hmutables.subset hh)
  · exact hf.distinct.sublist (hmutables.map _)
  · intro hl
    rw [hborrow]
    exact hlooping hl
  · intro g hg
    refine ⟨?_, ?_⟩
    · rw [howned]
      exact (habove g hg).apart
    · rw [hborrow]
      exact (habove g hg).borrow
  · intro h hh
    exact Holding.exists_retop (hreceivers h hh) hborrow.trans
  · obtain ⟨hfirst, hrest⟩ := List.forall_mem_cons.1 hc.alive
    exact List.forall_mem_cons.2 ⟨fun h hh => hfirst h (hmutables.subset hh), hrest⟩
  · obtain ⟨hfirst, hrest⟩ := List.forall_mem_cons.1 hc.borrows
    refine List.forall_mem_cons.2 ⟨?_, hrest⟩
    rw [hborrow]
    exact hfirst
  · intro h c hl hx
    exact Holding.exists_retop (hc.exclusive h c hl hx) hborrow.trans
  · intro h hh
    obtain ⟨hloose, hapart⟩ := hc.moving h hh
    obtain ⟨hfirst, hrest⟩ := List.forall_mem_cons.1 hapart
    refine ⟨hloose, List.forall_mem_cons.2 ⟨fun k hk => hfirst k ?_, hrest⟩⟩
    unfold Holding.held at hk ⊢
    rw [hborrow] at hk
    exact List.mem_append.2 ((List.mem_append.1 hk).imp_left fun hm => hmutables.subset hm)
  · intro hkeep h c hl
    refine (hc.accounted hkeep h c hl).imp_right fun ho => ho.imp_right fun hm => ?_
    exact Holding.exists_retop hm fun hm => howned ▸ hm

/-- Cells may go that nobody has borrowed, that no frame holds and that are not in transit. -/
theorem shrink (hc : Custody keep transit a fs pinned) (ha : a'.WellFormed)
    (hsub : ∀ k c, a'.look k = some c → a.look k = some c)
    (hgone : ∀ k c, a.look k = some c → a'.look k = none →
      c.exclusive = false ∧ k ∉ transit ∧ ∀ f ∈ fs, k ∉ f.mutables) :
    Custody keep transit a' fs pinned := by
  have hstay : ∀ k c, a.look k = some c →
      (c.exclusive = true ∨ k ∈ transit ∨ ∃ f ∈ fs, k ∈ f.mutables) → a'.look k = some c := by
    intro k c hl hneeded
    cases hl' : a'.look k with
    | some d => rw [← hl, hsub k d hl']
    | none =>
      obtain ⟨hx, ht, hm⟩ := hgone k c hl hl'
      rcases hneeded with hn | hn | ⟨f, hf, hn⟩
      · rw [hx] at hn
        cases hn
      · exact absurd hn ht
      · exact absurd hn (hm f hf)
  refine ⟨ha, hc.stacked, ?_, ?_, fun h c hl => hc.exclusive h c (hsub h c hl), ?_,
    fun hkeep h c hl => hc.accounted hkeep h c (hsub h c hl),
    fun hkeep h c hl => hc.registered hkeep h c (hsub h c hl)⟩
  · intro f hf h hh
    obtain ⟨c, hl⟩ := hc.alive f hf h hh
    exact ⟨c, hstay h c hl (Or.inr (Or.inr ⟨f, hf, hh⟩))⟩
  · intro f hf h hb
    obtain ⟨c, hl, hx⟩ := hc.borrows f hf h hb
    exact ⟨c, hstay h c hl (Or.inl hx), hx⟩
  · intro h hh
    obtain ⟨⟨c, hl, hflags⟩, hapart⟩ := hc.moving h hh
    exact ⟨⟨c, hstay h c hl (Or.inr (Or.inl hh)), hflags⟩, hapart⟩

theorem unbind (hc : Custody keep transit a (f :: fs) pinned) (name : Text) :
    Custody keep transit a (f.unbind name :: fs) pinned := by
  obtain ⟨hf, -, hreceivers, -⟩ := hc.stacked
  refine hc.retop rfl rfl hf.steady (f.mutables_unbind name) fun h hh => hreceivers h ?_
  exact (f.receivers_unbind name).subset hh

/-- The top frame forgets a mutable variable, and its cell is discarded. -/
theorem drop (hc : Custody keep transit a (f :: fs) pinned)
    (hl : f.bindings.lookup name = some (.cell h)) :
    Custody keep transit (a.discard h) (f.unbind name :: fs) pinned := by
  obtain ⟨hf, habove, -, -⟩ := hc.stacked
  have hmem : h ∈ f.mutables := by
    obtain ⟨front, back, hsplit, -⟩ := List.lookup_eq_some_iff.1 hl
    exact Holding.mem_mutables.2 ⟨name, by simp [hsplit]⟩
  have hheld : h ∈ f.held := List.mem_append_left _ hmem
  obtain ⟨hsame, -⟩ | ⟨c, hlook, hx, -, hsame⟩ := Arena.discard_cases a h
  · rw [hsame]
    exact hc.unbind name
  · have hnew := Arena.look_vacate hlook
    rw [← hsame] at hnew
    refine (hc.unbind name).shrink (Arena.wellFormed_discard hc.arena h) (fun k d hk => ?_) fun k d hk hk' => ?_
    · rw [hnew] at hk
      split at hk
      · cases hk
      · exact hk
    · have he : k = h := by
        by_contra hne
        rw [hnew, if_neg hne, hk] at hk'
        cases hk'
      subst k
      rw [hlook] at hk
      cases hk
      refine ⟨hx, fun ht => ?_, List.forall_mem_cons.2 ⟨fun hm => ?_, fun g hg hm => ?_⟩⟩
      · exact (hc.moving h ht).2 f List.mem_cons_self h hheld rfl
      · exact Holding.unbind_apart hf hl h hm rfl
      · exact (habove g hg).apart h (hf.owns h hmem) h (List.mem_append_left _ hm) rfl

/-- The borrow of the top frame ends when its variables are gone. -/
theorem unborrow (hc : Custody keep [] a (f :: fs) pinned) (hb : f.borrow = some h) :
    Custody keep [] (a.endBorrow h) (⟨[], f.owned, none, false⟩ :: fs) pinned := by
  obtain ⟨-, habove, -, hfs⟩ := hc.stacked
  have hnew := Arena.look_endBorrow a h
  have hback : ∀ k c, (a.endBorrow h).look k = some c →
      ∃ d, a.look k = some d ∧ c.pinned = d.pinned ∧
        (c.exclusive = true → k ≠ h ∧ d.exclusive = true) := by
    intro k c hl
    rw [hnew] at hl
    split at hl
    · rename_i hk
      obtain ⟨d, hd, rfl⟩ := Option.map_eq_some_iff.1 hl
      exact ⟨d, hk ▸ hd, rfl, nofun⟩
    · rename_i hk
      exact ⟨c, hl, rfl, fun hx => ⟨hk, hx⟩⟩
  have hfree : ∀ g ∈ fs, ∀ k, g.borrow = some k → k ≠ h := by
    rintro g hg k hk rfl
    exact (habove g hg).borrow k hb hk
  refine ⟨Arena.wellFormed_endBorrow hc.arena h,
    ⟨⟨nofun, List.nodup_nil, nofun⟩, fun g hg => ⟨(habove g hg).apart, nofun⟩, nofun, hfs⟩,
    List.forall_mem_cons.2 ⟨nofun, ?_⟩, List.forall_mem_cons.2 ⟨nofun, ?_⟩, ?_, nofun, ?_, ?_⟩
  · intro g hg k hk
    obtain ⟨c, hl⟩ := hc.alive g (List.mem_cons_of_mem _ hg) k hk
    rw [hnew]
    split
    · rename_i he
      rw [← he, hl]
      exact ⟨_, rfl⟩
    · exact ⟨c, hl⟩
  · intro g hg k hk
    rw [hnew, if_neg (hfree g hg k hk)]
    exact hc.borrows g (List.mem_cons_of_mem _ hg) k hk
  · intro k c hl hx
    obtain ⟨d, hd, -, himp⟩ := hback k c hl
    obtain ⟨hne, hxd⟩ := himp hx
    refine Holding.exists_push (Holding.exists_tail (hc.exclusive k d hd hxd) fun hgk => ?_)
    rw [hb] at hgk
    cases hgk
    exact hne rfl
  · intro hkeep k c hl
    obtain ⟨d, hd, -⟩ := hback k c hl
    refine (hc.accounted hkeep k d hd).imp_right fun ho => ho.imp_right fun hm => ?_
    exact Holding.exists_retop hm id
  · intro hkeep k c hl hp
    obtain ⟨d, hd, hpd, -⟩ := hback k c hl
    exact hc.registered hkeep k d hd (hpd ▸ hp)

theorem disown {owned : List CellHandle} {looping : Bool}
    (hc : Custody keep [] a (⟨[], owned, none, looping⟩ :: fs) pinned)
    (ho : keep = false → ∀ k c, a.look k = some c → k ∈ owned → k ∈ pinned) :
    Custody keep [] a (⟨[], [], none, looping⟩ :: fs) pinned := by
  refine ⟨hc.arena, ⟨⟨nofun, List.nodup_nil, fun _ => rfl⟩, fun _ _ => ⟨nofun, nofun⟩, nofun,
    hc.stacked.2.2.2⟩, List.forall_mem_cons.2 ⟨nofun, (List.forall_mem_cons.1 hc.alive).2⟩,
    List.forall_mem_cons.2 ⟨nofun, (List.forall_mem_cons.1 hc.borrows).2⟩, ?_, nofun, ?_,
    hc.registered⟩
  · exact fun k c hl hx => Holding.exists_retop (hc.exclusive k c hl hx) id
  · intro hkeep k c hl
    rcases hc.accounted hkeep k c hl with hm | hm | ⟨g, hg, hm⟩
    · exact Or.inl hm
    · exact Or.inr (Or.inl hm)
    · rcases List.mem_cons.1 hg with rfl | hg
      · exact Or.inr (Or.inl (ho hkeep k c hl hm))
      · exact Or.inr (Or.inr ⟨g, List.mem_cons_of_mem _ hg, hm⟩)

/-- A frame without variables and without a borrow gives up the cells that it owns. -/
theorem dispose {owned : List CellHandle} {looping : Bool}
    (hc : Custody keep [] a (⟨[], owned, none, looping⟩ :: fs) pinned) :
    Custody keep [] (discards keep a owned) (⟨[], [], none, looping⟩ :: fs) pinned := by
  cases keep with
  | true => exact hc.disown nofun
  | false =>
    change Custody false [] (owned.foldl Arena.discard a) _ pinned
    obtain ⟨-, habove, -, -⟩ := hc.stacked
    have hwf := Arena.wellFormed_discards hc.arena owned
    obtain ⟨hsub, hgone⟩ := Arena.look_discards a owned
    have hshrunk : Custody false [] (owned.foldl Arena.discard a)
        (⟨[], owned, none, looping⟩ :: fs) pinned := by
      refine hc.shrink hwf (fun k c hl => (hsub k c hl).1) fun k c hl hn => ?_
      obtain ⟨hm, d, hd, hx, -⟩ := hgone k c hl hn
      rw [hl] at hd
      cases hd
      refine ⟨hx, nofun, List.forall_mem_cons.2 ⟨nofun, fun g hg hmg => ?_⟩⟩
      exact (habove g hg).apart k hm k (List.mem_append_left _ hmg) rfl
    refine hshrunk.disown fun hkeep k c hl hm => ?_
    -- a cell that is given up and stays is pinned, for no frame below can have borrowed it
    obtain ⟨hold, hfirm⟩ := hsub k c hl
    by_contra hp
    have hx : c.exclusive = true := by
      by_contra hx
      refine hfirm hm ⟨c, hold, by simpa using hx, ?_⟩
      by_contra hpc
      exact hp (hshrunk.registered hkeep k c hl (by simpa using hpc))
    obtain ⟨g, hg, hgk⟩ := Holding.exists_tail (hc.exclusive k c hold hx) nofun
    exact (habove g hg).apart k hm k (List.mem_append_right _ (by simp [hgk])) rfl

theorem tail {looping : Bool} (hc : Custody keep [] a (⟨[], [], none, looping⟩ :: fs) pinned) :
    Custody keep [] a fs pinned := by
  refine ⟨hc.arena, hc.stacked.2.2.2, (List.forall_mem_cons.1 hc.alive).2,
    (List.forall_mem_cons.1 hc.borrows).2, ?_, nofun, ?_, hc.registered⟩
  · exact fun k c hl hx => Holding.exists_tail (hc.exclusive k c hl hx) nofun
  · intro hkeep k c hl
    refine (hc.accounted hkeep k c hl).imp_right fun ho => ho.imp_right fun hm => ?_
    exact Holding.exists_tail hm nofun

theorem pop (hc : Custody keep [] a (f :: fs) pinned) :
    Custody keep [] (discards keep (unborrowed a f.borrow) f.owned) fs pinned := by
  have hbare : Custody keep [] (unborrowed a f.borrow) (⟨[], f.owned, none, false⟩ :: fs) pinned := by
    cases hb : f.borrow with
    | some h => exact hc.unborrow hb
    | none => exact hc.retop rfl hb.symm nofun (List.nil_sublist _) nofun
  exact hbare.dispose.tail

theorem reset (hc : Custody keep [] a (f :: fs) pinned) (hl : f.looping = true) :
    Custody keep [] (discards keep a f.owned) (⟨[], [], none, true⟩ :: fs) pinned := by
  have hb : f.borrow = none := hc.stacked.1.steady hl
  have hbare : Custody keep [] a (⟨[], f.owned, none, true⟩ :: fs) pinned :=
    hc.retop rfl hb.symm (fun _ => hb) (List.nil_sublist _) nofun
  exact hbare.dispose

end Custody

end ScriptMachine
