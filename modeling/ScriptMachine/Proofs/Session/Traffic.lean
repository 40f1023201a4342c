import ScriptMachine.Proofs.Compiler.Compiled
import ScriptMachine.Proofs.Session.Cache
import ScriptMachine.Session.Basic

set_option autoImplicit false

/-!
# Calls for programs at the same time

A call of `Session.compile` looks among the programs that are kept, compiles the source if there is
none of it, and stores what it has compiled. Any number of calls may be under way, and their steps
may come in any order. The invariant is stated together with the history of what was newly stored.
-/
namespace ScriptMachine

/-- The answer is what compiling the source for some identity gives. -/
def Made (builtins : Registry) (source : Text) (answer : Except CompileError Program) : Prop :=
  ∃ id, compileSource (some builtins) id source = answer

/-- How far a call for a program has come. -/
inductive Stage where
  | looking
  | compiling
  | storing (program : Program)
  | answered (answer : Except CompileError Program)

namespace Stage

/-- The next step of a call for the program of a source, with the session after it. -/
def next (s : Session) (source : Text) : Stage → Stage × Session
  | .looking =>
    let s := s.freeze
    match s.programs.find? source with
    | some program => (.answered (.ok program), s)
    | none => (.compiling, s)
  | .compiling =>
    match s.build source with
    | (.error e, s) => (.answered (.error e), s)
    | (.ok program, s) => (.storing program, s)
  | .storing program =>
    let (program, s) := s.keep source program
    (.answered (.ok program), s)
  | .answered answer => (.answered answer, s)

/-- What the next step newly stores. -/
def stores (s : Session) (source : Text) : Stage → List (Text × Program)
  | .storing program =>
    match s.programs.find? source with
    | some _ => []
    | none => [(source, program)]
  | _ => []

def inHand? : Stage → Option Program
  | .storing program => some program
  | _ => none

/-- The next step goes to the programs that are kept. -/
def AtCache : Stage → Prop
  | .looking | .storing _ => True
  | _ => False

def left : Stage → Nat
  | .looking => 3
  | .compiling => 2
  | .storing _ => 1
  | .answered _ => 0

def Proper (builtins : Registry) (source : Text) : Stage → Prop
  | .looking | .compiling => True
  | .storing program => Made builtins source (.ok program)
  | .answered answer => Made builtins source answer

theorem next_left (s : Session) (source : Text) (stage : Stage) :
    (stage.next s source).1.left ≤ stage.left - 1 := by
  cases stage with
  | looking =>
    simp only [next]
    split <;> simp [left]
  | compiling =>
    simp only [next]
    split <;> simp [left]
  | storing program => exact Nat.le_refl 0
  | answered answer => exact Nat.le_refl 0

theorem answered_of_left {stage : Stage} (h : stage.left = 0) : ∃ answer, stage = .answered answer := by
  cases stage with
  | answered answer => exact ⟨answer, rfl⟩
  | looking | compiling | storing _ => cases h

end Stage

/-- A call for the program of a source. -/
structure Request where
  source : Text
  stage : Stage

/-- A session with all calls for programs so far. -/
structure Traffic where
  session : Session
  requests : List Request

inductive Move where
  | call (source : Text)
  /-- The next step of a call. -/
  | turn (i : Nat)
  deriving DecidableEq

namespace Traffic

def move (t : Traffic) : Move → Traffic
  | .call source => { t with requests := t.requests ++ [⟨source, .looking⟩] }
  | .turn i =>
    match t.requests[i]? with
    | none => t
    | some r =>
      let (stage, session) := r.stage.next t.session r.source
      ⟨session, t.requests.set i ⟨r.source, stage⟩⟩

/-- What a move newly stores. -/
def stores (t : Traffic) : Move → List (Text × Program)
  | .call _ => []
  | .turn i =>
    match t.requests[i]? with
    | none => []
    | some r => r.stage.stores t.session r.source

def play (t : Traffic) : List Move → Traffic
  | [] => t
  | m :: moves => (t.move m).play moves

/-- What some moves newly store, the oldest first. -/
def storedBy (t : Traffic) : List Move → List (Text × Program)
  | [] => []
  | m :: moves => t.stores m ++ (t.move m).storedBy moves

variable {t : Traffic} {m : Move} {moves : List Move} {i : Nat} {r : Request}
  {stored : List (Text × Program)}

theorem turn_last (s : Session) (requests : List Request) (source : Text) (stage : Stage) :
    (Traffic.mk s (requests ++ [⟨source, stage⟩])).move (.turn requests.length) =
      ⟨(stage.next s source).2, requests ++ [⟨source, (stage.next s source).1⟩]⟩ := by
  simp [move]

theorem play_alone (t : Traffic) (source : Text) :
    t.play (.call source :: List.replicate 3 (.turn t.requests.length)) =
      ⟨(t.session.compile source).2, t.requests ++ [⟨source, .answered (t.session.compile source).1⟩]⟩ := by
  obtain ⟨s, requests⟩ := t
  have hcall : (Traffic.mk s requests).move (.call source) = ⟨s, requests ++ [⟨source, .looking⟩]⟩ := rfl
  simp only [List.replicate, play, hcall, turn_last, Session.compile]
  cases hfind : s.freeze.programs.find? source with
  | some program => simp [Stage.next, hfind]
  | none =>
    simp only [Stage.next, hfind]
    rcases s.freeze.build source with ⟨_ | program, s'⟩
    · rfl
    · rfl

theorem requests_turn (h : t.requests[i]? = some r) :
    (t.move (.turn i)).requests[i]? = some ⟨r.source, (r.stage.next t.session r.source).1⟩ := by
  simp only [move, h]
  rw [List.getElem?_set_self (List.getElem?_eq_some_iff.1 h).1]

theorem requests_other (h : t.requests[i]? = some r) (hm : m ≠ .turn i) :
    (t.move m).requests[i]? = some r := by
  cases m with
  | call source => exact (List.getElem?_append_left (List.getElem?_eq_some_iff.1 h).1).trans h
  | turn j =>
    have hne : j ≠ i := fun hji => hm (hji ▸ rfl)
    simp only [move]
    split
    · exact h
    · rw [← h]
      exact List.getElem?_set_ne hne

theorem requests_play (h : t.requests[i]? = some r) (moves : List Move) :
    ∃ stage, (t.play moves).requests[i]? = some ⟨r.source, stage⟩ ∧
      stage.left ≤ r.stage.left - moves.count (.turn i) := by
  induction moves generalizing t r with
  | nil => exact ⟨r.stage, h, Nat.le_refl _⟩
  | cons m moves ih =>
    by_cases hm : m = .turn i
    · subst m
      obtain ⟨stage, hstage, hleft⟩ := ih (requests_turn h)
      refine ⟨stage, hstage, ?_⟩
      have hnext := Stage.next_left t.session r.source r.stage
      dsimp only at hleft
      rw [List.count_cons_self]
      omega
    · obtain ⟨stage, hstage, hleft⟩ := ih (requests_other h hm)
      refine ⟨stage, hstage, ?_⟩
      rwa [List.count_cons_of_ne hm]

theorem answered_play (h : t.requests[i]? = some r) (hcount : 3 ≤ moves.count (.turn i)) :
    ∃ answer, (t.play moves).requests[i]? = some ⟨r.source, .answered answer⟩ := by
  obtain ⟨stage, hstage, hleft⟩ := requests_play h moves
  have hmost : r.stage.left ≤ 3 := by cases r.stage <;> simp [Stage.left]
  have hnone : stage.left = 0 := by omega
  obtain ⟨answer, rfl⟩ := Stage.answered_of_left hnone
  exact ⟨answer, hstage⟩

/-- Programs with different identities, all of them given out already. -/
structure Supplied (nextId : Nat) (programs : List Program) : Prop where
  older : ∀ p ∈ programs, p.id < nextId
  distinct : (programs.map (·.id)).Nodup

theorem Supplied.of_perm {n : Nat} {ps qs : List Program} (h : Supplied n qs) (hp : ps.Perm qs) :
    Supplied n ps :=
  ⟨fun p hmem => h.older p (hp.mem_iff.1 hmem), (hp.map _).nodup_iff.2 h.distinct⟩

theorem Supplied.cons {n : Nat} {p : Program} {ps : List Program} (h : Supplied n ps) (hp : p.id = n) :
    Supplied (n + 1) (p :: ps) := by
  refine ⟨fun q hq => ?_, List.nodup_cons.2 ⟨fun hmem => ?_, h.distinct⟩⟩
  · rcases List.mem_cons.1 hq with rfl | hq
    · exact Nat.lt_succ_of_le (Nat.le_of_eq hp)
    · exact Nat.lt_succ_of_lt (h.older q hq)
  · obtain ⟨q, hq, hqp⟩ := List.mem_map.1 hmem
    have hlt := h.older q hq
    rw [show q.id = n from hqp.trans hp] at hlt
    exact Nat.lt_irrefl n hlt

theorem Supplied.tail {n : Nat} {p : Program} {ps : List Program} (h : Supplied n (p :: ps)) :
    Supplied n ps :=
  ⟨fun q hq => h.older q (List.mem_cons_of_mem _ hq), (List.nodup_cons.1 h.distinct).2⟩

theorem Supplied.succ {n : Nat} {ps : List Program} (h : Supplied n ps) : Supplied (n + 1) ps :=
  ⟨fun p hp => Nat.lt_succ_of_lt (h.older p hp), h.distinct⟩

def programs (requests : List Request) (stored : List (Text × Program)) : List Program :=
  requests.filterMap (fun r => r.stage.inHand?) ++ stored.map Prod.snd

theorem programs_middle (front back : List Request) (r : Request) (stored : List (Text × Program)) :
    (programs (front ++ r :: back) stored).Perm
      (r.stage.inHand?.toList ++ programs (front ++ back) stored) := by
  have hone : (r :: back).filterMap (fun r => r.stage.inHand?) =
      r.stage.inHand?.toList ++ back.filterMap fun r => r.stage.inHand? := by
    cases hr : r.stage.inHand? <;> simp [hr]
  simp only [programs, List.filterMap_append, hone, ← List.append_assoc]
  exact (List.perm_append_comm.append_right _).append_right _

/-- What holds of calls to a session with the given built-in functions and the given room for
programs, after a history of what was newly stored. -/
structure Coherent (builtins : Registry) (room : Nat) (t : Traffic) (stored : List (Text × Program)) :
    Prop where
  capacity : t.session.programs.capacity = room
  holds : t.session.programs.Holds stored
  spaced : Cache.Spaced room (stored.map Prod.fst)
  complete : t.session.builtins.freeze = builtins
  frozen : ∀ r ∈ t.requests, r.stage ≠ .looking → t.session.builtins = builtins
  proper : ∀ r ∈ t.requests, r.stage.Proper builtins r.source
  kept : ∀ e ∈ stored, Made builtins e.1 (.ok e.2)
  supplied : Supplied t.session.host.nextId (programs t.requests stored)

namespace Coherent

variable {builtins : Registry} {room : Nat} {s s' : Session} {front back : List Request}
  {extra : List (Text × Program)} {stage : Stage} {source : Text}

theorem opening (config : Configuration) (builtins : Registry) (host : Host) :
    Coherent builtins.freeze (max config.cacheSize 1)
      ⟨{ Session.create config host with builtins }, []⟩ [] where
  capacity := rfl
  holds := Cache.create_holds _
  spaced := Cache.spaced_nil _
  complete := rfl
  frozen := by simp
  proper := by simp
  kept := by simp
  supplied := ⟨by simp [programs], by simp [programs]⟩

theorem call (h : Coherent builtins room t stored) (source : Text) :
    Coherent builtins room (t.move (.call source)) stored where
  capacity := h.capacity
  holds := h.holds
  spaced := h.spaced
  complete := h.complete
  frozen := by
    intro r hr hstage
    rcases List.mem_append.1 hr with hr | hr
    · exact h.frozen r hr hstage
    · cases List.mem_singleton.1 hr
      exact absurd rfl hstage
  proper := by
    intro r hr
    rcases List.mem_append.1 hr with hr | hr
    · exact h.proper r hr
    · cases List.mem_singleton.1 hr
      trivial
  kept := h.kept
  supplied := by
    have hsame : programs (t.move (.call source)).requests stored = programs t.requests stored := by
      simp [programs, move, Stage.inHand?]
    rw [hsame]
    exact h.supplied

/-- One call moves on, and the others wait. -/
theorem renew (h : Coherent builtins room ⟨s, front ++ r :: back⟩ stored)
    (hcapacity : s'.programs.capacity = room) (hholds : s'.programs.Holds (stored ++ extra))
    (hspaced : Cache.Spaced room ((stored ++ extra).map Prod.fst)) (hbuiltins : s'.builtins = builtins)
    (hproper : stage.Proper builtins r.source) (hextra : ∀ e ∈ extra, Made builtins e.1 (.ok e.2))
    (hsupplied : Supplied s'.host.nextId
      (stage.inHand?.toList ++ programs (front ++ back) (stored ++ extra))) :
    Coherent builtins room ⟨s', front ++ ⟨r.source, stage⟩ :: back⟩ (stored ++ extra) where
  capacity := hcapacity
  holds := hholds
  spaced := hspaced
  complete := by
    have hfrozen : builtins.freeze = builtins := by
      rw [← h.complete]
      rfl
    rw [hbuiltins, hfrozen]
  frozen := fun _ _ _ => hbuiltins
  proper := by
    intro q hq
    rcases List.mem_append.1 hq with hq | hq
    · exact h.proper q (List.mem_append_left _ hq)
    · rcases List.mem_cons.1 hq with rfl | hq
      · exact hproper
      · exact h.proper q (List.mem_append_right _ (List.mem_cons_of_mem _ hq))
  kept := by
    intro e he
    exact (List.mem_append.1 he).elim (h.kept e) (hextra e)
  supplied := hsupplied.of_perm (programs_middle _ _ _ _)

theorem others (h : Coherent builtins room ⟨s, front ++ r :: back⟩ stored) :
    Supplied s.host.nextId (r.stage.inHand?.toList ++ programs (front ++ back) stored) :=
  h.supplied.of_perm (programs_middle _ _ _ _).symm

theorem look (h : Coherent builtins room ⟨s, front ++ ⟨source, .looking⟩ :: back⟩ stored) :
    Coherent builtins room ⟨(Stage.looking.next s source).2,
      front ++ ⟨source, (Stage.looking.next s source).1⟩ :: back⟩ stored := by
  have hold : s.freeze.programs.Holds stored := h.holds
  rw [← List.append_nil stored]
  cases hfind : s.freeze.programs.find? source with
  | some program =>
    have hnext : Stage.looking.next s source = (.answered (.ok program), s.freeze) := by
      simp only [Stage.next, hfind]
    have hmem : (source, program) ∈ stored := List.mem_of_mem_drop (h.holds.find?_some.1 hfind)
    rw [hnext]
    exact h.renew h.capacity (by simpa using hold) (by simpa using h.spaced) h.complete
      (h.kept _ hmem) (by simp) (by rw [List.append_nil]; exact h.others)
  | none =>
    have hnext : Stage.looking.next s source = (.compiling, s.freeze) := by
      simp only [Stage.next, hfind]
    rw [hnext]
    exact h.renew h.capacity (by simpa using hold) (by simpa using h.spaced) h.complete
      trivial (by simp) (by rw [List.append_nil]; exact h.others)

theorem compile (h : Coherent builtins room ⟨s, front ++ ⟨source, .compiling⟩ :: back⟩ stored) :
    Coherent builtins room ⟨(Stage.compiling.next s source).2,
      front ++ ⟨source, (Stage.compiling.next s source).1⟩ :: back⟩ stored := by
  have hbuiltins : s.builtins = builtins :=
    h.frozen _ (List.mem_append_right _ List.mem_cons_self) (by simp)
  have hold : s.programs.Holds (stored ++ []) := by simpa using h.holds
  have hspaced : Cache.Spaced room ((stored ++ []).map Prod.fst) := by simpa using h.spaced
  have hothers := h.others
  have hbuild : s.build source = (compileSource (some builtins) s.host.nextId source,
      { s with host := s.host.freshId.2 }) := by
    rw [← hbuiltins]
    rfl
  rw [← List.append_nil stored]
  cases hmade : compileSource (some builtins) s.host.nextId source with
  | error e =>
    have hnext : Stage.compiling.next s source =
        (.answered (.error e), { s with host := s.host.freshId.2 }) := by
      simp only [Stage.next, hbuild, hmade]
    rw [hnext]
    exact h.renew h.capacity hold hspaced hbuiltins ⟨_, hmade⟩ (by simp)
      (by rw [List.append_nil]; exact hothers.succ)
  | ok program =>
    have hnext : Stage.compiling.next s source =
        (.storing program, { s with host := s.host.freshId.2 }) := by
      simp only [Stage.next, hbuild, hmade]
    rw [hnext]
    exact h.renew h.capacity hold hspaced hbuiltins ⟨_, hmade⟩ (by simp)
      (by rw [List.append_nil]; exact hothers.cons (compileSource_id hmade))

theorem store {program : Program}
    (h : Coherent builtins room ⟨s, front ++ ⟨source, .storing program⟩ :: back⟩ stored) :
    Coherent builtins room ⟨((Stage.storing program).next s source).2,
      front ++ ⟨source, ((Stage.storing program).next s source).1⟩ :: back⟩
      (stored ++ (Stage.storing program).stores s source) := by
  have hmem : (⟨source, .storing program⟩ : Request) ∈ front ++ ⟨source, .storing program⟩ :: back :=
    List.mem_append_right _ List.mem_cons_self
  have hbuiltins : s.builtins = builtins := h.frozen _ hmem (by simp)
  have hothers := h.others
  cases hfind : s.programs.find? source with
  | some kept =>
    have hkept : (source, kept) ∈ stored := List.mem_of_mem_drop (h.holds.find?_some.1 hfind)
    have hnext : (Stage.storing program).next s source = (.answered (.ok kept), s) := by
      simp only [Stage.next, Session.keep, Cache.store_known hfind]
    have hstores : (Stage.storing program).stores s source = [] := by simp only [Stage.stores, hfind]
    rw [hnext, hstores]
    refine h.renew h.capacity (by simpa using h.holds) (by simpa using h.spaced) hbuiltins
      (h.kept _ hkept) (by simp) ?_
    -- the program in hand is dropped
    rw [List.append_nil]
    exact hothers.tail
  | none =>
    obtain ⟨hgiven, hcapacity, hholds⟩ := h.holds.store_new hfind program
    have hnext : (Stage.storing program).next s source = (.answered (.ok program),
        { s with programs := (s.programs.store source program).2 }) := by
      simp only [Stage.next, Session.keep, hgiven]
    have hstores : (Stage.storing program).stores s source = [(source, program)] := by
      simp only [Stage.stores, hfind]
    rw [hnext, hstores]
    refine h.renew (hcapacity.trans h.capacity) hholds ?_ hbuiltins (h.proper _ hmem)
      (fun e he => List.mem_singleton.1 he ▸ h.proper _ hmem) ?_
    · have hfresh := h.holds.find?_none.1 hfind
      rw [h.capacity, List.rtake, List.map_drop, ← List.length_map (f := Prod.fst)] at hfresh
      simpa using h.spaced.append hfresh
    -- the program in hand is now a stored one
    · refine hothers.of_perm ?_
      simp only [programs, Stage.inHand?, List.map_append, List.map_singleton, Option.toList,
        List.nil_append, ← List.append_assoc]
      exact List.perm_append_singleton _ _

/-- Whatever moves, all stays coherent. -/
theorem move (h : Coherent builtins room t stored) (m : Move) :
    Coherent builtins room (t.move m) (stored ++ t.stores m) := by
  cases m with
  | call source => simpa [stores] using h.call source
  | turn i =>
    simp only [Traffic.move, stores]
    split
    · simpa using h
    · rename_i r hr
      obtain ⟨hlt, hget⟩ := List.getElem?_eq_some_iff.1 hr
      have hsplit : t.requests = t.requests.take i ++ r :: t.requests.drop (i + 1) := by
        rw [← hget, List.getElem_cons_drop, List.take_append_drop]
      obtain ⟨source, stage⟩ := r
      rw [List.set_eq_take_append_cons_drop, if_pos hlt]
      have h' : Coherent builtins room
          ⟨t.session, t.requests.take i ++ ⟨source, stage⟩ :: t.requests.drop (i + 1)⟩ stored := by
        rw [← hsplit]
        exact h
      cases stage with
      | looking => simpa [Stage.stores] using h'.look
      | compiling => simpa [Stage.stores] using h'.compile
      | storing program => exact h'.store
      | answered answer => simpa [Stage.stores, Stage.next] using h'

theorem play (h : Coherent builtins room t stored) (moves : List Move) :
    Coherent builtins room (t.play moves) (stored ++ t.storedBy moves) := by
  induction moves generalizing t stored with
  | nil => simpa [Traffic.play, storedBy] using h
  | cons m moves ih => simpa [Traffic.play, storedBy] using ih (h.move m)

end Coherent

theorem given_kept {program : Program} (h : t.requests[i]? = some r) (hstage : r.stage.AtCache)
    (hfind : t.session.programs.find? r.source = some program) :
    (t.move (.turn i)).requests[i]? = some ⟨r.source, .answered (.ok program)⟩ ∧
      (t.move (.turn i)).session.programs = t.session.programs ∧ t.stores (.turn i) = [] := by
  rw [requests_turn h]
  simp only [move, stores, h]
  cases hs : r.stage with
  | looking =>
    have hfreeze : t.session.freeze.programs.find? r.source = some program := hfind
    simp only [Stage.next, hfreeze, Stage.stores, true_and, and_true]
    rfl
  | storing mine =>
    simp only [Stage.next, Session.keep, Cache.store_known hfind, Stage.stores, hfind, and_self]
  | compiling | answered _ => simp [hs, Stage.AtCache] at hstage

theorem given_first {program : Program} (h : t.requests[i]? = some r)
    (hstage : r.stage = .storing program) (hfind : t.session.programs.find? r.source = none) :
    (t.move (.turn i)).requests[i]? = some ⟨r.source, .answered (.ok program)⟩ ∧
      t.stores (.turn i) = [(r.source, program)] := by
  rw [requests_turn h]
  simp only [stores, h, hstage, Stage.next, Stage.stores, Session.keep, Cache.store, hfind, and_self]

end Traffic

open Traffic in
/-- Calls for programs agree, however their steps come in between each other, and one without anything in
between is `Session.compile`. The cache lists what it keeps in the order of storing and within its
bound; every call comes to an answer, made from its own source; and what was stored under a source is
given to all that come to the cache for it, until as many others as there is room for have been
stored, of different sources. -/
theorem compile_calls_agree (config : Configuration) (builtins : Registry) (host : Host)
    (moves : List Move) :
    let start : Traffic := ⟨{ Session.create config host with builtins }, []⟩
    let t := start.play moves
    let stored := start.storedBy moves
    let cache := t.session.programs
    let room := max config.cacheSize 1
    (∀ source, t.play (.call source :: List.replicate 3 (.turn t.requests.length)) =
      ⟨(t.session.compile source).2, t.requests ++ [⟨source, .answered (t.session.compile source).1⟩]⟩) ∧
    (cache.order.Nodup ∧ cache.order.Perm (cache.kept.map Prod.fst) ∧
      cache.order <:+ stored.map Prod.fst) ∧
    cache.size ≤ room ∧
    (stored.map fun e => e.2.id).Nodup ∧
    (∀ (i : Nat) (r : Request), t.requests[i]? = some r →
      (∀ answer, r.stage = .answered answer → Made builtins.freeze r.source answer) ∧
      (∀ program, r.stage = .storing program → cache.find? r.source = none →
        (t.move (.turn i)).requests[i]? = some ⟨r.source, .answered (.ok program)⟩ ∧
          t.stores (.turn i) = [(r.source, program)]) ∧
      ∀ later : List Move, 3 ≤ later.count (.turn i) →
        ∃ answer, (t.play later).requests[i]? = some ⟨r.source, .answered answer⟩) ∧
    ∀ before source program after, stored = before ++ (source, program) :: after →
      (source :: (after.map Prod.fst).take room).Nodup ∧
      (after.length < room → cache.find? source = some program ∧
        ∀ (i : Nat) (r : Request), t.requests[i]? = some r → r.source = source → r.stage.AtCache →
          (t.move (.turn i)).requests[i]? = some ⟨source, .answered (.ok program)⟩ ∧
            (t.move (.turn i)).session.programs = cache ∧ t.stores (.turn i) = []) ∧
      (room ≤ after.length → source ∉ after.map Prod.fst → cache.find? source = none) := by
  intro start t stored cache room
  have h : Coherent builtins.freeze room t stored := (Coherent.opening config builtins host).play moves
  refine ⟨play_alone t, ⟨h.holds.distinct, h.holds.order_perm, ?_⟩, ?_, ?_, fun i r hr => ⟨?_, ?_, ?_⟩, ?_⟩
  · rw [h.holds.order]
    exact (List.drop_suffix _ _).map _
  · exact h.capacity ▸ h.holds.size_le
  · have hdistinct := h.supplied.distinct
    rw [programs, List.map_append, List.map_map] at hdistinct
    exact (List.nodup_append.1 hdistinct).2.1
  · intro answer hanswer
    have hproper := h.proper r (List.mem_of_getElem? hr)
    rw [hanswer] at hproper
    exact hproper
  · exact fun program => given_first hr
  · exact fun later => answered_play hr
  · intro before source program after hstored
    refine ⟨?_, fun hroom => ?_, fun hroom => ?_⟩
    · have hkeys : stored.map Prod.fst =
          before.map Prod.fst ++ source :: after.map Prod.fst := by
        rw [hstored, List.map_append, List.map_cons]
      exact h.spaced.nodup hkeys
    · have hfind := h.holds.find?_recent hstored (h.capacity ▸ hroom)
      refine ⟨hfind, fun i r hr hsource hstage => ?_⟩
      cases hsource
      exact given_kept hr hstage hfind
    · exact h.holds.find?_gone hstored (h.capacity ▸ hroom)

end ScriptMachine
