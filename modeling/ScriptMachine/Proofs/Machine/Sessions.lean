import ScriptMachine.Proofs.Machine.Steps

set_option autoImplicit false

/-!
# Sessions

A host enters a machine again and again, and may do other things with what it has in between. After
every entry the machine is idle: nothing of the run is left but values. Main statements: between any
two steps every handle that a frame holds is alive, pinned or borrowed as its binding says, so that
the arena never reports anything but a borrow conflict; and after every entry no cell is left. Both hold as
long as fewer than 2^32 cells are in use.
-/
namespace ScriptMachine

/-- How a host enters a machine. -/
inductive Entry where
  | run
  | named (name : Text) (args : List Value)
  | function (f : Function) (args : List Value)
  | closure (callee : Value) (args : List Value)

namespace Entry

def perform (s : Setup) (m : Machine) : Entry → RunResult × Machine
  | .run => m.run s
  | .named name args => m.callNamed s name args
  | .function f args => m.callFunction s f args
  | .closure callee args => m.callValue s callee args

/-- The call of a function by the host. -/
def callAction (s : Setup) (f : Function) (args : List Value) : Exec Unit := do
  if f.isExtension then
    match args with
    | [] => Exec.fail (.typeError (f.name ++ " needs a receiver"))
    | self :: others => Exec.invokeExtension s f self others none noneRegister
  else Exec.invoke s f args none noneRegister none

/-- The action that an entry begins with, unless there is nothing to call. -/
def action (s : Setup) : Entry → Option (Exec Unit)
  | .run => some (Exec.pushFrame s (some 0) none noneRegister)
  | .named name args => (s.findFunction name).map fun f => callAction s f args
  | .function f args => some (callAction s f args)
  | .closure callee args => some (Exec.invokeClosure s callee args noneRegister)

/-- Values that the host hands over are from before the entry, as are its functions. -/
def Honest (time now : Nat) : Entry → Prop
  | .run => True
  | .named _ args => ∀ v ∈ args, v.Within (Dated now)
  | .function f args => f.Honest time ∧ ∀ v ∈ args, v.Within (Dated now)
  | .closure callee args => callee.Within (Dated now) ∧ ∀ v ∈ args, v.Within (Dated now)

theorem perform_eq (s : Setup) (m : Machine) (e : Entry) :
    e.action s = none ∧ (∃ f, e.perform s m = (.fault f, m.settle s)) ∨
      ∃ action, e.action s = some action ∧ e.perform s m = m.start s action := by
  cases e with
  | run => exact Or.inr ⟨_, rfl, rfl⟩
  | function f args => exact Or.inr ⟨_, rfl, rfl⟩
  | closure callee args => exact Or.inr ⟨_, rfl, rfl⟩
  | named name args =>
    simp only [action, perform, Machine.callNamed]
    cases s.findFunction name with
    | none => exact Or.inl ⟨rfl, _, rfl⟩
    | some f => exact Or.inr ⟨_, rfl, rfl⟩

end Entry

/-- An entry, with the host as it is by then. -/
structure Visit where
  host : Host
  entry : Entry

namespace Visit

def perform (s : Setup) (v : Visit) (m : Machine) : RunResult × Machine :=
  v.entry.perform s { m with host := v.host }

/-- Identities that were used up stay so, and the host has closures of finished runs only. -/
structure Honest (time : Nat) (m : Machine) (v : Visit) : Prop where
  identities : m.host.nextId ≤ v.host.nextId
  host : v.host.Within (Dated v.host.nextId)
  entry : v.entry.Honest time v.host.nextId

end Visit

namespace Machine

/-- The machine after some visits. -/
def visited (s : Setup) (m : Machine) : List Visit → Machine
  | [] => m
  | v :: vs => visited s (v.perform s m).2 vs

def HonestVisits (s : Setup) (time : Nat) (m : Machine) : List Visit → Prop
  | [] => True
  | v :: vs => v.Honest time m ∧ HonestVisits s time (v.perform s m).2 vs

theorem honestVisits_append {s : Setup} {time : Nat} {m : Machine} {vs ws : List Visit} :
    m.HonestVisits s time (vs ++ ws) ↔
      m.HonestVisits s time vs ∧ (m.visited s vs).HonestVisits s time ws := by
  induction vs generalizing m with
  | nil => simp [HonestVisits, visited]
  | cons v vs ih => simp [HonestVisits, visited, ih, and_assoc]

/-- Some steps of a run that goes on. -/
inductive Runs (s : Setup) : Machine → Machine → Prop where
  | refl (m : Machine) : Runs s m m
  | next {m m' m'' : Machine} (h : Runs s m m') (ha : m'.advance s = .running m'') : Runs s m m''

end Machine

theorem Machine.Runs.first {s : Setup} {m m' m'' : Machine} (ha : m.advance s = .running m')
    (h : m'.Runs s m'') : m.Runs s m'' := by
  induction h with
  | refl => exact .next (.refl m) ha
  | next _ ha' ih => exact .next ih ha'

/-- A state between two steps of a visit. -/
def Visit.Reaches (s : Setup) (v : Visit) (m m' : Machine) : Prop :=
  ∃ action m₁, v.entry.action s = some action ∧
    action (Machine.begin s { m with host := v.host }) = .ok () m₁ ∧ m₁.Runs s m'

/-- When the visit begins and between any two of its steps, fewer than 2^32 cells are in use. -/
structure Visit.Roomy (s : Setup) (m : Machine) (v : Visit) : Prop where
  begins : m.arena.Roomy
  between : ∀ m', v.Reaches s m m' → m'.arena.Roomy

namespace Machine

def RoomyVisits (s : Setup) (m : Machine) : List Visit → Prop
  | [] => True
  | v :: vs => v.Roomy s m ∧ RoomyVisits s (v.perform s m).2 vs

theorem roomyVisits_append {s : Setup} {m : Machine} {vs ws : List Visit} :
    m.RoomyVisits s (vs ++ ws) ↔ m.RoomyVisits s vs ∧ (m.visited s vs).RoomyVisits s ws := by
  induction vs generalizing m with
  | nil => simp [RoomyVisits, visited]
  | cons v vs ih => simp [RoomyVisits, visited, ih, and_assoc]

/-- A machine on which no run is going on. Its values share cells of finished runs only. -/
structure Idle (s : Setup) (trust : Trust) (time : Nat) (m : Machine) : Prop where
  frames : m.frames = []
  pinned : m.pinned = []
  halted : m.halted = none
  custody : Keeping trust.room s.options.keepCells [] m.arena [] []
  dated : trust.natives → time ≤ m.host.nextId
  cells : ∀ h c, m.arena.look h = some c → c.value.Within fun k => trust.natives → Dated m.host.nextId k
  memo : ∀ e ∈ m.memo, e.2.Within fun k => trust.natives → Dated m.host.nextId k
  result : m.entryResult.Within fun k => trust.natives → Dated m.host.nextId k
  host : m.host.Within fun k => trust.natives → Dated m.host.nextId k

variable {s : Setup} {trust : Trust} {time : Nat} {m m' : Machine}

theorem initial_idle {host : Host} (ht : trust.natives → time ≤ host.nextId)
    (hh : trust.natives → host.Within (Dated host.nextId)) : (initial host).Idle s trust time where
  frames := rfl
  pinned := rfl
  halted := rfl
  custody := by
    have hnone : ∀ h c, Arena.empty.look h ≠ some c := by simp [Arena.look, Arena.empty]
    exact ⟨trivial, List.forall_mem_nil _, fun _ => ⟨Arena.empty_wellFormed, trivial, List.forall_mem_nil _,
      List.forall_mem_nil _, fun h c hl => absurd hl (hnone h c), List.forall_mem_nil _,
      fun _ h c hl => absurd hl (hnone h c), fun _ h c hl => absurd hl (hnone h c)⟩⟩
  dated := ht
  cells := fun h c hl => by simp [initial, Arena.look, Arena.empty] at hl
  memo := List.forall_mem_nil _
  result := Value.within_none
  host := fun shared hs e he c hc ht => hh ht shared hs e he c hc

theorem popAll_sound (hm : m.Sound s trust time []) :
    m.Later trust (m.popAll s) ∧ (m.popAll s).Sound s trust time [] ∧ (m.popAll s).frames = [] := by
  have hgeneral : ∀ (fs : List Frame) (m : Machine), m.frames = fs → m.Sound s trust time [] →
      m.Later trust (fs.foldl (fun m _ => m.popFrame s) m) ∧
        (fs.foldl (fun m _ => m.popFrame s) m).Sound s trust time [] ∧
        (fs.foldl (fun m _ => m.popFrame s) m).frames = [] := by
    intro fs
    induction fs with
    | nil => exact fun m hf hm => ⟨.refl m, hm, hf⟩
    | cons f rest ih =>
      intro m hf hm
      obtain ⟨hlater, hsound⟩ := popFrame_sound hm
      have hframes : (m.popFrame s).frames = rest := by rw [popFrame_frames, hf, List.tail_cons]
      obtain ⟨hlater', hrest⟩ := ih _ hframes hsound
      exact ⟨hlater.trans hlater', hrest⟩
  exact hgeneral m.frames m rfl hm

theorem Known.past (hm : m.Known trust time) (c : SharedCell) (hc : m.Knows trust c)
    (ht : trust.natives) : Dated m.host.nextId c := by
  obtain ⟨-, hnow⟩ := hm.dated ht
  rcases hc ht with hd | ⟨hr, -⟩
  · exact Nat.lt_trans hd hnow
  · unfold Dated
    omega

theorem settle_idle (hm : m.Sound s trust time []) : (m.settle s).Idle s trust time := by
  obtain ⟨-, hsound, hframes⟩ := popAll_sound hm
  have hcustody := hsound.custody
  rw [hframes] at hcustody
  have hknown := hsound.known
  have hpast := hknown.past
  have hreleased := hcustody.releases_pinned
  refine ⟨hframes, rfl, rfl, hreleased, ?_, fun h c hl => ?_, ?_, ?_, ?_⟩
  · intro ht
    obtain ⟨hborn, hnow⟩ := hknown.dated ht
    exact Nat.le_of_lt (Nat.lt_of_le_of_lt hborn hnow)
  · have hold : (m.popAll s).arena.look h = some c := by
      change (Custody.releases s.options.keepCells (m.popAll s).arena (m.popAll s).pinned).look h =
        some c at hl
      unfold Custody.releases at hl
      split at hl
      · exact hl
      · exact (Arena.look_releases _ _ hl).1
    exact (hknown.cells h c hold).mono hpast
  · exact fun e he => (hknown.memo e he).mono hpast
  · exact hknown.result.mono hpast
  · exact hknown.host.mono hpast

theorem runFor_idle (hs : trust.natives → s.Honest time) (hm : m.Sound s trust time [])
    (hroom : trust.room → ∀ m', m.Runs s m' → m'.arena.Roomy) (n : Nat) :
    (m.runFor s n).2.Idle s trust time := by
  have hnow : trust.room → m.arena.Roomy := fun hr => hroom hr m (.refl m)
  induction n generalizing m with
  | zero => exact settle_idle hm
  | succ n ih =>
    unfold runFor
    split
    · rename_i m₁ ha
      have hlater : trust.room → ∀ m', m₁.Runs s m' → m'.arena.Roomy := fun hr m' h =>
        hroom hr m' (h.first ha)
      exact ih (advance_sound hs hm hnow ha).2 hlater fun hr => hlater hr m₁ (.refl m₁)
    · rename_i r m' ha
      unfold advance at ha
      split at ha
      · cases ha
        exact settle_idle hm
      · split at ha
        · cases ha
        · rename_i e m₁ herr
          obtain ⟨hsound, -, hfair⟩ := (Exec.step_keeps hs hm hnow).of_error herr
          have hrecover := (recover_sound hsound hfair.within).2
          split at ha
          · cases ha
          · rename_i error m₂ hr
            cases ha
            rw [hr] at hrecover
            exact settle_idle hrecover

theorem Idle.settle_eq (hm : m.Idle s trust time) : m.settle s = m := by
  obtain ⟨frames, arena, memo, halted, result, location, trace, pinned, run, host⟩ := m
  obtain rfl : frames = [] := hm.frames
  obtain rfl : pinned = [] := hm.pinned
  obtain rfl : halted = none := hm.halted
  simp [settle, popAll, releasePinned]

theorem Idle.begin_knows (hm : m.Idle s trust time) (k : SharedCell)
    (hk : trust.natives → Dated m.host.nextId k) : (m.begin s).Knows trust k := by
  intro ht
  refine Or.inl ?_
  simpa [begin, hm.settle_eq, Host.freshId] using hk ht

theorem Idle.begin_sound (hm : m.Idle s trust time) : (m.begin s).Sound s trust time [] := by
  have hknows := hm.begin_knows
  have hcustody : Keeping trust.room s.options.keepCells [] (m.begin s).arena
      ((m.begin s).frames.map Frame.holding) (m.begin s).pinned := by
    simpa [begin, hm.settle_eq, hm.frames, hm.pinned] using hm.custody
  refine ⟨hcustody, ⟨fun ht => ?_, ?_, ?_, ?_, ?_, Value.within_none, ?_⟩⟩
  · simpa [begin, hm.settle_eq, Host.freshId] using hm.dated ht
  · simp [begin, hm.settle_eq, hm.frames]
  · intro h c hl
    refine (hm.cells h c ?_).mono hknows
    simpa [begin, hm.settle_eq] using hl
  · intro e he
    refine (hm.memo e ?_).mono hknows
    simpa [begin, hm.settle_eq] using he
  · simp [begin, hm.settle_eq, hm.halted]
  · intro shared hshared e he
    refine (hm.host shared ?_ e he).mono hknows
    simpa [begin, hm.settle_eq, Host.freshId] using hshared

theorem Idle.withHost {host : Host} (hm : m.Idle s trust time)
    (hn : trust.natives → m.host.nextId ≤ host.nextId) (hh : trust.natives → host.Within (Dated host.nextId)) :
    Idle s trust time { m with host } := by
  have hlater : ∀ k, (trust.natives → Dated m.host.nextId k) → trust.natives → Dated host.nextId k :=
    fun k hk ht => Nat.lt_of_lt_of_le (hk ht) (hn ht)
  exact ⟨hm.frames, hm.pinned, hm.halted, hm.custody, fun ht => Nat.le_trans (hm.dated ht) (hn ht),
    fun h c hl => (hm.cells h c hl).mono hlater, fun e he => (hm.memo e he).mono hlater,
    hm.result.mono hlater, fun shared hs e he c hc ht => hh ht shared hs e he c hc⟩

/-- The action of an entry is safe at the beginning of a run. -/
theorem Idle.action_keeps {e : Entry} {action : Exec Unit} (hs : trust.natives → s.Honest time)
    (hm : m.Idle s trust time) (hroom : trust.room → m.arena.Roomy)
    (he : trust.natives → e.Honest time m.host.nextId) (ha : e.action s = some action) :
    Exec.Keeps s trust time [] action (m.begin s) fun _ _ => True := by
  have hsound := hm.begin_sound
  have hroom' : trust.room → (m.begin s).arena.Roomy := fun hr => by
    simpa [begin, hm.settle_eq] using hroom hr
  have hvalue : ∀ v : Value, (trust.natives → v.Within (Dated m.host.nextId)) →
      v.Within ((m.begin s).Knows trust) :=
    fun v hv c hc => hm.begin_knows c fun ht => hv ht c hc
  have hcall : ∀ (f : Function) (args : List Value), (trust.natives → f.Honest time) →
      (∀ v ∈ args, v.Within ((m.begin s).Knows trust)) →
      Exec.Keeps s trust time [] (Entry.callAction s f args) (m.begin s) fun _ _ => True := by
    intro f args hf hargs
    unfold Entry.callAction
    split
    · split
      · exact Exec.Safe.fail hsound (FaultOf.within_payload_none rfl)
      · obtain ⟨hself, hothers⟩ := List.forall_mem_cons.1 hargs
        exact Exec.invokeExtension_safe hsound hroom' hf hself hothers none noneRegister
    · exact Exec.invoke_safe (r := none) hsound hf nofun hargs (by simp) noneRegister
  cases e with
  | run =>
    cases ha
    exact (Exec.pushFrame_keeps hsound _ none noneRegister).imp fun _ _ _ => trivial
  | named name args =>
    obtain ⟨f, hf, rfl⟩ := Option.map_eq_some_iff.1 ha
    refine hcall f args (fun ht => (hs ht).of_mem (Setup.findFunction_mem hf)) fun v hv => ?_
    exact hvalue v fun ht => he ht v hv
  | function f args =>
    cases ha
    exact hcall f args (fun ht => (he ht).1) fun v hv => hvalue v fun ht => (he ht).2 v hv
  | closure callee args =>
    cases ha
    exact Exec.invokeClosure_safe hs hsound (hvalue callee fun ht => (he ht).1)
      (fun v hv => hvalue v fun ht => (he ht).2 v hv) noneRegister

theorem Idle.visit {v : Visit} (hs : trust.natives → s.Honest time) (hm : m.Idle s trust time)
    (hv : trust.natives → v.Honest time m) (hroom : trust.room → v.Roomy s m) :
    (v.perform s m).2.Idle s trust time := by
  have hm' := hm.withHost (fun ht => (hv ht).identities) fun ht => (hv ht).host
  unfold Visit.perform
  rcases Entry.perform_eq s { m with host := v.host } v.entry with ⟨-, f, hp⟩ | ⟨action, ha, hp⟩
  · rw [hp]
    change Idle s trust time (settle s { m with host := v.host })
    rw [hm'.settle_eq]
    exact hm'
  · have hkeeps := hm'.action_keeps hs (fun hr => (hroom hr).begins) (fun ht => (hv ht).entry) ha
    rw [hp, start]
    split
    · rename_i m₁ hok
      exact runFor_idle hs (hkeeps.of_ok hok).1
        (fun hr m' h => (hroom hr).between m' ⟨action, m₁, ha, hok, h⟩) _
    · exact settle_idle (hkeeps.of_error ‹_›).1

theorem Idle.visited {vs : List Visit} (hs : trust.natives → s.Honest time) (hm : m.Idle s trust time)
    (hv : trust.natives → m.HonestVisits s time vs) (hroom : trust.room → m.RoomyVisits s vs) :
    (m.visited s vs).Idle s trust time := by
  induction vs generalizing m with
  | nil => exact hm
  | cons v vs ih =>
    exact ih (hm.visit hs (fun ht => (hv ht).1) fun hr => (hroom hr).1) (fun ht => (hv ht).2)
      fun hr => (hroom hr).2

theorem Runs.sound (hs : trust.natives → s.Honest time) (h : Runs s m m') (hm : m.Sound s trust time [])
    (hroom : trust.room → ∀ m₁, m.Runs s m₁ → m₁.arena.Roomy) : m'.Sound s trust time [] := by
  induction h with
  | refl => exact hm
  | next h ha ih => exact (advance_sound hs ih (fun hr => hroom hr _ h) ha).2

theorem Idle.reaches {v : Visit} (hs : trust.natives → s.Honest time) (hm : m.Idle s trust time)
    (hv : trust.natives → v.Honest time m) (hroom : trust.room → v.Roomy s m) (hr : v.Reaches s m m') :
    m'.Sound s trust time [] := by
  obtain ⟨action, m₁, ha, hok, hruns⟩ := hr
  have hm' := hm.withHost (fun ht => (hv ht).identities) fun ht => (hv ht).host
  have hkeeps := hm'.action_keeps hs (fun hr => (hroom hr).begins) (fun ht => (hv ht).entry) ha
  exact hruns.sound hs (hkeeps.of_ok hok).1 fun hr m₂ h => (hroom hr).between m₂ ⟨action, m₁, ha, hok, h⟩

theorem idle_visited (s : Setup) (host : Host) (vs : List Visit) :
    ((initial host).visited s vs).Idle s .nothing 0 := by
  have hinitial : (initial host).Idle s .nothing 0 := initial_idle Trust.no_natives Trust.no_natives
  exact hinitial.visited Trust.no_natives Trust.no_natives Trust.no_room

theorem Idle.anyHost (hm : m.Idle s .nothing 0) (host : Host) : Idle s .nothing 0 { m with host } :=
  hm.withHost Trust.no_natives Trust.no_natives

theorem Idle.reached {v : Visit} (hm : m.Idle s .nothing 0) (hr : v.Reaches s m m') :
    m'.Sound s .nothing 0 [] := hm.reaches Trust.no_natives Trust.no_natives Trust.no_room hr

theorem Runs.kept (h : m.Runs s m') (hm : m.Sound s .nothing 0 []) : m'.Sound s .nothing 0 [] :=
  h.sound Trust.no_natives hm Trust.no_room

theorem Sound.advance (hm : m.Sound s .nothing 0 []) (ha : m.advance s = .running m') :
    m'.Sound s .nothing 0 [] := (advance_sound Trust.no_natives hm Trust.no_room ha).2

theorem Sound.step_error {e : Trap} (hm : m.Sound s .nothing 0 []) (h : Exec.step s m = .error e m') :
    m'.Sound s .nothing 0 [] := ((Exec.step_keeps Trust.no_natives hm Trust.no_room).of_error h).1

/-- Every handle that a frame holds is alive in the arena, pinned if a closure shares it and
exclusively borrowed if it is a receiver. A cell is exclusively borrowed exactly if one frame, and no
other, has borrowed it; that frame stands above all that own the cell, unless it owns it itself. -/
structure CellSafe (m : Machine) : Prop where
  mutable : ∀ f ∈ m.frames, ∀ name h, (name, Binding.cell h) ∈ f.bindings → m.arena.alive h = true
  captured : ∀ f ∈ m.frames, ∀ name h, (name, Binding.captured h) ∈ f.bindings →
    m.arena.alive h = true ∧ m.arena.isPinned h = .ok true
  borrowed : ∀ f ∈ m.frames, ∀ name h, (name, Binding.borrowed h) ∈ f.bindings →
    m.arena.alive h = true ∧ m.arena.isBorrowed h = .ok true
  exclusive : ∀ h, m.arena.isBorrowed h = .ok true ↔
    ∃ (i : Nat) (f : Frame), m.frames[i]? = some f ∧ f.borrow = some h ∧
      (∀ (j : Nat) (g : Frame), m.frames[j]? = some g → g.borrow = some h → j = i) ∧
      ∀ (j : Nat) (g : Frame), m.frames[j]? = some g → h ∈ g.owned → i ≤ j

theorem Sound.cellSafe (hm : m.Sound s .everything time []) : m.CellSafe := by
  have hcustody := hm.custody.custody trivial
  refine ⟨fun f hf name h hb => ?_, fun f hf name h hb => ?_, fun f hf name h hb => ?_,
    fun h => ⟨fun hx => ?_, ?_⟩⟩
  · exact Arena.alive_iff.2 (Exec.mutable_alive hm trivial (Exec.bound_offers hm hf hb))
  · obtain ⟨c, hl, hp⟩ := (Exec.bound_offers hm hf hb : m.Knows .everything _).pinned trivial
    exact ⟨Arena.alive_iff.2 ⟨c, hl⟩, Arena.isPinned_of_look hl hp⟩
  · obtain ⟨c, hl, hx⟩ := Exec.borrow_exclusive hm trivial (Exec.bound_offers hm hf hb)
    exact ⟨Arena.alive_iff.2 ⟨c, hl⟩, Arena.isBorrowed_iff.2 ⟨c, hl, hx⟩⟩
  · obtain ⟨c, hl, hx⟩ := Arena.isBorrowed_iff.1 hx
    obtain ⟨_, hmem, hb⟩ := hcustody.exclusive h c hl hx
    obtain ⟨f, hf, rfl⟩ := List.mem_map.1 hmem
    obtain ⟨i, hi⟩ := List.mem_iff_getElem?.1 hf
    have hholding : ∀ (j : Nat) (g : Frame), m.frames[j]? = some g →
        (m.frames.map Frame.holding)[j]? = some g.holding := by
      intro j g hj
      rw [List.getElem?_map, hj]
      rfl
    refine ⟨i, f, hi, hb, fun j g hj hg => ?_, fun j g hj hg => ?_⟩
    · by_contra hne
      rcases Nat.lt_or_gt_of_ne hne with hlt | hgt
      · exact (hcustody.stacked.above (hholding j g hj) (hholding i f hi) hlt).borrow h hg hb
      · exact (hcustody.stacked.above (hholding i f hi) (hholding j g hj) hgt).borrow h hb hg
    · by_contra hlt
      have habove := hcustody.stacked.above (hholding j g hj) (hholding i f hi) (by omega)
      exact habove.apart h hg h (List.mem_append_right _ (Option.mem_toList.2 hb)) rfl
  · rintro ⟨i, f, hi, hb, -⟩
    obtain ⟨c, hl, hx⟩ := Exec.borrow_exclusive hm trivial ⟨f, List.mem_of_getElem? hi, hb⟩
    exact Arena.isBorrowed_iff.2 ⟨c, hl, hx⟩

end Machine

/-- Of all faults that the arena can report, only the conflict of two borrows is admitted. -/
def Trap.Tame (e : Trap) : Prop :=
  ∀ f, e = .cell f → f = .borrowConflict "Value is already mutably borrowed"

namespace Exec

variable {α β : Type}

def Plain (x : Exec α) : Prop :=
  ∀ m, Ensures x m (fun _ _ => True) fun e _ => ∃ f, e = .script f

namespace Plain

theorem pure (a : α) : Plain (Pure.pure a : Exec α) := fun _ => trivial

theorem fail (e : Fault) : Plain (Exec.fail e : Exec α) := fun _ => ⟨e, rfl⟩

theorem change (g : Machine → Machine) : Plain (modify g : Exec PUnit) := fun _ => trivial

theorem bind {x : Exec α} {f : α → Exec β} (hx : Plain x) (hf : ∀ a, Plain (f a)) :
    Plain (x >>= f) := fun m => Ensures.bind (hx m) fun a t _ => hf a t

theorem get_bind {f : Machine → Exec β} (hf : ∀ m, Plain (f m)) : Plain (get >>= f) :=
  fun m => Ensures.get_bind (hf m m)

theorem lift (r : Except Fault α) : Plain (Exec.lift r) := by
  cases r with
  | ok a => exact pure a
  | error e => exact fail e

theorem top : Plain Exec.top := by
  refine get_bind fun m => ?_
  split
  · exact pure _
  · exact fail _

end Plain

theorem deliver_plain (s : Setup) (v : Value) (out : Register) : Plain (deliver s v out) := by
  refine Plain.get_bind fun m => ?_
  split
  · exact Plain.change _
  · refine Plain.top.bind fun f => ?_
    split
    · exact Plain.fail _
    · split
      · exact Plain.change _
      · exact (Plain.lift _).bind fun _ => Plain.fail _

theorem bindLet_plain (s : Setup) (name : Text) (v : Value) : Plain (bindLet s name v) := by
  refine Plain.bind (Plain.top.bind fun f => ?_) fun _ => Plain.change _
  split
  · exact (Plain.change _).bind fun _ => Plain.change _
  · exact Plain.change _

theorem handle_plain (s : Setup) (f : Frame) (h : Handler) (error : Fault) :
    Plain (handle s f h error) := by
  unfold handle
  split
  · exact deliver_plain s _ f.out
  · refine Plain.bind (fun m => ?_) fun _ => ?_
    · refine (pushFrame_ensures _ f.parent f.out).mono (fun _ _ _ => trivial) ?_
      rintro e m' ⟨-, x, hx, -⟩
      exact ⟨x, hx⟩
    · split
      · exact bindLet_plain s _ _
      · exact Plain.pure _

end Exec

/-- Whatever entries a host makes, the cells of a machine are safe between any two steps, and neither
the beginning of an entry nor a step nor a handler ends in a report of the arena other than a borrow
conflict, as long as fewer than 2^32 cells are in use. The literals, defaults and native code of the
setup are from before the session, and so are the closures that the host hands over with an entry. -/
theorem session_cellSafe (s : Setup) (host : Host) (visits : List Visit) (v : Visit)
    (hs : s.Honest host.nextId) (hhost : host.Within (Dated host.nextId))
    (hvisits : (Machine.initial host).HonestVisits s host.nextId (visits ++ [v]))
    (hroom : (Machine.initial host).RoomyVisits s (visits ++ [v])) :
    let m := (Machine.initial host).visited s visits
    (∀ m', v.Reaches s m m' → m'.CellSafe ∧ ∀ e m'', Exec.step s m' = .error e m'' → e.Tame) ∧
      (∀ action e m', v.entry.action s = some action →
        action (Machine.begin s { m with host := v.host }) = .error e m' → e.Tame) ∧
      ∀ f h error m e m', Exec.handle s f h error m = .error e m' → e.Tame := by
  intro m
  have hinitial : (Machine.initial host).Idle s .everything host.nextId :=
    Machine.initial_idle (fun _ => Nat.le_refl _) fun _ => hhost
  obtain ⟨hbefore, hv⟩ := Machine.honestVisits_append.1 hvisits
  obtain ⟨hroomBefore, hroomNow⟩ := Machine.roomyVisits_append.1 hroom
  have hm : m.Idle s .everything host.nextId :=
    hinitial.visited (fun _ => hs) (fun _ => hbefore) fun _ => hroomBefore
  refine ⟨fun m' hr => ?_, fun action e m' ha herr => ?_, fun f h error m e m' herr => ?_⟩
  · have hsound := hm.reaches (fun _ => hs) (fun _ => hv.1) (fun _ => hroomNow.1) hr
    refine ⟨hsound.cellSafe, fun e m'' herr => ?_⟩
    have hstep := Exec.step_keeps (fun _ => hs) hsound fun _ => hroomNow.1.between m' hr
    exact (hstep.of_error herr).2.2.cell trivial
  · have hhost := hm.withHost (fun _ => hv.1.identities) fun _ => hv.1.host
    have hkeeps := hhost.action_keeps (fun _ => hs) (fun _ => hroomNow.1.begins) (fun _ => hv.1.entry) ha
    exact (hkeeps.of_error herr).2.2.cell trivial
  · obtain ⟨x, rfl⟩ := (Exec.handle_plain s f h error m).of_error herr
    exact nofun

/-- A mutable variable that a closure shares, and a call of the closure, which reads the variable. -/
def sharingProgram : Program :=
  let main : List Operation := [.load (.int 5) 2, .loadMut "n" 2, .makeClosure 0 3,
    .callValue 3 [] 4, .halt 4]
  let body : List Operation := [.getVariable "n" 2, .ret 2]
  let code (ops : List Operation) : Array Instruction := (ops.map fun op => ⟨op, .unknown⟩).toArray
  { id := 0
    scopes := #[⟨"<main>", .main, [], code main, 5, .unknown, [], none⟩,
      ⟨"read", .function, [], code body, 3, .unknown, ["n"], none⟩]
    modules := .empty
    recordTypes := []
    closures := #[⟨.interpreted, [], "read", .plain, 1, [], .unknown, 0⟩]
    imports := [] }

def sharingSetup : Setup := ⟨sharingProgram, none, .standard⟩

/-- A host without shared values that has used up some identities. -/
def lonelyHost (nextId : Nat) : Host := ⟨.empty, ⟨[], false, []⟩, none, 0, nextId⟩

theorem sharingSetup_honest (time : Nat) : sharingSetup.Honest time := by
  refine ⟨?_, fun f hf => ?_, nofun, nofun⟩
  · simp [sharingSetup, sharingProgram]
  · simp only [sharingSetup, sharingProgram, List.mem_toArray, List.mem_singleton] at hf
    subst hf
    exact ⟨nofun, nofun⟩

def Machine.roomyFor (s : Setup) : Nat → Machine → Bool
  | 0, _ => false
  | n + 1, m =>
    decide m.arena.Roomy &&
      match m.advance s with
      | .running m => roomyFor s n m
      | .finished _ _ => true

theorem Machine.Runs.roomy {s : Setup} {m m' : Machine} {n : Nat} (h : m.Runs s m')
    (hroom : m.roomyFor s n = true) : m'.arena.Roomy := by
  suffices hstill : ∃ n, m'.roomyFor s n = true by
    obtain ⟨n, hn⟩ := hstill
    cases n with
    | zero => cases hn
    | succ n => exact of_decide_eq_true (Bool.and_eq_true_iff.1 hn).1
  induction h with
  | refl => exact ⟨n, hroom⟩
  | next _ ha ih =>
    obtain ⟨n, hn⟩ := ih
    cases n with
    | zero => cases hn
    | succ n =>
      rw [roomyFor, ha, Bool.and_eq_true] at hn
      exact ⟨n, hn.2⟩

def Visit.roomyFor (s : Setup) (n : Nat) (m : Machine) (v : Visit) : Bool :=
  decide m.arena.Roomy &&
    match v.entry.action s with
    | none => true
    | some action =>
      match action (Machine.begin s { m with host := v.host }) with
      | .ok _ m => m.roomyFor s n
      | .error _ _ => true

theorem Visit.roomy_of_roomyFor {s : Setup} {n : Nat} {m : Machine} {v : Visit}
    (h : v.roomyFor s n m = true) : v.Roomy s m := by
  rw [roomyFor, Bool.and_eq_true] at h
  refine ⟨of_decide_eq_true h.1, ?_⟩
  rintro m' ⟨action, m₁, ha, hok, hruns⟩
  have hfor := h.2
  rw [ha] at hfor
  dsimp only at hfor
  rw [hok] at hfor
  exact hruns.roomy hfor

def Machine.roomyVisitsFor (s : Setup) (n : Nat) (m : Machine) : List Visit → Bool
  | [] => true
  | v :: vs => v.roomyFor s n m && roomyVisitsFor s n (v.perform s m).2 vs

theorem Machine.roomyVisits_of_roomyVisitsFor {s : Setup} {n : Nat} {m : Machine} {vs : List Visit}
    (h : m.roomyVisitsFor s n vs = true) : m.RoomyVisits s vs := by
  induction vs generalizing m with
  | nil => trivial
  | cons v vs ih =>
    obtain ⟨hv, hvs⟩ := Bool.and_eq_true_iff.1 h
    exact ⟨Visit.roomy_of_roomyFor hv, ih hvs⟩

theorem sharing_session_cellSafe :
    let visit : Visit := ⟨lonelyHost 9, .run⟩
    let m := (Machine.initial (lonelyHost 0)).visited sharingSetup [⟨lonelyHost 0, .run⟩]
    sharingSetup.Honest 0 ∧ (lonelyHost 0).Within (Dated 0) ∧
      (Machine.initial (lonelyHost 0)).HonestVisits sharingSetup 0
        ([⟨lonelyHost 0, .run⟩] ++ [visit]) ∧
      (Machine.initial (lonelyHost 0)).RoomyVisits sharingSetup ([⟨lonelyHost 0, .run⟩] ++ [visit]) ∧
      ∀ m', visit.Reaches sharingSetup m m' →
        m'.CellSafe ∧ ∀ e m'', Exec.step sharingSetup m' = .error e m'' → e.Tame := by
  intro visit m
  have hhost : ∀ n k, (lonelyHost n).Within (Dated k) := fun n k => nofun
  have hvisits : (Machine.initial (lonelyHost 0)).HonestVisits sharingSetup 0
      ([⟨lonelyHost 0, .run⟩] ++ [visit]) := by
    refine ⟨⟨Nat.le_refl _, hhost 0 _, trivial⟩, ⟨?_, hhost 9 _, trivial⟩, trivial⟩
    decide +kernel
  have hroom : (Machine.initial (lonelyHost 0)).RoomyVisits sharingSetup
      ([⟨lonelyHost 0, .run⟩] ++ [visit]) :=
    Machine.roomyVisits_of_roomyVisitsFor (n := 9) (by decide +kernel)
  refine ⟨sharingSetup_honest 0, hhost 0 _, hvisits, hroom, ?_⟩
  exact (session_cellSafe sharingSetup (lonelyHost 0) [⟨lonelyHost 0, .run⟩] visit
    (sharingSetup_honest 0) (hhost 0 _) hvisits hroom).1

/-- Without an option that keeps cells, nothing of an entry is left behind, however it has ended, as
long as fewer than 2^32 cells are in use. -/
theorem session_leaves_nothing (s : Setup) (host : Host) (visits : List Visit)
    (hkeep : s.options.keepCells = false) (hroom : (Machine.initial host).RoomyVisits s visits) :
    let m := (Machine.initial host).visited s visits
    m.frames = [] ∧ m.pinned = [] ∧ m.halted = none ∧ m.arena.live = 0 := by
  have hinitial : (Machine.initial host).Idle s .space 0 := Machine.initial_idle nofun nofun
  have hidle : ((Machine.initial host).visited s visits).Idle s .space 0 :=
    hinitial.visited nofun nofun fun _ => hroom
  have hcustody := hidle.custody.custody trivial
  rw [hkeep] at hcustody
  exact ⟨hidle.frames, hidle.pinned, hidle.halted, hcustody.live_eq_zero⟩

theorem sharing_session_leaves_nothing :
    let visits : List Visit := [⟨lonelyHost 0, .run⟩, ⟨lonelyHost 9, .named "none" []⟩]
    let m := (Machine.initial (lonelyHost 0)).visited sharingSetup visits
    sharingSetup.options.keepCells = false ∧ (Machine.initial (lonelyHost 0)).RoomyVisits sharingSetup visits ∧
      m.frames = [] ∧ m.pinned = [] ∧ m.halted = none ∧ m.arena.live = 0 := by
  intro visits m
  have hroom : (Machine.initial (lonelyHost 0)).RoomyVisits sharingSetup visits :=
    Machine.roomyVisits_of_roomyVisitsFor (n := 9) (by decide +kernel)
  exact ⟨rfl, hroom, session_leaves_nothing sharingSetup (lonelyHost 0) visits rfl hroom⟩

end ScriptMachine
