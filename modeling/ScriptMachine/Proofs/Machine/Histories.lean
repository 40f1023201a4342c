import ScriptMachine.Proofs.Machine.Determinism
import Mathlib.Logic.Equiv.Fintype

set_option autoImplicit false

/-!
# Runs do not depend on what came before

Whatever entries a host has made, the next run of the top level ends as on a fresh machine. Each of the
two runs is compared with the run of a fresh machine on a host that has nothing: what an idle machine
has left in its arena decides only about the numbers that the run gives to its cells.
-/
namespace ScriptMachine

namespace Arena

variable {a : Arena} {i : Nat}

def slot (a : Arena) (i : Nat) : Nat := (a.free[i]?).elim (a.cells.size + (i - a.free.length)) UInt32.toNat

def vacancies (a : Arena) : Nat := 2 ^ 32 - (a.cells.size - a.free.length)

theorem slot_of_lt (hi : i < a.free.length) : a.slot i = (a.free[i]).toNat := by
  simp [slot, hi]

theorem slot_of_le (hi : a.free.length ≤ i) : a.slot i = a.cells.size + (i - a.free.length) := by
  simp [slot, hi]

namespace WellFormed

theorem free_lt (ha : a.WellFormed) {i : UInt32} (hi : i ∈ a.free) : i.toNat < a.cells.size := by
  obtain ⟨c, hc, -⟩ := (ha.listed i).1 hi
  exact (Array.getElem?_eq_some_iff.1 hc).1

theorem distinct_places (ha : a.WellFormed) : (a.free.map UInt32.toNat).Nodup :=
  ha.distinct.map fun _ _ => UInt32.toNat_inj.1

theorem free_length_le (ha : a.WellFormed) : a.free.length ≤ a.cells.size := by
  have hsub : a.free.map UInt32.toNat ⊆ List.range a.cells.size := by
    intro i hi
    obtain ⟨j, hj, rfl⟩ := List.mem_map.1 hi
    exact List.mem_range.2 (ha.free_lt hj)
  simpa using (List.subperm_of_subset ha.distinct_places hsub).length_le

theorem vacancies_eq (ha : a.WellFormed) (hlive : a.live = 0) : a.vacancies = 2 ^ 32 := by
  have hsub : List.range a.cells.size ⊆ a.free.map UInt32.toNat := by
    intro i hi
    have hlt := List.mem_range.1 hi
    have hplace : i.toUInt32.toNat = i := UInt32.toNat_ofNat_of_lt' (Nat.lt_of_lt_of_le hlt ha.size)
    rw [ha.counted, Array.countP_eq_zero] at hlive
    refine List.mem_map.2 ⟨i.toUInt32, (ha.listed _).2 ⟨a.cells[i], ?_, ?_⟩, hplace⟩
    · rw [hplace, Array.getElem?_eq_getElem hlt]
    · exact Bool.eq_false_iff.2 (hlive _ (Array.getElem_mem hlt))
  have hlength : a.cells.size ≤ a.free.length := by
    simpa using (List.subperm_of_subset List.nodup_range hsub).length_le
  rw [vacancies, Nat.sub_eq_zero_of_le hlength, Nat.sub_zero]

theorem slot_lt_iff (ha : a.WellFormed) : a.slot i < a.cells.size ↔ i < a.free.length := by
  refine ⟨fun h => ?_, fun h => ?_⟩
  · by_contra hle
    rw [slot_of_le (Nat.not_lt.1 hle)] at h
    omega
  · rw [slot_of_lt h]
    exact ha.free_lt (List.getElem_mem h)

theorem slot_injective (ha : a.WellFormed) : Function.Injective a.slot := by
  intro i j h
  have hiff : i < a.free.length ↔ j < a.free.length := by rw [← ha.slot_lt_iff, ← ha.slot_lt_iff, h]
  by_cases hi : i < a.free.length
  · have hj := hiff.1 hi
    rw [slot_of_lt hi, slot_of_lt hj, UInt32.toNat_inj] at h
    exact (ha.distinct.getElem_inj_iff).1 h
  · have hj := mt hiff.2 hi
    rw [slot_of_le (Nat.not_lt.1 hi), slot_of_le (Nat.not_lt.1 hj)] at h
    omega

theorem slot_lt (ha : a.WellFormed) (hi : i < a.vacancies) : a.slot i < 2 ^ 32 := by
  by_cases hfree : i < a.free.length
  · exact Nat.lt_of_lt_of_le (ha.slot_lt_iff.2 hfree) ha.size
  · rw [slot_of_le (Nat.not_lt.1 hfree)]
    have hsize := ha.size
    have hlength := ha.free_length_le
    unfold vacancies at hi
    omega

theorem exists_order (ha : a.WellFormed) :
    ∃ e : Equiv.Perm UInt32, ∀ i < a.vacancies, (e i.toUInt32).toNat = a.slot i := by
  have hplace : ∀ {n : Nat}, n < 2 ^ 32 → n.toUInt32.toNat = n := fun h => UInt32.toNat_ofNat_of_lt' h
  have hword : ∀ i : Fin a.vacancies, (i : Nat) < 2 ^ 32 := fun i =>
    Nat.lt_of_lt_of_le i.isLt (Nat.sub_le _ _)
  have hfirst : Function.Injective fun i : Fin a.vacancies => (i : Nat).toUInt32 := by
    intro i j h
    have hnat := congrArg UInt32.toNat h
    rw [hplace (hword i), hplace (hword j)] at hnat
    exact Fin.ext hnat
  have hslots : Function.Injective fun i : Fin a.vacancies => (a.slot i).toUInt32 := by
    intro i j h
    have hnat := congrArg UInt32.toNat h
    rw [hplace (ha.slot_lt i.isLt), hplace (ha.slot_lt j.isLt)] at hnat
    exact Fin.ext (ha.slot_injective hnat)
  obtain ⟨e, he⟩ := Equiv.Perm.exists_extending_pair _ _ hfirst hslots
  refine ⟨e, fun i hi => ?_⟩
  rw [he ⟨i, hi⟩]
  exact hplace (ha.slot_lt hi)

end WellFormed

end Arena

namespace Renaming

/-- The numbers that a run gets on an idle machine, in place of those that it gets on a fresh one. -/
def resume (a : Arena) (e : Equiv.Perm UInt32) {time next : Nat} (h : time ≤ next) : Renaming where
  time := time
  limit := a.vacancies
  number i := if i < time then i else next + (i - time)
  index := e
  generation i := ((a.cells[(e i).toNat]?).map (·.generation)).getD 0
  number_injective i j hij := by
    dsimp only at hij
    split_ifs at hij <;> omega
  index_injective := e.injective
  number_fixed i hi := if_pos hi
  limit_le := Nat.sub_le _ _

variable {a : Arena} {e : Equiv.Perm UInt32} {time next : Nat}

/-- An idle arena goes on like an empty one. -/
theorem empty_mirrors (ha : a.WellFormed) (he : ∀ i < a.vacancies, (e i.toUInt32).toNat = a.slot i)
    (h : time ≤ next) : Arena.Mirrors (resume a e h) .empty a := by
  refine ⟨Nat.zero_le _, ha.size, fun i c hc => ?_, fun i c _ hi hc => ?_, fun i _ _ hc => ?_,
    List.forall_mem_nil _, a.free, rfl, fun i hi => ha.free_lt hi, ?_, fun k hk => ?_⟩
  · simp [Arena.empty] at hc
  · have hc : a.cells[(e i).toNat]? = some c := hc
    have hslot : (e i).toNat = a.slot i.toNat := by
      simpa using he i.toNat hi
    have hlt := (Array.getElem?_eq_some_iff.1 hc).1
    rw [hslot, ha.slot_lt_iff] at hlt
    obtain ⟨d, hd, hvacant⟩ := (ha.listed _).1 (List.getElem_mem hlt)
    rw [← Arena.slot_of_lt hlt, ← hslot, hc] at hd
    cases hd
    exact ⟨hvacant, by simp [resume, hc]⟩
  · have hc : a.cells[(e i).toNat]? = none := hc
    simp [resume, hc]
  · have hsize := ha.size
    have hlength := ha.free_length_le
    simp only [Arena.empty, List.size_toArray, List.length_nil, resume, Arena.vacancies]
    omega
  · have hk : 0 + k < a.vacancies := hk
    rw [Nat.zero_add] at hk
    change (e (0 + k).toUInt32).toNat = a.slot k
    rw [Nat.zero_add, he k hk]

theorem lonelyHost_mirrors {host : Host} (h : time ≤ host.nextId) :
    (lonelyHost time).Mirrors (resume a e h) [] host.console.out host := by
  refine ⟨fun k => ?_, Nat.le_refl _, [], rfl, rfl⟩
  simp [resume, lonelyHost]

end Renaming

/-- Values that are the same up to the numbers of objects, runs and cells from the given time on. -/
def Value.Alike (time : Nat) (v w : Value) : Prop :=
  ∃ (ρ ρ' : Renaming) (u : Value), ρ.time = time ∧ ρ'.time = time ∧ v = ρ.value u ∧ w = ρ'.value u

inductive RunResult.Alike (time : Nat) : RunResult → RunResult → Prop where
  | ok {v w : Value} (h : v.Alike time w) : Alike time (.ok v) (.ok w)
  | fault {e f : Fault} (kind : e.kind = f.kind) (message : e.message = f.message)
      (location : e.location = f.location) (error : Value.Alike time (.error e) (.error f)) :
      Alike time (.fault e) (.fault f)
  | unfinished : Alike time .unfinished .unfinished

theorem RunResult.alike_renamed {time : Nat} {ρ ρ' : Renaming} (hρ : ρ.time = time) (hρ' : ρ'.time = time)
    (r : RunResult) : (ρ.runResult r).Alike time (ρ'.runResult r) := by
  cases r with
  | ok v => exact .ok ⟨ρ, ρ', v, hρ, hρ', rfl, rfl⟩
  | fault e =>
    refine .fault rfl rfl rfl ⟨ρ, ρ', .error e, hρ, hρ', ?_, ?_⟩
    · exact (Renaming.value_error e).symm
    · exact (Renaming.value_error e).symm
  | unfinished => exact .unfinished

/-- Two entries show the same: results that are alike, the same call stack of a fault, and the same
text after what the hosts had written before. -/
structure ShowAlike (time : Nat) (host host' : Host) (p p' : RunResult × Machine) : Prop where
  result : p.1.Alike time p'.1
  trace : p.2.faultTrace = p'.2.faultTrace
  output : ∃ new, p.2.host.console.out = new ++ host.console.out ∧
    p'.2.host.console.out = new ++ host'.console.out

namespace Machine

variable {s : Setup} {time : Nat} {m m' : Machine}

theorem SameEnd.showAlike {ρ ρ' : Renaming} {host host' : Host} {p q q' : RunResult × Machine}
    (h : SameEnd ρ [] host.console.out p q) (h' : SameEnd ρ' [] host'.console.out p q')
    (hρ : ρ.time = time) (hρ' : ρ'.time = time) : ShowAlike time host host' q q' := by
  obtain ⟨new, hp, hq⟩ := h.output
  obtain ⟨new', hp', hq'⟩ := h'.output
  obtain rfl : new = new' := by simpa using hp.symm.trans hp'
  refine ⟨?_, h.trace.trans h'.trace.symm, new, hq, hq'⟩
  rw [h.result, h'.result]
  exact RunResult.alike_renamed hρ hρ' p.1

theorem Idle.sameEnd (hp : s.program.Sourced time) (hw : s.program.WellFormed) (hs : s.Repeatable time)
    (hm : m.Idle s .space 0) (hroom : Visit.Roomy s m ⟨m.host, .run⟩) (hh : time ≤ m.host.nextId) :
    ∃ ρ : Renaming, ρ.time = time ∧
      SameEnd ρ [] m.host.console.out ((Machine.initial (lonelyHost time)).run s) (m.run s) := by
  have hinitial : (Machine.initial (lonelyHost time)).Idle s .everything time :=
    initial_idle (fun _ => Nat.le_refl _) fun _ => nofun
  have hcustody := hm.custody.custody trivial
  have harena := hcustody.arena
  obtain ⟨e, he⟩ := harena.exists_order
  refine ⟨.resume m.arena e hh, rfl, ?_⟩
  refine run_sameEnd (hp.mirrored rfl) (hp.honest hs.honest) (hp.startsPlaced hw) hinitial hm (fun hkeep => ?_)
    (Renaming.empty_mirrors harena he hh) (Renaming.lonelyHost_mirrors hh) (fun t ht g hg => ?_) hroom
  · rw [hkeep] at hcustody
    exact harena.vacancies_eq hcustody.live_eq_zero
  · exact hp.calls_mirrored hs ⟨lonelyHost time, t, Nat.le_refl _, ht, hg⟩ rfl

end Machine

/-- Whatever entries a host has made on a machine, and however they have ended, a run of the top level
shows the same as on a fresh machine, as long as fewer than 2^32 cells are in use. -/
theorem run_after_history (known : Option Registry) (id time : Nat) (source : Text) (s : Setup)
    (hcompiled : compileSource known id source = .ok s.program)
    (hknown : ∀ r ∈ known, ∀ e ∈ r.traits, e.2.Lasting time) (hs : s.Repeatable time)
    (first : Host) (visits : List Visit) (host host' : Host) (hh : time ≤ host.nextId)
    (hh' : time ≤ host'.nextId) (hfresh : (Machine.initial host).RoomyVisits s [⟨host, .run⟩])
    (hroom : (Machine.initial first).RoomyVisits s (visits ++ [⟨host', .run⟩])) :
    ShowAlike time host host' ((Machine.initial host).run s)
      (Visit.perform s ⟨host', .run⟩ ((Machine.initial first).visited s visits)) := by
  have hsourced := compileSource_sourced hknown hcompiled
  have hwellFormed := compileSource_wellFormed hcompiled
  have hinitial : ∀ host, (Machine.initial host).Idle s .space 0 := fun _ => Machine.initial_idle nofun nofun
  obtain ⟨hbefore, hnow, -⟩ := Machine.roomyVisits_append.1 hroom
  have hidle : ((Machine.initial first).visited s visits).Idle s .space 0 :=
    (hinitial first).visited nofun nofun fun _ => hbefore
  have hlater : Machine.Idle s .space 0 { (Machine.initial first).visited s visits with host := host' } :=
    hidle.withHost nofun nofun
  obtain ⟨ρ, hρ, hend⟩ := (hinitial host).sameEnd hsourced hwellFormed hs hfresh.1 hh
  obtain ⟨ρ', hρ', hend'⟩ := hlater.sameEnd hsourced hwellFormed hs ⟨hnow.begins, hnow.between⟩ hh'
  exact hend.showAlike hend' hρ hρ'

/-- A closure that shares a mutable variable, and functions that a host can call in between. -/
def countingSource : Text :=
  "fn twice(x) = x * 2\nfn spoil() = raise \"spoilt\"\nmut n = 1\nadd = |x| x + n\nn += 1\nputs add.call(2)\nadd"

theorem countingSource_run_after_history :
    let visits : List Visit := [⟨lonelyHost 2, .run⟩, ⟨lonelyHost 5, .named "twice" [.int 4]⟩,
      ⟨lonelyHost 6, .named "spoil" []⟩]
    ∃ p, compileSource none 0 countingSource = .ok p ∧
      let s : Setup := ⟨p, none, .standard⟩
      s.Repeatable 0 ∧ (Machine.initial (lonelyHost 0)).RoomyVisits s [⟨lonelyHost 0, .run⟩] ∧
        (Machine.initial (lonelyHost 2)).RoomyVisits s (visits ++ [⟨lonelyHost 9, .run⟩]) ∧
        ShowAlike 0 (lonelyHost 0) (lonelyHost 9) ((Machine.initial (lonelyHost 0)).run s)
          (Visit.perform s ⟨lonelyHost 9, .run⟩ ((Machine.initial (lonelyHost 2)).visited s visits)) := by
  intro visits
  have hcheck : (match compileSource none 0 countingSource with
      | .ok p =>
        let s : Setup := ⟨p, none, .standard⟩
        (p.modules.functions.all fun f => !f.hasTag Tag.memo) &&
          (Machine.initial (lonelyHost 0)).roomyVisitsFor s 99 [⟨lonelyHost 0, .run⟩] &&
          (Machine.initial (lonelyHost 2)).roomyVisitsFor s 99 (visits ++ [⟨lonelyHost 9, .run⟩])
      | .error _ => false) = true := by decide +kernel
  cases hp : compileSource none 0 countingSource with
  | error e =>
    rw [hp] at hcheck
    cases hcheck
  | ok p =>
    rw [hp] at hcheck
    simp only [Bool.and_eq_true] at hcheck
    obtain ⟨⟨hforgetful, hfresh⟩, hlater⟩ := hcheck
    have hs : Setup.Repeatable 0 ⟨p, none, .standard⟩ :=
      ⟨fun f hf => by simpa using List.all_eq_true.1 hforgetful f hf, nofun, nofun, nofun⟩
    have hfresh := Machine.roomyVisits_of_roomyVisitsFor hfresh
    have hlater := Machine.roomyVisits_of_roomyVisitsFor hlater
    exact ⟨p, rfl, hs, hfresh, hlater, run_after_history none 0 0 countingSource ⟨p, none, .standard⟩ hp nofun
      hs _ _ _ _ (Nat.zero_le _) (Nat.zero_le _) hfresh hlater⟩

end ScriptMachine
