import ScriptMachine.Proofs.Compiler.Lexical
import ScriptMachine.Proofs.Machine.Agreement
import ScriptMachine.Proofs.Machine.Unknowns

set_option autoImplicit false

/-!
# Static and dynamic scoping agree

The frame of the top level stays at the bottom until the run ends, so that whatever it has declared stays
declared. Main statement: in every run of a program that has been compiled, what an operation finds under
a name is what the declaration has bound that the name means where the operation stands; and only names of
the top level can be unknown, as long as nothing has declared them.
-/
namespace ScriptMachine

def Passed (k : Nat) (fs : List Frame) : Prop :=
  ∃ above r, fs = above ++ [r] ∧ r.scope = 0 ∧ k < r.pc

namespace Passed

variable {s : Setup} {k : Nat} {fs fs' rest popped : List Frame} {f g h : Frame}

theorem cons (h : Passed k rest) (f : Frame) : Passed k (f :: rest) := by
  obtain ⟨above, r, rfl, hr⟩ := h
  exact ⟨f :: above, r, rfl, hr⟩

theorem below (h : Passed k (popped ++ f :: rest)) (hne : rest ≠ []) : Passed k rest := by
  obtain ⟨above, r, hsplit, hr⟩ := h
  rcases List.eq_nil_or_concat rest with rfl | ⟨others, r', rfl⟩
  · exact absurd rfl hne
  · rw [List.concat_eq_append] at hsplit ⊢
    have hlast : (popped ++ f :: others) ++ [r'] = above ++ [r] := by simpa using hsplit
    obtain ⟨-, rfl⟩ := List.append_inj' hlast rfl |>.imp_right List.cons.inj |>.imp_right And.left
    exact ⟨others, r', rfl, hr⟩

theorem top (h : Passed k (f :: rest)) (hscope : g.scope = f.scope) (hpc : rest = [] → f.pc ≤ g.pc) :
    Passed k (g :: rest) := by
  obtain ⟨above, r, hsplit, hr, hk⟩ := h
  cases above with
  | nil =>
    cases hsplit
    exact ⟨[], g, rfl, hscope.trans hr, Nat.lt_of_lt_of_le hk (hpc rfl)⟩
  | cons f above =>
    cases hsplit
    exact ⟨g :: above, r, rfl, hr, hk⟩

theorem receive (h : Passed k rest) (out : Register) (v : Value) :
    Passed k (rest.modifyHead (Frame.receive out v)) := by
  cases rest with
  | nil => exact h
  | cons f rest => exact h.top rfl fun _ => Nat.le_refl _

theorem turned (h : Passed k fs) (hfit : Fitted s fs) (ht : Turned s fs fs') : fs' = [] ∨ Passed k fs' := by
  cases ht with
  | @within f g _ _ _ hg =>
    have hpc : g.pc = f.pc + 1 := (congrArg Frame.pc hg :)
    exact .inr (h.top (congrArg Frame.scope hg :) fun _ => hpc ▸ Nat.le_succ _)
  | @entered f =>
    exact .inr ((h.top (g := { f with pc := f.pc + 1 }) rfl fun _ => Nat.le_succ _).cons _)
  | returned _ hr =>
    cases hr with
    | round hloop _ hg =>
      refine .inr (h.top hg.scope fun hnil => ?_)
      exact absurd hnil (hfit.1.rounds hloop).2
    | left popped f rest out v =>
      by_cases hne : rest = []
      · exact .inl (by rw [hne]; rfl)
      · exact .inr ((h.below hne).receive out v)

theorem caught {t : Frame} {handler : Handler} {error : Fault} (h : Passed k (popped ++ f :: rest))
    (hne : rest ≠ []) (hc : Caught s t error handler rest fs') : Passed k fs' := by
  have hrest := h.below hne
  cases hc with
  | value => exact hrest.receive _ (.error error)
  | block => exact hrest.cons _

end Passed

namespace Moment

variable {s : Setup} {t u : Moment} {m : Machine} {k : Nat} {n : Text} {f : Frame} {rest : List Frame}

theorem Sound.passed (hp : s.program.WellFormed) (ht : t.Sound s) (hk : Passed k t.machine.frames)
    (ha : t.machine.advance s = .running m) : m.frames = [] ∨ Passed k m.frames := by
  obtain ⟨above, r, hf, -⟩ := id hk
  obtain ⟨f, rest, hf⟩ := List.exists_cons_of_ne_nil (l := t.machine.frames) (by simp [hf])
  rcases Machine.running_cases hp ht.sound ht.fitted ha with
    hok | ⟨m₁, _, below, g, h, e, hfailed, hf₁, hh, hc⟩
  · exact hk.turned ht.fitted ((Exec.step_turns hp hf ht.fitted).of_ok hok)
  · obtain ⟨popped, k', hsplit, hg⟩ := hfailed.origin hf₁ hh
    have hfit := hfailed.fitted ht.fitted
    rw [hf₁] at hfit
    rw [hsplit] at hk
    exact .inr (hk.caught (hfit.suffix.1.handler h hh).1 hc)

theorem Sound.passed_runs (hp : s.program.WellFormed) (hl : s.program.Lexical) (hs : s.Closed)
    (ht : t.Sound s) (hk : Passed k t.machine.frames) (h : t.machine.Runs s m) :
    m.frames = [] ∨ Passed k m.frames := by
  generalize hm : t.machine = m₁ at h
  induction h with
  | refl => exact .inr (hm ▸ hk)
  | next hr ha ih =>
    have hruns := ht.runs hp hl hs (hm ▸ hr)
    rcases ih with hnil | hk
    · simp [Machine.advance, hnil] at ha
    · exact hruns.passed hp hk ha

/-- An operation of the top level that declares the name has been carried out, earlier in the entry. -/
def Declares (s : Setup) (t : Moment) (n : Text) : Prop :=
  ∃ (u : Moment) (f : Frame) (rest : List Frame) (m : Machine), u.chronicle = t.chronicle ∧ u.Reached s ∧
    u.machine.frames = f :: rest ∧ f.scope = 0 ∧ declaredAt (s.program.codeOf 0) f.pc = some n ∧
    u.machine.advance s = .running m ∧ m.Runs s t.machine

/-- An operation that declares a name of the top level does so there. -/
theorem Sound.declares (hp : s.program.WellFormed) (hl : s.program.Lexical) (ht : t.Sound s)
    (hf : t.machine.frames = f :: rest) (hscope : f.scope = 0)
    (hn : declaredAt (s.program.codeOf 0) f.pc = some n) (ha : t.machine.advance s = .running m) :
    Passed f.pc m.frames := by
  obtain ⟨a, hstanding⟩ := ht.stands.standing
  rw [hf] at hstanding
  obtain rfl := hstanding.bottom hl hscope
  rw [← hscope] at hn
  rcases Machine.running_cases hp ht.sound ht.fitted ha with
    hok | ⟨m₁, _, below, g, h, e, hfailed, hf₁, hh, hc⟩
  · have hturned := (Exec.step_turns hp hf ht.fitted).of_ok hok
    rw [hf] at hturned
    generalize m.frames = fs at hturned
    generalize hfs : [f] = fs₀ at hturned
    cases hturned with
    | @within f g _ _ _ hg =>
      cases hfs
      have hpc : g.pc = f.pc + 1 := (congrArg Frame.pc hg :)
      exact ⟨[], g, rfl, (congrArg Frame.scope hg :).trans hscope, hpc ▸ Nat.lt_succ_self _⟩
    | entered hop hdeclares =>
      cases hfs
      rw [declaredAt, hop] at hn
      exact absurd (hn.symm.trans hdeclares) (Option.some_ne_none n)
    | returned hdeclares =>
      cases hfs
      exact absurd (hn.symm.trans (hdeclares f rfl)) (Option.some_ne_none n)
  · -- no frame at the bottom has a handler
    obtain ⟨popped, k, hsplit, hg⟩ := hfailed.origin hf₁ hh
    have hfit := ht.fitted
    rw [hsplit] at hfit
    have hbelow := (hfit.suffix.1.handler h (hg.handler ▸ hh)).1
    have hlength := congrArg List.length (hf.symm.trans hsplit)
    simp only [List.length_append, List.length_cons, List.length_nil] at hlength
    exact absurd (List.length_eq_zero_iff.1 (by omega)) hbelow

theorem Sound.global (ht : t.Sound s) (hk : Passed k t.machine.frames)
    (hn : declaredAt (s.program.codeOf 0) k = some n) : (globalIn t.machine.frames n).isSome := by
  obtain ⟨above, r, hsplit, hscope, hlt⟩ := hk
  obtain ⟨a, hstanding⟩ := ht.stands.standing
  rw [hsplit] at hstanding ⊢
  obtain ⟨b, hb⟩ := hstanding.suffix
  have hbscope : b.scope = 0 := hb.knows.scope.symm.trans hscope
  have hbefore : (Locals.before b.scope (s.program.codeOf b.scope) r.pc n).isSome := by
    rw [hbscope]
    exact Locals.before_isSome.2 ⟨k, hlt, hn⟩
  obtain ⟨d, hd⟩ := Option.isSome_iff_exists.1 hbefore
  obtain ⟨b', hb', -⟩ := hb.knows.bound n d (by rw [Place.locals, hd]; rfl)
  rw [globalIn, List.getLast?_concat]
  simp [hscope, hb']

/-- What is found under a name is what the name means: the variable that a declaration has made, or a
variable of the top level, which is unknown only as long as nothing has declared it. -/
inductive Agrees (s : Setup) (t : Moment) (n : Text) : Option Meaning → Prop where
  | declared {d : Declaration} {height : Nat} {b : Binding}
    (hfound : t.machine.locates n = some (height, b)) (hcreated : Created s t height n d b) :
    Agrees s t n (some (.declared d))
  | topLevel (hfound : t.machine.finds n = globalIn t.machine.frames n)
    (hunknown : t.machine.finds n = none → ¬t.Declares s n) : Agrees s t n (some .topLevel)

theorem Sound.agrees {a : Place} {op : Operation} (hp : s.program.WellFormed) (hl : s.program.Lexical)
    (hs : s.Closed) (hsound : t.chronicle.Sound s) (ht : t.Sound s)
    (hstanding : Standing s.program (Created s t) (f :: rest) a) (hf : t.machine.frames = f :: rest)
    (hop : (s.program.codeOf a.scope)[f.pc]? = some op) (hn : op.uses? = some n) :
    t.Agrees s n (a.environment s.program f.pc n) := by
  obtain ⟨m, hm⟩ := Option.isSome_iff_exists.1
    (((hstanding.placed.resolves hl) f.pc op hop).uses n hn)
  have hlocates : t.machine.locates n = Exec.locateIn n (some rest.length) (f :: rest) := by
    rw [Machine.locates, hf]
    rfl
  rw [hm]
  cases m with
  | declared d =>
    obtain ⟨i, b, hfound, hcreated⟩ := (hstanding.finds hl).1 d hm
    exact .declared (hlocates.trans hfound) hcreated
  | topLevel =>
    have hglobal : t.machine.finds n = globalIn t.machine.frames n := by
      rw [Machine.finds_eq, hlocates, hf]
      exact (hstanding.finds hl).2 hm
    refine .topLevel hglobal fun hnone hdeclares => ?_
    obtain ⟨u, g, others, m, hchronicle, hreached, hg, hscope, hdeclared, ha, hruns⟩ := hdeclares
    have hu : u.Sound s := hsound.moments u (hchronicle ▸ List.suffix_refl _) hreached
    have hpassed := hu.declares hp hl hg hscope hdeclared ha
    rcases (hu.later hp hl hs ha).passed_runs hp hl hs hpassed hruns with hnil | hpassed
    · rw [hf] at hnil
      cases hnil
    · have hbound := ht.global hpassed hdeclared
      rw [← hglobal, hnone] at hbound
      cases hbound

end Moment

/-- In every run of a program that has been compiled, and wherever its closures come from, a name that is
read or assigned means the nearest declaration before it, and what is found under the name is what that
declaration has bound in the frame where it was carried out; in a closure, what it has captured of it. -/
theorem compiled_names_agree {known : Option Registry} {id : Nat} {source : Text} {s : Setup} {t : Moment}
    {f : Frame} {rest : List Frame} {op : Operation} {n : Text}
    (hcompiled : compileSource known id source = .ok s.program)
    (hknown : ∀ r ∈ known, ∀ e ∈ r.traits, e.2.Inert) (hs : s.Closed) (hproper : t.chronicle.Proper s)
    (hreached : t.Reached s) (hf : t.machine.frames = f :: rest)
    (hop : (s.program.codeOf f.scope)[f.pc]? = some op) (hn : op.uses? = some n) :
    ∃ a, s.program.Placed a ∧ a.scope = f.scope ∧
      (∀ b, s.program.Placed b → b.scope = f.scope → b = a) ∧
      t.Agrees s n (a.environment s.program f.pc n) ∧
      ∀ e m, Exec.step s t.machine = .error e m → e.fault.kind = .unknownVariable →
        a.environment s.program f.pc n = some .topLevel ∧ ¬t.Declares s n := by
  obtain ⟨tokens, htokens⟩ := compileSource_tokens hcompiled
  have hp := compileSource_wellFormed hcompiled
  have hl := compileTokens_lexical hknown htokens
  have hsound := hproper.sound hp hl hs
  have ht := hsound.moments t (List.suffix_refl _) hreached
  obtain ⟨a, hstanding⟩ := ht.stands.standing
  rw [hf] at hstanding
  have hscope : f.scope = a.scope := hstanding.knows.scope
  have hagrees := ht.agrees hp hl hs hsound hstanding hf (hscope ▸ hop) hn
  refine ⟨a, hstanding.placed, hscope.symm, fun b hb hbscope => ?_, hagrees, fun e m herr hkind => ?_⟩
  · exact hb.unique hp hl hstanding.placed (hbscope.trans hscope)
  · have hfit := ht.fitted
    rw [hf] at hfit
    obtain ⟨sc, hsc, -⟩ := hfit.1.housed
    have hnone : t.machine.finds n = none := (Exec.step_blames hf hsc hop hn).of_error herr hkind
    generalize a.environment s.program f.pc n = meaning at hagrees
    cases hagrees with
    | declared hfound =>
      rw [Machine.finds_eq, hfound] at hnone
      cases hnone
    | topLevel _ hunknown => exact ⟨rfl, hunknown hnone⟩

/-- A closure that uses a parameter of the function which has made it. -/
def addingSource : Text := "fn adder(x)\n|y| x + y\nend\nadder(2).call(3)"

/-- The parameter is found in the frame of the closure. -/
theorem addingSource_names_agree :
    ∃ (p : Program) (t : Moment) (f : Frame) (a : Place),
      compileSource none 0 addingSource = .ok p ∧ t.Reached ⟨p, none, .standard⟩ ∧
      t.machine.frames.head? = some f ∧ a.scope = f.scope ∧
      t.Agrees ⟨p, none, .standard⟩ "x" (a.environment p f.pc "x") := by
  have hcheck : ((compileSource none 0 addingSource).toOption.bind fun p =>
      (Setup.stateAfter ⟨p, none, .standard⟩ (lonelyHost 0) 6).bind fun m => m.frames.head?.bind fun f =>
        ((p.codeOf f.scope)[f.pc]?).bind Operation.uses?) = some "x" := by decide +kernel
  obtain ⟨p, hp, hcheck⟩ := Option.bind_eq_some_iff.1 hcheck
  obtain ⟨m, hm, hcheck⟩ := Option.bind_eq_some_iff.1 hcheck
  obtain ⟨f, hf, hcheck⟩ := Option.bind_eq_some_iff.1 hcheck
  obtain ⟨op, hop, hn⟩ := Option.bind_eq_some_iff.1 hcheck
  have hcompiled : compileSource none 0 addingSource = .ok p := by
    cases hc : compileSource none 0 addingSource with
    | ok q =>
      rw [hc] at hp
      cases hp
      rfl
    | error e =>
      rw [hc] at hp
      cases hp
  obtain ⟨rest, hframes⟩ := List.head?_eq_some_iff.1 hf
  let t : Moment := ⟨[], Machine.initial (lonelyHost 0), ⟨lonelyHost 0, .run⟩, m⟩
  have hreached : t.Reached ⟨p, none, .standard⟩ := Setup.reaches_stateAfter hm
  have hproper : t.chronicle.Proper ⟨p, none, .standard⟩ := by
    refine .fresh .nil ⟨fun _ _ h => ?_, List.forall_mem_nil _, fun _ h => ?_⟩ _
    · cases h
    · cases h
  obtain ⟨a, -, hscope, -, hagrees, -⟩ := compiled_names_agree (s := ⟨p, none, .standard⟩) hcompiled nofun
    ⟨nofun, nofun⟩ hproper hreached hframes hop hn
  exact ⟨p, t, f, a, hcompiled, hreached, hf, hscope, hagrees⟩

end ScriptMachine
