import ScriptMachine.Proofs.Machine.Origins

set_option autoImplicit false

namespace ScriptMachine

namespace Moment

variable {s : Setup} {t u : Moment} {m : Machine} {P Q : Moment → Prop} {c : Closure}

theorem Genuine.mono (h : Genuine s P c) (hPQ : ∀ u, P u → Q u) : Genuine s Q c := fun hc => by
  obtain ⟨u, hu, hfashions⟩ := h hc
  exact ⟨u, hPQ u hu, hfashions⟩

theorem carries_mono (h : m.Carries (Genuine s P)) (hPQ : ∀ u, P u → Q u) : m.Carries (Genuine s Q) :=
  Machine.All.mono h fun _ hv => hv.mono fun _ hc => hc.mono hPQ

theorem Before.chronicle (h : u.Before s t) : u.chronicle <:+ t.chronicle := by
  rcases h with h | h
  · exact h.trans (List.suffix_cons _ _)
  · exact h.1 ▸ List.suffix_refl _

/-- All is well at a moment: frames stand at their places, and closures are genuine. -/
structure Sound (s : Setup) (t : Moment) : Prop where
  reached : t.Reached s
  stands : t.Stands s
  carries : t.machine.Carries (Genuine s fun u => u.Before s t)
  sound : t.machine.Sound s .nothing 0 []
  fitted : Fitted s t.machine.frames

theorem Sound.literal (hl : s.program.Lexical) (ht : t.Sound s) {f : Frame} (hf : f ∈ t.machine.frames)
    {op : Operation} (hop : op ∈ s.program.codeOf f.scope) {v : Value} (hv : v ∈ op.literal?) : v.Inert := by
  obtain ⟨a, hstanding⟩ := ht.stands.standing
  obtain ⟨above, below, hsplit⟩ := List.append_of_mem hf
  rw [hsplit] at hstanding
  obtain ⟨b, hb⟩ := hstanding.suffix
  obtain ⟨k, hk⟩ := List.mem_iff_getElem?.1 hop
  rw [hb.knows.scope] at hk
  exact ((hb.placed.resolves hl) k op hk).literal v hv

theorem Sound.answers (hp : s.program.WellFormed) (ht : t.Sound s) {f : Frame}
    (hf : f ∈ t.machine.frames.head?) {op : Operation} (hop : op ∈ s.program.codeOf f.scope)
    {out : Register} (hout : op.out? = some out) : Answers out t.machine.frames := by
  obtain ⟨rest, hf⟩ := List.head?_eq_some_iff.1 hf
  have hfit := ht.fitted
  rw [hf] at hfit ⊢
  obtain ⟨sc, hscope, -⟩ := hfit.1.housed
  obtain ⟨i, hi, hsc⟩ := Program.scope_eq_ok.1 hscope
  cases hi
  rw [Program.codeOf_eq hsc] at hop
  exact (Exec.call_allowed hp hscope hop hfit.1.housed hout).1

theorem Sound.passes (hp : s.program.WellFormed) (hl : s.program.Lexical) (hs : s.Closed)
    (ht : t.Sound s) (hP : ∀ u, u.Before s t → P u) (hself : P t) :
    (t.machine.advance s).state.Carries (Genuine s P) := by
  have hinert : s.Inert := ⟨hl.inventory.inert.2, hl.inventory.inert.1.functions, hs.inert⟩
  refine Machine.advance_carries hinert (carries_mono ht.carries hP) ?_ ?_ ?_
  · exact fun f hf op hop v hv => ht.literal hl hf hop hv _
  · exact fun f hf op hop out hout => ht.answers hp hf hop hout
  · exact fun c hc _ => ⟨t, hself, ht.stands.fashions hp hl ht.carries ht.reached ht.fitted hc⟩

theorem Sound.later (hp : s.program.WellFormed) (hl : s.program.Lexical) (hs : s.Closed)
    (ht : t.Sound s) (ha : t.machine.advance s = .running m) : (t.later m).Sound s where
  reached := by
    obtain ⟨action, m₁, haction, hok, hruns⟩ := ht.reached
    exact ⟨action, m₁, haction, hok, hruns.next ha⟩
  stands := ht.stands.advance hp hl hs ht.carries ht.sound ht.fitted ha
  carries := by
    have hpasses := ht.passes hp hl hs (P := fun u => u.Before s (t.later m)) (fun _ hu => hu.later ha)
      (.inr ⟨rfl, .next (.refl _) ha⟩)
    rwa [ha] at hpasses
  sound := ht.sound.advance ha
  fitted := Machine.advance_fitted hp ht.sound ht.fitted ha

theorem Sound.runs (hp : s.program.WellFormed) (hl : s.program.Lexical) (hs : s.Closed)
    (ht : t.Sound s) (h : t.machine.Runs s m) : (t.later m).Sound s := by
  generalize hm : t.machine = m₁ at h
  induction h with
  | refl =>
    rw [← hm]
    exact ht
  | next _ ha ih =>
    have hlater := ih.later hp hl hs ha
    exact hlater

theorem callAction_passes {G : Closure → Prop} {f : Function} {args : List Value} (hs : s.Inert)
    (hf : f ∈ s.functionList) (hargs : ∀ v ∈ args, v.Holds G) :
    Exec.Passes G (Entry.callAction s f args) fun _ => True := by
  unfold Entry.callAction
  split
  · split
    · exact Exec.Passes.fail_plain rfl
    · obtain ⟨hself, hothers⟩ := List.forall_mem_cons.1 hargs
      exact Exec.invokeExtension_passes (hs.of_mem hf) hself hothers none noneRegister
  · exact Exec.invoke_passes (hs.of_mem hf) hargs (by simp) (by simp) noneRegister

theorem callAction_opens {f : Function} (hf : f ∈ s.functionList) (args : List Value) :
    Exec.Opens (EntersFunction s) (Entry.callAction s f args) := by
  unfold Entry.callAction
  split
  · split
    · exact Exec.Opens.fail _
    · exact Exec.invokeExtension_opens hf ‹_› _ _ none
  · rename_i hplain
    exact Exec.invokeFunction_opens hf (by simpa using hplain) args

/-- A function that a host calls is there to be called. -/
theorem entry_listed {past : Chronicle} {v : Visit} (hv : past.Admits s v) {action : Exec Unit}
    (ha : v.entry.action s = some action) :
    action = Exec.pushFrame s (some 0) none noneRegister ∨
    (∃ f ∈ s.functionList, ∃ args, (∀ w ∈ args, w.Holds (past.Knows s)) ∧
      action = Entry.callAction s f args) ∨
    ∃ callee args, v.entry = .closure callee args ∧ callee.Holds (past.Knows s) ∧
      (∀ w ∈ args, w.Holds (past.Knows s)) ∧ action = Exec.invokeClosure s callee args noneRegister := by
  obtain ⟨hfunction, hvalues, -⟩ := hv
  cases he : v.entry with
  | run =>
    rw [he] at ha
    cases ha
    exact .inl rfl
  | named name args =>
    rw [he] at ha hvalues
    obtain ⟨f, hf, rfl⟩ := Option.map_eq_some_iff.1 ha
    exact .inr (.inl ⟨f, Setup.findFunction_mem hf, args, hvalues, rfl⟩)
  | function f args =>
    rw [he] at ha hvalues
    cases ha
    exact .inr (.inl ⟨f, hfunction f args he, args, hvalues, rfl⟩)
  | closure callee args =>
    rw [he] at ha hvalues
    cases ha
    obtain ⟨hcallee, hargs⟩ := List.forall_mem_cons.1 hvalues
    exact .inr (.inr ⟨callee, args, rfl, hcallee, hargs, rfl⟩)

/-- The first state of an entry. -/
theorem begins {action : Exec Unit} (hl : s.program.Lexical) (hs : s.Closed)
    (hv : t.past.Admits s t.visit) (hfashions : ∀ u : Moment, u.chronicle <:+ t.past → u.Reached s →
      ∀ c, u.machine.Makes s c → u.Fashions s c)
    (hempty : (Machine.begin s { t.start with host := t.visit.host }).frames = [])
    (ha : t.visit.entry.action s = some action)
    (hok : action (Machine.begin s { t.start with host := t.visit.host }) = .ok ⟨⟩ t.machine) :
    t.Stands s := by
  have hidle : t.machine.frames = [] → t.Stands s := fun h =>
    ⟨⟨.main, by rw [h]; exact .nil⟩, by simp [h]⟩
  have hcalled := Machine.entry_called ha hempty hok
  generalize hm : t.machine.frames = fs at hcalled
  cases hcalled with
  | same => exact hidle hm
  | answered v => exact hidle hm
  | @entered g hg hdepth =>
    refine ⟨?_, by simp [hm]⟩
    rw [hm]
    rcases entry_listed hv ha with rfl | ⟨f, hf, args, hargs, rfl⟩ | ⟨callee, args, hentry, hcallee, -, rfl⟩
    · obtain ⟨-, sc, hsc, hpushed⟩ := (Exec.pushFrame_ensures _ _ _).of_ok hok
      rw [hpushed, hempty] at hm
      obtain ⟨rfl, -⟩ := List.cons.inj hm
      refine ⟨.main, .main ⟨rfl, fun n d hd => ?_, fun _ _ => rfl⟩ rfl rfl rfl⟩
      rw [show (Exec.entered sc (some 0) none noneRegister).pc = 0 from rfl, Place.locals_zero] at hd
      cases hd
    · have hopens := (callAction_opens hf args _).of_ok hok g (by rw [hm, hempty])
      rw [hempty] at hopens
      obtain ⟨_, _, hentering⟩ := id hopens
      obtain ⟨_, _, hopened⟩ := hentering.body
      exact Standing.nil.enterFunction hs hl hopens (entrant hm hopened.pc)
    · have hopens := (Exec.invokeClosure_opens callee args _).of_ok hok g (by rw [hm, hempty])
      rw [hempty] at hopens
      obtain ⟨id, c, fn, rfl, hprogram, hfn, hentering⟩ := hopens
      obtain ⟨u, hu, hreached, hmakes⟩ := (Value.holds_closure.1 hcallee).1 hprogram
      exact (hfashions u hu hreached c hmakes).entered hl (.inl hu) rfl hfn hentering hm
        (.entry hentry hok hm) .nil

theorem action_passes {action : Exec Unit} (hs : s.Inert) (hv : t.past.Admits s t.visit)
    (hknows : ∀ c, t.past.Knows s c → Genuine s P c) (ha : t.visit.entry.action s = some action) :
    Exec.Passes (Genuine s P) action fun _ => True := by
  rcases entry_listed hv ha with rfl | ⟨f, hf, args, hargs, rfl⟩ | ⟨callee, args, -, hcallee, hargs, rfl⟩
  · exact Exec.pushFrame_passes _ _ _
  · exact callAction_passes hs hf fun w hw => (hargs w hw).mono hknows
  · exact Exec.invokeClosure_passes hs (hcallee.mono hknows) (fun w hw => (hargs w hw).mono hknows) _

theorem Sound.ends (hp : s.program.WellFormed) (hl : s.program.Lexical) (hs : s.Closed) (ht : t.Sound s)
    (n : Nat) : (t.machine.runFor s n).2.Carries (Genuine s fun u => u.chronicle <:+ t.chronicle) := by
  induction n generalizing t with
  | zero => exact (carries_mono ht.carries fun _ hu => hu.chronicle).settle s
  | succ n ih =>
    have hpasses := ht.passes hp hl hs (P := fun u => u.chronicle <:+ t.chronicle)
      (fun _ hu => hu.chronicle) (List.suffix_refl _)
    unfold Machine.runFor
    split
    · rename_i m ha
      have hlater := ih (ht.later hp hl hs ha)
      exact hlater
    · rename_i r m ha
      rwa [ha] at hpasses

end Moment

namespace Chronicle

variable {s : Setup} {past : Chronicle} {start : Machine} {v : Visit}

/-- All is well at every moment of the entries, and after each of them. -/
structure Sound (s : Setup) (entries : Chronicle) : Prop where
  moments : ∀ u : Moment, u.chronicle <:+ entries → u.Reached s → u.Sound s
  idle : ∀ e ∈ entries, (e.2.perform s e.1).2.Idle s .nothing 0
  carries : ∀ e ∈ entries, (e.2.perform s e.1).2.Carries
    (Moment.Genuine s fun u => u.chronicle <:+ entries)

theorem Sound.genuine (hp : s.program.WellFormed) (hl : s.program.Lexical) (h : past.Sound s)
    {c : Closure} (hc : past.Knows s c) : Moment.Genuine s (fun u => u.chronicle <:+ past) c := by
  intro hprogram
  obtain ⟨u, hu, hreached, hmakes⟩ := hc hprogram
  have hsound := h.moments u hu hreached
  exact ⟨u, hu, hsound.stands.fashions hp hl hsound.carries hreached hsound.fitted hmakes⟩

/-- One more entry, into a machine that holds no other closures. -/
theorem Sound.enter (hp : s.program.WellFormed) (hl : s.program.Lexical) (hs : s.Closed)
    (h : past.Sound s) (hidle : start.Idle s .nothing 0) (hv : past.Admits s v)
    (hstart : Machine.Carries (Moment.Genuine s fun u => u.chronicle <:+ past) { start with host := v.host }) :
    Sound s ((start, v) :: past) := by
  have hgenuine := fun c => h.genuine hp hl (c := c)
  have hinert : s.Inert := ⟨hl.inventory.inert.2, hl.inventory.inert.1.functions, hs.inert⟩
  have hbegun := hstart.begin s
  have hidle' : Machine.Idle s .nothing 0 { start with host := v.host } := hidle.anyHost _
  have hempty : (Machine.begin s { start with host := v.host }).frames = [] := by
    unfold Machine.begin
    rw [hidle'.settle_eq]
    exact hidle.frames
  have hfirst : ∀ (m : Machine) action, v.entry.action s = some action →
      action (Machine.begin s { start with host := v.host }) = .ok ⟨⟩ m →
      Moment.Sound s ⟨past, start, v, m⟩ := by
    intro m action ha hok
    have hreached : Moment.Reached s ⟨past, start, v, m⟩ := ⟨action, m, ha, hok, .refl m⟩
    refine ⟨hreached, ?_, ?_, hidle.reached hreached, hidle.reaches_fitted hp hreached⟩
    · refine Moment.begins hl hs hv (fun u hu hr c hc => ?_) hempty ha hok
      have hsound := h.moments u hu hr
      exact hsound.stands.fashions hp hl hsound.carries hr hsound.fitted hc
    · have hpasses := Moment.action_passes (t := ⟨past, start, v, m⟩) hinert hv hgenuine ha
      exact Moment.carries_mono ((hpasses _ hbegun).of_ok hok).1 fun _ => .inl
  refine ⟨fun u hu hreached => ?_, ?_, ?_⟩
  · rcases List.suffix_cons_iff.1 hu with heq | hu
    · obtain ⟨past', start', v', m⟩ := u
      cases heq
      obtain ⟨action, m₁, ha, hok, hruns⟩ := hreached
      have hsound := (hfirst m₁ action ha hok).runs hp hl hs hruns
      exact hsound
    · exact h.moments u hu hreached
  · exact List.forall_mem_cons.2 ⟨hidle.visit Trust.no_natives Trust.no_natives Trust.no_room, h.idle⟩
  · refine List.forall_mem_cons.2 ⟨?_, fun e he => ?_⟩
    · unfold Visit.perform
      rcases Entry.perform_eq s { start with host := v.host } v.entry with ⟨-, f, hf⟩ | ⟨action, ha, hf⟩
      · rw [hf]
        exact (Moment.carries_mono hstart fun u hu => hu.trans (List.suffix_cons _ _)).settle s
      · rw [hf, Machine.start]
        have hpasses := Moment.action_passes (t := ⟨past, start, v, start⟩) hinert hv hgenuine ha
        split
        · rename_i m hok
          exact (hfirst m action ha hok).ends hp hl hs _
        · rename_i e m herr
          have hleft := ((hpasses _ hbegun).of_error herr).1
          exact (Moment.carries_mono hleft fun u hu => hu.trans (List.suffix_cons _ _)).settle s
    · exact Moment.carries_mono (h.carries e he) fun u hu => hu.trans (List.suffix_cons _ _)

theorem Sound.host (hp : s.program.WellFormed) (hl : s.program.Lexical) (h : past.Sound s)
    (hv : past.Admits s v) : v.host.All (Value.Holds (Moment.Genuine s fun u => u.chronicle <:+ past)) :=
  fun shared hshared e he => (hv.host shared hshared e he).mono fun _ hc => h.genuine hp hl hc

theorem Proper.sound {entries : Chronicle} (hp : s.program.WellFormed) (hl : s.program.Lexical)
    (hs : s.Closed) (h : entries.Proper s) : entries.Sound s := by
  induction h with
  | nil =>
    exact ⟨fun u hu => absurd (List.suffix_nil.1 hu) (List.cons_ne_nil _ _), List.forall_mem_nil _,
      List.forall_mem_nil _⟩
  | fresh hpast hv host ih =>
    refine ih.enter hp hl hs (Machine.initial_idle nofun nofun) hv ?_
    refine ⟨List.forall_mem_nil _, ?_, List.forall_mem_nil _, nofun, Hereditary.none, ih.host hp hl hv⟩
    simp [Machine.initial, Arena.All, Arena.empty]
  | again hpast hv he ih =>
    exact ih.enter hp hl hs (ih.idle _ he) hv ((ih.carries _ he).withHost (ih.host hp hl hv))

end Chronicle

end ScriptMachine
