import ScriptMachine.Proofs.Machine.Passing

set_option autoImplicit false

namespace ScriptMachine

/-- What a closure captures of a binding, given the cells at that moment. -/
inductive Binding.CapturedAs (a : Arena) : Binding → Captured Value → Prop where
  | fixed (v : Value) : CapturedAs a (.fixed v) (.copy v)
  | cell (h : CellHandle) : CapturedAs a (.cell h) (.cell h)
  | captured (h : CellHandle) : CapturedAs a (.captured h) (.cell h)
  | borrowed {h : CellHandle} {v : Value} (hv : a.borrowed h = .ok v) :
    CapturedAs a (.borrowed h) (.copy v)

/-- What a name is bound to where a closure has captured it. -/
def Captured.binding : Captured Value → Binding
  | .copy v => .fixed v
  | .cell h => .captured h

/-- What the top frame finds under a name. -/
def Machine.finds (m : Machine) (name : Text) : Option Binding :=
  Exec.findIn name (some (m.frames.length - 1)) m.frames

/-- The variables are captured, those at least that are bound. -/
structure Taken (m : Machine) (names : List Text) (captures : List (Text × Captured Value)) : Prop where
  found : ∀ e ∈ captures, e.1 ∈ names ∧ ∃ b, m.finds e.1 = some b ∧ b.CapturedAs m.arena e.2
  all : ∀ n ∈ names, (m.finds n).isSome → ∃ c, (n, c) ∈ captures

namespace Arena

variable {a a' : Arena} {h k : CellHandle} {v : Value}

theorem borrowed_eq_ok : a.borrowed h = .ok v ↔
    ∃ c, a.look h = some c ∧ c.exclusive = true ∧ c.value = v := by
  cases hl : a.look h with
  | none =>
    obtain ⟨e, he⟩ := cell_of_none hl
    simp [borrowed, he, bind, Except.bind]
  | some c =>
    cases hx : c.exclusive with
    | true => simp [borrowed, cell_of_look hl, bind, Except.bind, hx, pure, Except.pure]
    | false => simp [borrowed, cell_of_look hl, bind, Except.bind, hx, notBorrowed]

theorem borrowed_of_pin (hp : a.pin h = .ok a') (hv : a'.borrowed k = .ok v) : a.borrowed k = .ok v := by
  cases hl : a.look h with
  | none =>
    obtain ⟨e, he⟩ := cell_of_none hl
    simp [pin, he, bind, Except.bind] at hp
  | some c =>
    rw [pin_of_look hl] at hp
    cases hp
    obtain ⟨ho, -⟩ := (look_eq_some.1 hl).2
    obtain ⟨d, hd, hx, hw⟩ := borrowed_eq_ok.1 hv
    obtain ⟨-, hold, hnew⟩ | hsame := look_setCell_cases (d := { c with pinned := true }) hl ho rfl k
    · cases hnew.symm.trans hd
      exact borrowed_eq_ok.2 ⟨c, hold, hx, hw⟩
    · exact borrowed_eq_ok.2 ⟨d, hsame.symm.trans hd, hx, hw⟩

end Arena

namespace Exec

variable {G : Closure → Prop} {s : Setup} {m : Machine}

def Alike (m m' : Machine) : Prop :=
  m'.frames = m.frames ∧ ∀ k v, m'.arena.borrowed k = .ok v → m.arena.borrowed k = .ok v

theorem Alike.refl (m : Machine) : Alike m m := ⟨rfl, fun _ _ => id⟩

theorem Alike.trans {m' m'' : Machine} (h : Alike m m') (h' : Alike m' m'') : Alike m m'' :=
  ⟨h'.1.trans h.1, fun k v hv => h.2 k v (h'.2 k v hv)⟩

theorem Alike.taken {m' : Machine} {names : List Text} {captures : List (Text × Captured Value)}
    (h : Alike m m') (ht : Taken m' names captures) : Taken m names captures := by
  have hfinds : ∀ n, m'.finds n = m.finds n := fun n => by rw [Machine.finds, h.1, Machine.finds]
  refine ⟨fun e he => ?_, fun n hn hf => ht.all n hn ((hfinds n).symm ▸ hf)⟩
  obtain ⟨hmem, b, hb, hc⟩ := ht.found e he
  refine ⟨hmem, b, (hfinds e.1).symm.trans hb, ?_⟩
  generalize e.2 = c at hc
  cases hc with
  | fixed v => exact .fixed v
  | cell k => exact .cell k
  | captured k => exact .captured k
  | borrowed hv => exact .borrowed (h.2 _ _ hv)

theorem readArena_ensures {α : Type} (g : Arena → Except Fault α) (m : Machine) :
    Ensures (readArena g) m (fun a m' => m' = m ∧ g m.arena = .ok a) fun _ m' => m' = m := by
  refine Ensures.get_bind ?_
  split
  · exact Ensures.pure ⟨rfl, ‹_›⟩
  · exact Ensures.throw rfl

theorem pin_alike (h : CellHandle) (m : Machine) :
    Ensures (pin h) m (fun _ m' => Alike m m') fun _ _ => True := by
  refine ((readArena_ensures _ m).mono (fun _ _ h => h) fun _ _ _ => trivial).bind fun b m₁ hm₁ => ?_
  obtain ⟨rfl, -⟩ := hm₁
  split
  · exact Ensures.pure (.refl _)
  · refine Ensures.bind (R := fun _ m' => Alike m₁ m') ?_ fun _ m' hm' => Ensures.change hm'
    refine ((readArena_ensures _ m₁).mono (fun _ _ h => h) fun _ _ _ => trivial).bind fun a m₂ hm₂ => ?_
    obtain ⟨rfl, ha⟩ := hm₂
    exact Ensures.change ⟨rfl, fun k v => Arena.borrowed_of_pin ha⟩

theorem captureVariable_taken (name : Text) (m : Machine) :
    Ensures (captureVariable name) m (fun c m' => Alike m m' ∧ Taken m [name] c.toList)
      fun _ _ => True := by
  have hone : ∀ {b : Binding} {c : Captured Value}, m.finds name = some b → b.CapturedAs m.arena c →
      Taken m [name] [(name, c)] := by
    intro b c hb hc
    refine ⟨fun e he => ?_, fun n hn _ => ⟨c, by simp_all⟩⟩
    obtain rfl := List.mem_singleton.1 he
    exact ⟨List.mem_cons_self, b, hb, hc⟩
  have hshared : ∀ {b : Binding} {h : CellHandle}, m.finds name = some b →
      b.CapturedAs m.arena (.cell h) → Ensures (do
        pin h
        return some (name, Captured.cell h)) m
      (fun c m' => Alike m m' ∧ Taken m [name] c.toList) fun _ _ => True := by
    intro b h hb hc
    exact (pin_alike h m).bind fun _ m' hm' => Ensures.pure ⟨hm', hone hb hc⟩
  have hfind : findBinding name m = .ok (m.finds name) m := rfl
  refine Ensures.run hfind ?_
  cases hb : m.finds name with
  | none =>
    refine Ensures.pure ⟨.refl m, nofun, fun n hn hf => ?_⟩
    rw [List.mem_singleton.1 hn, hb] at hf
    cases hf
  | some b =>
    cases b with
    | fixed v => exact Ensures.pure ⟨.refl m, hone hb (.fixed v)⟩
    | cell h => exact hshared hb (.cell h)
    | captured h => exact hshared hb (.captured h)
    | borrowed h =>
      refine ((readArena_ensures _ m).mono (fun _ _ h => h) fun _ _ _ => trivial).bind
        fun v m₁ hm₁ => ?_
      obtain ⟨rfl, hv⟩ := hm₁
      exact Ensures.pure ⟨.refl _, hone hb (.borrowed hv)⟩

theorem captureVariables_taken (names : List Text) (m : Machine) :
    Ensures (names.filterMapM captureVariable) m (fun cs m' => Alike m m' ∧ Taken m names cs)
      fun _ _ => True := by
  induction names generalizing m with
  | nil => exact Ensures.pure ⟨.refl m, nofun, nofun⟩
  | cons name names ih =>
    rw [List.filterMapM_cons]
    refine (captureVariable_taken name m).bind fun c m₁ h₁ => ?_
    have hboth : ∀ (cs : List (Text × Captured Value)) (m₂ : Machine), Alike m₁ m₂ ∧ Taken m₁ names cs →
        Alike m m₂ ∧ Taken m (name :: names) (c.toList ++ cs) := by
      intro cs m₂ h₂
      have htaken := h₁.1.taken h₂.2
      refine ⟨h₁.1.trans h₂.1, fun e he => ?_, fun n hn hf => ?_⟩
      · rcases List.mem_append.1 he with he | he
        · exact (h₁.2.found e he).imp_left fun h => List.mem_cons.2 (.inl (List.mem_singleton.1 h))
        · exact (htaken.found e he).imp_left (List.mem_cons_of_mem _)
      · rcases List.mem_cons.1 hn with rfl | hn
        · exact (h₁.2.all _ List.mem_cons_self hf).imp fun _ => List.mem_append_left _
        · exact (htaken.all n hn hf).imp fun _ => List.mem_append_right _
    cases c with
    | none => exact (ih m₁).imp hboth
    | some c => exact (ih m₁).bind fun cs m₂ h₂ => Ensures.pure (hboth cs m₂ h₂)

theorem captureVariable_passes (name : Text) :
    Passes G (captureVariable name) fun c => ∀ e ∈ c, e.2.Holds G := by
  have hone : ∀ c : Captured Value, c.Holds G → ∀ e ∈ some (name, c), e.2.Holds G := by
    intro c hc e he
    cases he
    exact hc
  refine (findBinding_passes name).bind fun b hb => ?_
  split
  · exact Passes.pure nofun
  · exact Passes.pure (hone _ (hb _ rfl))
  · exact (pin_passes _).bind fun _ _ => Passes.pure (hone _ trivial)
  · exact (pin_passes _).bind fun _ _ => Passes.pure (hone _ trivial)
  · exact (Passes.readArena fun a ha => ha.borrowed _).bind fun v hv => Passes.pure (hone _ hv)

theorem captureVariables_passes (names : List Text) :
    Passes G (names.filterMapM captureVariable) fun cs => ∀ e ∈ cs, e.2.Holds G := by
  induction names with
  | nil => exact Passes.pure nofun
  | cons name names ih =>
    rw [List.filterMapM_cons]
    refine (captureVariable_passes name).bind fun c hc => ?_
    cases c with
    | none => exact ih
    | some c => exact ih.bind fun cs hcs => Passes.pure (List.forall_mem_cons.2 ⟨hc _ rfl, hcs⟩)

theorem freshId_passes : Passes G freshId fun _ => True := by
  refine Passes.get.bind fun m hm => ?_
  split
  rename_i id host heq
  have hhost : host.All (Value.Holds G) := by
    cases heq
    exact hm.host
  exact (Passes.change fun _ hm => hm.withHost hhost).bind fun _ _ => Passes.pure trivial

/-- A closure of the program as it is made in a state. -/
structure Fashioned (s : Setup) (m : Machine) (j : Nat) (c : Closure) : Prop where
  program : c.1.program = s.program.id
  function : c.1.function = j
  captures : ∃ f body, s.program.closures[j]? = some f ∧
    s.program.scope (some f.scope) = .ok body ∧ Taken m body.captures c.2

/-- The closure that is made goes to a register; nothing else comes in. -/
theorem makeClosure_ensures {f : Frame} {rest : List Frame} {out : Register} (j : Nat)
    (hm : m.Carries G) (hf : m.frames = f :: rest) (hout : Answers out m.frames) :
    Ensures (makeClosure s j out) m
      (fun _ m' => ∃ id c, Fashioned s m j c ∧
        m'.frames = f.receive out (.object (.closure id c.1 c.2)) :: rest ∧ (G c → m'.Carries G))
      fun e m' => m'.Carries G ∧ ∀ v ∈ e.fault.payload, v.Holds G := by
  unfold makeClosure
  split
  · exact Ensures.throw ⟨hm, nofun⟩
  · rename_i fn hfn
    refine Ensures.bind (R := fun body m' => m' = m ∧ s.program.scope (some fn.scope) = .ok body) ?_
      fun body m₁ hbody => ?_
    · refine (Ensures.both (Passes.lift (scope_gives _ _) m hm) (lift_ensures _ m)).mono ?_ ?_
      · exact fun _ _ h => h.2
      · exact fun _ _ h => h.1
    obtain ⟨rfl, hbody⟩ := hbody
    have hcaptures := Ensures.both (captureVariables_passes (G := G) body.captures m₁ hm)
      (captureVariables_taken body.captures m₁)
    refine (hcaptures.mono (fun _ _ h => h) fun _ _ h => h.1).bind fun cs m₂ h₂ => ?_
    obtain ⟨⟨hm₂, hcs⟩, halike, htaken⟩ := h₂
    have hfresh := Ensures.both (freshId_passes m₂ hm₂) (Steady.freshId (π := id) m₂)
    refine (hfresh.mono (fun _ _ h => h) fun _ _ h => h.1).bind fun id m₃ h₃ => Ensures.get_bind ?_
    have hf₃ : m₃.frames = f :: rest := (h₃.2.eq.trans halike.1).trans hf
    have hanswers : Answers out (f :: rest) := hf ▸ hout
    refine Ensures.of_run (writeRegister_run hf₃ hanswers.1 hanswers.2) ?_
    refine ⟨id, (⟨_, _, _, _, _, _⟩, cs), ⟨rfl, rfl, fn, body, hfn, hbody, htaken⟩, rfl, fun hG => ?_⟩
    have hframes := h₃.1.1.frames
    rw [hf₃] at hframes
    obtain ⟨htop, hrest⟩ := List.forall_mem_cons.1 hframes
    refine h₃.1.1.withFrames (List.forall_mem_cons.2 ⟨htop.receive out ?_, hrest⟩)
    exact Value.holds_closure.2 ⟨hG, hcs⟩

end Exec

end ScriptMachine
