import ScriptMachine.Proofs.Compiler.Places
import ScriptMachine.Proofs.Machine.Moments

set_option autoImplicit false

namespace ScriptMachine

/-- At its position in the code the frame has the names of the place itself bound, each to something
that `C` tells, and no others. -/
structure Frame.Knows (p : Program) (C : Text → Declaration → Binding → Prop) (a : Place) (f : Frame) :
    Prop where
  scope : f.scope = a.scope
  bound : ∀ n d, a.locals p f.pc n = some d → ∃ b, f.bindings.lookup n = some b ∧ C n d b
  free : ∀ n, a.locals p f.pc n = none → f.bindings.lookup n = none

/-- The frames stand at places of the program, the top one at the given place. Of a frame at some
height, `C` tells what its names are bound to. -/
inductive Standing (p : Program) (C : Nat → Text → Declaration → Binding → Prop) :
    List Frame → Place → Prop where
  | nil : Standing p C [] .main
  | main {f : Frame} (hf : f.Knows p (C 0) .main) (hparent : f.parent = none)
    (hhandler : f.handler = none) (hloop : f.loop = none) : Standing p C [f] .main
  | body {f : Frame} {below : List Frame} {a b : Place} (hbelow : Standing p C below b)
    (ha : p.Placed a) (hscope : a.scope ≠ 0) (hout : ∀ n m, a.outside n = some m → m = .topLevel)
    (hf : f.Knows p (C below.length) a) (hparent : f.parent = root below)
    (hhandler : f.handler = none) (hloop : f.loop = none) : Standing p C (f :: below) a
  | block {f g : Frame} {rest : List Frame} {a : Place} {k i : Nat} {op : Operation}
    {e : Target × (List Text → List Text)} {sc : Scope} (hbelow : Standing p C (g :: rest) a)
    (hop : (p.codeOf a.scope)[k]? = some op) (hpc : g.pc = k + 1) (he : e ∈ op.entries)
    (hi : e.1 = some i) (hsc : p.scopes[i]? = some sc)
    (hf : f.Knows p (C (rest.length + 1)) (.block (a.environment p k) i (e.2 sc.params)))
    (hparent : f.parent = some rest.length)
    (hhandler : ∀ h, f.handler = some h → (h.scope, fun _ => h.errorName.toList) ∈ op.entries)
    (hloop : f.loop.isSome = true → e.2 sc.params = sc.params.take 2) :
    Standing p C (f :: g :: rest) (.block (a.environment p k) i (e.2 sc.params))

namespace Frame.Knows

variable {p : Program} {C C' : Text → Declaration → Binding → Prop} {a : Place} {f g : Frame}

theorem imp (h : f.Knows p C a) (hC : ∀ n d b, C n d b → C' n d b) : f.Knows p C' a := by
  refine ⟨h.scope, fun n d hd => ?_, h.free⟩
  obtain ⟨b, hb, hc⟩ := h.bound n d hd
  exact ⟨b, hb, hC n d b hc⟩

theorem congr (h : f.Knows p C a) (hscope : g.scope = f.scope) (hbindings : g.bindings = f.bindings)
    (hlocals : a.locals p g.pc = a.locals p f.pc) : g.Knows p C a :=
  ⟨hscope.trans h.scope, by rw [hlocals, hbindings]; exact h.bound, by rw [hlocals, hbindings]; exact h.free⟩

theorem of_opened {own : List Text} {captures : List (Text × Captured Value)} (hscope : g.scope = a.scope)
    (hopened : g.Opened own captures)
    (hown : ∀ n, (a.own n).isSome ↔ n ∈ own ∨ n ∈ captures.map Prod.fst)
    (hC : ∀ n d b, a.own n = some d → g.bindings.lookup n = some b →
      (n ∈ own ∨ ∃ c, (n, c) ∈ captures ∧ b = c.binding) → C n d b) : g.Knows p C a := by
  refine ⟨hscope, fun n d hd => ?_, fun n hn => ?_⟩
  · rw [hopened.pc, Place.locals_zero] at hd
    obtain ⟨b, hb, hcase⟩ := hopened.bound n ((hown n).1 (by simp [hd]))
    exact ⟨b, hb, hC n d b hd hb hcase⟩
  · rw [hopened.pc, Place.locals_zero] at hn
    have hnot : ¬(n ∈ own ∨ n ∈ captures.map Prod.fst) := by
      rw [← hown]
      simp [hn]
    exact hopened.free n (fun h => hnot (.inl h)) fun h => hnot (.inr h)

end Frame.Knows

section Look

variable {n : Text} {f r : Frame} {below fs : List Frame} {target : Option Nat}

namespace Exec

theorem locateIn_top : locateIn n (some below.length) (f :: below) =
    ((f.bindings.lookup n).map fun b => (below.length, b)).or (locateIn n f.parent below) := by
  rw [locateIn, if_pos rfl]
  cases f.bindings.lookup n <;> rfl

theorem locateIn_none (fs : List Frame) : locateIn n none fs = none := by
  induction fs with
  | nil => rfl
  | cons f below ih => rw [locateIn, if_neg nofun, ih]

theorem locateIn_bottom (fs : List Frame) :
    locateIn n (some 0) (fs ++ [r]) = (r.bindings.lookup n).map fun b => (0, b) := by
  induction fs with
  | nil =>
    refine (@locateIn_top n r []).trans ?_
    cases r.bindings.lookup n <;> rfl
  | cons f fs ih =>
    rw [List.cons_append, locateIn, if_neg (by simp), ih]

theorem locateIn_root (fs : List Frame) :
    (locateIn n (root fs) fs).map Prod.snd = globalIn fs n := by
  rcases List.eq_nil_or_concat fs with rfl | ⟨above, r, rfl⟩
  · rfl
  · unfold root globalIn
    rw [List.concat_eq_append, List.getLast?_concat]
    dsimp only
    split
    · rw [locateIn_bottom]
      cases r.bindings.lookup n <;> rfl
    · rw [locateIn_none]
      rfl

end Exec

theorem Frame.Knows.locates {p : Program} {C : Text → Declaration → Binding → Prop} {a : Place}
    (hf : f.Knows p C a) (ha : a.scope ≠ 0) (n : Text) (below : List Frame) :
    (∃ d b, a.environment p f.pc n = some (.declared d) ∧
      Exec.locateIn n (some below.length) (f :: below) = some (below.length, b) ∧ C n d b) ∨
    a.environment p f.pc n = a.outside n ∧
      Exec.locateIn n (some below.length) (f :: below) = Exec.locateIn n f.parent below := by
  rw [Place.environment_locals ha, Exec.locateIn_top]
  cases hd : a.locals p f.pc n with
  | some d =>
    obtain ⟨b, hb, hC⟩ := hf.bound n d hd
    exact .inl ⟨d, b, Environment.inside_of_some hd, by rw [hb]; rfl, hC⟩
  | none => exact .inr ⟨Environment.inside_of_none hd, by rw [hf.free n hd]; rfl⟩

theorem globalIn_cons (hf : f.scope ≠ 0) : globalIn (f :: below) n = globalIn below n := by
  unfold globalIn
  cases below with
  | nil => simp [hf]
  | cons g rest => rw [List.getLast?_cons_cons]

end Look

namespace Standing

variable {p : Program} {C C' : Nat → Text → Declaration → Binding → Prop} {fs rest below : List Frame}
  {a : Place} {f g : Frame} {n : Text}

theorem placed (h : Standing p C fs a) : p.Placed a := by
  induction h with
  | nil => exact .main
  | main => exact .main
  | body _ ha => exact ha
  | block _ hop _ he hi hsc _ _ _ _ ih => exact .inner ih (.block hop he hi hsc)

theorem knows (h : Standing p C (f :: below) a) : f.Knows p (C below.length) a := by
  cases h with
  | main hf => exact hf
  | body _ _ _ _ hf => exact hf
  | block _ _ _ _ _ _ hf => exact hf

theorem imp (h : Standing p C fs a) (hC : ∀ i < fs.length, ∀ n d b, C i n d b → C' i n d b) :
    Standing p C' fs a := by
  induction h with
  | nil => exact .nil
  | main hf hparent hhandler hloop => exact .main (hf.imp (hC 0 (by simp))) hparent hhandler hloop
  | body hbelow ha hscope hout hf hparent hhandler hloop ih =>
    exact .body (ih fun i hi => hC i (Nat.lt_succ_of_lt hi)) ha hscope hout (hf.imp (hC _ (by simp)))
      hparent hhandler hloop
  | block hbelow hop hpc he hi hsc hf hparent hhandler hloop ih =>
    exact .block (ih fun i hi => hC i (Nat.lt_succ_of_lt hi)) hop hpc he hi hsc (hf.imp (hC _ (by simp)))
      hparent hhandler hloop

theorem tail (h : Standing p C (f :: rest) a) : ∃ b, Standing p C rest b := by
  cases h with
  | main => exact ⟨_, .nil⟩
  | body hbelow => exact ⟨_, hbelow⟩
  | block hbelow => exact ⟨_, hbelow⟩

theorem suffix {above : List Frame} (h : Standing p C (above ++ fs) a) : ∃ b, Standing p C fs b := by
  induction above generalizing a with
  | nil => exact ⟨a, h⟩
  | cons f above ih =>
    obtain ⟨b, hb⟩ := h.tail
    exact ih hb

theorem top (h : Standing p C (f :: rest) a)
    (hC : ∀ i < rest.length, ∀ n d b, C i n d b → C' i n d b) (hparent : g.parent = f.parent)
    (hhandler : g.handler = f.handler) (hloop : g.loop.isSome = f.loop.isSome)
    (hg : g.Knows p (C' rest.length) a) : Standing p C' (g :: rest) a := by
  have hnone : f.loop = none → g.loop = none := fun hf => by simpa [hf] using hloop
  cases h with
  | main _ hp hh hl => exact .main hg (hparent.trans hp) (hhandler.trans hh) (hnone hl)
  | body hbelow ha hscope hout _ hp hh hl =>
    exact .body (hbelow.imp hC) ha hscope hout hg (hparent.trans hp) (hhandler.trans hh) (hnone hl)
  | block hbelow hop hpc he hi hsc _ hp hh hl =>
    exact .block (hbelow.imp hC) hop hpc he hi hsc hg (hparent.trans hp) (hhandler ▸ hh) (hloop ▸ hl)

theorem receive (h : Standing p C fs a) (out : Register) (v : Value) :
    Standing p C (fs.modifyHead (Frame.receive out v)) a := by
  cases fs with
  | nil => exact h
  | cons f rest => exact h.top (fun _ _ _ _ _ => id) rfl rfl rfl (h.knows.congr rfl rfl rfl)

theorem bottom (hl : p.Lexical) (h : Standing p C (f :: rest) a) (hf : f.scope = 0) : rest = [] := by
  have hscope := h.knows.scope
  cases h with
  | main => rfl
  | body _ _ hpos => exact absurd (hscope.symm.trans hf) hpos
  | block hbelow hop _ he hi hsc =>
    have hpos := hbelow.placed.inner_pos hl (.block hop he hi hsc)
    exact absurd (hscope.symm.trans hf) (Nat.ne_of_gt hpos)

/-- What the top frame finds under a name is what the name means where it stands. -/
theorem finds (hl : p.Lexical) (h : Standing p C (f :: rest) a) :
    (∀ d, a.environment p f.pc n = some (.declared d) →
      ∃ i b, Exec.locateIn n (some rest.length) (f :: rest) = some (i, b) ∧ C i n d b) ∧
    (a.environment p f.pc n = some .topLevel →
      (Exec.locateIn n (some rest.length) (f :: rest)).map Prod.snd = globalIn (f :: rest) n) := by
  generalize hfs : f :: rest = fs at h
  induction h generalizing f rest with
  | nil => cases hfs
  | @main g hf hparent =>
    cases hfs
    have htop : ∀ m, Place.main.environment p g.pc n = some m → m = .topLevel := fun m =>
      Environment.topLevel_some
    refine ⟨fun d hd => absurd (htop _ hd) nofun, fun _ => ?_⟩
    have hscope : g.scope = 0 := hf.scope
    rw [Exec.locateIn_top, globalIn, List.getLast?_singleton]
    simp only [hscope, if_true, hparent]
    cases g.bindings.lookup n <;> rfl
  | @body g below a b hbelow ha hscope hout hf hparent hhandler hloop ih =>
    cases hfs
    rcases hf.locates hscope n below with ⟨d, b, hE, hloc, hC⟩ | ⟨hE, hloc⟩
    · rw [hE, hloc]
      exact ⟨fun d' hd => by cases hd; exact ⟨_, b, rfl, hC⟩, nofun⟩
    · rw [hE, hloc]
      refine ⟨fun d hd => absurd (hout n _ hd) nofun, fun _ => ?_⟩
      rw [hparent, Exec.locateIn_root, globalIn_cons (hf.scope ▸ hscope)]
  | @block f g rest a k i op e sc hbelow hop hpc he hi hsc hf hparent hhandler hloop ih =>
    cases hfs
    have hpos : i ≠ 0 := Nat.ne_of_gt (hbelow.placed.inner_pos hl (.block hop he hi hsc))
    rcases hf.locates hpos n (g :: rest) with ⟨d, b, hE, hloc, hC⟩ | ⟨hE, hloc⟩
    · rw [hE, hloc]
      exact ⟨fun d' hd => by cases hd; exact ⟨_, b, rfl, hC⟩, nofun⟩
    · -- the operation that has been left for the block declares nothing
      have hbefore : a.environment p g.pc = a.environment p k := by
        rw [hpc]
        exact Place.environment_succ (by simp [declaredAt, hop, Operation.declares?_of_entry he])
      rw [hE, hloc, hparent, globalIn_cons (hf.scope ▸ hpos)]
      rw [← hbefore]
      exact ih rfl

end Standing

end ScriptMachine
