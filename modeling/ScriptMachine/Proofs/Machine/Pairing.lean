import ScriptMachine.Proofs.Compiler.Fusion
import ScriptMachine.Proofs.Compiler.PairedPrograms
import ScriptMachine.Proofs.Machine.Frames
import ScriptMachine.Proofs.Machine.Returning

set_option autoImplicit false

namespace ScriptMachine

def Value.PairOrNone (v : Value) : Prop := v = .none ∨ ∃ key entry, v = .list [key, entry]

theorem Loop.accumulate_pair {l : Loop} {v : Value} (hv : l.toMap = true → v.PairOrNone) :
    ∃ l', l.accumulate v = .ok l' := by
  unfold Loop.accumulate
  split
  · exact ⟨_, rfl⟩
  · exact ⟨_, rfl⟩
  · exact ⟨_, rfl⟩
  · exact ⟨_, rfl⟩
  · exact ⟨_, rfl⟩
  · rename_i hmap hnone _ _ hpair
    rcases hv hmap with rfl | ⟨key, entry, rfl⟩
    · exact absurd rfl hnone
    · exact absurd rfl (hpair key entry)

/-- What the compiler sees to in the programs that it makes. -/
structure Program.Regular (p : Program) : Prop where
  wellFormed : p.WellFormed
  embodied : ∀ op ∈ p.operations, op.Embodied p.finished
  copied : ∀ (i k : Nat) (equal : Bool) (left right : Register) (target : Target) (out : Register),
    (p.codeOf i)[k]? = some (.callCompared equal left right target out) →
    ∃ j, k = j + 1 ∧ (p.codeOf i)[j]? = some (.copy noneRegister out)

theorem Program.exists_of_codeOf {p : Program} {i k : Nat} {op : Operation}
    (h : (p.codeOf i)[k]? = some op) :
    ∃ t, p.scopes[i]? = some t ∧ t.operations[k]? = some op := by
  cases ht : p.scopes[i]? with
  | none => simp [Program.codeOf, ht] at h
  | some t => exact ⟨t, rfl, Program.codeOf_eq ht ▸ h⟩

theorem Frame.Housed.reads {s : Setup} {f : Frame} {k : Nat} {op : Operation} {r : Register}
    (hp : s.program.WellFormed) (hf : f.Housed s) (hop : (s.program.codeOf f.scope)[k]? = some op)
    (hr : r ∈ op.reads) : ∃ v, f.registers[r]? = some v := by
  obtain ⟨t, ht, hat⟩ := Program.exists_of_codeOf hop
  exact hf.holds hp (Program.scope_eq_ok.2 ⟨_, rfl, ht⟩) hat hr

theorem compileSource_regular {builtins : Option Registry} {id : Nat} {source : Text} {p : Program}
    (h : compileSource builtins id source = .ok p) : p.Regular where
  wellFormed := compileSource_wellFormed h
  embodied := compileSource_embodied h
  copied := by
    intro i k equal left right target out hop
    obtain ⟨t, ht, hk⟩ := Program.exists_of_codeOf hop
    have hmem : t ∈ p.scopes.toList := Array.mem_toList_iff.2 (Array.mem_of_getElem? ht)
    obtain ⟨hlt, hat⟩ := List.getElem?_eq_some_iff.1 hk
    have hsplit : t.operations = t.operations.take k ++
        .callCompared equal left right target out :: t.operations.drop (k + 1) := by
      rw [← hat, ← List.drop_eq_getElem_cons hlt, List.take_append_drop]
    obtain ⟨front, hfront, -⟩ := compileSource_vacant h hmem hsplit
    have hlength := congrArg List.length hfront
    rw [List.length_take, Nat.min_eq_left (Nat.le_of_lt hlt), List.length_append,
      List.length_singleton] at hlength
    refine ⟨front.length, hlength, ?_⟩
    rw [Program.codeOf_eq ht, hsplit, hfront]
    simp

theorem Pairs.before {p : Program} {i k : Nat} {r : Register} (h : Pairs p.finished i)
    (hk : (p.codeOf i)[k]? = some (.ret r)) :
    ∃ j op, k = j + 1 ∧ (p.codeOf i)[j]? = some op ∧ op.MakesPair p.finished r := by
  obtain ⟨t, front, op, out, ht, hcode, hfront, hop⟩ := h.last
  rw [Program.codeOf_eq ht, hcode] at hk ⊢
  rcases Nat.lt_trichotomy k front.length with hlt | rfl | hlt
  · rw [List.getElem?_append_left hlt] at hk
    exact absurd (List.mem_of_getElem? hk) (hfront r)
  · rw [List.getElem?_append_right (Nat.le_refl _), Nat.sub_self] at hk
    exact absurd (Option.some.inj hk) (hop.not_ret r)
  · obtain ⟨j, rfl⟩ := Nat.exists_eq_add_of_le hlt
    rw [List.getElem?_append_right (by omega)] at hk
    have hj : front.length + 1 + j - front.length = j + 1 := by omega
    rw [Nat.succ_eq_add_one, hj] at hk
    cases j with
    | zero =>
      cases hk
      exact ⟨front.length, op, rfl, by simp, hop⟩
    | succ j => cases hk

variable {s : Setup} {f g h : Frame} {fs above below rest : List Frame} {op : Operation} {r : Register}

def Frame.Expects (s : Setup) (r : Register) (f : Frame) : Prop :=
  (s.program.codeOf f.scope)[f.pc]? = some (.ret r) ∧ Pairs s.program.finished f.scope

def Frame.Compares (s : Setup) (out : Register) (f : Frame) : Prop :=
  ∃ equal left right target,
    (s.program.codeOf f.scope)[f.pc]? = some (.callCompared equal left right target out)

/-- What is to be returned is there, and none where a comparison may leave its register as it is. -/
structure Frame.Prepared (s : Setup) (f : Frame) : Prop where
  pair : ∀ r, f.Expects s r → ∃ v, f.registers[r]? = some v ∧ v.PairOrNone
  compared : ∀ out, f.Compares s out → f.registers[out]? = some .none

/-- A frame whose result is to be the result of the body below is a block that is such a body itself. -/
structure Frame.Supplies (s : Setup) (below : List Frame) (f : Frame) : Prop where
  pair : ∀ g ∈ below.head?, ∀ r, g.Expects s r → f.out = r ∧ Pairs s.program.finished f.scope ∧
    f.loop = none ∧ f.handler = none ∧ f.function = none
  compared : ∀ g ∈ below.head?, ∀ out, ¬g.Compares s out
  rounds : ∀ l, f.loop = some l → l.toMap = true → Pairs s.program.finished f.scope

def Supplied (s : Setup) : List Frame → Prop
  | [] => True
  | f :: below => f.Supplies s below ∧ Supplied s below

/-- What is returned for the entries of maps is lists of two values, or none. -/
structure Paired (s : Setup) (fs : List Frame) : Prop where
  top : ∀ f ∈ fs.head?, f.Prepared s
  supplied : Supplied s fs

/-- What a frame keeps in all its rounds. -/
structure Frame.Resumes (f g : Frame) : Prop where
  stays : f.Stays g
  rounds : g.loop.map Loop.toMap = f.loop.map Loop.toMap

namespace Frame

theorem Resumes.of_loop (hg : f.Stays g) (hloop : g.loop = f.loop) : f.Resumes g := ⟨hg, by rw [hloop]⟩

theorem Resumes.trans (hg : f.Resumes g) (hh : g.Resumes h) : f.Resumes h :=
  ⟨hg.stays.trans hh.stays, hh.rounds.trans hg.rounds⟩

theorem Resumes.of_footing {f g : Frame} (h : g.footing = f.footing) : f.Resumes g := by
  have hloop : g.loop = f.loop := (congrArg Frame.loop h :)
  refine .of_loop ⟨(congrArg Frame.scope h :), (registers_of_footing h).1, (congrArg Frame.parent h :),
    (congrArg Frame.out h :), (congrArg Frame.handler h :), (congrArg Frame.function h :), ?_⟩ hloop
  rw [hloop]

theorem Supplies.resumes (hf : f.Supplies s below) (hg : f.Resumes g) : g.Supplies s below where
  pair := by
    intro k hk r hr
    obtain ⟨hout, hpairs, hloop, hhandler, hfunction⟩ := hf.pair k hk r hr
    refine ⟨hg.stays.out.trans hout, hg.stays.scope ▸ hpairs, ?_, hg.stays.handler.trans hhandler,
      hg.stays.function.trans hfunction⟩
    have hrounds := hg.rounds
    rwa [hloop, Option.map_none, Option.map_eq_none_iff] at hrounds
  compared := hf.compared
  rounds := by
    intro l hl hmap
    have hrounds := hg.rounds
    rw [hl, Option.map_some] at hrounds
    obtain ⟨l', hl', htoMap⟩ := Option.map_eq_some_iff.1 hrounds.symm
    exact hg.stays.scope ▸ hf.rounds l' hl' (htoMap.trans hmap)

theorem Prepared.of_pc (hp : s.program.Regular) (hpc : f.pc = 0) : f.Prepared s where
  pair := by
    intro r hr
    obtain ⟨j, op, hj, -⟩ := hr.2.before hr.1
    rw [hpc] at hj
    cases hj
  compared := by
    rintro out ⟨equal, left, right, target, hop⟩
    obtain ⟨j, hj, -⟩ := hp.copied _ _ _ _ _ _ _ hop
    rw [hpc] at hj
    cases hj

end Frame

theorem Supplied.suffix (h : Supplied s (above ++ fs)) : Supplied s fs := by
  induction above with
  | nil => exact h
  | cons f above ih => exact ih h.2

theorem Paired.of_cons (h : Supplied s (f :: rest)) (hg : f.Resumes g) (hprepared : g.Prepared s) :
    Paired s (g :: rest) := by
  refine ⟨fun k hk => ?_, h.1.resumes hg, h.2⟩
  cases hk
  exact hprepared

theorem Paired.received (h : Supplied s (f :: rest)) (hout : Answers f.out rest) {v : Value}
    (hv : Pairs s.program.finished f.scope → f.loop = none → f.handler = none → f.function = none →
      v.PairOrNone) : Paired s (rest.modifyHead (Frame.receive f.out v)) := by
  cases rest with
  | nil => exact ⟨by simp, trivial⟩
  | cons k below =>
    refine .of_cons h.2 (.of_loop (.receive v k) rfl) ⟨fun r hr => ?_, fun out hc => ?_⟩
    · obtain ⟨rfl, hpairs, hloop, hhandler, hfunction⟩ := h.1.pair k rfl r hr
      exact ⟨v, Array.getElem?_setIfInBounds_self_of_lt hout.2, hv hpairs hloop hhandler hfunction⟩
    · exact absurd hc (h.1.compared k rfl out)

/-- What the frame that an operation enters has to do with it. -/
structure Operation.Brings (op : Operation) (h : Frame) : Prop where
  pc : h.pc = 0
  guarded : ∀ r j, op.Guards r j →
    h.out = r ∧ h.scope = j ∧ h.loop = none ∧ h.handler = none ∧ h.function = none
  rounds : ∀ l, h.loop = some l →
    ∃ source target out, op = .collect l.toMap source target out ∧ target = some h.scope

def Operation.guards : Operation → Bool
  | .branch .. | .callCompared .. => true
  | _ => false

theorem Operation.Guards.guards {j : Nat} (h : op.Guards r j) : op.guards = true := by
  rcases h with ⟨_, _, rfl⟩ | ⟨_, _, _, rfl⟩
  · rfl
  · rfl

theorem Operation.Brings.of_plain (hop : op.guards = false) (hh : h.pc = 0 ∧ h.loop = none) :
    op.Brings h where
  pc := hh.1
  guarded := by
    intro r j hguards
    rw [hguards.guards] at hop
    cases hop
  rounds := by
    intro l hl
    rw [hh.2] at hl
    cases hl

/-- The frame that an operation enters supplies what the operation is to leave in its register. -/
theorem Frame.Supplies.called (hp : s.program.Regular)
    (hop : (s.program.codeOf f.scope)[f.pc]? = some op) (hcall : op.isCall = true) (hg : op.Brings g) :
    g.Supplies s ({ f with pc := f.pc + 1 } :: rest) where
  pair := by
    intro k hk r hr
    cases hk
    obtain ⟨j, op', hj, hop', hmakes⟩ := hr.2.before hr.1
    cases hj
    rw [hop] at hop'
    cases hop'
    rcases hmakes with ⟨key, entry, heq⟩ | ⟨j, hguards, hpairs⟩
    · rw [heq] at hcall
      cases hcall
    · obtain ⟨hout, hscope, hrest⟩ := hg.guarded r j hguards
      exact ⟨hout, hscope ▸ hpairs, hrest⟩
  compared := by
    -- before a comparison stands the copy that prepares its register, which is no call
    rintro k hk out ⟨equal, left, right, target, hc⟩
    cases hk
    obtain ⟨j, hj, hcopy⟩ := hp.copied _ _ _ _ _ _ _ hc
    cases hj
    rw [hop] at hcopy
    rw [Option.some.inj hcopy] at hcall
    cases hcall
  rounds := by
    intro l hl hmap
    obtain ⟨source, target, out, heq, htarget⟩ := hg.rounds l hl
    obtain ⟨t, ht, hmem⟩ := Program.exists_of_codeOf hop
    have hmem : op ∈ s.program.operations := Program.mem_operations.2
      ⟨t, Array.mem_toList_iff.2 (Array.mem_of_getElem? ht), List.mem_of_getElem? hmem⟩
    obtain ⟨j, hj, hbody⟩ := hp.embodied _ hmem _ _ _ _ heq
    rw [htarget] at hj
    cases hj
    exact hbody.pairs hmap

theorem Paired.called (hp : s.program.Regular) (hop : (s.program.codeOf f.scope)[f.pc]? = some op)
    (hcall : op.isCall = true) (hg : op.Brings g) (h : Supplied s ({ f with pc := f.pc + 1 } :: rest)) :
    Paired s (g :: { f with pc := f.pc + 1 } :: rest) := by
  refine ⟨fun k hk => ?_, .called hp hop hcall hg, h⟩
  cases hk
  exact .of_pc hp hg.pc

namespace Exec

variable {α : Type} {m : Machine} {target : Target} {out : Register} {v : Value}

theorem Calls.opens {x : Exec α} (hx : Calls s out [] x) :
    Opens (fun _ h => h.pc = 0 ∧ h.loop = none) x := by
  refine fun m => (hx m).mono (fun _ m' hc h hh => ?_) fun _ _ _ => trivial
  rw [hh] at hc
  generalize hfs : h :: m.frames = fs at hc
  cases hc with
  | same => simp at hfs
  | answered v _ =>
    have hlength := congrArg List.length hfs
    simp at hlength
  | entered hg hdepth =>
    cases hfs
    exact ⟨hg.pc, hg.rounds.resolve_right fun h => List.not_mem_nil h.2⟩

theorem enterBlock_brings (hop : ∀ r j, op.Guards r j → target = some j ∧ out = r) :
    Opens (fun _ => op.Brings) (enterBlock s target out) := by
  refine fun m => (enterBlock_ensures m).imp fun _ m' hm' h hh => ?_
  obtain ⟨i, sc, rfl, -, hm'⟩ := hm'
  rw [hm'] at hh
  cases hh
  refine ⟨rfl, fun r j hg => ?_, nofun⟩
  obtain ⟨hj, rfl⟩ := hop r j hg
  cases hj
  exact ⟨rfl, rfl, rfl, rfl, rfl⟩

theorem startLoop_brings (toMap : Bool) (source : Register) (v : Value) :
    Opens (fun _ => Operation.Brings (.collect toMap source target out))
      (startLoop s toMap v target out) := by
  refine Opens.after (Steady.lift _) fun count => ?_
  dsimp only
  split
  · exact writeRegister_opens _
  · refine fun m => Ensures.get_bind (((pushFrame_ensures target _ out).mono (fun _ _ h => h)
      fun _ _ _ => trivial).bind fun _ m₁ h₁ => ?_)
    obtain ⟨-, sc, hsc, rfl⟩ := h₁
    obtain ⟨i, rfl, hi⟩ := Program.scope_eq_ok.1 hsc
    refine Ensures.run (modifyTop_run rfl) ?_
    refine (bindLoopVariables_steady _ _).mono (fun _ m' h k hk => ?_) fun _ _ _ => trivial
    obtain ⟨k', hm', hg⟩ := h.cons rfl
    rw [hm'] at hk
    cases hk
    refine ⟨(congrArg Frame.pc hg :), ?_, fun l hl => ?_⟩
    · rintro r j (⟨_, _, h⟩ | ⟨_, _, _, h⟩) <;> cases h
    · rw [show k.loop = some _ from (congrArg Frame.loop hg :)] at hl
      cases hl
      exact ⟨source, _, out, rfl, congrArg some (congrArg Frame.scope hg :).symm⟩

theorem perform_brings (f : Frame) (hcall : op.isCall = true) :
    Opens (fun _ => op.Brings) (perform s f op) := by
  have hread : ∀ (r : Register) {k : Value → Exec Unit}, (∀ v, Opens (fun _ => op.Brings) (k v)) →
      Opens (fun _ => op.Brings) (readRegister s f r >>= k) :=
    fun r k hk => Opens.after (readRegister_steady s f r) hk
  have hreads : ∀ (rs : List Register) {k : List Value → Exec Unit},
      (∀ vs, Opens (fun _ => op.Brings) (k vs)) →
      Opens (fun _ => op.Brings) (readRegisters s f rs >>= k) :=
    fun rs k hk => Opens.after (readRegisters_steady s f rs) hk
  have hplain : ∀ {out : Register} {x : Exec Unit}, op.guards = false → Calls s out [] x →
      Opens (fun _ => op.Brings) x := fun hop hx => hx.opens.imp fun _ _ => .of_plain hop
  cases op with
  | call target args out => exact hplain rfl (callScope_calls f target args)
  | callCompared equal left right target out =>
    refine hread left fun a => hread right fun b => ?_
    split
    · refine enterBlock_brings fun r j hg => ?_
      rcases hg with ⟨_, _, hg⟩ | ⟨_, _, _, hg⟩ <;> cases hg
      exact ⟨rfl, rfl⟩
    · exact Opens.pure _
  | ifElse condition target otherwise out =>
    refine hread condition fun v => ?_
    split
    · exact writeRegister_opens _
    · exact hplain rfl (enterBlock_enters _).calls
  | branch truth condition target out =>
    refine hread condition fun v => ?_
    split
    · refine enterBlock_brings fun r j hg => ?_
      rcases hg with ⟨_, _, hg⟩ | ⟨_, _, _, hg⟩ <;> cases hg
      exact ⟨rfl, rfl⟩
    · exact writeRegister_opens _
  | callFunction name args out => exact hreads args fun vs => hplain rfl (callFunction_calls name vs)
  | callMethod name receiver variableName args out =>
    exact hread receiver fun v => hreads args fun vs => hplain rfl (callMethod_calls name v variableName vs)
  | callModule module name args out =>
    exact hreads args fun vs => hplain rfl (callModule_calls module name vs)
  | callValue callee args out =>
    exact hread callee fun v => hreads args fun vs => hplain rfl (invokeClosure_calls v vs)
  | collect toMap source target out => exact hread source fun v => startLoop_brings toMap source v
  | tryCatch target handler errorName out =>
    refine fun m => (tryCatch_enters f target handler errorName m).mono (fun _ m' hm' h hh => ?_)
      fun _ _ _ => trivial
    obtain ⟨-, g, hg, hm'⟩ := hm'
    rw [hm'] at hh
    cases hh
    exact .of_plain rfl ⟨hg.pc, hg.rounds.resolve_right fun h => List.not_mem_nil h.2⟩
  | _ => cases hcall

theorem writeRegister_leaves (hf : m.frames = f :: rest) :
    Ensures (writeRegister s r v) m (fun _ m' => ∀ g, m'.frames = g :: rest → g.registers[r]? = some v)
      fun _ _ => True := by
  refine (writeRegister_ensures v hf).mono (fun _ m' hm' g hg => ?_) fun _ _ _ => trivial
  obtain ⟨hanswers, rfl⟩ := hm'
  rw [hf] at hanswers
  cases hg
  exact Array.getElem?_setIfInBounds_self_of_lt hanswers.2

theorem readRegister_gives (f : Frame) (r : Register) (m : Machine) :
    Ensures (readRegister s f r) m (fun v m' => m' = m ∧ f.registers[r]? = some v) fun _ _ => True := by
  unfold readRegister
  split
  · exact Ensures.pure ⟨rfl, ‹_›⟩
  · exact (outOfRange_fails f r m).mono (fun _ _ h => h.elim) fun _ _ _ => trivial

theorem enterBlock_leaves {P : Frame → Prop} (hf : m.frames = f :: rest) :
    Ensures (enterBlock s target out) m (fun _ m' => ∀ g, m'.frames = g :: rest → P g)
      fun _ _ => True := by
  refine (enterBlock_ensures m).imp fun _ m' hm' g hg => ?_
  obtain ⟨i, sc, -, -, hm'⟩ := hm'
  have hlength := congrArg List.length (hg.symm.trans hm')
  rw [hf] at hlength
  simp at hlength

/-- What makes the result of the body of a map comprehension leaves it in its register, unless it enters
a block. -/
theorem perform_makes {f₀ : Frame} {scopes : Nat → Option Scope} (hf : m.frames = f :: rest)
    (hmakes : op.MakesPair scopes r)
    (hcompared : ∀ equal left right target, op = .callCompared equal left right target r →
      f.registers[r]? = some .none) :
    Ensures (perform s f₀ op) m
      (fun _ m' => ∀ g, m'.frames = g :: rest → ∃ v, g.registers[r]? = some v ∧ v.PairOrNone)
      fun _ _ => True := by
  have hread : ∀ (q : Register) {k : Value → Exec Unit} {P : Unit → Machine → Prop},
      (∀ v, Ensures (k v) m P fun _ _ => True) →
      Ensures (readRegister s f₀ q >>= k) m P fun _ _ => True := by
    intro q k P hk
    refine (readRegister_gives f₀ q m).bind fun v m₁ hm₁ => ?_
    rw [hm₁.1]
    exact hk v
  rcases hmakes with ⟨key, entry, rfl⟩ | ⟨j, hguards | hguards, -⟩
  · have hrun : perform s f₀ (.makeList [key, entry] r) = readRegister s f₀ key >>= fun a =>
        readRegister s f₀ entry >>= fun b => writeRegister s r (.list [a, b]) := by
      simp [perform, readRegisters]
    rw [hrun]
    refine hread key fun a => hread entry fun b => ?_
    exact (writeRegister_leaves hf).imp fun _ _ h g hg => ⟨_, h g hg, .inr ⟨a, b, rfl⟩⟩
  · obtain ⟨truth, condition, rfl⟩ := hguards
    refine hread condition fun v => ?_
    split
    · exact enterBlock_leaves hf
    · exact (writeRegister_leaves hf).imp fun _ _ h g hg => ⟨_, h g hg, .inl rfl⟩
  · obtain ⟨equal, left, right, rfl⟩ := hguards
    refine hread left fun a => hread right fun b => ?_
    split
    · exact enterBlock_leaves hf
    · refine Ensures.pure fun g hg => ?_
      rw [hf] at hg
      cases hg
      exact ⟨.none, hcompared _ _ _ _ rfl, .inl rfl⟩

theorem copy_leaves {f₀ : Frame} (hf : m.frames = f :: rest) (hnone : f₀.Reserved) :
    Ensures (perform s f₀ (.copy noneRegister out)) m
      (fun _ m' => ∀ g, m'.frames = g :: rest → g.registers[out]? = some .none) fun _ _ => True := by
  refine (readRegister_gives f₀ noneRegister m).bind fun v m₁ hm₁ => ?_
  obtain ⟨rfl, hv⟩ := hm₁
  rw [hnone.none] at hv
  cases hv
  exact writeRegister_leaves hf

/-- The frame that has carried out an operation is prepared for the next. -/
theorem perform_prepares (hp : s.program.Regular) (hf : m.frames = { f with pc := f.pc + 1 } :: rest)
    (hreserved : f.Reserved) (hprepared : f.Prepared s)
    (hop : (s.program.codeOf f.scope)[f.pc]? = some op) :
    Ensures (perform s f op) m (fun _ m' => ∀ g, m'.frames = g :: rest → g.scope = f.scope →
      g.pc = f.pc + 1 → g.Prepared s) fun _ _ => True := by
  refine Ensures.intro (fun _ m' hok g hg hscope hpc => ⟨fun r hr => ?_, fun out hc => ?_⟩)
    fun _ _ _ => trivial
  · unfold Frame.Expects at hr
    rw [hscope, hpc] at hr
    obtain ⟨j, op', hj, hop', hmakes⟩ := hr.2.before hr.1
    cases hj
    rw [hop] at hop'
    cases hop'
    refine (perform_makes hf hmakes fun equal left right target heq => ?_).of_ok hok g hg
    rw [heq] at hop
    exact hprepared.compared r ⟨_, _, _, _, hop⟩
  · obtain ⟨equal, left, right, target, hc⟩ := hc
    rw [hscope, hpc] at hc
    obtain ⟨j, hj, hcopy⟩ := hp.copied _ _ _ _ _ _ _ hc
    cases hj
    rw [hop] at hcopy
    cases hcopy
    exact (copy_leaves hf hreserved).of_ok hok g hg

theorem accumulate_toMap {l l' : Loop} (h : l.accumulate v = .ok l') : l'.toMap = l.toMap := by
  unfold Loop.accumulate at h
  split at h <;> cases h <;> rfl

/-- Another round of the top frame begins, or it is left with its result. -/
theorem returnFrom_resumes (v : Value) (hf : m.frames = f :: rest) (hfit : f.Fits s rest) :
    Ensures (returnFrom s v) m
      (fun _ m' => (∃ w, m'.frames = rest.modifyHead (Frame.receive f.out w) ∧ (f.loop = none → w = v)) ∨
        ∃ g, f.Resumes g ∧ g.pc = 0 ∧ m'.frames = g :: rest) fun _ _ => True := by
  refine Ensures.run (top_run hf) ?_
  split
  · exact (complete_hands f v hf hfit.answers).mono (fun _ m' h => .inl ⟨v, h, fun _ => rfl⟩)
      fun _ _ _ => trivial
  · rename_i l hloop
    refine ((lift_ensures _ m).mono (fun _ _ h => h) fun _ _ _ => trivial).bind fun l' m₁ hm₁ => ?_
    obtain ⟨rfl, hl'⟩ := hm₁
    dsimp only
    refine Ensures.run (modifyTop_run hf) ?_
    split
    · refine ((resetFrame_rewinds rfl).mono (fun _ _ h => h) fun _ _ _ => trivial).bind
        fun _ m₂ hm₂ => ?_
      obtain ⟨sc, hsc, hm₂⟩ := hm₂
      refine (bindLoopVariables_steady _ m₂).mono (fun _ m' h => .inr ?_) fun _ _ _ => trivial
      obtain ⟨g, hm', hg⟩ := h.cons hm₂
      have hgloop : g.loop = some { l' with next := l'.next + 1 } := (congrArg Frame.loop hg :)
      refine ⟨g, ⟨⟨(congrArg Frame.scope hg :), ?_, (congrArg Frame.parent hg :),
        (congrArg Frame.out hg :), (congrArg Frame.handler hg :), (congrArg Frame.function hg :), ?_⟩, ?_⟩,
        (congrArg Frame.pc hg :), hm'⟩
      · obtain ⟨sc', hsc', hsize⟩ := hfit.housed
        rw [hsc] at hsc'
        cases hsc'
        exact ((Frame.registers_of_outline hg).1.trans (Frame.size_freshRegisters sc)).trans hsize.symm
      · rw [hgloop, hloop]
        rfl
      · rw [hgloop, hloop]
        exact congrArg some (accumulate_toMap hl' : l'.toMap = l.toMap)
    · refine (complete_hands f _ rfl hfit.answers).mono (fun _ m' h => .inl ⟨_, h, fun hnone => ?_⟩)
        fun _ _ _ => trivial
      rw [hloop] at hnone
      cases hnone

theorem returnFrom_pairs (hp : s.program.Regular) (hf : m.frames = f :: rest) (hfit : f.Fits s rest)
    (h : Supplied s (f :: rest))
    (hv : Pairs s.program.finished f.scope → f.function = none → v.PairOrNone) :
    Ensures (returnFrom s v) m (fun _ m' => Paired s m'.frames) fun _ _ => True := by
  refine (returnFrom_resumes v hf hfit).imp fun _ m' hm' => ?_
  rcases hm' with ⟨w, hm', hw⟩ | ⟨g, hg, hpc, hm'⟩
  · rw [hm']
    refine .received h hfit.answers fun hpairs hloop _ hfunction => ?_
    rw [hw hloop]
    exact hv hpairs hfunction
  · rw [hm']
    exact .of_cons h hg (.of_pc hp hpc)

/-- The frame that a `return` leaves in the end is that of a function, or there is none below it. -/
theorem leave_pairs (hp : s.program.Regular) (hfit : Fitted s m.frames) (hn : Nested s m.frames)
    (hne : m.frames ≠ []) (h : Supplied s m.frames) :
    Ensures (leave s v) m (fun _ m' => Paired s m'.frames) fun _ _ => True := by
  obtain ⟨popped, g, below, hsplit, hg, hlast⟩ := unwindBlocks_frames (s := s) m.frames rfl hne
  rw [hsplit] at hfit hn h
  have hleads : g.function = none → below = [] := by
    intro hfunction
    cases hn.suffix with
    | leads hf _ =>
      rcases hf with hf | hf
      · obtain ⟨fn, hfn, -⟩ := hf.body
        rw [hfn] at hfunction
        cases hfunction
      · exact hf.2
    | inside hf _ => exact hlast (hf.isInnerBlock hp.wellFormed)
  have hsupplied := h.suffix
  refine Ensures.change_bind ((returnFrom_resumes v hg hfit.suffix.1).imp fun _ m' hm' => ?_)
  rcases hm' with ⟨w, hm', -⟩ | ⟨k, hk, hpc, hm'⟩
  · rw [hm']
    cases hfunction : g.function with
    | none =>
      rw [hleads hfunction]
      exact ⟨by simp, trivial⟩
    | some fn =>
      refine .received hsupplied hfit.suffix.1.answers fun _ _ _ hnone => ?_
      rw [hfunction] at hnone
      cases hnone
  · rw [hm']
    exact .of_cons hsupplied hk (.of_pc hp hpc)

theorem step_pairs (hp : s.program.Regular) (hf : m.frames = f :: rest) (hfit : Fitted s m.frames)
    (hintact : Intact s m.frames) (hn : Nested s m.frames) (h : Paired s m.frames) :
    Ensures (step s) m (fun _ m' => Paired s m'.frames) fun _ _ => True := by
  have hfit' : Fitted s (f :: rest) := hf ▸ hfit
  have hn' : Nested s (f :: rest) := hf ▸ hn
  have hreserved : f.Reserved := (hf ▸ hintact : Intact s (f :: rest)).1.reserved
  have hsupplied : Supplied s (f :: rest) := hf ▸ h.supplied
  have hprepared : f.Prepared s := h.top f (by rw [hf]; rfl)
  obtain ⟨sc, hscope, -⟩ := hfit'.1.housed
  cases hi : sc.code[f.pc]? with
  | none =>
    unfold Ensures
    rw [step_run_end hf hscope hi]
    exact returnFrom_pairs hp hf hfit'.1 hsupplied fun _ _ => .inl rfl
  | some i =>
    have hop : (s.program.codeOf f.scope)[f.pc]? = some i.operation := by
      rw [Program.codeOf_eq_map hscope, hi]
      rfl
    have htaken : f.Resumes { f with pc := f.pc + 1 } := .of_loop ⟨rfl, rfl, rfl, rfl, rfl, rfl, rfl⟩ rfl
    have hfit₁ : Fitted s (m.taken f rest i).frames := hfit'.stays htaken.stays
    have hsupplied₁ : Supplied s (m.taken f rest i).frames := ⟨hsupplied.1.resumes htaken, hsupplied.2⟩
    unfold Ensures
    rw [step_run hf hscope hi]
    have hprepares := perform_prepares (m := m.taken f rest i) hp rfl hreserved hprepared hop
    have hwithin : ∀ (m' : Machine) (g : Frame), m'.frames = g :: rest →
        (∀ g, m'.frames = g :: rest → g.scope = f.scope → g.pc = f.pc + 1 → g.Prepared s) →
        g.footing = Frame.footing { f with pc := f.pc + 1 } → Paired s m'.frames := by
      intro m' g hm' hprepares hg
      rw [hm']
      exact .of_cons hsupplied (htaken.trans (.of_footing hg))
        (hprepares g hm' (congrArg Frame.scope hg :) (congrArg Frame.pc hg :))
    cases hcall : i.operation.isCall with
    | true =>
      refine (((call_turns f (m := m.taken f rest i) rfl hcall).both (perform_brings f hcall _)).both
        hprepares).mono (fun _ m' hm' => ?_) fun _ _ _ => trivial
      obtain ⟨⟨⟨g, hm', hg, -⟩ | ⟨g, hm'⟩, hbrings⟩, hprepares⟩ := hm'
      · exact hwithin m' g hm' hprepares hg
      · rw [hm']
        exact .called hp hop hcall (hbrings g hm') hsupplied₁
    | false =>
      cases hreturn : i.operation.isReturn with
      | false =>
        refine ((perform_steady f hcall hreturn _).both hprepares).mono (fun _ m' hm' => ?_)
          fun _ _ _ => trivial
        obtain ⟨g, hm'', hg⟩ := hm'.1.cons rfl
        exact hwithin m' g hm'' hm'.2 (Frame.footing_of_outline hg)
      | true =>
        cases hret : i.operation with
        | ret source =>
          refine (readRegister_gives f source _).bind fun v m₁ hm₁ => ?_
          obtain ⟨rfl, hv⟩ := hm₁
          refine returnFrom_pairs hp rfl hfit₁.1 hsupplied₁ fun hpairs _ => ?_
          rw [hret] at hop
          obtain ⟨w, hw, hpair⟩ := hprepared.pair source ⟨hop, hpairs⟩
          rw [hv] at hw
          cases hw
          exact hpair
        | leave source =>
          refine (readRegister_gives f source _).bind fun v m₁ hm₁ => ?_
          obtain ⟨rfl, -⟩ := hm₁
          exact leave_pairs hp hfit₁ (hn'.stays htaken.stays) (List.cons_ne_nil _ _) hsupplied₁
        | _ =>
          rw [hret] at hreturn
          cases hreturn

end Exec

theorem Paired.caught {t : Frame} {k : Handler} {e : Fault} (hp : s.program.Regular)
    (h : Supplied s (f :: below)) (hfit : f.Fits s below) (ht : f.Stays t) (hk : t.handler = some k)
    (hc : Caught s t e k below fs) : Paired s fs := by
  have hnot : f.handler ≠ none := by
    rw [← ht.handler, hk]
    exact Option.some_ne_none k
  cases hc with
  | value name hout =>
    rw [ht.out]
    exact .received h hfit.answers fun _ _ hnone _ => absurd hnone hnot
  | block name hscope =>
    refine ⟨fun g hg => ?_, ⟨fun g hg r hr => ?_, h.1.compared, nofun⟩, h.2⟩
    · cases hg
      exact .of_pc hp rfl
    · exact absurd (h.1.pair g hg r hr).2.2.2.1 hnot

namespace Machine

variable {m m' : Machine}

/-- What is known of the stack of a machine between two steps. -/
structure Steadfast (s : Setup) (m : Machine) : Prop where
  sound : m.Sound s .nothing 0 []
  fitted : Fitted s m.frames
  intact : Intact s m.frames
  nested : Nested s m.frames
  paired : Paired s m.frames

theorem advance_steadfast (hp : s.program.Regular)
    (hm : m.Steadfast s) (ha : m.advance s = .running m') : m'.Steadfast s where
  sound := hm.sound.advance ha
  fitted := advance_fitted hp.wellFormed hm.sound hm.fitted ha
  intact := advance_intact hm.intact ha
  nested := advance_nests hp.wellFormed hm.sound hm.fitted hm.nested ha
  paired := by
    have hne : m.frames ≠ [] := by
      intro h
      simp [advance, h] at ha
    obtain ⟨f, rest, hf⟩ := List.exists_cons_of_ne_nil hne
    rcases running_cases hp.wellFormed hm.sound hm.fitted ha with
      hok | ⟨m₁, above, below, t, h, e, hfailed, hf₁, hh, hcaught⟩
    · exact (Exec.step_pairs hp hf hm.fitted hm.intact hm.nested hm.paired).of_ok hok
    · obtain ⟨popped, k, hsplit, hstays⟩ := hfailed.origin hf₁ hh
      have hfit := hm.fitted
      have hsupplied := hm.paired.supplied
      rw [hsplit] at hfit hsupplied
      exact .caught hp hsupplied.suffix hfit.suffix.1 hstays hh hcaught

theorem Runs.steadfast (hp : s.program.Regular) (h : m.Runs s m')
    (hm : m.Steadfast s) : m'.Steadfast s := by
  induction h with
  | refl => exact hm
  | next _ ha ih => exact advance_steadfast hp ih ha

theorem entry_steadfast {e : Entry} {action : Exec Unit} (hp : s.program.Regular)
    (ha : e.action s = some action) (hf : m.frames = []) (hok : action m = .ok ⟨⟩ m')
    (hm : m'.Sound s .nothing 0 []) : m'.Steadfast s where
  sound := hm
  fitted := entry_fitted ha hf hok
  intact := entry_intact ha hf hok
  nested := entry_nests ha hf hok
  paired := by
    have hcalled := entry_called ha hf hok
    generalize m'.frames = fs at hcalled
    cases hcalled with
    | same => exact ⟨by simp, trivial⟩
    | answered v => exact ⟨by simp, trivial⟩
    | @entered f hg hdepth =>
      refine ⟨fun k hk => ?_, ⟨by simp, by simp, fun l hl => ?_⟩, trivial⟩
      · cases hk
        exact .of_pc hp hg.pc
      · rw [hg.rounds.resolve_right fun h => List.not_mem_nil h.2] at hl
        cases hl

theorem Idle.reaches_steadfast (hp : s.program.Regular) {v : Visit}
    (hm : m.Idle s .nothing 0) (hr : v.Reaches s m m') :
    m'.Steadfast s := by
  obtain ⟨action, m₁, ha, hok, hruns⟩ := hr
  have hm' := hm.anyHost v.host
  have hkeeps := hm'.action_keeps Trust.no_natives Trust.no_room Trust.no_natives ha
  have hbegun : (Machine.begin s { m with host := v.host }).frames = [] := by
    unfold begin
    rw [hm'.settle_eq]
    exact hm.frames
  exact hruns.steadfast hp (entry_steadfast hp ha hbegun hok (hkeeps.of_ok hok).1)

end Machine

end ScriptMachine
