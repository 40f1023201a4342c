import ScriptMachine.Proofs.Machine.Invocations

set_option autoImplicit false

namespace ScriptMachine

namespace Machine

variable {s : Setup} {trust : Trust} {time : Nat} {m : Machine} {f : Frame} {rest : List Frame}

theorem discardAll_eq (m : Machine) (hs : List CellHandle) :
    m.discardAll s hs = { m with arena := Custody.discards s.options.keepCells m.arena hs } := by
  unfold Custody.discards
  cases hk : s.options.keepCells with
  | true =>
    induction hs with
    | nil => rfl
    | cons h hs ih =>
      have hsame : m.discard s h = m := by simp [discard, hk]
      rw [discardAll, List.foldl_cons, hsame]
      exact ih
  | false =>
    induction hs generalizing m with
    | nil => rfl
    | cons h hs ih =>
      have hdrop : m.discard s h = { m with arena := m.arena.discard h } := by simp [discard, hk]
      rw [discardAll, List.foldl_cons, hdrop]
      exact ih { m with arena := m.arena.discard h }

theorem popFrame_eq (hf : m.frames = f :: rest) :
    m.popFrame s = { m with
      arena := Custody.discards s.options.keepCells (Custody.unborrowed m.arena f.borrow) f.owned
      frames := rest } := by
  simp only [popFrame, hf]
  cases f.borrow with
  | none => rw [discardAll_eq]; rfl
  | some h => rw [discardAll_eq]; rfl

theorem remains_discards {room : Prop} (keep : Bool) (a : Arena) (owned : List CellHandle) :
    Arena.Remains room a (Custody.discards keep a owned) := by
  cases keep with
  | true => exact .refl a
  | false => exact .discards a owned

theorem popFrame_sound (hm : m.Sound s trust time []) :
    m.Later trust (m.popFrame s) ∧ (m.popFrame s).Sound s trust time [] := by
  cases hf : m.frames with
  | nil =>
    have hsame : m.popFrame s = m := by simp [popFrame, hf]
    rw [hsame]
    exact ⟨.refl m, hm⟩
  | cons f rest =>
    have hunborrowed : Arena.Remains trust.room m.arena (Custody.unborrowed m.arena f.borrow) := by
      cases f.borrow with
      | none => exact .refl _
      | some h => exact .endBorrow _ h
    obtain ⟨hlater, hknown⟩ :=
      hm.known.remains (hunborrowed.trans (remains_discards s.options.keepCells _ f.owned))
    rw [popFrame_eq hf]
    refine ⟨⟨rfl, hlater.pinned⟩, (hm.custody_cons hf).pop, ?_⟩
    refine hknown.change (.of_eq rfl rfl) rfl rfl rfl rfl (fun g hg => ?_) hknown.cells
    exact hknown.frames g (hf ▸ List.mem_cons_of_mem _ hg)

theorem popFrame_frames (m : Machine) : (m.popFrame s).frames = m.frames.tail := by
  cases hf : m.frames with
  | nil => simp [popFrame, hf]
  | cons f rest => simp [popFrame_eq hf]

end Machine

namespace Exec

variable {s : Setup} {trust : Trust} {time : Nat} {m : Machine} {f : Frame} {rest : List Frame}
  {v : Value} {l : Loop}

/-- The frame of a comprehension starts another round with nothing of its own. -/
theorem resetFrame_keeps (hm : m.Sound s trust time []) (hf : m.frames = f :: rest)
    (hloop : f.loop.isSome = true) :
    Keeps s trust time [] (resetFrame s) m fun _ _ => True := by
  refine Safe.read hm top_reads fun f' hf' => ?_
  obtain ⟨rest', hf'⟩ := hf'
  rw [hf] at hf'
  cases hf'
  refine Safe.read hm (Reads.lift (scope_gives _ _)) fun scope _ => ?_
  have hremains : Arena.Remains trust.room m.arena _ :=
    Machine.remains_discards s.options.keepCells m.arena f.owned
  obtain ⟨hlater, hknown⟩ := hm.known.remains hremains
  have hcustody := (hm.custody_cons hf).reset hloop
  have hb : f.borrow = none := (hm.custody_cons hf).lent.1 hloop
  refine Safe.change_bind ?_ ?_
  · rw [Machine.discardAll_eq]
    exact hlater
  · rw [Machine.discardAll_eq]
    refine modifyTop_safe hf (.of_eq rfl rfl) ⟨?_, hknown.retop hf ?_⟩ trivial
    · have hholding : Frame.holding { f with
          owned := [], bindings := [], registers := Frame.freshRegisters scope, pc := 0 } =
          ⟨[], [], none, true⟩ := by
        simp [Frame.holding, hb, hloop]
      rw [List.map_cons, hholding]
      exact hcustody
    · have hw := hlater.frame (hm.within_top hf)
      exact ⟨freshRegisters_inherits scope, nofun, hw.loop⟩

theorem bindLoopVariables_keeps (hm : m.Sound s trust time []) (hl : l.All (Value.Within (m.Knows trust))) :
    Keeps s trust time [] (bindLoopVariables s l) m fun _ _ => True := by
  refine Safe.read hm top_reads fun f _ => ?_
  refine Safe.read hm (Reads.lift (scope_gives _ _)) fun scope _ => ?_
  exact bindParams_keeps hm _ (variableValues_inherits hl _)

theorem startLoop_keeps (hm : m.Sound s trust time []) (toMap : Bool)
    (hv : v.Within (m.Knows trust)) (target : Target) (out : Register) :
    Keeps s trust time [] (startLoop s toMap v target out) m fun _ _ => True := by
  refine Safe.read hm (Reads.lift (elementCount_gives v)) fun count _ => ?_
  have hstart : (Loop.start v count toMap).All (Value.Within (m.Knows trust)) := ⟨hv, nofun, nofun⟩
  dsimp only
  split
  · exact writeRegister_keeps hm out (result_inherits hstart)
  · refine Safe.get_bind ((pushFrame_keeps hm target _ out).bind fun _ m₁ hm₁ hl₁ ⟨scope, hf₁⟩ => ?_)
    have hw := hm₁.within_top hf₁
    have hstart₁ := hstart.mono fun _ hv => hv.mono hl₁.knows
    have htop : Keeps s trust time []
        (modifyTop fun f => { f with loop := some (Loop.start v count toMap) }) m₁
        fun _ _ => True := by
      refine modifyTop_safe hf₁ (.of_eq rfl rfl) (hm₁.retop hf₁ ?_ ?_) trivial
      · refine (hm₁.custody_cons hf₁).retop rfl rfl (fun _ => rfl) (List.Sublist.refl _) ?_
        exact (hm₁.custody_cons hf₁).lent.2.1
      · refine ⟨hw.registers, hw.bindings, fun l hl => ?_⟩
        cases hl
        exact hstart₁
    exact htop.bind fun _ m₂ hm₂ hl₂ _ =>
      bindLoopVariables_keeps hm₂ (hstart₁.mono fun _ hv => hv.mono hl₂.knows)

theorem complete_keeps (hm : m.Sound s trust time []) (f : Frame) (hv : v.Within (m.Knows trust)) :
    Keeps s trust time [] (complete s f v) m fun _ _ => True := by
  have hrest : ∀ m' : Machine, m'.Sound s trust time [] → m.Later trust m' →
      Keeps s trust time [] (do
        popFrame s
        deliver s v f.out) m' fun _ _ => True := by
    intro m' hm' hl'
    obtain ⟨hlater, hsound⟩ := Machine.popFrame_sound hm'
    exact Safe.change_bind hlater (deliver_keeps hsound f.out ((hl'.trans hlater).value hv))
  unfold complete
  dsimp only
  split
  · refine Safe.read hm (Reads.lift (Function.checkResult_gives v)) fun _ _ => ?_
    exact (remember_keeps hm f.memoKey hv).bind fun _ m' hm' hl' _ => hrest m' hm' hl'
  · exact hrest m hm (.refl m)

theorem returnFrom_keeps (hm : m.Sound s trust time []) (hv : v.Within (m.Knows trust)) :
    Keeps s trust time [] (returnFrom s v) m fun _ _ => True := by
  refine Safe.read hm top_reads fun f ⟨rest, hf⟩ => ?_
  have hw := hm.within_top hf
  split
  · exact complete_keeps hm f hv
  · rename_i loop hloop
    refine Safe.read hm (Reads.lift (accumulate_gives (hw.loop loop hloop) hv)) fun loop' hl' => ?_
    have hnext : Loop.All (Value.Within (m.Knows trust)) { loop' with next := loop'.next + 1 } :=
      ⟨hl'.source, hl'.items, hl'.entries⟩
    dsimp only
    have htop : Keeps s trust time []
        (modifyTop fun f => { f with loop := some { loop' with next := loop'.next + 1 } }) m
        fun _ m' => ∃ f', m'.frames = f' :: rest ∧ f'.loop.isSome = true := by
      refine modifyTop_safe hf (.of_eq rfl rfl) (hm.withTop hf ?_ ?_) ⟨_, rfl, rfl⟩
      · simp [Frame.holding, hloop]
      · refine ⟨hw.registers, hw.bindings, fun l hl => ?_⟩
        cases hl
        exact hnext
    refine htop.bind fun _ m₁ hm₁ hl₁ ⟨f₁, hf₁, hloop₁⟩ => ?_
    have hnext₁ := hnext.mono fun _ hv => hv.mono hl₁.knows
    split
    · refine (resetFrame_keeps hm₁ hf₁ hloop₁).bind fun _ m₂ hm₂ hl₂ _ => ?_
      exact bindLoopVariables_keeps hm₂ (hnext₁.mono fun _ hv => hv.mono hl₂.knows)
    · exact complete_keeps hm₁ f (result_inherits hnext₁)

theorem unwindBlocks_sound (hm : m.Sound s trust time []) (frames : List Frame) :
    m.Later trust (unwindBlocks s frames m) ∧ (unwindBlocks s frames m).Sound s trust time [] := by
  induction frames generalizing m with
  | nil => exact ⟨.refl m, hm⟩
  | cons f rest ih =>
    cases rest with
    | nil => exact ⟨.refl m, hm⟩
    | cons g rest =>
      rw [unwindBlocks]
      split
      · obtain ⟨hlater, hsound⟩ := Machine.popFrame_sound hm
        obtain ⟨hlater', hsound'⟩ := ih hsound
        exact ⟨hlater.trans hlater', hsound'⟩
      · exact ⟨.refl m, hm⟩

theorem leave_keeps (hm : m.Sound s trust time []) (hv : v.Within (m.Knows trust)) :
    Keeps s trust time [] (leave s v) m fun _ _ => True := by
  obtain ⟨hlater, hsound⟩ := unwindBlocks_sound hm m.frames
  exact Safe.change_bind hlater (returnFrom_keeps hsound (hlater.value hv))

end Exec

end ScriptMachine
