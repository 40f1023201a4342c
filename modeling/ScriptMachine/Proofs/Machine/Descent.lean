import ScriptMachine.Proofs.Machine.Rounds
import Mathlib.Data.Prod.Lex
import Mathlib.Data.List.Lex

set_option autoImplicit false

namespace ScriptMachine

section Order

variable {α : Type} [LT α]

def Sinks (vs ws : List α) : Prop := List.Lex (· < ·) vs.reverse ws.reverse

theorem Sinks.change {v w : α} (h : v < w) (above above' rest : List α) :
    Sinks (above ++ v :: rest) (above' ++ w :: rest) := by
  simp only [Sinks, List.reverse_append, List.reverse_cons, List.append_assoc]
  exact List.Lex.append_left _ (.rel h) _

theorem Sinks.drop (above : List α) (w : α) (rest : List α) : Sinks rest (above ++ w :: rest) := by
  have hnil : List.Lex (· < ·) [] (w :: above.reverse) := .nil
  have hlex := hnil.append_left (· < ·) rest.reverse
  simpa only [Sinks, List.reverse_append, List.reverse_cons, List.append_assoc, List.append_nil,
    List.singleton_append] using hlex

/-- Lists of bounded length have no infinite descent. -/
theorem lex_wellFounded (h : WellFounded fun v w : α => v < w) (d : Nat) :
    WellFounded fun vs ws : List α => vs.length ≤ d ∧ List.Lex (· < ·) vs ws := by
  induction d with
  | zero =>
    refine ⟨fun ws => ⟨ws, fun vs hvs => ?_⟩⟩
    obtain rfl := List.eq_nil_of_length_eq_zero (Nat.le_zero.1 hvs.1)
    exact ⟨[], fun us hus => nomatch hus.2⟩
  | succ d ih =>
    have hnil : Acc (fun vs ws : List α => vs.length ≤ d + 1 ∧ List.Lex (· < ·) vs ws) [] :=
      ⟨[], fun vs hvs => nomatch hvs.2⟩
    -- first by the head, then by the tail, whose length is bounded by `d`
    have hcons : ∀ (w : α) (ws : List α),
        Acc (fun vs ws : List α => vs.length ≤ d + 1 ∧ List.Lex (· < ·) vs ws) (w :: ws) := by
      intro w
      induction w using h.induction with
      | _ w ihw =>
        intro ws
        induction ws using ih.induction with
        | _ ws ihws =>
          refine ⟨_, fun vs hvs => ?_⟩
          obtain ⟨hlength, hlex⟩ := hvs
          cases hlex with
          | nil => exact hnil
          | cons hlex => exact ihws _ ⟨Nat.le_of_succ_le_succ hlength, hlex⟩
          | rel hlt => exact ihw _ hlt _
    refine ⟨fun ws => ?_⟩
    cases ws with
    | nil => exact hnil
    | cons w ws => exact hcons w ws

end Order

abbrev Weight := ℕ ×ₗ ℕ ×ₗ ℕ

namespace Frame

variable {s : Setup} {f g : Frame}

def rounds (f : Frame) : Nat :=
  match f.loop with
  | some l => l.count - l.next
  | none => 0

def remaining (s : Setup) (f : Frame) : Nat :=
  match s.program.scope (some f.scope) with
  | .ok scope => scope.code.size - f.pc
  | .error _ => 0

def weight (s : Setup) (f : Frame) : Weight :=
  toLex ((if f.handler.isSome then 1 else 0), toLex (f.rounds, f.remaining s))

theorem weight_lt_iff : f.weight s < g.weight s ↔
    f.handler.isSome < g.handler.isSome ∨ f.handler.isSome = g.handler.isSome ∧
      (f.rounds < g.rounds ∨ f.rounds = g.rounds ∧ f.remaining s < g.remaining s) := by
  unfold weight
  rw [Prod.Lex.toLex_lt_toLex, Prod.Lex.toLex_lt_toLex]
  cases f.handler.isSome <;> cases g.handler.isSome <;> simp

theorem weight_le_of_rounds (hhandler : f.handler = g.handler)
    (hremaining : f.remaining s = g.remaining s) (h : f.rounds ≤ g.rounds) :
    f.weight s ≤ g.weight s := by
  rcases Nat.lt_or_eq_of_le h with hlt | heq
  · exact (weight_lt_iff.2 (Or.inr ⟨by rw [hhandler], Or.inl hlt⟩)).le
  · simp only [weight, hhandler, hremaining, heq, le_refl]

theorem weight_outline (f : Frame) : f.outline.weight s = f.weight s := rfl

end Frame

namespace Machine

def weights (s : Setup) (m : Machine) : List Weight := m.frames.map (Frame.weight s)

/-- Frames may have been entered, and all others are as they were. -/
structure Climbs (s : Setup) (m m' : Machine) : Prop where
  above : ∃ above, m'.weights s = above ++ m.weights s
  depth : m'.frames.length ≤ max s.options.maxDepth m.frames.length

structure Falls (s : Setup) (m m' : Machine) : Prop where
  sinks : Sinks (m'.weights s) (m.weights s)
  depth : m'.frames.length ≤ max s.options.maxDepth m.frames.length

variable {s : Setup} {m m' m'' : Machine} {f g : Frame} {rest : List Frame}

theorem length_weights : (m.weights s).length = m.frames.length := List.length_map _

theorem length_of_weights (h : m'.weights s = m.weights s) : m'.frames.length = m.frames.length := by
  rw [← length_weights (s := s), h, length_weights]

theorem weights_cons (hf : m.frames = f :: rest) :
    m.weights s = f.weight s :: rest.map (Frame.weight s) := by
  rw [weights, hf, List.map_cons]

theorem weights_of_tended (h : m.Tended m' Frame.outline) : m'.weights s = m.weights s := by
  have hweight : Frame.weight s = Frame.weight s ∘ Frame.outline :=
    funext fun f => (Frame.weight_outline f).symm
  rw [weights, weights, hweight, ← List.map_map, ← List.map_map]
  exact congrArg _ h.view

namespace Climbs

theorem of_weights (h : m'.weights s = m.weights s) : Climbs s m m' :=
  ⟨⟨[], h⟩, (length_of_weights h).le.trans (Nat.le_max_right _ _)⟩

theorem of_frames (h : m'.frames = m.frames) : Climbs s m m' :=
  of_weights (congrArg (List.map (Frame.weight s)) h)

theorem of_push (hlength : m.frames.length < s.options.maxDepth) (h : m'.frames = f :: m.frames) :
    Climbs s m m' := by
  refine ⟨⟨[f.weight s], weights_cons h⟩, ?_⟩
  rw [h, List.length_cons]
  omega

theorem of_tended (h : m.Tended m' Frame.outline) : Climbs s m m' := of_weights (weights_of_tended h)

end Climbs

namespace Falls

theorem trans (h : Falls s m m') (h' : Falls s m' m'') : Falls s m m'' := by
  refine ⟨List.lex_trans lt_trans h'.sinks h.sinks, ?_⟩
  have hdepth := h.depth
  have hdepth' := h'.depth
  omega

theorem of_suffix {above : List Weight} (h : m.weights s = above ++ m'.weights s)
    (ha : above ≠ []) : Falls s m m' := by
  have hlength := congrArg List.length h
  rw [List.length_append, length_weights, length_weights] at hlength
  refine ⟨?_, by omega⟩
  obtain ⟨init, w, rfl⟩ := List.eq_nil_or_concat above |>.resolve_left ha
  rw [h, List.concat_eq_append, List.append_assoc]
  exact Sinks.drop init w _

theorem of_lighter {v w : Weight} {ws : List Weight} (hm : m.weights s = w :: ws)
    (hm' : m'.weights s = v :: ws) (hlt : v < w) (h : Climbs s m' m'') : Falls s m m'' := by
  obtain ⟨above, ha⟩ := h.above
  have hlength : m'.frames.length = m.frames.length := by
    rw [← length_weights (s := s), ← length_weights (s := s), hm, hm', List.length_cons,
      List.length_cons]
  refine ⟨?_, hlength ▸ h.depth⟩
  rw [ha, hm, hm']
  exact Sinks.change hlt above [] ws

end Falls

theorem falls_wellFounded (s : Setup) (d : Nat) :
    WellFounded fun m' m : Machine => m'.frames.length ≤ d ∧ m.Falls s m' := by
  have hlex := InvImage.wf (fun m : Machine => (m.weights s).reverse)
    (lex_wellFounded (wellFounded_lt (α := Weight)) d)
  refine Subrelation.wf (fun {m' m} h => ?_) hlex
  refine ⟨?_, h.2.sinks⟩
  rw [List.length_reverse, length_weights]
  exact h.1

end Machine

end ScriptMachine
