import ScriptMachine.Proofs.Machine.Comprehensions
import ScriptMachine.Proofs.Value.Ranges

set_option autoImplicit false

/-!
# Comprehensions over ranges

A comprehension over a range takes one word after the other, from the first position to the last. Main
statement: what a range answers when it is asked, and what a comprehension over it visits, are the same
words in the same order; only the range of all words is one too many to count.
-/
namespace ScriptMachine

variable {s : Setup} {r : Range}

def counted (words : List Int64) : List (Value × Value) :=
  words.zipIdx.map fun (n, i) => (Value.index i, .num (.int n))

theorem elements_range (r : Range) : (Value.object (.range r)).elements? = some (counted r.words) := by
  have hpositions : (List.range r.size).zipIdx = (List.range r.size).map fun i => (i, i) := by
    rw [List.zipIdx_eq_zip_range', List.length_range, ← List.range_eq_range', List.map_prod_left_eq_zip,
      List.map_id']
  have hzip : r.words.zipIdx = (List.range r.size).map fun i => (r.element i, i) := by
    rw [Range.words, List.zipIdx_map, hpositions, List.map_map]
    rfl
  rw [counted, hzip, List.map_map]
  rfl

theorem counted_getElem? {words : List Int64} {k : Nat} {n : Int64} (h : words[k]? = some n) :
    (counted words)[k]? = some (Value.index k, .num (.int n)) := by
  simp [counted, h]

theorem length_counted (words : List Int64) : (counted words).length = words.length := by
  simp [counted]

namespace Comprehension

/-- The body runs for the given words, one after the other: every round begins in a frame of its own in
which nothing but the loop variables is bound, and after as many rounds as there are words the caller has
the result. -/
structure Visits (c : Comprehension s) (m : Machine) (words : List Int64) : Prop extends c.Proceeds m where
  round : ∀ results a n, m.Rounds s c.callers.length results a → words[results.length]? = some n →
    ∃ f, a.frames = f :: c.callers ∧ f.pc = 0 ∧
      f.bindings = loopBindings c.scope.params c.source (Value.index results.length, .num (.int n))
  done : ∀ results a, m.Rounds s c.callers.length results a → results.length = words.length →
    a.frames = c.caller.receive c.out (.collected c.toMap results) :: c.rest
  all : (∀ results a, m.Rounds s c.callers.length results a →
      a.frames.length = c.callers.length + 1 → ∃ b v, a.Completes s c.callers.length b v) →
    ∃ results a, m.Rounds s c.callers.length results a ∧ results.length = words.length

theorem Proceeds.visits {c : Comprehension s} {m : Machine} {words : List Int64} (h : c.Proceeds m)
    (helements : c.elements = counted words) : c.Visits m words where
  toProceeds := h
  round := by
    intro results a n hrounds hn
    have he := counted_getElem? hn
    rw [← helements] at he
    obtain ⟨hlt, -⟩ := List.getElem?_eq_some_iff.1 he
    obtain ⟨e, he', hframes⟩ := (h.rounds results a hrounds).round_of_lt hlt
    rw [he] at he'
    cases he'
    exact ⟨_, hframes, rfl, rfl⟩
  done := by
    intro results a hrounds hlength
    have hreaches := h.rounds results a hrounds
    generalize a.frames = fs at hreaches
    cases hreaches with
    | round he =>
      obtain ⟨hlt, -⟩ := List.getElem?_eq_some_iff.1 he
      rw [helements, length_counted] at hlt
      omega
    | done _ => rfl
  all := by
    intro hcompletes
    obtain ⟨results, a, hrounds, hlength, -⟩ := h.ends hcompletes
    rw [helements, length_counted] at hlength
    exact ⟨results, a, hrounds, hlength⟩

end Comprehension

/-- What becomes of a comprehension over a range that the machine is about to begin. -/
structure Machine.Counts (s : Setup) (m : Machine) (r : Range) (toMap : Bool) (target : Target)
    (out : Register) (caller : Frame) (rest : List Frame) : Prop where
  begins : r.size = 0 ∨ (caller :: rest).length < s.options.maxDepth →
    ∃ (c : Comprehension s) (m' : Machine), c.toMap = toMap ∧ c.source = .object (.range r) ∧
      some c.body = target ∧ c.out = out ∧ c.caller = caller ∧ c.rest = rest ∧
      Exec.step s m = .ok ⟨⟩ m' ∧ m.advance s = .running m' ∧ c.Visits m' r.words
  overflow : 0 < r.size → s.options.maxDepth ≤ (caller :: rest).length →
    ∃ e m₁, m.Raises s e m₁ ∧ e.kind = .runtimeError ∧ m₁.frames = caller :: rest

theorem Machine.Collects.counts {m : Machine} {toMap : Bool} {target : Target} {out : Register}
    {caller : Frame} {rest : List Frame}
    (h : m.Collects s toMap (.object (.range r)) target out caller rest) :
    m.Counts s r toMap target out caller rest where
  begins := by
    intro hroom
    have hempty : r.size = 0 → counted r.words = [] := fun hsize =>
      List.eq_nil_of_length_eq_zero (by rw [length_counted, Range.length_words, hsize])
    obtain ⟨c, m', htoMap, hsource, helements, hbody, hout, hcaller, hrest, hstep, hadvance, hproceeds⟩ :=
      h.begins _ (elements_range r) (hroom.imp_left hempty)
    exact ⟨c, m', htoMap, hsource, hbody, hout, hcaller, hrest, hstep, hadvance, hproceeds.visits helements⟩
  overflow := by
    intro hsize hdepth
    refine h.overflow _ (elements_range r) (fun hempty => ?_) hdepth
    have hlength := congrArg List.length hempty
    rw [length_counted, Range.length_words, List.length_nil] at hlength
    omega

/-- The views of a range agree, unless it has all words: those that it includes are those at its positions,
in increasing order; its length, its ends, its truth and its list are those of these words; and in every run
of a program that has been compiled, a comprehension over it visits just them, in order. -/
theorem range_views_agree (h : ¬r.Full) : r.Views ∧
    ∀ {builtins : Option Registry} {id : Nat} {source : Text} {s : Setup} (host : Host)
      (visits : List Visit) (visit : Visit) {m : Machine},
      compileSource builtins id source = .ok s.program →
      visit.Reaches s ((Machine.initial host).visited s visits) m → m.halted = none →
      ∀ f rest toMap reg target out, m.frames = f :: rest →
        (s.program.codeOf f.scope)[f.pc]? = some (.collect toMap reg target out) →
        f.registers[reg]? = some (.object (.range r)) →
        m.Counts s r toMap target out { f with pc := f.pc + 1 } rest := by
  refine ⟨Range.views h, ?_⟩
  intro builtins id source s host visits visit m hc hr hh f rest toMap reg target out hf hop hreg
  have hp : s.program.Regular := compileSource_regular hc
  have hidle := Machine.idle_visited s host visits
  have hm := hidle.reaches_steadfast hp hr
  obtain ⟨v, hv, hcollects⟩ := hm.collects hp hh hf hop
  rw [hreg] at hv
  cases hv
  exact hcollects.counts

/-- The range that a comprehension is about to begin with. -/
def Machine.counting? (s : Setup) (m : Machine) : Option Range :=
  match m.frames with
  | [] => none
  | f :: _ =>
    match (s.program.codeOf f.scope)[f.pc]? with
    | some (.collect _ reg _ _) =>
      match f.registers[reg]? with
      | some (.object (.range r)) => some r
      | _ => none
    | _ => none

theorem Machine.counting?_eq_some {m : Machine} (h : m.counting? s = some r) :
    ∃ f rest toMap reg target out, m.frames = f :: rest ∧
      (s.program.codeOf f.scope)[f.pc]? = some (.collect toMap reg target out) ∧
      f.registers[reg]? = some (.object (.range r)) := by
  unfold counting? at h
  split at h
  case h_1 => cases h
  case h_2 f rest hf =>
    split at h
    case h_1 toMap reg target out hop =>
      split at h
      case h_1 hreg => cases h; exact ⟨f, rest, toMap, reg, target, out, hf, hop, hreg⟩
      case h_2 => cases h
    case h_2 => cases h

/-- A comprehension over the two greatest words. -/
def greatestWordsSource : Text := "[for x in 9223372036854775806 ..= 9223372036854775807: x]"

def greatestWords : Range := ⟨9223372036854775806, 9223372036854775807, true⟩

theorem greatestWords_agree : greatestWords.Views ∧ greatestWords.size = 2 ∧
    ∃ p m f rest toMap reg target out, compileSource none 0 greatestWordsSource = .ok p ∧
      Visit.Reaches ⟨p, none, .standard⟩ ⟨lonelyHost 0, .run⟩ (Machine.initial (lonelyHost 0)) m ∧
      m.halted = none ∧ m.frames = f :: rest ∧
      (p.codeOf f.scope)[f.pc]? = some (.collect toMap reg target out) ∧
      f.registers[reg]? = some (.object (.range greatestWords)) ∧
      m.Counts ⟨p, none, .standard⟩ greatestWords toMap target out { f with pc := f.pc + 1 } rest := by
  obtain ⟨hviews, hcounts⟩ := range_views_agree (r := greatestWords) (by decide +kernel)
  refine ⟨hviews, rfl, ?_⟩
  have hcheck : (match compileSource none 0 greatestWordsSource with
      | .ok p => match Setup.stateAfter ⟨p, none, .standard⟩ (lonelyHost 0) 3 with
        | some m => m.halted.isNone && m.counting? ⟨p, none, .standard⟩ = some greatestWords
        | none => false
      | .error _ => false) = true := by decide +kernel
  cases hc : compileSource none 0 greatestWordsSource with
  | error e => simp [hc] at hcheck
  | ok p =>
    cases hm : Setup.stateAfter ⟨p, none, .standard⟩ (lonelyHost 0) 3 with
    | none => simp [hc, hm] at hcheck
    | some m =>
      simp only [hc, hm, Bool.and_eq_true, decide_eq_true_iff, Option.isNone_iff_eq_none] at hcheck
      obtain ⟨hhalted, hrange⟩ := hcheck
      obtain ⟨f, rest, toMap, reg, target, out, hf, hop, hreg⟩ := Machine.counting?_eq_some hrange
      have hreaches := Setup.reaches_stateAfter hm
      exact ⟨p, m, f, rest, toMap, reg, target, out, rfl, hreaches, hhalted, hf, hop, hreg,
        hcounts (lonelyHost 0) [] _ hc hreaches hhalted f rest toMap reg target out hf hop hreg⟩

end ScriptMachine
