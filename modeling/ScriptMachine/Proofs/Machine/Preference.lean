import ScriptMachine.Builtins.SharedModule
import ScriptMachine.Proofs.Compiler.Chronology
import ScriptMachine.Proofs.Machine.Openings
import Mathlib.Data.Nat.Bitwise

set_option autoImplicit false

/-!
# The latest of a name

Functions of one name can come from the program and from built-in modules. Those of the program count where
they are declared, and those of a module where it is imported last. Ranks pack lines and columns in one word,
which keeps the order of the source as long as both fit in their halves. Main statement: `names_latest`, that
a name stands for the latest function that has it.
-/
namespace ScriptMachine

namespace Location

/-- Lines and columns that fit in the halves of a rank. -/
def Narrow (l : Location) : Prop := l.line < 2 ^ 32 ∧ l.column < 2 ^ 32

instance (l : Location) : Decidable l.Narrow := inferInstanceAs (Decidable (_ ∧ _))

/-- A place of the source whose line and column fit in the halves of a rank. -/
structure Ranked (l : Location) : Prop where
  known : unknown.Before l
  narrow : l.Narrow

/-- The order of the source, where what has no place comes before all that has one. -/
def Earlier : Option Location → Option Location → Prop
  | none, some _ => True
  | some a, some b => a.Before b
  | _, none => False

def rankOf (x : Option Location) : UInt64 := (x.map rank).getD 0

variable {a b : Location} {x y : Option Location}

theorem Earlier.asymm (h : Earlier x y) : ¬Earlier y x := by
  cases x <;> cases y
  · exact id
  · exact id
  · exact fun _ => h
  · exact Before.asymm h

theorem Before.earlier (h : a.Before b) (h' : Earlier (some b) x) : Earlier (some a) x := by
  cases x with
  | none => exact h'
  | some c => exact h.trans h'

theorem rank_toNat (ha : a.Narrow) : a.rank.toNat = a.line * 2 ^ 32 + a.column := by
  have hline : a.line.toUInt64.toNat = a.line := Nat.mod_eq_of_lt (Nat.lt_trans ha.1 (by decide))
  have hcolumn : a.column.toUInt64.toNat = a.column := Nat.mod_eq_of_lt (Nat.lt_trans ha.2 (by decide))
  have hupper : (a.line.toUInt64 <<< 32).toNat = a.line <<< 32 := by
    rw [UInt64.toNat_shiftLeft, hline]
    refine Nat.mod_eq_of_lt ?_
    rw [show (32 : UInt64).toNat % 64 = 32 from rfl, Nat.shiftLeft_eq]
    exact Nat.mul_lt_mul_of_pos_right ha.1 (by decide)
  rw [rank, UInt64.toNat_or, hupper, hcolumn, ← Nat.shiftLeft_add_eq_or_of_lt ha.2, Nat.shiftLeft_eq]

theorem rank_lt_iff (ha : a.Narrow) (hb : b.Narrow) : a.rank < b.rank ↔ a.Before b := by
  have hcolumn := ha.2
  have hcolumn' := hb.2
  rw [UInt64.lt_iff_toNat_lt, rank_toNat ha, rank_toNat hb, Before]
  omega

theorem rankOf_lt_iff (hx : ∀ l ∈ x, l.Ranked) (hy : ∀ l ∈ y, l.Ranked) :
    rankOf x < rankOf y ↔ Earlier x y := by
  cases y with
  | none => exact iff_of_false (UInt64.not_lt.2 UInt64.zero_le) (by cases x <;> exact id)
  | some b =>
    have hb := hy b rfl
    cases x with
    | none => exact iff_of_true ((rank_lt_iff (by decide : unknown.Narrow) hb.narrow).2 hb.known) trivial
    | some a => exact rank_lt_iff (hx a rfl).narrow hb.narrow

theorem earlier_total (hx : ∀ l ∈ x, l ≠ a) : Earlier x (some a) ∨ Earlier (some a) x := by
  cases x with
  | none => exact .inl trivial
  | some b => exact before_or_after (hx b rfl)

end Location

open Location (Earlier rankOf)

namespace Program

variable {p : Program} {own builtins : List Function} {f g : Function} {extension : Bool}

/-- All that is entered stands in narrow places. -/
structure Narrow (p : Program) : Prop where
  functions : ∀ f ∈ p.modules.functions, f.location.Narrow
  imports : ∀ i ∈ p.imports, i.location.Narrow

/-- Where the functions of a module count: at its last import, if there is one. -/
def imported (p : Program) (f : Function) : Option Location :=
  if f.module.isEmpty then none
  else (p.imports.filter fun i => i.module == f.module).getLast?.map (·.location)

/-- A function is the latest of some of the program's own ones and some built-in ones, where these are given
in the order in which they were registered. -/
inductive Latest (p : Program) (own builtins : List Function) (f : Function) : Prop where
  | own (mem : f ∈ own) (declared : ∀ g ∈ own, g = f ∨ g.location.Before f.location)
      (imported : ∀ g ∈ builtins, Earlier (p.imported g) (some f.location))
  | builtin (before after : List Function) (split : builtins = before ++ f :: after)
      (declared : ∀ g ∈ own, Earlier (some g.location) (p.imported f))
      (sooner : ∀ g ∈ before, ¬Earlier (p.imported f) (p.imported g))
      (later : ∀ g ∈ after, Earlier (p.imported g) (p.imported f))

/-- What has been found is the latest function, and nothing is found only where there is none. -/
structure FindsLatest (p : Program) (own builtins : List Function) (found : Option Function) : Prop where
  latest : ∀ f, found = some f ↔ p.Latest own builtins f
  absent : found = none ↔ own = [] ∧ builtins = []

theorem importRank_eq (p : Program) (f : Function) : p.importRank f = rankOf (p.imported f) := by
  unfold importRank imported
  split
  · rfl
  · rw [← List.head?_filter, List.filter_reverse, List.head?_reverse]
    cases (p.imports.filter fun i => i.module == f.module).getLast? <;> rfl

theorem imported_eq_some {l : Location} (h : p.imported f = some l) :
    ∃ before i, (p.imports.filter fun i => i.module == f.module) = before ++ [i] ∧ i.location = l := by
  unfold imported at h
  split at h
  · cases h
  · obtain ⟨i, hi, hl⟩ := Option.map_eq_some_iff.1 h
    obtain ⟨before, hbefore⟩ := List.getLast?_eq_some_iff.1 hi
    exact ⟨before, i, hbefore, hl⟩

theorem imported_mem {l : Location} (h : p.imported f = some l) : l ∈ p.places .importing := by
  obtain ⟨before, i, hi, rfl⟩ := imported_eq_some h
  have hmem : i ∈ p.imports.filter fun i => i.module == f.module := by
    rw [hi]
    exact List.mem_append_right _ List.mem_cons_self
  exact List.mem_map_of_mem (List.mem_filter.1 hmem).1

theorem same_or_split {α : Type} {a b : α} {xs ys xs' ys' : List α} (h : xs ++ a :: ys = xs' ++ b :: ys') :
    a = b ∨ (b ∈ ys ∧ a ∈ xs') ∨ (a ∈ ys' ∧ b ∈ xs) := by
  rcases List.append_eq_append_iff.1 h with ⟨zs, hxs, hys⟩ | ⟨zs, hxs, hys⟩
  · cases zs with
    | nil => exact .inl (List.cons.inj hys).1
    | cons c zs =>
      obtain ⟨rfl, rfl⟩ := List.cons.inj hys
      exact .inr (.inl (by simp [hxs]))
  · cases zs with
    | nil => exact .inl (List.cons.inj hys).1.symm
    | cons c zs =>
      obtain ⟨rfl, rfl⟩ := List.cons.inj hys
      exact .inr (.inr (by simp [hxs]))

theorem Latest.unique (hf : p.Latest own builtins f) (hg : p.Latest own builtins g) : f = g := by
  cases hf with
  | own hmem hothers hbuiltins =>
    cases hg with
    | own hmem' hothers' _ =>
      rcases hothers g hmem' with heq | hbefore
      · exact heq.symm
      · exact (hothers' f hmem).resolve_right hbefore.asymm
    | builtin before after hsplit hown =>
      exact absurd (hown f hmem) (hbuiltins g (by simp [hsplit])).asymm
  | builtin before after hsplit hown hbefore hafter =>
    cases hg with
    | own hmem' _ hbuiltins' =>
      exact absurd (hown g hmem') (hbuiltins' f (by simp [hsplit])).asymm
    | builtin before' after' hsplit' _ hbefore' hafter' =>
      rcases same_or_split (hsplit.symm.trans hsplit') with heq | ⟨hg, hf⟩ | ⟨hf, hg⟩
      · exact heq
      · exact absurd (hafter g hg) (hbefore' f hf)
      · exact absurd (hafter' f hf) (hbefore g hg)

theorem bestRanked_eq_none {fs : List Function} : p.bestRanked fs = none ↔ fs = [] := by
  cases fs with
  | nil => exact iff_of_true rfl rfl
  | cons f fs =>
    refine iff_of_false ?_ (List.cons_ne_nil _ _)
    unfold bestRanked
    split
    · exact Option.some_ne_none _
    · split <;> exact Option.some_ne_none _

/-- Of functions given latest first, the best has a higher rank than those that are later, and no lower one
than those that are earlier. -/
theorem bestRanked_split {fs : List Function} (h : p.bestRanked fs = some f) :
    ∃ after before, fs = after ++ f :: before ∧ (∀ g ∈ after, p.importRank g < p.importRank f) ∧
      ∀ g ∈ before, p.importRank g ≤ p.importRank f := by
  induction fs generalizing f with
  | nil => cases h
  | cons g fs ih =>
    unfold bestRanked at h
    split at h
    · rename_i hnone
      cases h
      obtain rfl := bestRanked_eq_none.1 hnone
      exact ⟨[], [], rfl, List.forall_mem_nil _, List.forall_mem_nil _⟩
    · rename_i best hbest
      obtain ⟨after, before, rfl, hafter, hbefore⟩ := ih hbest
      split at h
      · rename_i hlt
        cases h
        exact ⟨g :: after, before, rfl, List.forall_mem_cons.2 ⟨hlt, hafter⟩, hbefore⟩
      · rename_i hlt
        cases h
        have hle : p.importRank best ≤ p.importRank g := UInt64.not_lt.1 hlt
        refine ⟨[], after ++ best :: before, rfl, List.forall_mem_nil _, ?_⟩
        refine List.forall_mem_append.2 ⟨fun x hx => ?_, List.forall_mem_cons.2 ⟨hle, fun x hx => ?_⟩⟩
        · exact UInt64.le_trans (UInt64.le_of_lt (hafter x hx)) hle
        · exact UInt64.le_trans (hbefore x hx) hle

theorem bestRanked_reverse (h : p.bestRanked builtins.reverse = some f) :
    ∃ before after, builtins = before ++ f :: after ∧ (∀ g ∈ before, p.importRank g ≤ p.importRank f) ∧
      ∀ g ∈ after, p.importRank g < p.importRank f := by
  obtain ⟨after, before, hsplit, hafter, hbefore⟩ := bestRanked_split h
  refine ⟨before.reverse, after.reverse, ?_, fun g hg => hbefore g (List.mem_reverse.1 hg),
    fun g hg => hafter g (List.mem_reverse.1 hg)⟩
  rw [← List.reverse_reverse builtins, hsplit]
  simp

theorem bestRanked_le (h : p.bestRanked builtins.reverse = some f) :
    ∀ g ∈ builtins, p.importRank g ≤ p.importRank f := by
  obtain ⟨before, after, rfl, hbefore, hafter⟩ := bestRanked_reverse h
  refine List.forall_mem_append.2 ⟨hbefore, List.forall_mem_cons.2 ⟨UInt64.le_refl _, fun g hg => ?_⟩⟩
  exact UInt64.le_of_lt (hafter g hg)

theorem Narrow.places (hn : p.Narrow) (m : Mark) : ∀ l ∈ p.places m, l.Narrow := by
  cases m with
  | function => exact List.forall_mem_map.2 fun f hf => hn.functions f (List.mem_filter.1 hf).1
  | importing => exact List.forall_mem_map.2 hn.imports

theorem Chronological.ranked (hp : p.Chronological) (hn : p.Narrow) {m : Mark} {l : Location}
    (hl : l ∈ p.places m) : l.Ranked :=
  ⟨(List.pairwise_cons.1 (hp.ordered m)).1 l hl, hn.places m l hl⟩

theorem Chronological.imported_ranked (hp : p.Chronological) (hn : p.Narrow) (f : Function) :
    ∀ l ∈ p.imported f, l.Ranked := fun _ h => hp.ranked hn (imported_mem h)

theorem Chronological.importRank_lt_iff (hp : p.Chronological) (hn : p.Narrow) (f g : Function) :
    p.importRank f < p.importRank g ↔ Earlier (p.imported f) (p.imported g) := by
  rw [importRank_eq, importRank_eq]
  exact Location.rankOf_lt_iff (hp.imported_ranked hn f) (hp.imported_ranked hn g)

theorem Chronological.builtin_preferred (hp : p.Chronological) (hn : p.Narrow)
    (hf : p.bestRanked builtins.reverse = some f)
    (hdeclared : ∀ g ∈ own, Earlier (some g.location) (p.imported f)) : p.Latest own builtins f := by
  obtain ⟨before, after, hsplit, hbefore, hafter⟩ := bestRanked_reverse hf
  refine .builtin before after hsplit hdeclared (fun g hg => ?_) fun g hg => ?_
  · rw [← hp.importRank_lt_iff hn]
    exact UInt64.not_lt.2 (hbefore g hg)
  · exact (hp.importRank_lt_iff hn g f).1 (hafter g hg)

theorem preferred_eq_none : p.preferred own.getLast? builtins.reverse = none ↔ own = [] ∧ builtins = [] := by
  rw [← List.getLast?_eq_none_iff, ← bestRanked_eq_none.trans List.reverse_eq_nil_iff]
  unfold preferred
  cases own.getLast? <;> cases p.bestRanked builtins.reverse
  · simp
  · simp
  · simp
  · dsimp only
    split <;> simp

section Own

variable (hown : own.Sublist (p.modules.functions.filter fun f => f.isExtension == extension))
include hown

theorem own_mem_places (hf : f ∈ own) : f.location ∈ p.places (.function extension) :=
  List.mem_map_of_mem (hown.mem hf)

theorem Chronological.own_latest (hp : p.Chronological) (hf : own.getLast? = some f) :
    f ∈ own ∧ ∀ g ∈ own, g = f ∨ g.location.Before f.location := by
  obtain ⟨before, hbefore⟩ := List.getLast?_eq_some_iff.1 hf
  have hordered : own.Pairwise fun f g => f.location.Before g.location :=
    (List.pairwise_map.1 (List.pairwise_cons.1 (hp.ordered (.function extension))).2).sublist hown
  rw [hbefore] at hordered ⊢
  refine ⟨List.mem_append_right _ List.mem_cons_self, List.forall_mem_append.2 ⟨fun g hg => .inr ?_, ?_⟩⟩
  · exact (List.pairwise_append.1 hordered).2.2 g hg f List.mem_cons_self
  · exact List.forall_mem_singleton.2 (.inl rfl)

theorem Chronological.rank_lt_iff (hp : p.Chronological) (hn : p.Narrow) (hf : f ∈ own) (g : Function) :
    f.location.rank < p.importRank g ↔ Earlier (some f.location) (p.imported g) := by
  have hranked : ∀ l ∈ some f.location, l.Ranked := fun l hl =>
    Option.some.inj hl ▸ hp.ranked hn (own_mem_places hown hf)
  rw [importRank_eq]
  exact Location.rankOf_lt_iff hranked (hp.imported_ranked hn g)

theorem Chronological.importRank_le_iff (hp : p.Chronological) (hn : p.Narrow) (hf : f ∈ own) (g : Function) :
    p.importRank g ≤ f.location.rank ↔ Earlier (p.imported g) (some f.location) := by
  have htotal := Location.earlier_total (a := f.location) (x := p.imported g) fun l hl heq =>
    hp.apart _ _ Mark.noConfusion _ (own_mem_places hown hf) (heq ▸ imported_mem hl)
  rw [← UInt64.not_lt, hp.rank_lt_iff hown hn hf]
  exact ⟨htotal.resolve_right, Earlier.asymm⟩

theorem Chronological.own_preferred (hp : p.Chronological) (hn : p.Narrow) (hf : own.getLast? = some f)
    (hbuiltins : ∀ g ∈ builtins, p.importRank g ≤ f.location.rank) : p.Latest own builtins f := by
  obtain ⟨hmem, hdeclared⟩ := hp.own_latest hown hf
  exact .own hmem hdeclared fun g hg => (hp.importRank_le_iff hown hn hmem g).1 (hbuiltins g hg)

theorem Chronological.preferred_latest (hp : p.Chronological) (hn : p.Narrow)
    (h : p.preferred own.getLast? builtins.reverse = some f) : p.Latest own builtins f := by
  unfold preferred at h
  split at h
  · rename_i hnone
    refine hp.builtin_preferred hn h ?_
    rw [List.getLast?_eq_none_iff.1 hnone]
    exact List.forall_mem_nil _
  · rename_i hf hnone
    cases h
    refine hp.own_preferred hown hn hf ?_
    rw [List.reverse_eq_nil_iff.1 (bestRanked_eq_none.1 hnone)]
    exact List.forall_mem_nil _
  · rename_i latest best hf hbest
    split at h
    · rename_i hle
      cases h
      exact hp.own_preferred hown hn hf fun g hg => UInt64.le_trans (bestRanked_le hbest g hg) hle
    · rename_i hle
      cases h
      obtain ⟨hmem, hdeclared⟩ := hp.own_latest hown hf
      have hlatest : Earlier (some latest.location) (p.imported f) :=
        (hp.rank_lt_iff hown hn hmem f).1 (UInt64.not_le.1 hle)
      refine hp.builtin_preferred hn hbest fun g hg => ?_
      rcases hdeclared g hg with rfl | hbefore
      · exact hlatest
      · exact hbefore.earlier hlatest

theorem Chronological.preferred_findsLatest (hp : p.Chronological) (hn : p.Narrow) :
    p.FindsLatest own builtins (p.preferred own.getLast? builtins.reverse) := by
  refine ⟨fun f => ⟨hp.preferred_latest hown hn, fun hf => ?_⟩, preferred_eq_none⟩
  cases hfound : p.preferred own.getLast? builtins.reverse with
  | none =>
    obtain ⟨rfl, rfl⟩ := preferred_eq_none.1 hfound
    cases hf with
    | own hmem => cases hmem
    | builtin before after hsplit => simp at hsplit
  | some g => exact congrArg some ((hp.preferred_latest hown hn hfound).unique hf)

end Own

end Program

namespace Setup

variable {s : Setup}

/-- The functions that a test accepts, in the order in which the program declares them. -/
def own (s : Setup) (accepts : Function → Bool) : List Function := s.program.modules.functions.filter accepts

/-- The same of built-in functions, in the order in which they were registered. -/
def known (s : Setup) (accepts : Function → Bool) : List Function :=
  ((s.builtins.map (·.functions)).getD []).filter accepts

variable {accepts : Function → Bool}

theorem own_candidates : (s.program.modules.candidates accepts).head? = (s.own accepts).getLast? := by
  rw [Registry.candidates, List.filter_reverse, List.head?_reverse, own]

theorem lookup_eq (hmodules : s.options.disableModules = false) :
    (match s.reachable with
      | none => (s.program.modules.candidates accepts).head?
      | some b => s.program.preferred (s.program.modules.candidates accepts).head? (b.candidates accepts)) =
    s.program.preferred (s.own accepts).getLast? (s.known accepts).reverse := by
  unfold reachable known
  rw [own_candidates, hmodules, if_neg Bool.false_ne_true]
  cases s.builtins with
  | none => cases (s.own accepts).getLast? <;> rfl
  | some b =>
    dsimp only
    rw [Registry.candidates, List.filter_reverse]
    rfl

theorem lookup_findsLatest (hp : s.program.Chronological) (hn : s.program.Narrow)
    (hmodules : s.options.disableModules = false) (extension : Bool)
    (haccepts : ∀ f, accepts f = true → f.isExtension = extension) :
    s.program.FindsLatest (s.own accepts) (s.known accepts) (match s.reachable with
      | none => (s.program.modules.candidates accepts).head?
      | some b => s.program.preferred (s.program.modules.candidates accepts).head? (b.candidates accepts)) := by
  have hown : (s.own accepts).Sublist (s.program.modules.functions.filter fun f => f.isExtension == extension) :=
    List.monotone_filter_right _ fun f hf => beq_iff_eq.2 (haccepts f hf)
  rw [lookup_eq hmodules]
  exact hp.preferred_findsLatest hown hn

/-- A name stands for the latest function that has it. A function of the program counts where it is declared,
and a built-in one at the last import of its module; without one it comes before all others, and of built-in
functions that count at one place it is the one registered last. Nothing is found only where no function has
the name. The same holds for extensions of the type of a receiver. -/
theorem names_latest {builtins : Option Registry} {id : Nat} {source : Text}
    (h : compileSource builtins id source = .ok s.program) (hn : s.program.Narrow)
    (hmodules : s.options.disableModules = false) :
    (∀ name, s.program.FindsLatest (s.own fun f => f.name == name && !f.isExtension)
      (s.known fun f => f.name == name && !f.isExtension) (s.findFunction name)) ∧
    ∀ name receiver, s.program.FindsLatest (s.own fun f => f.name == name && f.accepts receiver)
      (s.known fun f => f.name == name && f.accepts receiver) (s.findExtension name receiver) := by
  have hp := compileSource_chronological h
  refine ⟨fun name => lookup_findsLatest hp hn hmodules false fun f hf => ?_,
    fun name receiver => lookup_findsLatest hp hn hmodules true fun f hf => ?_⟩
  · simpa using (Bool.and_eq_true_iff.1 hf).2
  · exact Function.isExtension_of_accepts (Bool.and_eq_true_iff.1 hf).2

/-- Two functions of an imported module, declared before and after its import, and one of a module that is
never imported. -/
def precedenceSource : Text :=
  "fn get(key) = 1\nimport Shared\nfn put(key) = 2\nfn String.trim() = 3"

theorem precedenceSource_latest : ∃ p, compileSource (some .standard) 0 precedenceSource = .ok p ∧
    let s : Setup := ⟨p, some .standard, .standard⟩
    p.Narrow ∧ s.options.disableModules = false ∧
    (∃ f, p.Latest (s.own fun f => f.name == "get" && !f.isExtension)
      (s.known fun f => f.name == "get" && !f.isExtension) f ∧ f.module = "Shared") ∧
    (∃ f, p.Latest (s.own fun f => f.name == "put" && !f.isExtension)
      (s.known fun f => f.name == "put" && !f.isExtension) f ∧ f.module = []) ∧
    ∃ f, p.Latest (s.own fun f => f.name == "trim" && f.accepts (.str "a"))
      (s.known fun f => f.name == "trim" && f.accepts (.str "a")) f ∧ f.module = [] := by
  have hcheck : (match compileSource (some .standard) 0 precedenceSource with
      | .ok p =>
        let s : Setup := ⟨p, some .standard, .standard⟩
        (p.modules.functions.all fun f => f.location.Narrow) && (p.imports.all fun i => i.location.Narrow) &&
          ((s.findFunction "get").any fun f => f.module == Text.ofString "Shared") &&
          ((s.findFunction "put").any fun f => f.module == []) &&
          ((s.findExtension "trim" (.str "a")).any fun f => f.module == [])
      | .error _ => false) = true := by decide +kernel
  cases hp : compileSource (some .standard) 0 precedenceSource with
  | error e =>
    rw [hp] at hcheck
    cases hcheck
  | ok p =>
    simp only [hp, Bool.and_eq_true, List.all_eq_true, decide_eq_true_iff, Option.any_eq_true,
      beq_iff_eq] at hcheck
    obtain ⟨⟨⟨⟨hfunctions, himports⟩, get, hget, hshared⟩, put, hput, hput'⟩, trim, htrim, htrim'⟩ := hcheck
    have hn : p.Narrow := ⟨hfunctions, himports⟩
    obtain ⟨hnames, hextensions⟩ := names_latest (s := ⟨p, some .standard, .standard⟩) hp hn rfl
    refine ⟨p, rfl, hn, rfl, ⟨get, ?_, hshared⟩, ⟨put, ?_, hput'⟩, trim, ?_, htrim'⟩
    · exact ((hnames _).latest get).1 hget
    · exact ((hnames _).latest put).1 hput
    · exact ((hextensions _ _).latest trim).1 htrim

end Setup

end ScriptMachine
