import ScriptMachine.Proofs.Program.WellFormed
import ScriptMachine.Proofs.Value.Closures
import Mathlib.Logic.Relation

set_option autoImplicit false

namespace ScriptMachine

/-- A declaration below the top level. -/
inductive Declaration where
  | operation (scope index : Nat)
  /-- A parameter, a loop variable, the name of an error, the name of a closure or `self`. -/
  | entry (scope : Nat)
  deriving DecidableEq

inductive Meaning where
  | topLevel
  | declared (d : Declaration)
  deriving DecidableEq

def Meaning.declared? : Meaning → Option Declaration
  | .declared d => some d
  | .topLevel => none

/-- What names mean somewhere. A name without a meaning is one that nothing declares, or one that a
closure around it does not capture. -/
abbrev Environment := Text → Option Meaning

/-- What a scope itself declares. -/
abbrev Locals := Text → Option Declaration

namespace Operation

/-- The variable that an operation declares. -/
def declares? : Operation → Option Text
  | .loadLet name _ | .loadMut name _ => some name
  | _ => none

/-- The variable that an operation looks up. -/
def uses? : Operation → Option Text
  | .setVariable name _ | .getVariable name _ => some name
  | _ => none

def literal? : Operation → Option Value
  | .load v _ => some v
  | _ => none

/-- The scopes that an operation enters, each with the names that are bound on the way, given the
parameters of the scope. -/
def entries : Operation → List (Target × (List Text → List Text))
  | .call scope _ _ => [(scope, id)]
  | .callCompared _ _ _ scope _ | .branch _ _ scope _ => [(scope, fun _ => [])]
  | .ifElse _ scope otherwise _ => [(scope, fun _ => []), (otherwise, fun _ => [])]
  | .tryCatch scope handler errorName _ =>
    [(scope, fun _ => []), (handler, fun _ => errorName.toList)]
  | .collect _ _ scope _ => [(scope, List.take 2)]
  | _ => []

end Operation

/-- The variable that the operation at a position declares. -/
def declaredAt (code : List Operation) (k : Nat) : Option Text := (code[k]?).bind Operation.declares?

namespace Locals

def empty : Locals := fun _ => none

def declare (l : Locals) (names : List Text) (d : Declaration) : Locals :=
  fun n => if n ∈ names then some d else l n

/-- The names bound on entering a scope. -/
def entry (scope : Nat) (names : List Text) : Locals := empty.declare names (.entry scope)

/-- The names that are declared before an operation of a scope. -/
def before (scope : Nat) (code : List Operation) : Nat → Locals
  | 0 => empty
  | k + 1 => (before scope code k).declare (declaredAt code k).toList (.operation scope k)

end Locals

namespace Program

def codeOf (p : Program) (i : Nat) : List Operation := ((p.scopes[i]?).map Scope.operations).getD []

end Program

namespace Environment

/-- The names that the top level declares, wherever it does. -/
def topLevel (p : Program) : Environment := fun n =>
  if n ∈ (p.codeOf 0).filterMap Operation.declares? then some .topLevel else none

/-- The environment inside a scope with some names of its own. -/
def inside (E : Environment) (l : Locals) : Environment := fun n => ((l n).map .declared).or (E n)

def Within (E E' : Environment) : Prop := ∀ n m, E n = some m → E' n = some m

end Environment

/-- A scope, what names mean around it, and the names that are bound when it is entered. -/
structure Place where
  scope : Nat
  outside : Environment
  own : Locals

namespace Place

/-- What names mean on entering the scope. -/
def entry (a : Place) : Environment := a.outside.inside a.own

/-- What names mean before an operation of the scope. What the top level declares is never local. -/
def environment (a : Place) (p : Program) (k : Nat) : Environment :=
  if a.scope = 0 then .topLevel p
  else a.entry.inside (.before a.scope (p.codeOf a.scope) k)

def whole (a : Place) (p : Program) : Environment := a.environment p (p.codeOf a.scope).length

def main : Place := ⟨0, fun _ => none, .empty⟩

/-- The body of a function. -/
def body (p : Program) (i : Nat) (names : List Text) : Place := ⟨i, .topLevel p, .entry i names⟩

/-- A scope entered where names have the given meanings. -/
def block (E : Environment) (b : Nat) (names : List Text) : Place := ⟨b, E, .entry b names⟩

/-- The body of a closure made where names have the given meanings. -/
def closure (E : Environment) (i : Nat) (names captures : List Text) : Place where
  scope := i
  outside := fun n => (E n).filter (· = .topLevel)
  own := fun n =>
    if n ∈ names then some (.entry i)
    else if n ∈ captures then (E n).bind Meaning.declared? else none

/-- The same scope, where at least as much is known. -/
structure Within (a a' : Place) : Prop where
  scope : a'.scope = a.scope
  entry : a.entry.Within a'.entry

end Place

/-- The names bound on entering the body of a closure, besides those that it captures. -/
def Scope.ownNames (s : Scope) : List Text := s.params ++ s.selfName.toList

/-- The names bound on entering the body of a function. -/
def Function.boundNames (f : Function) (s : Scope) : List Text :=
  s.params ++ if f.isExtension then [("self" : Text)] else []

/-- The names that an operation uses have a meaning, those that it captures a local one, and the
scopes that it leads to are there. Something may be asked of the places that it leads to. A literal
holds no closure. -/
structure Operation.Resolved (p : Program) (R : Place → Prop) (E : Environment) (op : Operation) :
    Prop where
  uses : ∀ n ∈ op.uses?, (E n).isSome
  blocks : ∀ e ∈ op.entries, ∀ b ∈ e.1, ∃ s, p.scopes[b]? = some s ∧ R (.block E b (e.2 s.params))
  closures : ∀ j ∈ op.made, ∃ f s, p.closures[j]? = some f ∧ p.scopes[f.scope]? = some s ∧
    (∀ n ∈ s.captures, n ∉ s.ownNames ∧ ∃ d, E n = some (.declared d)) ∧
    R (.closure E f.scope s.ownNames s.captures)
  literal : ∀ v ∈ op.literal?, v.Inert

namespace Program

/-- An operation of the one place leads to the other. -/
inductive Encloses (p : Program) : Place → Place → Prop where
  | block {a : Place} {k : Nat} {op : Operation} {e : Target × (List Text → List Text)} {b : Nat}
      {s : Scope} (hop : (p.codeOf a.scope)[k]? = some op) (he : e ∈ op.entries) (hb : e.1 = some b)
      (hs : p.scopes[b]? = some s) : Encloses p a (.block (a.environment p k) b (e.2 s.params))
  | closure {a : Place} {k : Nat} {op : Operation} {j : Nat} {f : Function} {s : Scope}
      (hop : (p.codeOf a.scope)[k]? = some op) (hj : j ∈ op.made) (hf : p.closures[j]? = some f)
      (hs : p.scopes[f.scope]? = some s) :
      Encloses p a (.closure (a.environment p k) f.scope s.ownNames s.captures)

def Resolves (p : Program) (R : Place → Prop) (a : Place) : Prop :=
  ∀ k op, (p.codeOf a.scope)[k]? = some op → Operation.Resolved p R (a.environment p k) op

def Scoped (p : Program) (floor : Nat) (a : Place) : Prop :=
  ∀ b, Relation.ReflTransGen p.Encloses a b →
    floor < b.scope ∧ b.scope < p.scopes.size ∧ p.Resolves (fun _ => True) b

/-- A place of the program: the top level, the body of a function, or one that another leads to. -/
inductive Placed (p : Program) : Place → Prop where
  | main : Placed p .main
  | function {f : Function} {s : Scope} (hf : f ∈ p.modules.functions) (hn : f.isNative = false)
      (hs : p.scopes[f.scope]? = some s) : Placed p (.body p f.scope (f.boundNames s))
  | inner {a b : Place} (ha : Placed p a) (hb : p.Encloses a b) : Placed p b

end Program

section
variable {α : Type} {entries : List (Text × α)} {name n : Text} {a : α}

theorem lookup_without (h : n ≠ name) :
    (entries.filter fun e => e.1 != name).lookup n = entries.lookup n := by
  induction entries with
  | nil => rfl
  | cons e entries ih =>
    obtain ⟨k, b⟩ := e
    by_cases hk : k = name
    · rw [List.filter_cons_of_neg (by simp [hk]), List.lookup_cons, beq_false_of_ne (hk ▸ h)]
      exact ih
    · rw [List.filter_cons_of_pos (by simpa using hk), List.lookup_cons, List.lookup_cons, ih]

theorem lookup_replace : ((name, a) :: entries.filter fun e => e.1 != name).lookup n =
    if n = name then some a else entries.lookup n := by
  split
  · subst n
    exact List.lookup_cons_self
  · rw [List.lookup_cons, beq_false_of_ne ‹_›]
    exact lookup_without ‹_›

end

namespace Locals

variable {scope : Nat} {code code' : List Operation} {k k' : Nat} {n : Text}

theorem entry_some {i : Nat} {names : List Text} {d : Declaration} :
    entry i names n = some d ↔ n ∈ names ∧ .entry i = d := by
  simp [entry, declare, empty]

theorem entry_none {i : Nat} {names : List Text} : entry i names n = none ↔ n ∉ names := by
  simp [entry, declare, empty]

theorem before_succ_isSome :
    (before scope code (k + 1) n).isSome ↔ declaredAt code k = some n ∨ (before scope code k n).isSome := by
  rw [before, declare]
  split
  · simp_all
  · simp_all

theorem before_congr (h : ∀ j < k, declaredAt code j = declaredAt code' j) :
    before scope code k = before scope code' k := by
  induction k with
  | zero => rfl
  | succ k ih =>
    rw [before, before, ih fun j hj => h j (Nat.lt_succ_of_lt hj), h k (Nat.lt_succ_self k)]

theorem before_bare (hk : k ≤ k') (h : ∀ j, k ≤ j → j < k' → declaredAt code j = none) :
    before scope code k' = before scope code k := by
  induction k' with
  | zero => rw [Nat.le_zero.1 hk]
  | succ k' ih =>
    rcases Nat.lt_or_ge k' k with hlt | hge
    · rw [Nat.le_antisymm hk hlt]
    · rw [before, h k' hge (Nat.lt_succ_self k'), ih hge fun j h₁ h₂ => h j h₁ (Nat.lt_succ_of_lt h₂)]
      funext n
      simp [declare]

theorem declaredAt_of_le (h : code.length ≤ k) : declaredAt code k = none := by
  simp [declaredAt, List.getElem?_eq_none h]

theorem before_isSome : (before scope code k n).isSome ↔ ∃ j < k, declaredAt code j = some n := by
  induction k with
  | zero => simp [before, empty]
  | succ k ih =>
    rw [before_succ_isSome, ih]
    constructor
    · rintro (h | ⟨j, hj, h⟩)
      · exact ⟨k, Nat.lt_succ_self k, h⟩
      · exact ⟨j, Nat.lt_succ_of_lt hj, h⟩
    · rintro ⟨j, hj, h⟩
      rcases Nat.lt_succ_iff_lt_or_eq.1 hj with hj | rfl
      · exact Or.inr ⟨j, hj, h⟩
      · exact Or.inl h

end Locals

namespace Environment

variable {E E' E'' : Environment} {l l' : Locals} {n : Text} {p p' : Program}

theorem inside_of_some {d : Declaration} (h : l n = some d) : E.inside l n = some (.declared d) := by
  simp [inside, h]

theorem inside_of_none (h : l n = none) : E.inside l n = E n := by
  simp [inside, h]

theorem topLevel_isSome : (topLevel p n).isSome ↔ ∃ j, declaredAt (p.codeOf 0) j = some n := by
  simp only [topLevel, List.mem_filterMap, declaredAt, Option.bind_eq_some_iff]
  constructor
  · intro h
    split at h
    · obtain ⟨op, hop, hn⟩ := ‹∃ _, _›
      obtain ⟨j, hj⟩ := List.mem_iff_getElem?.1 hop
      exact ⟨j, op, hj, hn⟩
    · cases h
  · rintro ⟨j, op, hj, hn⟩
    rw [if_pos ⟨op, List.mem_of_getElem? hj, hn⟩]
    rfl

theorem topLevel_some {m : Meaning} (h : topLevel p n = some m) : m = .topLevel := by
  simp only [topLevel] at h
  split at h
  · exact (Option.some.inj h).symm
  · cases h

theorem topLevel_of_isSome (h : (topLevel p n).isSome) : topLevel p n = some .topLevel := by
  obtain ⟨m, hm⟩ := Option.isSome_iff_exists.1 h
  rw [hm, topLevel_some hm]

theorem topLevel_congr (h : ∀ j, declaredAt (p'.codeOf 0) j = declaredAt (p.codeOf 0) j) :
    topLevel p' = topLevel p := by
  funext n
  have hiff : (topLevel p' n).isSome ↔ (topLevel p n).isSome := by simp only [topLevel_isSome, h]
  cases hp : topLevel p n with
  | none => simpa [hp] using hiff
  | some m => rw [topLevel_some hp, topLevel_of_isSome (hiff.2 (by simp [hp]))]

namespace Within

theorem refl (E : Environment) : Within E E := fun _ _ => id

theorem isSome (h : Within E E') (hn : (E n).isSome) : (E' n).isSome := by
  obtain ⟨m, hm⟩ := Option.isSome_iff_exists.1 hn
  rw [h n m hm]
  rfl

theorem inside (h : Within E E') (l : Locals) : Within (E.inside l) (E'.inside l) := by
  intro n m hm
  cases hl : l n with
  | some d => rwa [inside_of_some hl] at hm ⊢
  | none =>
    rw [inside_of_none hl] at hm ⊢
    exact h n m hm

theorem topLevel (h : ∀ n, (topLevel p n).isSome → (Environment.topLevel p' n).isSome) :
    Within (Environment.topLevel p) (Environment.topLevel p') := by
  intro n m hm
  rw [topLevel_some hm]
  exact topLevel_of_isSome (h n (by simp [hm]))

end Within

end Environment

namespace Place

variable {p p' : Program} {a a' : Place} {E E' : Environment} {k : Nat} {n : Text}

@[simp] theorem block_scope (b : Nat) (names : List Text) : (block E b names).scope = b := rfl

@[simp] theorem closure_scope (i : Nat) (names captures : List Text) :
    (closure E i names captures).scope = i := rfl

@[simp] theorem body_scope (i : Nat) (names : List Text) : (body p i names).scope = i := rfl

theorem Within.block (h : E.Within E') (b : Nat) (names : List Text) :
    Within (.block E b names) (.block E' b names) := ⟨rfl, h.inside _⟩

theorem Within.body (h : (Environment.topLevel p).Within (.topLevel p')) (i : Nat) (names : List Text) :
    Within (.body p i names) (.body p' i names) := ⟨rfl, h.inside _⟩

theorem closure_entry (i : Nat) (names captures : List Text) (n : Text) :
    (closure E i names captures).entry n =
      if n ∈ names then some (.declared (.entry i))
      else if n ∈ captures then E n else (E n).filter (· = .topLevel) := by
  simp only [entry, closure, Environment.inside]
  split
  · rfl
  · split
    · cases hn : E n with
      | none => rfl
      | some m => cases m <;> rfl
    · rfl

theorem Within.closure (h : E.Within E') (i : Nat) (names : List Text) {captures captures' : List Text}
    (hc : captures ⊆ captures') :
    Within (.closure E i names captures) (.closure E' i names captures') := by
  refine ⟨rfl, fun n m hm => ?_⟩
  rw [closure_entry] at hm ⊢
  split
  · rwa [if_pos ‹_›] at hm
  rw [if_neg ‹_›] at hm
  split at hm
  · rw [if_pos (hc ‹_›)]
    exact h n m hm
  · obtain ⟨hm, htop⟩ := Option.filter_eq_some_iff.1 hm
    split
    · exact h n m hm
    · exact Option.filter_eq_some_iff.2 ⟨h n m hm, htop⟩

theorem environment_inner (h : a.scope ≠ 0) :
    a.environment p k = a.entry.inside (.before a.scope (p.codeOf a.scope) k) := if_neg h

theorem environment_main (h : a.scope = 0) : a.environment p k = .topLevel p := if_pos h

theorem Within.environment (h : Within a a')
    (htop : a.scope = 0 → (Environment.topLevel p).Within (.topLevel p'))
    (hcode : ∀ j < k, declaredAt (p'.codeOf a.scope) j = declaredAt (p.codeOf a.scope) j) :
    (a.environment p k).Within (a'.environment p' k) := by
  by_cases h0 : a.scope = 0
  · rw [environment_main h0, environment_main (h.scope.trans h0)]
    exact htop h0
  · rw [environment_inner h0, environment_inner (h.scope ▸ h0), h.scope, Locals.before_congr hcode]
    exact h.entry.inside _

theorem environment_of_le (h : (p.codeOf a.scope).length ≤ k) : a.environment p k = a.whole p := by
  unfold whole environment
  split
  · rfl
  · rw [Locals.before_bare h fun j hj _ => Locals.declaredAt_of_le hj]

theorem Within.whole (h : Within a a')
    (htop : a.scope = 0 → (Environment.topLevel p).Within (.topLevel p'))
    (hcode : ∀ j, declaredAt (p'.codeOf a.scope) j = declaredAt (p.codeOf a.scope) j) :
    (a.whole p).Within (a'.whole p') := by
  have hall := h.environment (k := max (p.codeOf a.scope).length (p'.codeOf a'.scope).length) htop
    fun j _ => hcode j
  rwa [environment_of_le (Nat.le_max_left _ _), environment_of_le (Nat.le_max_right _ _)] at hall

end Place

namespace Operation.Resolved

variable {p p' : Program} {R R' : Place → Prop} {E : Environment} {op : Operation}

theorem imp (h : op.Resolved p R E) (hR : ∀ a, R a → R' a) : op.Resolved p R' E where
  uses := h.uses
  blocks := fun e he b hb => by
    obtain ⟨s, hs, hr⟩ := h.blocks e he b hb
    exact ⟨s, hs, hR _ hr⟩
  closures := fun j hj => by
    obtain ⟨f, s, hf, hs, hc, hr⟩ := h.closures j hj
    exact ⟨f, s, hf, hs, hc, hR _ hr⟩
  literal := h.literal

theorem plain (hu : op.uses? = none) (he : op.entries = []) (hm : op.made = [])
    (hl : ∀ v ∈ op.literal?, v.Inert) : op.Resolved p R E :=
  ⟨by simp [hu], by simp [he], by simp [hm], hl⟩

end Operation.Resolved

namespace Program

variable {p p' : Program} {floor floor' : Nat} {a a' b : Place} {E E' : Environment}
  {R : Place → Prop} {op : Operation} {i : Nat} {s : Scope}

theorem codeOf_eq (hs : p.scopes[i]? = some s) : p.codeOf i = s.operations := by
  simp [codeOf, hs]

theorem codeOf_congr (h : p'.scopes[i]? = p.scopes[i]?) : p'.codeOf i = p.codeOf i := by
  simp [codeOf, h]

theorem Resolves.encloses (h : p.Resolves R a) (hb : p.Encloses a b) : R b := by
  cases hb with
  | block hop he hb hs =>
    obtain ⟨s', hs', hr⟩ := (h _ _ hop).blocks _ he _ hb
    rw [hs] at hs'
    cases hs'
    exact hr
  | closure hop hj hf hs =>
    obtain ⟨f', s', hf', hs', -, hr⟩ := (h _ _ hop).closures _ hj
    rw [hf] at hf'
    cases hf'
    rw [hs] at hs'
    cases hs'
    exact hr

namespace Scoped

theorem encloses (h : p.Scoped floor a) (hb : p.Encloses a b) : p.Scoped floor b :=
  fun c hc => h c (.head hb hc)

theorem mono (h : p.Scoped floor a) (hf : floor' ≤ floor) : p.Scoped floor' a := fun b hb =>
  ⟨Nat.lt_of_le_of_lt hf (h b hb).1, (h b hb).2⟩

theorem resolves (h : p.Scoped floor a) : p.Resolves (p.Scoped floor) a := by
  intro k op hop
  have hop' := (h a .refl).2.2 k op hop
  refine ⟨hop'.uses, fun e he b hb => ?_, fun j hj => ?_, hop'.literal⟩
  · obtain ⟨s, hs, -⟩ := hop'.blocks e he b hb
    exact ⟨s, hs, h.encloses (.block hop he hb hs)⟩
  · obtain ⟨f, s, hf, hs, hc, -⟩ := hop'.closures j hj
    exact ⟨f, s, hf, hs, hc, h.encloses (.closure hop hj hf hs)⟩

theorem of_resolves (hlt : floor < a.scope) (hs : a.scope < p.scopes.size)
    (h : p.Resolves (p.Scoped floor) a) : p.Scoped floor a := by
  intro b hb
  rcases hb.cases_head with rfl | ⟨c, hc, hb⟩
  · exact ⟨hlt, hs, fun k op hop => (h k op hop).imp fun _ _ => trivial⟩
  · exact h.encloses hc b hb

end Scoped

/-- The scopes above a number and the closures of one program are also in the other. -/
structure Carried (p p' : Program) (floor : Nat) : Prop where
  scopes : ∀ i, floor < i → i < p.scopes.size → p'.scopes[i]? = p.scopes[i]?
  closures : ∀ (j : Nat) (f : Function), p.closures[j]? = some f → p'.closures[j]? = some f

theorem Carried.scope (h : Carried p p' floor) (hi : floor < i) (hs : p.scopes[i]? = some s) :
    p'.scopes[i]? = some s := by
  rw [h.scopes i hi (Array.getElem?_eq_some_iff.1 hs).1, hs]

theorem Carried.resolved {R' : Place → Prop} (h : Carried p p' floor) (hE : E.Within E')
    (hlt : ∀ a, R a → floor < a.scope) (hR : ∀ a a', a.Within a' → R a → R' a')
    (hop : op.Resolved p R E) : op.Resolved p' R' E' where
  uses := fun n hn => hE.isSome (hop.uses n hn)
  blocks := fun e he b hb => by
    obtain ⟨s, hs, hr⟩ := hop.blocks e he b hb
    exact ⟨s, h.scope (hlt _ hr) hs, hR _ _ (.block hE b _) hr⟩
  closures := fun j hj => by
    obtain ⟨f, s, hf, hs, hc, hr⟩ := hop.closures j hj
    refine ⟨f, s, h.closures j f hf, h.scope (hlt _ hr) hs, fun n hn => ?_,
      hR _ _ (.closure hE _ _ (List.Subset.refl _)) hr⟩
    obtain ⟨hown, d, hd⟩ := hc n hn
    exact ⟨hown, d, hE n _ hd⟩
  literal := hop.literal

theorem Carried.codeOf (h : Carried p p' floor) (ha : floor < a.scope) (hs : a.scope < p.scopes.size) :
    p'.codeOf a.scope = p.codeOf a.scope := codeOf_congr (h.scopes _ ha hs)

/-- Every place that is reached in the later program was reached before, with less known. -/
theorem Scoped.reached (h : p.Scoped floor a) (hc : Carried p p' floor) (ha : a.Within a')
    {b' : Place} (hb : Relation.ReflTransGen p'.Encloses a' b') :
    ∃ b, Relation.ReflTransGen p.Encloses a b ∧ b.Within b' := by
  induction hb with
  | refl => exact ⟨a, .refl, ha⟩
  | @tail b' c' _ hstep ih =>
    obtain ⟨b, hb, hw⟩ := ih
    obtain ⟨hlt, hsize, -⟩ := h b hb
    have hbs : p.Scoped floor b := fun c hc => h c (hb.trans hc)
    have hcode : p'.codeOf b'.scope = p.codeOf b.scope := by rw [hw.scope, hc.codeOf hlt hsize]
    have hE : ∀ k, (b.environment p k).Within (b'.environment p' k) := fun k =>
      hw.environment (fun h0 => absurd h0 (by omega)) fun j _ => by rw [hc.codeOf hlt hsize]
    cases hstep with
    | @block k op e i s hop he hi hs =>
      rw [hcode] at hop
      obtain ⟨t, ht, hr⟩ := (hbs.resolves k op hop).blocks e he i hi
      have hst : p'.scopes[i]? = some t := hc.scope (hr _ .refl).1 ht
      rw [hs] at hst
      cases hst
      exact ⟨_, hb.tail (.block hop he hi ht), .block (hE k) i _⟩
    | @closure k op j f s hop hj hf hs =>
      rw [hcode] at hop
      obtain ⟨g, t, hg, ht, -, hr⟩ := (hbs.resolves k op hop).closures j hj
      have hfg := hc.closures j g hg
      rw [hf] at hfg
      cases hfg
      have hst : p'.scopes[f.scope]? = some t := hc.scope (hr _ .refl).1 ht
      rw [hs] at hst
      cases hst
      exact ⟨_, hb.tail (.closure hop hj hg ht), .closure (hE k) _ _ (List.Subset.refl _)⟩

theorem Scoped.later (h : p.Scoped floor a) (hc : Carried p p' floor) (ha : a.Within a') :
    p'.Scoped floor a' := by
  intro b' hb'
  obtain ⟨b, hb, hw⟩ := h.reached hc ha hb'
  obtain ⟨hlt, hsize, -⟩ := h b hb
  have hbs : p.Scoped floor b := fun c hc => h c (hb.trans hc)
  have hcode := hc.codeOf hlt hsize
  refine ⟨hw.scope ▸ hlt, ?_, fun k op hop => ?_⟩
  · have hs := hc.scope hlt (Array.getElem?_eq_getElem hsize)
    rw [hw.scope]
    exact (Array.getElem?_eq_some_iff.1 hs).1
  · rw [hw.scope, hcode] at hop
    have hE : (b.environment p k).Within (b'.environment p' k) :=
      hw.environment (fun h0 => absurd h0 (by omega)) fun j _ => by rw [hcode]
    exact hc.resolved hE (fun c hc => (hc c .refl).1) (fun _ _ _ _ => trivial) (hbs.resolves k op hop)

theorem Carried.scoped (h : Carried p p' floor) (hE : E.Within E')
    (hop : op.Resolved p (p.Scoped floor) E) : op.Resolved p' (p'.Scoped floor) E' :=
  h.resolved hE (fun a ha => (ha a .refl).1) (fun _ _ hw ha => ha.later h hw) hop

end Program

end ScriptMachine
