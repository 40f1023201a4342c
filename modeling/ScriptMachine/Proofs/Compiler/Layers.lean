import ScriptMachine.Proofs.Program.Naming
import ScriptMachine.Proofs.Compiler.Writing

set_option autoImplicit false

/-!
# The layers of open scopes

The open scopes of a draft lie one inside the other. The names that are known of each are those that
were bound when it was entered and those that its code has declared so far, so that looking a name up
finds it exactly if it has a meaning. A look-up changes nothing but the captures of closures, and gives
meanings to names that had none.
-/
namespace ScriptMachine

def OpenScope.place (s : OpenScope) (p : Program) (names : List Text) (E : Environment) : Place :=
  if s.isFunction then .body p s.scope names
  else if s.isClosure then .closure E s.scope names s.captures
  else .block E s.scope names

def standing (p : Program) : List OpenScope → List (List Text) → Place
  | s :: t :: rest, names :: bound =>
    s.place p names ((standing p (t :: rest) bound).whole p)
  | _, _ => .main

/-- The open scopes are of a program, later ones inside earlier ones, and of each all names are known.
`bound` are the names with which the scopes were entered, except the top level. -/
inductive Layered (p : Program) : List OpenScope → List (List Text) → Prop where
  | main {s : OpenScope} (hscope : s.scope = 0) (hsize : 0 < p.scopes.size)
      (hfunction : s.isFunction = false)
      (hnames : ∀ n, (s.names.lookup n).isSome ↔ (Environment.topLevel p n).isSome) :
      Layered p [s] []
  | inner {s t : OpenScope} {rest : List OpenScope} {names : List Text} {bound : List (List Text)}
      (h : Layered p (t :: rest) bound) (habove : t.scope < s.scope) (hsize : s.scope < p.scopes.size)
      (hnames : ∀ n, (s.names.lookup n).isSome ↔
        n ∈ names ∨ ∃ j, declaredAt (p.codeOf s.scope) j = some n)
      (hcaptures : ∀ n ∈ s.captures, n ∉ names ∧
        ∃ d, (standing p (t :: rest) bound).whole p n = some (.declared d)) :
      Layered p (s :: t :: rest) (names :: bound)

/-- The same open scope, of which more may be known. -/
structure OpenScope.Widened (s s' : OpenScope) : Prop where
  scope : s'.scope = s.scope
  isFunction : s'.isFunction = s.isFunction
  isClosure : s'.isClosure = s.isClosure
  captures : s.captures ⊆ s'.captures
  names : ∀ n, (s.names.lookup n).isSome → (s'.names.lookup n).isSome

section

variable {p p' : Program} {s s' t : OpenScope} {opened opened' rest : List OpenScope}
  {bound : List (List Text)} {names : List Text} {E E' : Environment} {n : Text}

namespace OpenScope

@[simp] theorem place_scope : (s.place p names E).scope = s.scope := by
  unfold place
  split
  · rfl
  · split
    · rfl
    · rfl

namespace Widened

theorem refl (s : OpenScope) : s.Widened s := ⟨rfl, rfl, rfl, List.Subset.refl _, fun _ => id⟩

theorem trans {s'' : OpenScope} (h : s.Widened s') (h' : s'.Widened s'') : s.Widened s'' :=
  ⟨h'.scope.trans h.scope, h'.isFunction.trans h.isFunction, h'.isClosure.trans h.isClosure,
    List.Subset.trans h.captures h'.captures, fun n hn => h'.names n (h.names n hn)⟩

theorem capture (s : OpenScope) (name : Text) : s.Widened (s.capture name) := by
  unfold OpenScope.capture
  split
  · exact ⟨rfl, rfl, rfl, List.subset_append_left _ _, fun _ => id⟩
  · exact refl s

theorem place (h : s.Widened s') (htop : (Environment.topLevel p).Within (.topLevel p'))
    (hE : E.Within E') : (s.place p names E).Within (s'.place p' names E') := by
  unfold OpenScope.place
  rw [h.isFunction, h.isClosure, h.scope]
  split
  · exact .body htop _ _
  · split
    · exact .closure hE _ _ h.captures
    · exact .block hE _ _

end Widened

end OpenScope

theorem widened_refl (opened : List OpenScope) : List.Forall₂ OpenScope.Widened opened opened := by
  induction opened with
  | nil => exact .nil
  | cons s rest ih => exact .cons (.refl s) ih

theorem widened_trans {a b c : List OpenScope} (h : List.Forall₂ OpenScope.Widened a b)
    (h' : List.Forall₂ OpenScope.Widened b c) : List.Forall₂ OpenScope.Widened a c := by
  induction h generalizing c with
  | nil => exact h'
  | cons hs _ ih =>
    cases h' with
    | cons hs' hrest => exact .cons (hs.trans hs') (ih hrest)

theorem widened_scopes (h : List.Forall₂ OpenScope.Widened opened opened') :
    opened'.map (·.scope) = opened.map (·.scope) := by
  induction h with
  | nil => rfl
  | cons hs _ ih => simp [hs.scope, ih]

theorem standing_main : standing p opened [] = .main := by
  rcases opened with _ | ⟨s, _ | ⟨t, rest⟩⟩
  · rfl
  · rfl
  · rfl

theorem standing_inner : standing p (s :: t :: rest) (names :: bound) =
    s.place p names ((standing p (t :: rest) bound).whole p) := rfl

namespace Layered

theorem ne_nil (h : Layered p opened bound) : opened ≠ [] := by
  cases h with
  | main => simp
  | inner => simp

theorem length (h : Layered p opened bound) : opened.length = bound.length + 1 := by
  induction h with
  | main => rfl
  | inner _ _ _ _ _ ih => simp [ih]

theorem standing_scope (h : Layered p (s :: rest) bound) : (standing p (s :: rest) bound).scope = s.scope := by
  cases h with
  | main hscope => exact hscope.symm
  | inner => rw [standing_inner, OpenScope.place_scope]

theorem lies_above (h : Layered p (s :: rest) bound) : ∀ t ∈ rest, t.scope < s.scope := by
  induction rest generalizing s bound with
  | nil => exact nofun
  | cons t rest ih =>
    cases h with
    | inner h habove =>
      refine List.forall_mem_cons.2 ⟨habove, fun u hu => ?_⟩
      exact Nat.lt_trans (ih h u hu) habove

theorem scope_lt (h : Layered p (s :: rest) bound) : s.scope < p.scopes.size := by
  cases h with
  | main hscope hsize => rwa [hscope]
  | inner _ _ hsize => exact hsize

theorem globals (h : Layered p opened bound) (n : Text) :
    ((((opened.getLast?).map (·.names)).getD []).lookup n).isSome ↔ (Environment.topLevel p n).isSome := by
  induction h with
  | main _ _ _ hnames => exact hnames n
  | inner _ _ _ _ _ ih => rwa [List.getLast?_cons_cons]

theorem globals_widened (hw : List.Forall₂ OpenScope.Widened opened opened') (n : Text)
    (h : ((((opened.getLast?).map (·.names)).getD []).lookup n).isSome) :
    ((((opened'.getLast?).map (·.names)).getD []).lookup n).isSome := by
  induction hw with
  | nil => exact h
  | cons hs hrest ih =>
    cases hrest with
    | nil => exact hs.names n h
    | cons hs' hrest' =>
      rw [List.getLast?_cons_cons] at h ⊢
      exact ih h

theorem topLevel_within (h : Layered p opened bound) (h' : Layered p' opened' bound)
    (hw : List.Forall₂ OpenScope.Widened opened opened') :
    (Environment.topLevel p).Within (.topLevel p') :=
  .topLevel fun n hn => (h'.globals n).1 (globals_widened hw n ((h.globals n).2 hn))

/-- More is known where the open scopes stand, if the code around them declares the same. -/
theorem standing_within (h : Layered p opened bound)
    (hw : List.Forall₂ OpenScope.Widened opened opened')
    (hcode : ∀ s ∈ opened.tail, ∀ j, declaredAt (p'.codeOf s.scope) j = declaredAt (p.codeOf s.scope) j)
    (htop : (Environment.topLevel p).Within (.topLevel p')) :
    (standing p opened bound).Within (standing p' opened' bound) := by
  induction h generalizing opened' with
  | main =>
    cases hw with
    | cons hs hrest =>
      cases hrest
      exact ⟨rfl, .refl _⟩
  | @inner s t rest names bound h _ _ _ _ ih =>
    cases hw with
    | cons hs hrest =>
      have hin := ih hrest fun u hu => hcode u (List.mem_of_mem_tail hu)
      cases hrest with
      | cons ht hrest =>
        refine hs.place htop (hin.whole (fun _ => htop) fun j => ?_)
        rw [h.standing_scope]
        exact hcode t List.mem_cons_self j

theorem congr (h : Layered p opened bound) (hsize : p.scopes.size ≤ p'.scopes.size)
    (hcode : ∀ s ∈ opened, ∀ j, declaredAt (p'.codeOf s.scope) j = declaredAt (p.codeOf s.scope) j) :
    Layered p' opened bound ∧ Environment.topLevel p' = .topLevel p := by
  induction h with
  | @main s hscope hs hfunction hnames =>
    have htop : Environment.topLevel p' = .topLevel p :=
      Environment.topLevel_congr (hscope ▸ hcode s List.mem_cons_self)
    exact ⟨.main hscope (Nat.lt_of_lt_of_le hs hsize) hfunction (htop ▸ hnames), htop⟩
  | @inner s t rest names bound h habove hs hnames hcaptures ih =>
    obtain ⟨hin, htop⟩ := ih fun u hu => hcode u (List.mem_cons_of_mem _ hu)
    refine ⟨.inner hin habove (Nat.lt_of_lt_of_le hs hsize) ?_ fun n hn => ?_, htop⟩
    · simpa only [hcode s List.mem_cons_self] using hnames
    · obtain ⟨hno, d, hd⟩ := hcaptures n hn
      have hst : (standing p (t :: rest) bound).Within (standing p' (t :: rest) bound) :=
        h.standing_within (widened_refl _)
          (fun u hu => hcode u (List.mem_cons_of_mem _ (List.mem_of_mem_tail hu))) (htop ▸ .refl _)
      refine ⟨hno, d, hst.whole (fun _ => htop ▸ .refl _) (fun j => ?_) n _ hd⟩
      rw [h.standing_scope]
      exact hcode t (List.mem_cons_of_mem _ List.mem_cons_self) j

theorem lookup_declare (s : OpenScope) (name : Text) (info : NameInfo) (n : Text) :
    ((s.declare name info).names.lookup n).isSome ↔ (s.names.lookup n).isSome ∨ n = name := by
  unfold OpenScope.declare
  rw [lookup_replace]
  split
  · simp [*]
  · simp [*]

theorem widened_declare (s : OpenScope) (name : Text) (info : NameInfo) :
    s.Widened (s.declare name info) :=
  ⟨rfl, rfl, rfl, List.Subset.refl _, fun n hn => (lookup_declare s name info n).2 (Or.inl hn)⟩

/-- The innermost scope learns the name that its code has come to declare. -/
theorem record (h : Layered p (s :: rest) bound) {name : Text} (info : NameInfo)
    (hsize : p.scopes.size ≤ p'.scopes.size)
    (hothers : ∀ i, i ≠ s.scope → p'.scopes[i]? = p.scopes[i]?)
    (hcode : ∀ n, (∃ j, declaredAt (p'.codeOf s.scope) j = some n) ↔
      (∃ j, declaredAt (p.codeOf s.scope) j = some n) ∨ n = name) :
    Layered p' (s.declare name info :: rest) bound := by
  have habove := h.lies_above
  cases h with
  | main hscope hs hfunction hnames =>
    refine .main hscope (Nat.lt_of_lt_of_le hs hsize) hfunction fun n => ?_
    rw [hscope] at hcode
    rw [lookup_declare, Environment.topLevel_isSome, hcode, hnames, Environment.topLevel_isSome]
  | @inner _ t rest names bound h hlt hs hnames hcaptures =>
    have hsame : ∀ u ∈ t :: rest, ∀ j,
        declaredAt (p'.codeOf u.scope) j = declaredAt (p.codeOf u.scope) j := fun u hu j => by
      rw [Program.codeOf_congr (hothers _ (Nat.ne_of_lt (habove u hu)))]
    obtain ⟨hin, htop⟩ := h.congr hsize hsame
    refine .inner hin hlt (Nat.lt_of_lt_of_le hs hsize) (fun n => ?_) fun n hn => ?_
    · rw [lookup_declare]
      exact (or_congr_left (hnames n)).trans (or_assoc.trans (or_congr_right (hcode n).symm))
    · obtain ⟨hno, d, hd⟩ := hcaptures n hn
      have hst : (standing p (t :: rest) bound).Within (standing p' (t :: rest) bound) :=
        h.standing_within (widened_refl _) (fun u hu => hsame u (List.mem_of_mem_tail hu)) (htop ▸ .refl _)
      refine ⟨hno, d, hst.whole (fun _ => htop ▸ .refl _) (fun j => ?_) n _ hd⟩
      rw [h.standing_scope]
      exact hsame t List.mem_cons_self j

/-- Whoever knows a name declares it, captures it or has it from around. -/
theorem whole_of_known (h : Layered p (s :: t :: rest) (names :: bound)) (hn : (s.names.lookup n).isSome) :
    ∃ d, (standing p (s :: t :: rest) (names :: bound)).whole p n = some (.declared d) := by
  cases h with
  | inner h habove hsize hnames hcaptures =>
    have hne : (s.place p names ((standing p (t :: rest) bound).whole p)).scope ≠ 0 := by
      rw [OpenScope.place_scope]
      omega
    rw [standing_inner, Place.whole, Place.environment_inner hne, OpenScope.place_scope]
    rcases (hnames n).1 hn with hmem | ⟨j, hj⟩
    · cases hb : Locals.before s.scope (p.codeOf s.scope) (p.codeOf s.scope).length n with
      | some d => exact ⟨d, Environment.inside_of_some hb⟩
      | none =>
        rw [Environment.inside_of_none hb]
        refine ⟨.entry s.scope, ?_⟩
        unfold OpenScope.place
        split
        · exact Environment.inside_of_some (Locals.entry_some.2 ⟨hmem, rfl⟩)
        · split
          · rw [Place.closure_entry, if_pos hmem]
          · exact Environment.inside_of_some (Locals.entry_some.2 ⟨hmem, rfl⟩)
    · have hlt : j < (p.codeOf s.scope).length := by
        by_contra hge
        rw [Locals.declaredAt_of_le (Nat.le_of_not_lt hge)] at hj
        cases hj
      obtain ⟨d, hd⟩ := Option.isSome_iff_exists.1 (Locals.before_isSome.2 ⟨j, hlt, hj⟩)
      exact ⟨d, Environment.inside_of_some hd⟩

theorem whole_of_unknown (h : Layered p (s :: t :: rest) (names :: bound)) (hn : s.names.lookup n = none) :
    n ∉ names ∧ (standing p (s :: t :: rest) (names :: bound)).whole p n =
      (standing p (s :: t :: rest) (names :: bound)).entry n := by
  cases h with
  | inner h habove hsize hnames hcaptures =>
    have hne : (s.place p names ((standing p (t :: rest) bound).whole p)).scope ≠ 0 := by
      rw [OpenScope.place_scope]
      omega
    have hno := (hnames n).not.1 (by simp [hn])
    rw [not_or] at hno
    refine ⟨hno.1, ?_⟩
    rw [standing_inner, Place.whole, Place.environment_inner hne, OpenScope.place_scope]
    refine Environment.inside_of_none ?_
    by_contra hb
    obtain ⟨j, -, hj⟩ := Locals.before_isSome.1 (Option.isSome_iff_ne_none.2 hb)
    exact hno.2 ⟨j, hj⟩

/-- What a look-up finds has a meaning, which is local if the look-up says so. -/
theorem resolve (h : Layered p opened bound) {globals : List (Text × NameInfo)}
    (hglobals : ∀ n, (globals.lookup n).isSome → (Environment.topLevel p n).isSome)
    {info : NameInfo} {isLocal : Bool}
    (hr : OpenScope.resolve globals n opened = some (info, isLocal, opened')) :
    Layered p opened' bound ∧ List.Forall₂ OpenScope.Widened opened opened' ∧
      ∃ m, (standing p opened' bound).whole p n = some m ∧
        if isLocal then ∃ d, m = .declared d else m = .topLevel := by
  induction h generalizing info isLocal opened' with
  | @main s hscope hsize hfunction hnames =>
    unfold OpenScope.resolve at hr
    split at hr
    · rename_i i hi
      cases hr
      refine ⟨.main hscope hsize hfunction hnames, widened_refl _, .topLevel, ?_, rfl⟩
      exact Environment.topLevel_of_isSome ((hnames n).1 (by simp [hi]))
    · rw [hfunction] at hr
      cases hr
  | @inner s t rest names bound h habove hsize hnames hcaptures ih =>
    have hlayered : Layered p (s :: t :: rest) (names :: bound) := .inner h habove hsize hnames hcaptures
    unfold OpenScope.resolve at hr
    split at hr
    · rename_i i hi
      cases hr
      obtain ⟨d, hd⟩ := hlayered.whole_of_known (n := n) (by simp [hi])
      exact ⟨hlayered, widened_refl _, _, hd, d, rfl⟩
    · rename_i hnone
      split at hr
      · rename_i hfunction
        obtain ⟨i, hi, hr⟩ := Option.map_eq_some_iff.1 hr
        cases hr
        refine ⟨hlayered, widened_refl _, .topLevel, ?_, rfl⟩
        obtain ⟨hno, hwhole⟩ := hlayered.whole_of_unknown hnone
        rw [hwhole, standing_inner, OpenScope.place, if_pos hfunction]
        refine (Environment.inside_of_none (Locals.entry_none.2 hno)).trans ?_
        exact Environment.topLevel_of_isSome (hglobals n (by simp [hi]))
      · rename_i hfunction
        obtain ⟨⟨i, isLocal', opened₁⟩, hi, hr⟩ := Option.map_eq_some_iff.1 hr
        cases hr
        obtain ⟨hin, hw, m, hm, hlocal⟩ := ih hi
        cases hw with
        | @cons _ t' _ rest' ht hrest =>
          have hwithin : ((standing p (t :: rest) bound).whole p).Within
              ((standing p (t' :: rest') bound).whole p) := by
            have hst := h.standing_within (.cons ht hrest) (fun _ _ _ => rfl) (.refl _)
            exact hst.whole (fun _ => .refl _) fun _ => rfl
          have hs : s.Widened (if isLocal then s.capture n else s) := by
            split
            · exact .capture s n
            · exact .refl s
          have hnot : n ∉ names := (hlayered.whole_of_unknown hnone).1
          have hnames' : (if isLocal then s.capture n else s).names = s.names := by
            split
            · unfold OpenScope.capture
              split <;> rfl
            · rfl
          have hlayered' : Layered p ((if isLocal then s.capture n else s) :: t' :: rest')
              (names :: bound) := by
            refine .inner hin (by rw [hs.scope, ht.scope]; exact habove) (hs.scope ▸ hsize) ?_ ?_
            · rw [hnames', hs.scope]
              exact hnames
            · intro k hk
              have hold : k ∈ s.captures → k ∉ names ∧
                  ∃ d, (standing p (t' :: rest') bound).whole p k = some (.declared d) := by
                intro hk
                obtain ⟨hkn, d, hd⟩ := hcaptures k hk
                exact ⟨hkn, d, hwithin k _ hd⟩
              split at hk
              · rename_i hl
                unfold OpenScope.capture at hk
                split at hk
                · rcases List.mem_append.1 hk with hk | hk
                  · exact hold hk
                  · rw [if_pos hl] at hlocal
                    obtain ⟨d, rfl⟩ := hlocal
                    rw [List.mem_singleton.1 hk]
                    exact ⟨hnot, d, hm⟩
                · exact hold hk
              · exact hold hk
          refine ⟨hlayered', .cons hs (.cons ht hrest), m, ?_, hlocal⟩
          have hnone' : (if isLocal then s.capture n else s).names.lookup n = none := by
            rw [hnames', hnone]
          rw [(hlayered'.whole_of_unknown hnone').2, standing_inner, OpenScope.place, hs.isFunction,
            if_neg hfunction, hs.isClosure]
          split
          · rename_i hclosure
            rw [Place.closure_entry, if_neg hnot]
            cases isLocal with
            | true =>
              have hcap : n ∈ (s.capture n).captures := by
                unfold OpenScope.capture
                split
                · simp
                · rename_i hmem
                  simpa [hclosure] using hmem
              simpa [hcap] using hm
            | false =>
              have htop : m = .topLevel := hlocal
              change (if n ∈ s.captures then _ else _) = _
              split
              · exact hm
              · exact Option.filter_eq_some_iff.2 ⟨hm, by simpa using htop⟩
          · exact (Environment.inside_of_none (Locals.entry_none.2 hnot)).trans hm

end Layered

end

end ScriptMachine
