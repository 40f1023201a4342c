import ScriptMachine.Proofs.Machine.Comparing
import ScriptMachine.Proofs.Machine.Pairing

set_option autoImplicit false

namespace ScriptMachine

namespace Value

def index (i : Nat) : Value := .num (.int (Int64.ofNat i))

/-- What a comprehension over the value visits, in order: elements with their indices, or the entries of
a map. Other values have no elements. -/
def elements? : Value → Option (List (Value × Value))
  | .none => some []
  | .list items => some (items.zipIdx.map fun (v, i) => (index i, v))
  | .map entries => some entries
  | .str t => some (t.zipIdx.map fun (c, i) => (index i, .str [c]))
  | .object (.range r) => some ((List.range r.size).map fun i => (index i, .num (.int (r.element i))))
  | _ => .none

/-- An element as it is when there is one loop variable. -/
def single (source : Value) (e : Value × Value) : Value :=
  match source with
  | .map _ => .list [e.1, e.2]
  | _ => e.2

/-- The entry that a result is for a map, unless its key or its value is none. -/
def entry? : Value → Option (Value × Value)
  | .list [key, entry] => if key.isNone || entry.isNone then .none else some (key, entry)
  | _ => .none

/-- What a comprehension makes of the results of its rounds. -/
def collected (toMap : Bool) (results : List Value) : Value :=
  if toMap then .map (Entries.ofPairs (results.filterMap entry?))
  else .list (results.filter fun v => !v.isNone)

variable {v : Value} {es : List (Value × Value)}

theorem elementCount_some (h : v.elements? = some es) : v.elementCount = .ok es.length := by
  cases v with
  | object o =>
    cases o with
    | range r =>
      cases h
      simp [elementCount]
    | _ => cases h
  | none | list _ | map _ | str _ =>
    cases h
    simp [elementCount]
  | _ => cases h

theorem elementCount_none (h : v.elements? = .none) :
    v.elementCount = .error (.typeError ("Cannot iterate over " ++ v.typeName)) := by
  cases v with
  | object o =>
    cases o with
    | range r => cases h
    | _ => rfl
  | none | list _ | map _ | str _ => cases h
  | _ => rfl

end Value

/-- The loop variables in the frame of the body: one takes the element, two take it apart. -/
def loopBindings (params : List Text) (source : Value) (e : Value × Value) : List (Text × Binding) :=
  match params with
  | [x] => [(x, .fixed (source.single e))]
  | [x, y] => [(y, .fixed e.2), (x, .fixed e.1)]
  | _ => []

namespace Loop

variable {l : Loop} {es : List (Value × Value)} {e : Value × Value}

theorem variableValues_eq (hes : l.source.elements? = some es) (he : es[l.next]? = some e)
    (pairs : Bool) :
    l.variableValues pairs = if pairs then [e.1, e.2] else [l.source.single e] := by
  obtain ⟨source, count, next, toMap, items, entries⟩ := l
  dsimp only at hes he
  cases source with
  | none =>
    cases hes
    cases he
  | list items =>
    cases hes
    simp only [List.getElem?_map, List.getElem?_zipIdx, Option.map_eq_some_iff] at he
    obtain ⟨-, ⟨v, hv, rfl⟩, rfl⟩ := he
    simp [variableValues, Value.elementAt, Value.single, Value.index, List.getD, hv]
  | map entries =>
    cases hes
    obtain ⟨key, entry⟩ := e
    simp [variableValues, Value.single, he]
  | str t =>
    cases hes
    simp only [List.getElem?_map, List.getElem?_zipIdx, Option.map_eq_some_iff] at he
    obtain ⟨-, ⟨c, hc, rfl⟩, rfl⟩ := he
    have hbyte : (t.drop next).take 1 = [c] := by
      obtain ⟨hlt, hat⟩ := List.getElem?_eq_some_iff.1 hc
      rw [List.drop_eq_getElem_cons hlt, hat]
      rfl
    simp [variableValues, Value.elementAt, Value.single, Value.index, hbyte]
  | object o =>
    cases o with
    | range r =>
      cases hes
      simp only [List.getElem?_map, Option.map_eq_some_iff] at he
      obtain ⟨i, hi, rfl⟩ := he
      obtain ⟨hlt, hat⟩ := List.getElem?_eq_some_iff.1 hi
      rw [List.getElem_range] at hat
      subst i
      simp [variableValues, Value.elementAt, Value.single, Value.index]
    | _ => cases hes
  | _ => cases hes

/-- The state of a comprehension after rounds with the given results. -/
def after (source : Value) (count : Nat) (toMap : Bool) (results : List Value) : Loop where
  source := source
  count := count
  next := results.length
  toMap := toMap
  items := if toMap then [] else (results.filter fun v => !v.isNone).reverse
  entries := if toMap then Entries.ofPairs (results.filterMap Value.entry?) else []

variable {source v : Value} {count : Nat} {toMap : Bool} {results : List Value}

theorem start_eq : start source count toMap = after source count toMap [] := by
  cases toMap <;> rfl

theorem result_after : (after source count toMap results).result = Value.collected toMap results := by
  cases toMap with
  | false => simp [result, after, Value.collected]
  | true => rfl

theorem after_none : after source count toMap (results ++ [.none]) =
    { after source count toMap results with next := results.length + 1 } := by
  cases toMap <;> simp [after, Value.isNone, Value.entry?, List.filterMap_cons]

/-- Every round adds its result. -/
theorem accumulate_after (source : Value) (count : Nat) (results : List Value)
    (hv : toMap = true → v.PairOrNone) :
    ∃ l', (after source count toMap results).accumulate v = .ok l' ∧
      { l' with next := l'.next + 1 } = after source count toMap (results ++ [v]) := by
  cases toMap with
  | false =>
    by_cases hnone : v = .none
    · subst hnone
      exact ⟨_, rfl, by rw [after_none]; rfl⟩
    · have hisNone : v.isNone = false := by
        cases v <;> first | rfl | exact absurd rfl hnone
      refine ⟨{ after source count false results with items := v :: (after source count false results).items },
        ?_, ?_⟩
      · cases v <;> first | rfl | exact absurd rfl hnone
      · simp [after, hisNone]
  | true =>
    rcases hv rfl with rfl | ⟨key, entry, rfl⟩
    · exact ⟨_, rfl, by rw [after_none]; rfl⟩
    · by_cases hskipped : key.isNone || entry.isNone
      · refine ⟨after source count true results, ?_, ?_⟩
        · cases key <;> cases entry <;> first | rfl | cases hskipped
        · simp [after, Value.entry?, hskipped]
      · refine ⟨{ after source count true results with
          entries := Entries.insert key entry (after source count true results).entries }, ?_, ?_⟩
        · cases key <;> cases entry <;> first | rfl | exact absurd rfl hskipped
        · simp [after, Value.entry?, hskipped, Entries.ofPairs, Entries.insertAll]

end Loop

/-- The frame in which a comprehension runs its body, at the beginning of a round. -/
def roundFrame (body : Nat) (scope : Scope) (parent : Option Nat) (out : Register) (e : Value × Value)
    (l : Loop) : Frame :=
  { Exec.entered scope (some body) parent out with
    bindings := loopBindings scope.params l.source e
    loop := some l }

namespace Exec

variable {s : Setup} {m : Machine} {f : Frame} {rest : List Frame} {l : Loop} {sc : Scope}
  {e : Value × Value} {es : List (Value × Value)} {source v : Value} {toMap : Bool} {out : Register}
  {target : Target} {results : List Value}

/-- The loop variables are all that is bound in a frame without variables. -/
theorem bindLoopVariables_run (hf : m.frames = f :: rest) (hbindings : f.bindings = [])
    (hscope : s.program.scope (some f.scope) = .ok sc) (hnames : LoopNames sc.params)
    (hes : l.source.elements? = some es) (he : es[l.next]? = some e) :
    bindLoopVariables s l m = .ok ⟨⟩ { m with
      frames := { f with bindings := loopBindings sc.params l.source e } :: rest } := by
  have hlift : lift (s.program.scope (some f.scope)) m = .ok sc m := by
    rw [hscope]
    rfl
  unfold bindLoopVariables
  rw [run_bind (top_run hf), run_bind hlift, Loop.variableValues_eq hes he]
  rcases hnames with ⟨x, hparams⟩ | ⟨x, y, hxy, hparams⟩
  · rw [hparams]
    refine (run_bind (bindLet_run x _ hf (by simp [hbindings]))).trans ?_
    rw [hbindings]
    rfl
  · rw [hparams]
    refine (run_bind (bindLet_run x _ hf (by simp [hbindings]))).trans ?_
    refine (run_bind (bindLet_run y _ rfl (by simp [hbindings, hxy]))).trans ?_
    rw [hbindings]
    rfl

theorem startLoop_refused (hes : source.elements? = none) : startLoop s toMap source target out m =
    .error (.script (.typeError ("Cannot iterate over " ++ source.typeName))) m := by
  unfold startLoop
  rw [Value.elementCount_none hes]
  rfl

theorem elements_run (hes : source.elements? = some es) :
    lift source.elementCount m = .ok es.length m := by
  rw [Value.elementCount_some hes]
  rfl

theorem startLoop_empty (hes : source.elements? = some []) (hf : m.frames = f :: rest)
    (hanswers : Answers out (f :: rest)) : startLoop s toMap source target out m =
      .ok ⟨⟩ { m with frames := f.receive out (.collected toMap []) :: rest } := by
  unfold startLoop
  rw [run_bind (elements_run hes), Loop.start_eq, Loop.result_after]
  exact writeRegister_run hf hanswers.1 hanswers.2

theorem startLoop_overflow (hes : source.elements? = some (e :: es))
    (hdepth : s.options.maxDepth ≤ m.frames.length) : startLoop s toMap source target out m =
      .error (.script (.runtimeError
        ("Stack overflow: exceeded " ++ Text.ofNat s.options.maxDepth))) m := by
  have htop : topIndex m = .ok (m.frames.length - 1) m := rfl
  have hpush : pushFrame s target (some (m.frames.length - 1)) out m = .error (.script (.runtimeError
      ("Stack overflow: exceeded " ++ Text.ofNat s.options.maxDepth))) m := by
    have hget : (get : Exec Machine) m = .ok m m := rfl
    unfold pushFrame
    rw [run_bind hget, if_pos hdepth]
    rfl
  unfold startLoop
  rw [run_bind (elements_run hes)]
  dsimp only [List.length_cons]
  rw [if_neg (Nat.succ_ne_zero _), run_bind htop]
  change EStateM.bind _ _ m = _
  unfold EStateM.bind
  rw [hpush]

theorem startLoop_run {body : Nat} (hes : source.elements? = some (e :: es))
    (hdepth : m.frames.length < s.options.maxDepth)
    (hscope : s.program.scope (some body) = .ok sc) (hnames : LoopNames sc.params) :
    startLoop s toMap source (some body) out m = .ok ⟨⟩ { m with
      frames := roundFrame body sc (some (m.frames.length - 1)) out e
        (.after source (es.length + 1) toMap []) :: m.frames } := by
  have htop : topIndex m = .ok (m.frames.length - 1) m := rfl
  unfold startLoop
  rw [run_bind (elements_run hes), Loop.start_eq]
  dsimp only [List.length_cons]
  rw [if_neg (Nat.succ_ne_zero _), run_bind htop, run_bind (pushFrame_run hdepth hscope),
    run_bind (modifyTop_run rfl)]
  have he : (e :: es)[(Loop.after source (es.length + 1) toMap []).next]? = some e := rfl
  exact bindLoopVariables_run (f := { entered sc (some body) (some (m.frames.length - 1)) out with
    loop := some (.after source (es.length + 1) toMap []) }) rfl rfl hscope hnames hes he

theorem returnFrom_round {l' l₁ : Loop} (hf : m.frames = f :: rest) (hloop : f.loop = some l)
    (hl' : l.accumulate v = .ok l') (hafter : { l' with next := l'.next + 1 } = l₁) :
    returnFrom s v m =
      (if l₁.next < l₁.count then resetFrame s >>= fun _ => bindLoopVariables s l₁
        else complete s f l₁.result) { m with frames := { f with loop := some l₁ } :: rest } := by
  subst hafter
  have hlift : lift (l.accumulate v) m = .ok l' m := by
    rw [hl']
    rfl
  unfold returnFrom
  rw [run_bind (top_run hf), hloop]
  dsimp only
  rw [run_bind hlift, run_bind (modifyTop_run hf)]

/-- Another round begins. -/
theorem returnFrom_again (hf : m.frames = f :: rest)
    (hloop : f.loop = some (.after source es.length toMap results))
    (hv : toMap = true → v.PairOrNone) (hscope : s.program.scope (some f.scope) = .ok sc)
    (hnames : LoopNames sc.params) (hes : source.elements? = some es)
    (he : es[results.length + 1]? = some e) :
    ∃ m', returnFrom s v m = .ok ⟨⟩ m' ∧ m'.frames = { f with
      pc := 0
      registers := Frame.freshRegisters sc
      bindings := loopBindings sc.params source e
      owned := []
      loop := some (.after source es.length toMap (results ++ [v])) } :: rest := by
  obtain ⟨l', hl', hafter⟩ := Loop.accumulate_after source es.length results hv
  obtain ⟨hlt, -⟩ := List.getElem?_eq_some_iff.1 he
  have hmore : (Loop.after source es.length toMap (results ++ [v])).next <
      (Loop.after source es.length toMap (results ++ [v])).count := by
    simpa [Loop.after] using hlt
  have he' : es[(Loop.after source es.length toMap (results ++ [v])).next]? = some e := by
    simpa [Loop.after] using he
  rw [returnFrom_round hf hloop hl' hafter, if_pos hmore, run_bind (resetFrame_run (f := { f with
    loop := some (.after source es.length toMap (results ++ [v])) }) rfl hscope)]
  exact ⟨_, bindLoopVariables_run rfl rfl hscope hnames hes he', rfl⟩

theorem returnFrom_collected (hf : m.frames = f :: rest)
    (hloop : f.loop = some (.after source es.length toMap results))
    (hv : toMap = true → v.PairOrNone) (hfunction : f.function = none) (hanswers : Answers f.out rest)
    (hlast : results.length + 1 = es.length) :
    ∃ m', returnFrom s v m = .ok ⟨⟩ m' ∧
      m'.frames = rest.modifyHead (Frame.receive f.out (.collected toMap (results ++ [v]))) := by
  obtain ⟨l', hl', hafter⟩ := Loop.accumulate_after source es.length results hv
  have hdone : ¬(Loop.after source es.length toMap (results ++ [v])).next <
      (Loop.after source es.length toMap (results ++ [v])).count := by
    simp [Loop.after, hlast]
  rw [returnFrom_round hf hloop hl' hafter, if_neg hdone, Loop.result_after]
  obtain ⟨memo, hrun⟩ := complete_run (s := s) (v := .collected toMap (results ++ [v]))
    (m := { m with frames := { f with
      loop := some (.after source es.length toMap (results ++ [v])) } :: rest }) rfl hanswers
    (by simp [hfunction])
  exact ⟨_, hrun, rfl⟩

end Exec

end ScriptMachine
