import ScriptMachine.Proofs.Value.Operators
import ScriptMachine.Machine.Comprehension

set_option autoImplicit false

namespace ScriptMachine

namespace Function

variable {P : Value → Prop} {f : Function} {args : List Value}

theorem fillDefaults_gives {params : List Parameter}
    (hd : ∀ p ∈ params, ∀ v ∈ p.default, P v) (hargs : ∀ v ∈ args, P v) :
    Gives P (f.fillDefaults params args) fun vs => ∀ v ∈ vs, P v := by
  induction params generalizing args with
  | nil => exact hargs
  | cons p params ih =>
    obtain ⟨hp, hparams⟩ := List.forall_mem_cons.1 hd
    cases args with
    | nil =>
      unfold fillDefaults
      split
      · rename_i v hv
        refine (ih hparams hargs).bind fun vs hvs => ?_
        exact List.forall_mem_cons.2 ⟨hp v hv, hvs⟩
      · exact Gives.error rfl
    | cons v vs =>
      obtain ⟨hv, hvs⟩ := List.forall_mem_cons.1 hargs
      refine (ih hparams hvs).bind fun ws hws => ?_
      exact List.forall_mem_cons.2 ⟨hv, hws⟩

theorem checkTypes_gives (params : List Parameter) (args : List Value) :
    Gives P (f.checkTypes params args) fun _ => True := by
  fun_induction checkTypes f params args with
  | case1 p ps v vs _ ih => exact ih
  | case2 => exact Gives.error rfl
  | case3 => trivial

theorem acceptArgs_gives (hd : ∀ p ∈ f.signature.params, ∀ v ∈ p.default, P v)
    (hargs : ∀ v ∈ args, P v) :
    Gives P (f.acceptArgs args) fun vs => ∀ v ∈ vs, P v := by
  unfold acceptArgs
  dsimp only
  split
  · exact Gives.error rfl
  · refine (fillDefaults_gives hd hargs).bind fun vs hvs => ?_
    exact (checkTypes_gives _ vs).bind fun _ _ => hvs

theorem checkResult_gives (v : Value) : Gives P (f.checkResult v) fun _ => True := by
  unfold checkResult
  split
  · trivial
  · exact Gives.error rfl

end Function

/-- All values that a comprehension has in hand have the property. -/
structure Loop.All (P : Value → Prop) (l : Loop) : Prop where
  source : P l.source
  items : ∀ v ∈ l.items, P v
  entries : Entries.All P l.entries

theorem Loop.All.mono {P Q : Value → Prop} {l : Loop} (hl : l.All P) (h : ∀ v, P v → Q v) : l.All Q :=
  ⟨h _ hl.source, fun v hv => h v (hl.items v hv), fun e he =>
    ⟨h _ (hl.entries e he).1, h _ (hl.entries e he).2⟩⟩

section Rounds

variable {P : Value → Prop} [Hereditary P] {v : Value} {l : Loop}

omit [Hereditary P] in
theorem elementCount_gives (v : Value) : Gives P v.elementCount fun _ => True := by
  unfold Value.elementCount
  split
  · trivial
  · trivial
  · trivial
  · trivial
  · trivial
  · exact Gives.error rfl

theorem elementAt_inherits (hv : P v) (i : Nat) : P (v.elementAt i) := by
  unfold Value.elementAt
  split
  · rename_i items
    rw [List.getD_eq_getElem?_getD]
    cases hi : items[i]? with
    | none => exact Hereditary.none
    | some w => exact Hereditary.list.1 hv w (List.mem_of_getElem? hi)
  · exact Hereditary.str _
  · exact Hereditary.num _
  · exact Hereditary.none

theorem variableValues_inherits (hl : l.All P) (pairs : Bool) :
    ∀ v ∈ l.variableValues pairs, P v := by
  have hsource := hl.source
  unfold Loop.variableValues
  split
  · rename_i entries hentries
    rw [hentries] at hsource
    split
    · rename_i k w hkw
      obtain ⟨hk, hw⟩ := Hereditary.map.1 hsource (k, w) (List.mem_of_getElem? hkw)
      have hkw : ∀ x ∈ [k, w], P x := List.forall_mem_cons.2 ⟨hk, List.forall_mem_singleton.2 hw⟩
      split
      · exact hkw
      · exact List.forall_mem_singleton.2 (Hereditary.list.2 hkw)
    · exact nofun
  · have hitem := elementAt_inherits hsource l.next
    dsimp only
    split
    · exact List.forall_mem_cons.2 ⟨Hereditary.num _, List.forall_mem_singleton.2 hitem⟩
    · exact List.forall_mem_singleton.2 hitem

theorem accumulate_gives (hl : l.All P) (hv : P v) :
    Gives P (l.accumulate v) fun l' => l'.All P := by
  unfold Loop.accumulate
  split
  · exact hl
  · exact ⟨hl.source, List.forall_mem_cons.2 ⟨hv, hl.items⟩, hl.entries⟩
  · exact hl
  · exact hl
  · rename_i k w _ _ _
    have hkw := Hereditary.list.1 hv
    exact ⟨hl.source, hl.items, Entries.all_insert (hkw k (by simp)) (hkw w (by simp)) hl.entries⟩
  · exact Gives.error rfl

theorem result_inherits (hl : l.All P) : P l.result := by
  unfold Loop.result
  split
  · exact Hereditary.map.2 hl.entries
  · exact Hereditary.list.2 fun v hv => hl.items v (List.mem_reverse.1 hv)

theorem mapMember_inherits {name : Text} {args : List Value} {w : Value} (hv : P v)
    (h : Exec.mapMember v name args = some w) : P w := by
  unfold Exec.mapMember at h
  split at h
  · exact Entries.all_find? (Hereditary.map.1 hv) h
  · cases h

end Rounds

end ScriptMachine
