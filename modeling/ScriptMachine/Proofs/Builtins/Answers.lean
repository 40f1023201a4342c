import ScriptMachine.Builtins.StandardModule

set_option autoImplicit false

namespace ScriptMachine

namespace StandardModule

variable {name : Text} {b : Builtin} {self self' v : Value} {args : List Value}

/-- Called on a value, the method of the given name ends with `result` and leaves `self'` as the value. -/
def Answers (name : Text) (self : Value) (args : List Value) (self' : Value)
    (result : Except Failure Value) : Prop :=
  ∃ b, functions.find? (fun b => b.name == name) = some b ∧
    ∀ depth host, b.code ⟨some self, args, depth⟩ host = ⟨host, some self', result⟩

theorem Answers.result_eq {r r' : Except Failure Value} (h : Answers name self args self' r)
    (h' : Answers name self args v r') : r = r' := by
  obtain ⟨b, hb, hcode⟩ := h
  obtain ⟨c, hc, hcode'⟩ := h'
  cases hb.symm.trans hc
  have host : Host := ⟨.empty, ⟨[], false, []⟩, none, 0, 1⟩
  exact congrArg NativeOutcome.result ((hcode 0 host).symm.trans (hcode' 0 host))

theorem answers_reading {f : NativeCall → Except Failure Value} {r : Except Failure Value}
    (hb : functions.find? (fun b => b.name == name) = some b) (hcode : b.code = Native.reading f)
    (hf : ∀ depth, f ⟨some self, args, depth⟩ = r) : Answers name self args self r := by
  refine ⟨b, hb, fun depth host => ?_⟩
  rw [hcode, Native.reading, hf]

theorem answers_replacing {f : NativeCall → Except Failure (Value × Value)}
    (hb : functions.find? (fun b => b.name == name) = some b) (hcode : b.code = Native.replacing f)
    (hf : ∀ depth, f ⟨some self, args, depth⟩ = .ok (v, self')) : Answers name self args self' (.ok v) := by
  refine ⟨b, hb, fun depth host => ?_⟩
  rw [hcode, Native.replacing, hf]

theorem answers_replacing_error {f : NativeCall → Except Failure (Value × Value)} {e : Failure}
    (hb : functions.find? (fun b => b.name == name) = some b) (hcode : b.code = Native.replacing f)
    (hf : ∀ depth, f ⟨some self, args, depth⟩ = .error e) : Answers name self args self (.error e) := by
  refine ⟨b, hb, fun depth host => ?_⟩
  rw [hcode, Native.replacing, hf]

end StandardModule

end ScriptMachine
