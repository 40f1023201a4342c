import ScriptMachine.Program.Basic
import Mathlib.Data.List.Basic

set_option autoImplicit false

namespace ScriptMachine

namespace Operation

/-- The registers that an operation reads. -/
def reads : Operation → List Register
  | .halt source | .haltIfError source | .copy source _ | .loadLet _ source | .loadMut _ source
  | .setVariable _ source | .unary _ source _ | .raise source | .cast source _ _ | .ret source
  | .leave source | .ifElse source _ _ _ | .branch _ source _ _ | .collect _ source _ _ => [source]
  | .load .. | .getVariable .. | .tryCatch .. | .makeClosure .. => []
  | .binary _ left right _ | .callCompared _ left right _ _ | .makeRange left right _ _ =>
    [left, right]
  | .makeList args _ | .makeMap args _ | .call _ args _ | .callFunction _ args _
  | .callModule _ _ args _ | .puts args | .log _ _ args => args
  | .callMethod _ first _ args _ | .callValue first args _ => first :: args

/-- The register that an operation writes. -/
def out? : Operation → Option Register
  | .halt .. | .haltIfError .. | .loadLet .. | .loadMut .. | .setVariable .. | .raise .. | .ret ..
  | .leave .. | .puts .. | .log .. => none
  | .load _ out | .copy _ out | .getVariable _ out | .unary _ _ out | .binary _ _ _ out
  | .makeList _ out | .makeMap _ out | .call _ _ out | .callCompared _ _ _ _ out
  | .ifElse _ _ _ out | .branch _ _ _ out | .callFunction _ _ out | .callMethod _ _ _ _ out
  | .callModule _ _ _ out | .tryCatch _ _ _ out | .cast _ out _ | .makeClosure _ out
  | .callValue _ _ out | .makeRange _ _ _ out | .collect _ _ _ out => some out

/-- The scopes that an operation cannot do without. -/
def entered : Operation → List Target
  | .call scope _ _ | .callCompared _ _ _ scope _ | .ifElse _ scope _ _ | .branch _ _ scope _
  | .tryCatch scope _ _ _ | .collect _ _ scope _ => [scope]
  | _ => []

/-- The scopes that an operation may do without. -/
def spare : Operation → List Target
  | .ifElse _ _ otherwise _ => [otherwise]
  | .tryCatch _ handler _ _ => [handler]
  | _ => []

/-- All scopes that an operation names. -/
def blocks (op : Operation) : List Nat := (op.entered ++ op.spare).filterMap id

/-- The closures that an operation makes. -/
def made : Operation → List Nat
  | .makeClosure function _ => [function]
  | _ => []

/-- Whether the registers of a map come in pairs. -/
def Paired : Operation → Prop
  | .makeMap pairs _ => pairs.length % 2 = 0
  | _ => True

end Operation

namespace Scope

def operations (s : Scope) : List Operation := s.code.toList.map Instruction.operation

/-- The operation at the end of the scope. -/
def last? (s : Scope) : Option Operation := s.operations.getLast?

/-- Every operation reads registers 0 and 1, and what earlier operations of the scope write. -/
def ReadsDefined (s : Scope) : Prop :=
  ∀ k (op : Operation), s.operations[k]? = some op → ∀ r ∈ op.reads, r = noneRegister ∨ r = oneRegister ∨
    ∃ (j : Nat) (earlier : Operation), j < k ∧ s.operations[j]? = some earlier ∧ earlier.out? = some r

/-- Every operation writes a register of the scope that is free to be written. -/
def WritesAllotted (s : Scope) : Prop :=
  ∀ op ∈ s.operations, ∀ r, op.out? = some r → firstScratch ≤ r ∧ r < s.registerCount

end Scope

namespace Program

/-- Whether a number is that of a scope of the given kind. -/
def HasKind (p : Program) (kind : ScopeKind) (i : Nat) : Prop :=
  (p.scopes[i]?).map Scope.kind = some kind

def operations (p : Program) : List Operation := p.scopes.toList.flatMap Scope.operations

/-- The scopes that the operations of the program name. -/
def blockOperands (p : Program) : List Nat := p.operations.flatMap Operation.blocks

/-- The closures that the operations of the program make. -/
def closureOperands (p : Program) : List Nat := p.operations.flatMap Operation.made

/-- Everything that an operation names exists and is of the right kind. -/
structure Admits (p : Program) (op : Operation) : Prop where
  entered : ∀ t ∈ op.entered, ∃ i, t = some i ∧ p.HasKind .block i
  spare : ∀ i, some i ∈ op.spare → p.HasKind .block i
  made : ∀ j ∈ op.made, j < p.closures.size
  paired : op.Paired

structure WellFormed (p : Program) : Prop where
  main : ∃ s r, p.scopes[0]? = some s ∧ s.kind = .main ∧ s.last? = some (.halt r)
  ends : ∀ i s, p.scopes[i]? = some s → i ≠ 0 → ∃ r, s.last? = some (.ret r)
  reads : ∀ s ∈ p.scopes, s.ReadsDefined
  writes : ∀ s ∈ p.scopes, s.WritesAllotted
  admits : ∀ op ∈ p.operations, p.Admits op
  functions : ∀ f ∈ p.modules.functions, f.isNative = false → p.HasKind .function f.scope
  closures : ∀ f ∈ p.closures, f.isNative = false ∧ p.HasKind .function f.scope
  /-- Every block belongs to one operand of one operation. -/
  enteredOnce : ∀ i, p.HasKind .block i → p.blockOperands.count i = 1
  /-- Every closure is made in one place. -/
  madeOnce : ∀ j < p.closures.size, p.closureOperands.count j = 1

end Program

end ScriptMachine
