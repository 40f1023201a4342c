import ScriptMachine.Machine.State

set_option autoImplicit false

namespace ScriptMachine

namespace Location

/-- A place as one word, with the line in its upper half and the column joined in bit by bit. Lines
and columns below 2^32 are ranked in source order; a wider column runs into the line. -/
def rank (l : Location) : UInt64 := (l.line.toUInt64 <<< 32) ||| l.column.toUInt64

end Location

namespace Program

def importRank (p : Program) (f : Function) : UInt64 :=
  if f.module.isEmpty then 0
  else match p.imports.reverse.find? fun i => i.module == f.module with
    | some i => i.location.rank
    | none => 0

def bestRanked (p : Program) : List Function → Option Function
  | [] => none
  | f :: rest =>
    match bestRanked p rest with
    | none => some f
    | some g => if p.importRank f < p.importRank g then some g else some f

/-- The program's own function, unless a built-in one was imported after it. -/
def preferred (p : Program) (own : Option Function) (builtins : List Function) : Option Function :=
  match own, p.bestRanked builtins with
  | none, best => best
  | some f, none => some f
  | some f, some best => if p.importRank best ≤ f.location.rank then some f else some best

end Program

namespace Setup

def reachable (s : Setup) : Option Registry := if s.options.disableModules then none else s.builtins

def findFunction (s : Setup) (name : Text) : Option Function :=
  let own := s.program.modules.resolveFunction name
  match s.reachable with
  | none => own
  | some b => s.program.preferred own (b.functionCandidates name)

def findExtension (s : Setup) (name : Text) (receiver : Value) : Option Function :=
  let own := s.program.modules.resolveExtension name receiver
  match s.reachable with
  | none => own
  | some b => s.program.preferred own (b.extensionCandidates name receiver)

def findModuleFunction (s : Setup) (module name : Text) : Option Function :=
  (s.program.modules.resolveModuleFunction module name).or
    (s.reachable.bind fun b => b.resolveModuleFunction module name)

def findModuleExtension (s : Setup) (module name : Text) (receiver : Value) : Option Function :=
  (s.program.modules.resolveModuleExtension module name receiver).or
    (s.reachable.bind fun b => b.resolveModuleExtension module name receiver)

/-- The fault of a call that finds nothing; it tells if a trait at least declares the name. -/
def unknownFunction (s : Setup) (what name : Text) : Fault :=
  let declared := s.program.modules.isDeclared name ||
    (s.reachable.map fun b => b.isDeclared name).getD false
  let remark : Text := if declared then " (declared but not implemented)" else []
  .unknownFunction ("Unknown " ++ what ++ ": " ++ name ++ remark)

end Setup

end ScriptMachine
