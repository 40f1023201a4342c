import ScriptMachine.Program.Basic
import ScriptMachine.Token.Basic
import ScriptMachine.Operator.Unary

set_option autoImplicit false

/-!
# A program under construction

Code is emitted into the innermost open scope while tokens are read; no tree is built. Reading goes
forward only, never past an end token, and the state of a failed reading is kept.
-/
namespace ScriptMachine

inductive CompileError where
  /-- The source is wrong at a place, inside a function. -/
  | source (message : Text) (location : Location) (function : Text)
  | registry (e : RegistryError)
  /-- The bound on the depth of the recursion was too low. -/
  | exhausted

namespace CompileError

/-- A diagnostic with its place in front; it ends at a NUL byte. -/
def message : CompileError → Text
  | .source m l f =>
    (Text.ofNat l.line ++ ":" ++ Text.ofNat l.column ++ ": error: " ++ m ++ " [function: " ++ f ++
      "]").untilNul
  | .registry e => e.message.untilNul
  | .exhausted => "nesting too deep"

end CompileError

/-- What is known of a declared name. A bare mention of a callable one calls it. -/
structure NameInfo where
  isMutable : Bool
  callable : Bool
  deriving DecidableEq, Inhabited

structure OpenScope where
  scope : Nat
  names : List (Text × NameInfo)
  /-- The body of a function sees only its own names and those of the top level. -/
  isFunction : Bool
  /-- The body of a closure sees all enclosing names and lists the local ones that it uses. -/
  isClosure : Bool
  captures : List Text
  deriving Inhabited

namespace OpenScope

def declare (s : OpenScope) (name : Text) (info : NameInfo) : OpenScope :=
  { s with names := (name, info) :: s.names.filter fun e => e.1 != name }

def capture (s : OpenScope) (name : Text) : OpenScope :=
  if s.isClosure && !s.captures.contains name then { s with captures := s.captures ++ [name] }
  else s

/-- Finds a name from the innermost scope outwards. Also says whether it is local, that is, found
below the top level, and gives the scopes with such a name captured by the closures in between. -/
def resolve (globals : List (Text × NameInfo)) (name : Text) :
    List OpenScope → Option (NameInfo × Bool × List OpenScope)
  | [] => none
  | s :: rest =>
    match s.names.lookup name with
    | some info => some (info, !rest.isEmpty, s :: rest)
    | none =>
      if s.isFunction then (globals.lookup name).map fun info => (info, false, s :: rest)
      else (resolve globals name rest).map fun (info, isLocal, rest) =>
        (info, isLocal, (if isLocal then s.capture name else s) :: rest)

end OpenScope

structure Draft where
  /-- The tokens not read yet. -/
  ahead : List Token
  /-- The last token read. -/
  previous : Option Token
  /-- The token that stands for all places past the last one. -/
  final : Token
  builtins : Option Registry
  program : Program
  /-- Innermost first; the last one is the top level. -/
  opened : List OpenScope
  /-- The function being read, for diagnostics. -/
  functionName : Text

abbrev Compile := EStateM CompileError Draft

namespace Compile

def peek : Compile Token := do
  let d ← get
  return d.ahead.headD d.final

def peekAt (i : Nat) : Compile Token := do
  let d ← get
  return (d.ahead[i]?).getD d.final

def previous : Compile Token := do
  match (← get).previous with
  | some t => return t
  | none => peek

def isAtEnd : Compile Bool := do return (← peek).kind = .finish

def advance : Compile Token := do
  let t ← peek
  if t.kind = .finish then previous
  else
    modify fun d => { d with ahead := d.ahead.tail, previous := some t }
    return t

def check (kind : TokenKind) : Compile Bool := do return (← peek).kind = kind

def checkAny (kinds : List TokenKind) : Compile Bool := do return kinds.contains (← peek).kind

def accept (kind : TokenKind) : Compile Bool := do
  if ← check kind then
    let _ ← advance
    return true
  else return false

def fail {α : Type} (message : Text) (site : Token) : Compile α := do
  throw (.source message ⟨site.line, site.column⟩ (← get).functionName)

def expect (kind : TokenKind) (message : Text) : Compile Token := do
  if ← check kind then advance else fail message (← peek)

def skipTokens (kinds : List TokenKind) : Option Token → List Token → Option Token × List Token
  | previous, [] => (previous, [])
  | previous, t :: rest =>
    if kinds.contains t.kind then skipTokens kinds (some t) rest else (previous, t :: rest)

def skip (kinds : List TokenKind) : Compile Unit :=
  modify fun d =>
    let (previous, ahead) := skipTokens kinds d.previous d.ahead
    { d with previous, ahead }

def skipNewlines : Compile Unit := skip [.newline]
def skipSeparators : Compile Unit := skip [.newline, .semicolon]

/-- A statement ends with a separator, or before the end of a block or of the source. -/
def endStatement : Compile Unit := do
  if ← accept .newline then return ()
  else if ← accept .semicolon then return ()
  else if ← checkAny [.finish, .kwEnd, .kwElse, .kwCatch] then return ()
  else
    let t ← peek
    fail ("Expected end of statement before '" ++ t.text ++ "'") t

def loop {α : Type} (step : α → Compile (α × Bool)) : Nat → α → Compile α
  | 0, _ => throw .exhausted
  | limit + 1, a => do
    let (b, again) ← step a
    if again then loop step limit b else return b

/-- Repeats a step that reads at least one token whenever it asks to be taken again. -/
def whileReading {α : Type} (a : α) (step : α → Compile (α × Bool)) : Compile α := do
  loop step ((← get).ahead.length + 1) a

def commaSeparated {α : Type} (item : Compile α) : Compile (List α) := do
  let items ← whileReading ([] : List α) fun items => do
    let a ← item
    return (a :: items, ← accept .comma)
  return items.reverse

def place (t : Token) : Location := ⟨t.line, t.column⟩

def modifyProgram (f : Program → Program) : Compile Unit :=
  modify fun d => { d with program := f d.program }

def addScope (kind : ScopeKind) (name : Text) (site : Token) : Compile Nat := do
  let i := (← get).program.scopes.size
  let scope : Scope := ⟨name, kind, [], #[], firstScratch, place site, [], none⟩
  modifyProgram fun p => { p with scopes := p.scopes.push scope }
  return i

def openScope (kind : ScopeKind) (name : Text) (isFunction isClosure : Bool) (site : Token) :
    Compile Nat := do
  let scope ← addScope kind name site
  modify fun d => { d with opened := ⟨scope, [], isFunction, isClosure, []⟩ :: d.opened }
  return scope

def closeScope : Compile Unit := modify fun d => { d with opened := d.opened.tail }

def currentScope : Compile Nat := do return ((← get).opened.head?.map (·.scope)).getD 0

def modifyScope (i : Nat) (f : Scope → Scope) : Compile Unit :=
  modifyProgram fun p => { p with scopes := p.scopes.modify i f }

def scopeAt (i : Nat) : Compile Scope := do return ((← get).program.scopes[i]?).getD default

def alloc : Compile Register := do
  let i ← currentScope
  let r := (← scopeAt i).registerCount
  modifyScope i fun s => { s with registerCount := r + 1 }
  return r

def emit (op : Operation) (site : Token) : Compile Unit := do
  modifyScope (← currentScope) fun s => { s with code := s.code.push ⟨op, place site⟩ }

def codeSize : Compile Nat := do return (← scopeAt (← currentScope)).code.size

def declareAs (name : Text) (info : NameInfo) : Compile Unit :=
  modify fun d =>
    match d.opened with
    | s :: rest => { d with opened := s.declare name info :: rest }
    | [] => d

def declare (name : Text) (isMutable : Bool) : Compile Unit := declareAs name ⟨isMutable, false⟩

def declareCallable (name : Text) : Compile Unit := declareAs name ⟨false, true⟩

/-- Looks a name up; enclosing closures capture it if it is a local name of an outer scope. -/
def lookup (name : Text) : Compile (Option NameInfo) := do
  let d ← get
  let globals := (d.opened.getLast?.map (·.names)).getD []
  match OpenScope.resolve globals name d.opened with
  | some (info, _, opened) =>
    set { d with opened }
    return some info
  | none => return none

def atTopLevel : Compile Bool := do return (← get).opened.length = 1

def requireTopLevel (site : Token) (what : Text) : Compile Unit := do
  if ← atTopLevel then return ()
  else fail (what ++ " must be declared at top level") site

def within {α : Type} (name : Text) (body : Compile α) : Compile α := do
  let saved := (← get).functionName
  modify fun d => { d with functionName := name }
  let a ← body
  modify fun d => { d with functionName := saved }
  return a

def register (f : Registry → Except RegistryError Registry) : Compile Unit := do
  match f (← get).program.modules with
  | .ok modules => modifyProgram fun p => { p with modules }
  | .error e => throw (.registry e)

end Compile

end ScriptMachine
