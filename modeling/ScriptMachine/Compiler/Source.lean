import ScriptMachine.Compiler.Declaration
import ScriptMachine.Token.Lexer

set_option autoImplicit false

namespace ScriptMachine

namespace Compile

def compoundOperator : TokenKind → Option BinaryOp
  | .plusEqual => some .add
  | .minusEqual => some .sub
  | .starEqual => some .mul
  | .slashEqual => some .div
  | .percentEqual => some .rem
  | .shiftLeftEqual => some .shl
  | .shiftRightEqual => some .shr
  | .ampEqual => some .bitAnd
  | .pipeEqual => some .bitOr
  | .caretEqual => some .bitXor
  | _ => none

def binding (g : Grammar) (isMutable : Bool) : Compile Register := do
  let keyword ← advance
  let name ← expect .identifier "Expected variable name"
  let _ ← expect .equal "Expected '=' after variable name"
  let value ← guardedExpression g
  emit (if isMutable then .loadMut name.text value else .loadLet name.text value) keyword
  declare name.text isMutable
  return value

def assignTwice {α : Type} (name : Token) : Compile α :=
  fail ("Cannot assign twice to immutable variable '" ++ name.text ++ "'") name

/-- An assignment to an unknown name declares it. -/
def assignment (g : Grammar) : Compile Register := do
  let name ← advance
  let _ ← advance
  match ← lookup name.text with
  | some info =>
    if !info.isMutable then assignTwice name
    else
      let value ← guardedExpression g
      emit (.setVariable name.text value) name
      return value
  | none =>
    let value ← guardedExpression g
    emit (.loadLet name.text value) name
    declare name.text false
    return value

def compoundAssignment (g : Grammar) (op : BinaryOp) : Compile Register := do
  let name ← advance
  let sign ← advance
  match ← lookup name.text with
  | none => fail ("Unknown variable '" ++ name.text ++ "'") name
  | some info =>
    if !info.isMutable then assignTwice name
    else
      let current ← alloc
      emit (.getVariable name.text current) name
      let right ← guardedExpression g
      let out ← alloc
      emit (.binary op current right out) sign
      emit (.setVariable name.text out) name
      return out

def putsStatement (g : Grammar) (keyword : Token) : Compile Register := do
  let values ← if ← startsOperand then
      commaSeparated do
        skipNewlines
        g.expression
    else pure []
  emit (.puts values) keyword
  return noneRegister

def logStatement (g : Grammar) (keyword : Token) : Compile Register := do
  let levelToken ← expect .identifier "Expected log level"
  match LogLevel.parse levelToken.text with
  | none => fail ("Unknown log level '" ++ levelToken.text ++ "'") levelToken
  | some level =>
    let _ ← expect .comma "Expected ',' after log level"
    let template ← expect .string "Expected message template"
    let values ← if ← accept .comma then
        commaSeparated do
          skipNewlines
          g.expression
      else pure []
    emit (.log level template.text values) keyword
    return noneRegister

def simpleStatement (g : Grammar) : Compile Register := do
  let t ← peek
  let start ← codeSize
  let value ← do
    if ← accept .kwPuts then putsStatement g t
    else if ← accept .kwLog then logStatement g t
    else g.expression
  guards g start value

def topLevel (site : Token) (what : Text) (declaration : Compile Unit) : Compile Register := do
  requireTopLevel site what
  declaration
  return noneRegister

def statement (g : Grammar) : Compile Register := do
  let t ← peek
  match t.kind with
  | .kwLet => binding g false
  | .kwMut => binding g true
  | .kwFn =>
    if ← atTopLevel then
      functionDefinition g
      return noneRegister
    else nestedFunction g
  | .atSign => topLevel t "Tagged functions" (functionDefinition g)
  | .kwTrait => topLevel t "Traits" (traitDeclaration g)
  | .kwImpl => topLevel t "Trait implementations" (implBlock g)
  | .kwObject => topLevel t "Objects" (objectDeclaration g)
  | .kwImport => topLevel t "Imports" importStatement
  | .identifier =>
    let next ← peekAt 1
    if next.kind = .equal then assignment g
    else match compoundOperator next.kind with
      | some op => compoundAssignment g op
      | none => simpleStatement g
  | _ => simpleStatement g

/-- The grammar whose recursive parts nest at most `depth` deep. -/
def grammar : (depth : Nat) → Grammar
  | 0 => ⟨throw .exhausted, throw .exhausted, throw .exhausted⟩
  | depth + 1 =>
    let inner := grammar depth
    ⟨expression inner, operand inner, statement inner⟩

def wholeProgram (g : Grammar) : Compile Unit := do
  let _ ← openScope .main "<main>" false false (← peek)
  let last ← block g []
  if ← isAtEnd then
    emit (.halt last) (← peek)
    closeScope
  else
    let t ← peek
    fail ("Unexpected '" ++ t.text ++ "'") t

end Compile

/-- A token list without an end token gets one, right after its last token. -/
def withEndToken (tokens : List Token) : List Token × Token :=
  match tokens.getLast? with
  | none =>
    let finish : Token := ⟨.finish, [], 1, 1, false⟩
    ([finish], finish)
  | some t =>
    if t.kind = .finish then (tokens, t)
    else
      let finish : Token := ⟨.finish, [], t.line, t.column + t.text.length, false⟩
      (tokens ++ [finish], finish)

def compileTokens (builtins : Option Registry) (id : Nat) (tokens : List Token) :
    Except CompileError Program :=
  let (tokens, final) := withEndToken tokens
  let program : Program := ⟨id, #[], .empty, [], #[], []⟩
  let draft : Draft := ⟨tokens, none, final, builtins, program, [], "<main>"⟩
  match (Compile.wholeProgram (Compile.grammar (4 * (tokens.length + 1)))).run draft with
  | .ok _ d => .ok d.program
  | .error e _ => .error e

def compileSource (builtins : Option Registry) (id : Nat) (source : Text) :
    Except CompileError Program :=
  match tokenize source with
  | .ok tokens => compileTokens builtins id tokens
  | .error e => .error (.source e.message e.location "<main>")

end ScriptMachine
