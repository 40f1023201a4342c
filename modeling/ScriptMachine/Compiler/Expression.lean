import ScriptMachine.Compiler.Header

set_option autoImplicit false

namespace ScriptMachine

structure Grammar where
  expression : Compile Register
  /-- A value with prefix and postfix operators. -/
  operand : Compile Register
  statement : Compile Register

/-- A register, and the variable that it was just read from, if it was. -/
structure Operand where
  register : Register
  variableName : Option Text

namespace Compile

def binaryOperator : TokenKind → Option BinaryOp
  | .plus => some .add
  | .minus => some .sub
  | .star => some .mul
  | .slash => some .div
  | .percent => some .rem
  | .shiftLeft => some .shl
  | .shiftRight => some .shr
  | .amp => some .bitAnd
  | .pipe => some .bitOr
  | .caret => some .bitXor
  | .ampAmp | .kwAnd => some .and
  | .pipePipe | .kwOr => some .or
  | .kwXor => some .xor
  | .equalEqual => some .eq
  | .bangEqual => some .neq
  | .less => some .lt
  | .lessEqual => some .lte
  | .greater => some .gt
  | .greaterEqual => some .gte
  | _ => none

def prefixOperator : TokenKind → Option UnaryOp
  | .minus => some .neg
  | .bang => some .not
  | .tilde => some .rev
  | _ => none

def isTypeName (name : Text) : Bool :=
  match name with
  | b :: _ => Text.byte 'A' ≤ b && b ≤ Text.byte 'Z'
  | [] => false

/-- Whether the next token opens an argument of a call without parentheses: `f -1` passes an
argument, `f - 1` subtracts. -/
def startsOperand : Compile Bool := do
  let t ← peek
  match t.kind with
  | .number | .string | .identifier | .kwTrue | .kwFalse | .kwNone | .lbrace => return true
  | .lbracket | .lparen => return t.spaceBefore
  | .pipe | .pipePipe | .minus | .bang | .tilde =>
    let next ← peekAt 1
    return t.spaceBefore && !next.spaceBefore && next.kind ≠ .newline && next.kind ≠ .finish
  | _ => return false

def loadLiteral (v : Value) (site : Token) : Compile Register := do
  let out ← alloc
  emit (.load v out) site
  return out

/-- Arguments in parentheses that touch the name, or up to the end of the line. -/
def callArguments (g : Grammar) : Compile (List Register) := do
  let t ← peek
  if t.kind = .lparen && !t.spaceBefore then
    let _ ← advance
    skipNewlines
    let args ← if ← check .rparen then pure [] else commaSeparated do
      skipNewlines
      let r ← g.expression
      skipNewlines
      return r
    let _ ← expect .rparen "Expected ')' after arguments"
    return args
  else if ← startsOperand then
    commaSeparated do
      skipNewlines
      g.expression
  else return []

def block (g : Grammar) (terminators : List TokenKind) : Compile Register := do
  skipSeparators
  whileReading noneRegister fun last => do
    if ← checkAny (.finish :: terminators) then return (last, false)
    else
      let last ← g.statement
      endStatement
      skipSeparators
      return (last, true)

/-- A block as a scope of its own, with one name bound in it, if one is given. -/
def blockScope (g : Grammar) (name : Text) (terminators : List TokenKind) (site : Token)
    (bound : Option Text) : Compile Nat := do
  let scope ← openScope .block name false false site
  match bound with
  | some n => declare n false
  | none => pure ()
  let last ← block g terminators
  emit (.ret last) (← peek)
  closeScope
  return scope

/-- A condition that ends in a comparison for equality becomes one compare-and-call. The result
starts as none, since a call that is skipped leaves it alone. -/
def equalityBranch (condition : Register) (truth : Bool) (scope : Nat) (out : Register)
    (site : Token) : Compile Bool := do
  let i ← currentScope
  match (← scopeAt i).code.back? with
  | some ⟨.binary op left right target, _⟩ =>
    if target = condition && (op = .eq || op = .neq) then
      modifyScope i fun s => { s with code := s.code.pop }
      emit (.copy noneRegister out) site
      emit (.callCompared ((op = .eq : Bool) == truth) left right (some scope) out) site
      return true
    else return false
  | _ => return false

/-- A trailing condition: the code emitted since `start` moves into a block of its own, which runs
only when the condition holds. -/
def applyGuard (g : Grammar) (start : Nat) (value : Register) : Compile Register := do
  let keyword ← advance
  let source ← currentScope
  let guarded ← addScope .block "<guard>" keyword
  let s ← scopeAt source
  modifyScope guarded fun t =>
    { t with
      code := (s.code.extract start s.code.size).push ⟨.ret value, place keyword⟩
      registerCount := s.registerCount }
  modifyScope source fun s => { s with code := s.code.extract 0 start }
  let condition ← g.expression
  let out ← alloc
  let truth := keyword.kind = .kwIf
  if ← equalityBranch condition truth guarded out keyword then return out
  else
    emit (.branch truth condition (some guarded) out) keyword
    return out

def guards (g : Grammar) (start : Nat) (value : Register) : Compile Register :=
  whileReading value fun value => do
    if ← checkAny [.kwIf, .kwUnless] then return (← applyGuard g start value, true)
    else return (value, false)

def guardedExpression (g : Grammar) : Compile Register := do
  let start ← codeSize
  guards g start (← g.expression)

def functionStatements (g : Grammar) : Compile Unit := do
  if ← accept .equal then
    let equal ← previous
    skipNewlines
    let value ← guardedExpression g
    emit (.ret value) equal
  else
    let last ← block g [.kwEnd]
    let close ← expect .kwEnd "Expected 'end' to close function body"
    emit (.ret last) close

def declareParams (scope : Nat) (params : List Parameter) : Compile Unit := do
  modifyScope scope fun s => { s with params := params.map (·.name) }
  params.forM fun p => declare p.name false

/-- Reads the body of a nested function or lambda and gives the closure's number. -/
def closureBody (g : Grammar) (h : Header) (selfName : Option Text) (isLambda : Bool) :
    Compile Nat := do
  let scope ← within h.name do
    let scope ← openScope .function h.name false true h.token
    modifyScope scope fun s => { s with selfName }
    match selfName with
    | some n => declareCallable n
    | none => pure ()
    declareParams scope h.signature.params
    if isLambda then
      let value ← guardedExpression g
      emit (.ret value) h.token
    else functionStatements g
    let captures := ((← get).opened.head?.map (·.captures)).getD []
    modifyScope scope fun s => { s with captures }
    closeScope
    return scope
  let i := (← get).program.closures.size
  modifyProgram fun p => { p with closures := p.closures.push (h.interpreted scope) }
  return i

def lambda (g : Grammar) : Compile Register := do
  let token ← advance
  let params ← if token.kind = .pipe then
    parameterList .pipe "Expected '|' after lambda parameters" else pure []
  let h : Header := ⟨token, "<lambda>", ⟨params, .any, none, false⟩, []⟩
  let closure ← closureBody g h none true
  let out ← alloc
  emit (.makeClosure closure out) token
  return out

def loopVariables : Compile (List Text) := do
  let first ← expect .identifier "Expected loop variable after 'for'"
  if ← accept .comma then
    let second ← expect .identifier "Expected second loop variable"
    if second.text = first.text then fail "Loop variables must have different names" second
    else return [first.text, second.text]
  else return [first.text]

/-- The body of a map comprehension is a pair; one value is its own key. -/
def pairBody (g : Grammar) (site : Token) : Compile Register := do
  let start ← codeSize
  let key ← g.expression
  let entry ← if ← accept .comma then do
      skipNewlines
      g.expression
    else pure key
  let value ← alloc
  emit (.makeList [key, entry] value) site
  guards g start value

/-- `[for x in source: body]` or the same in braces; the body runs once per element. -/
def comprehension (g : Grammar) (site : Token) (toMap : Bool) : Compile Register := do
  let _ ← advance
  let names ← loopVariables
  let _ ← expect .kwIn "Expected 'in' after loop variables"
  let source ← g.expression
  let _ ← expect .colon "Expected ':' before the loop body"
  skipNewlines
  let body ← openScope .block (if toMap then "<for-map>" else "<for-list>") false false site
  modifyScope body fun s => { s with params := names }
  names.forM fun n => declare n false
  let value ← if toMap then pairBody g site else guardedExpression g
  emit (.ret value) (← peek)
  closeScope
  skipNewlines
  let out ← alloc
  let _ ← if toMap then expect .rbrace "Expected '\x7d' to close map comprehension"
    else expect .rbracket "Expected ']' to close list comprehension"
  emit (.collect toMap source (some body) out) site
  return out

def itemsUntil {α : Type} (close : TokenKind) (item : Compile α) : Compile (List α) := do
  let items ← whileReading ([] : List α) fun items => do
    if ← check close then return (items, false)
    else
      let a ← item
      skipNewlines
      if ← accept .comma then
        skipNewlines
        return (a :: items, true)
      else return (a :: items, false)
  return items.reverse

def listLiteral (g : Grammar) : Compile Register := do
  let site ← advance
  skipNewlines
  if ← check .kwFor then comprehension g site false
  else
    let items ← itemsUntil .rbracket g.expression
    let _ ← expect .rbracket "Expected ']' to close list"
    let out ← alloc
    emit (.makeList items out) site
    return out

/-- An entry of a map: a name before an equals sign is a text key, and a value alone its own key. -/
def mapEntry (g : Grammar) : Compile (List Register) := do
  let t ← peek
  let key ← if t.kind = .identifier && (← peekAt 1).kind = .equal then do
      let name ← advance
      loadLiteral (.str name.text) name
    else g.expression
  if ← accept .equal then
    skipNewlines
    return [key, ← g.expression]
  else return [key, key]

def mapLiteral (g : Grammar) : Compile Register := do
  let site ← advance
  skipNewlines
  if ← check .kwFor then comprehension g site true
  else
    let pairs ← itemsUntil .rbrace (mapEntry g)
    let _ ← expect .rbrace "Expected '\x7d' to close map"
    let out ← alloc
    emit (.makeMap pairs.flatten out) site
    return out

def parenthesized (g : Grammar) : Compile Register := do
  let _ ← advance
  skipNewlines
  let inner ← g.expression
  skipNewlines
  let _ ← expect .rparen "Expected ')' after expression"
  return inner

def elseScope (g : Grammar) : Compile Target := do
  if ← accept .kwElse then return some (← blockScope g "<else>" [.kwEnd] (← previous) none)
  else return none

def ifExpression (g : Grammar) : Compile Register := do
  let keyword ← advance
  let condition ← g.expression
  let body ← blockScope g "<if>" [.kwElse, .kwEnd] keyword none
  let otherwise ← elseScope g
  let _ ← expect .kwEnd "Expected 'end' to close 'if'"
  let out ← alloc
  let fused ← if otherwise.isNone then equalityBranch condition true body out keyword else pure false
  if fused then return out
  else
    emit (.ifElse condition (some body) otherwise out) keyword
    return out

def unlessExpression (g : Grammar) : Compile Register := do
  let keyword ← advance
  let condition ← g.expression
  let body ← blockScope g "<unless>" [.kwElse, .kwEnd] keyword none
  let otherwise ← elseScope g
  let _ ← expect .kwEnd "Expected 'end' to close 'unless'"
  let out ← alloc
  match otherwise with
  | some other =>
    emit (.ifElse condition (some other) (some body) out) keyword
    return out
  | none =>
    if ← equalityBranch condition false body out keyword then return out
    else
      emit (.branch false condition (some body) out) keyword
      return out

def doExpression (g : Grammar) : Compile Register := do
  let keyword ← advance
  let body ← blockScope g "<do>" [.kwEnd] keyword none
  let _ ← expect .kwEnd "Expected 'end' to close 'do'"
  let out ← alloc
  emit (.call (some body) [] out) keyword
  return out

def tryBody (g : Grammar) (keyword : Token) (blockForm : Bool) : Compile Nat := do
  if blockForm then blockScope g "<try>" [.kwCatch, .kwEnd] keyword none
  else
    let body ← openScope .block "<try>" false false keyword
    let value ← g.expression
    emit (.ret value) keyword
    closeScope
    return body

def tryExpression (g : Grammar) : Compile Register := do
  let keyword ← advance
  let blockForm ← checkAny [.newline, .semicolon]
  let body ← tryBody g keyword blockForm
  let (handler, errorName) ← do
    if ← accept .kwCatch then
      let site ← previous
      let errorName ← if ← check .identifier then pure (some (← advance).text) else pure none
      let handler ← blockScope g "<catch>" [.kwEnd] site errorName
      let _ ← expect .kwEnd "Expected 'end' to close 'catch'"
      pure (some handler, errorName)
    else if blockForm then
      let _ ← expect .kwEnd "Expected 'end' to close 'try'"
      pure (none, none)
    else pure (none, none)
  let out ← alloc
  emit (.tryCatch (some body) handler errorName out) keyword
  return out

def raiseExpression (g : Grammar) : Compile Register := do
  let keyword ← advance
  let value ← g.expression
  emit (.raise value) keyword
  return noneRegister

def returnExpression (g : Grammar) : Compile Register := do
  let keyword ← advance
  let value ← if ← startsOperand then g.expression else pure noneRegister
  emit (.leave value) keyword
  return noneRegister

/-- A name: a variable, a call of a nested function, a function of a module, or a function. -/
def identifier (g : Grammar) : Compile Operand := do
  let name ← advance
  match ← lookup name.text with
  | some info =>
    let out ← alloc
    emit (.getVariable name.text out) name
    if info.callable then
      let args ← callArguments g
      let result ← alloc
      emit (.callValue out args result) name
      return ⟨result, none⟩
    else return ⟨out, some name.text⟩
  | none =>
    if isTypeName name.text && (← check .dot) && (← peekAt 1).kind = .identifier then
      let _ ← advance
      let function ← advance
      let args ← callArguments g
      let out ← alloc
      emit (.callModule name.text function.text args out) name
      return ⟨out, none⟩
    else
      let args ← callArguments g
      let out ← alloc
      emit (.callFunction name.text args out) name
      return ⟨out, none⟩

def plainOperand (read : Compile Register) : Compile Operand := do return ⟨← read, none⟩

def primary (g : Grammar) : Compile Operand := do
  let t ← peek
  match t.kind with
  | .number =>
    let _ ← advance
    plainOperand (do loadLiteral (.num (← numberLiteral t)) t)
  | .string =>
    let _ ← advance
    plainOperand (loadLiteral (.str t.text) t)
  | .kwTrue =>
    let _ ← advance
    plainOperand (loadLiteral (.bool true) t)
  | .kwFalse =>
    let _ ← advance
    plainOperand (loadLiteral (.bool false) t)
  | .kwNone =>
    let _ ← advance
    return ⟨noneRegister, none⟩
  | .lbracket => plainOperand (listLiteral g)
  | .lbrace => plainOperand (mapLiteral g)
  | .lparen => plainOperand (parenthesized g)
  | .kwIf => plainOperand (ifExpression g)
  | .kwUnless => plainOperand (unlessExpression g)
  | .kwDo => plainOperand (doExpression g)
  | .kwTry => plainOperand (tryExpression g)
  | .kwRaise => plainOperand (raiseExpression g)
  | .kwReturn => plainOperand (returnExpression g)
  | .pipe | .pipePipe => plainOperand (lambda g)
  | .identifier => identifier g
  | .finish => fail "Unexpected end of input" t
  | _ => fail ("Expected expression, found '" ++ t.text ++ "'") t

def methodCall (g : Grammar) (target : Operand) : Compile Operand := do
  let dot ← advance
  let method ← expect .identifier "Expected method name after '.'"
  let args ← callArguments g
  let out ← alloc
  emit (.callMethod method.text target.register target.variableName args out) dot
  return ⟨out, none⟩

/-- An index in brackets is a call of the method `get`. -/
def indexing (g : Grammar) (target : Operand) : Compile Operand := do
  let site ← advance
  skipNewlines
  let index ← g.expression
  skipNewlines
  let _ ← expect .rbracket "Expected ']' after index"
  let out ← alloc
  emit (.callMethod "get" target.register none [index] out) site
  return ⟨out, none⟩

def valueCall (g : Grammar) (target : Operand) : Compile Operand := do
  let site ← peek
  let args ← callArguments g
  let out ← alloc
  emit (.callValue target.register args out) site
  return ⟨out, none⟩

/-- Everything that can follow a value without a blank. Two exclamation marks stop the program if
the value is an error. -/
def suffixes (g : Grammar) (target : Operand) : Compile Operand :=
  whileReading target fun target => do
    let t ← peek
    if t.kind = .dot then return (← methodCall g target, true)
    else if t.kind = .lbracket && !t.spaceBefore then return (← indexing g target, true)
    else if t.kind = .lparen && !t.spaceBefore then return (← valueCall g target, true)
    else
      let next ← peekAt 1
      if t.kind = .bang && !t.spaceBefore && next.kind = .bang && !next.spaceBefore then
        let bang ← advance
        let _ ← advance
        emit (.haltIfError target.register) bang
        return (target, true)
      else return (target, false)

/-- A minus sign that touches a number belongs to the literal. -/
def operand (g : Grammar) : Compile Register := do
  let t ← peek
  let next ← peekAt 1
  if t.kind = .minus && next.kind = .number && !next.spaceBefore then
    let _ ← advance
    let number ← advance
    let literal ← loadLiteral (.num (← numberLiteral number).neg) t
    return (← suffixes g ⟨literal, none⟩).register
  else match prefixOperator t.kind with
    | some op =>
      let _ ← advance
      let inner ← g.operand
      let out ← alloc
      emit (.unary op inner out) t
      return out
    | none => return (← suffixes g (← primary g)).register

/-- One operator with its right operand, applied to what stands to its left. -/
def operatorStep (g : Grammar) (left : Register) : Compile (Register × Bool) := do
  let t ← peek
  match t.kind with
  | .kwAs =>
    let _ ← advance
    let type ← typeName
    let out ← alloc
    emit (.cast left out type) t
    return (out, true)
  | .dotDot | .dotDotEqual =>
    let _ ← advance
    let stop ← g.operand
    let out ← alloc
    emit (.makeRange left stop (t.kind = .dotDotEqual) out) t
    return (out, true)
  | kind =>
    match binaryOperator kind with
    | some op =>
      let _ ← advance
      skipNewlines
      let right ← g.operand
      let out ← alloc
      emit (.binary op left right out) t
      return (out, true)
    | none => return (left, false)

def expression (g : Grammar) : Compile Register := do
  whileReading (← g.operand) (operatorStep g)

end Compile

end ScriptMachine
