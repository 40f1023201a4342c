import ScriptMachine.Compiler.Draft

set_option autoImplicit false

namespace ScriptMachine

namespace Compile

def numberLiteral (t : Token) : Compile Number := do
  match Number.parse t.text with
  | some n => return n
  | none => fail ("Malformed number literal '" ++ t.text ++ "'") t

/-- A literal that can be a default or an argument of a tag. -/
def literalValue : Compile Value := do
  let t ← peek
  match t.kind with
  | .minus =>
    if (← peekAt 1).kind = .number then
      let _ ← advance
      return .num (← numberLiteral (← advance)).neg
    else fail "Expected a literal value" t
  | .number => return .num (← numberLiteral (← advance))
  | .string => return .str (← advance).text
  | .kwTrue =>
    let _ ← advance
    return .bool true
  | .kwFalse =>
    let _ ← advance
    return .bool false
  | .kwNone =>
    let _ ← advance
    return .none
  | .lbracket =>
    let _ ← advance
    let _ ← expect .rbracket "Only an empty list can be used as a literal value"
    return .list []
  | .lbrace =>
    let _ ← advance
    let _ ← expect .rbrace "Only an empty map can be used as a literal value"
    return .map []
  | _ => fail "Expected a literal value" t

def typeName : Compile DeclaredType := do
  return .named (← expect .identifier "Expected type name").text

def typeAnnotation : Compile DeclaredType := do
  if ← accept .colon then typeName else return .any

def tag : Compile Tag := do
  let name := (← expect .identifier "Expected lifecycle name after '@'").text
  if ← accept .lparen then
    let args ← if ← check .rparen then pure [] else commaSeparated literalValue
    let _ ← expect .rparen "Expected ')' after lifecycle arguments"
    return ⟨name, args⟩
  else return ⟨name, []⟩

def tags : Compile (List Tag) := do
  let found ← whileReading ([] : List Tag) fun found => do
    if ← accept .atSign then
      let t ← tag
      skipSeparators
      return (t :: found, true)
    else return (found, false)
  if found.isEmpty || (← check .kwFn) then return found.reverse
  else fail "Expected 'fn' after lifecycle tags" (← peek)

/-- One parameter after those in `params`, newest first. After a default all have defaults. -/
def parameter (params : List Parameter) : Compile Parameter := do
  let name := (← expect .identifier "Expected parameter name").text
  let type ← typeAnnotation
  if ← accept .equal then return ⟨name, type, some (← literalValue)⟩
  else if (params.head?.map fun p => p.default.isSome).getD false then
    fail ("Parameter '" ++ name ++ "' without default follows a defaulted one") (← previous)
  else return ⟨name, type, none⟩

def parameterList (close : TokenKind) (message : Text) : Compile (List Parameter) := do
  skipNewlines
  let params ← if ← check close then pure [] else
    whileReading ([] : List Parameter) fun params => do
      skipNewlines
      let p ← parameter params
      skipNewlines
      return (p :: params, ← accept .comma)
  let _ ← expect close message
  return params.reverse

structure Header where
  token : Token
  name : Text
  signature : Signature
  tags : List Tag

namespace Header

def qualifiedName (h : Header) : Text :=
  match h.signature.receiver with
  | some t => t.name ++ "." ++ h.name
  | none => h.name

def interpreted (h : Header) (scope : Nat) : Function :=
  ⟨.interpreted, [], h.name, h.signature, scope, h.tags, place h.token, 0⟩

end Header

def header (tags : List Tag) (owner : Option Text) : Compile Header := do
  let token ← expect .kwFn "Expected 'fn'"
  let mutableReceiver ← accept .kwMut
  let first ← expect .identifier "Expected function name"
  let (name, receiver) ← do
    if ← accept .dot then
      let name ← expect .identifier "Expected function name after receiver type"
      pure (name.text, some (DeclaredType.named first.text))
    else pure (first.text, owner.map DeclaredType.named)
  if mutableReceiver && receiver.isNone then
    fail "Only extension functions take a mutable receiver" first
  else
    let params ← if ← accept .lparen then parameterList .rparen "Expected ')' after parameters"
      else pure []
    let returns ← if ← accept .arrow then typeName else pure .any
    return ⟨token, name, ⟨params, returns, receiver, mutableReceiver⟩, tags⟩

end Compile

end ScriptMachine
