import ScriptMachine.Compiler.Expression

set_option autoImplicit false

namespace ScriptMachine

namespace Compile

def functionBody (g : Grammar) (h : Header) : Compile Nat :=
  within h.qualifiedName do
    let scope ← openScope .function h.qualifiedName true false h.token
    declareParams scope h.signature.params
    if h.signature.receiver.isSome then declare "self" h.signature.mutableReceiver
    functionStatements g
    closeScope
    return scope

def functionDefinition (g : Grammar) : Compile Unit := do
  let h ← header (← tags) none
  let scope ← functionBody g h
  register fun r => r.defineFunction (h.interpreted scope)

/-- A function inside another scope is a closure bound to its name. -/
def nestedFunction (g : Grammar) : Compile Register := do
  let h ← header [] none
  if h.signature.receiver.isSome then
    fail "Extension functions must be declared at top level" h.token
  else
    let closure ← closureBody g h (some h.name) false
    let out ← alloc
    emit (.makeClosure closure out) h.token
    emit (.loadLet h.name out) h.token
    declareCallable h.name
    return noneRegister

/-- Whether the signature just read stands alone: the next thing is another member or the end. -/
def isDeclarationOnly : Compile Bool := do
  let mark ← get
  skipSeparators
  let alone ← checkAny [.kwFn, .kwEnd, .atSign]
  set mark
  return alone

/-- A member of a trait: a signature, and a function if it comes with a default body. -/
def traitMember (g : Grammar) (owner : Text) : Compile ((Text × Signature) × Option Function) := do
  let h ← header (← tags) none
  let member := (h.name, h.signature)
  if ← isDeclarationOnly then
    endStatement
    return (member, none)
  else
    let scope ← functionBody g h
    return (member, some { h.interpreted scope with module := owner })

def members {α : Type} (a : α) (what : Text) (member : α → Compile α) : Compile α := do
  skipSeparators
  let a ← whileReading a fun a => do
    if ← check .kwEnd then return (a, false)
    else if ← isAtEnd then fail ("Expected 'end' to close " ++ what) (← peek)
    else
      let a ← member a
      skipSeparators
      return (a, true)
  let _ ← advance
  return a

def traitDeclaration (g : Grammar) : Compile Unit := do
  let _ ← advance
  let name ← expect .identifier "Expected trait name"
  let found ← members ([] : List ((Text × Signature) × Option Function))
    ("trait '" ++ name.text ++ "'") fun found => do return (← traitMember g name.text) :: found
  let found := found.reverse
  register fun r => r.declareTrait ⟨name.text, found.map Prod.fst⟩
  (found.filterMap Prod.snd).forM fun f => register fun r => r.implement name.text f

def implementAt (owner : Text) (f : Function) (site : Token) : Compile Unit := do
  match (← get).program.modules.implement owner f with
  | .ok modules => modifyProgram fun p => { p with modules }
  | .error e => fail e.message.untilNul site

def implMember (g : Grammar) (owner : Text) : Compile Unit := do
  let h ← header (← tags) none
  let scope ← functionBody g h
  implementAt owner { h.interpreted scope with module := owner } h.token

/-- A built-in trait becomes one of the program's own when the program implements it. -/
def adoptTrait (name : Text) : Compile Unit := do
  let d ← get
  match d.program.modules.trait? name, d.builtins.bind fun b => b.trait? name with
  | none, some t => register fun r => r.declareTrait t
  | _, _ => return ()

def implBlock (g : Grammar) : Compile Unit := do
  let _ ← advance
  let name ← expect .identifier "Expected trait name after 'impl'"
  adoptTrait name.text
  if ((← get).program.modules.trait? name.text).isNone then
    fail ("Unknown trait '" ++ name.text ++ "'") name
  else members () ("impl '" ++ name.text ++ "'") fun _ => implMember g name.text

def field : Compile Field := do
  let name := (← expect .identifier "Expected attribute name").text
  let type ← typeAnnotation
  let default ← if ← accept .equal then pure (some (← literalValue)) else pure none
  endStatement
  return ⟨name, type, default⟩

def objectMember (g : Grammar) (owner : Text) (fields : List Field) : Compile (List Field) := do
  if ← accept .kwAttr then return (← field) :: fields
  else if ← checkAny [.kwFn, .atSign] then
    let h ← header (← tags) (some owner)
    let scope ← functionBody g h
    register fun r => r.defineFunction { h.interpreted scope with module := owner }
    return fields
  else fail "Expected 'attr' or 'fn' in object body" (← peek)

def constructRecord (t : RecordType) : Native := fun call host =>
  let (id, host) := host.freshId
  ⟨host, call.self, (t.construct id call.args).mapError .fault⟩

def constructor (t : RecordType) (site : Token) : Function :=
  let params := t.fields.map fun f => ⟨f.name, f.type, f.default⟩
  { Registry.nativeFunction "new" ⟨params, .named t.name, none, false⟩ (some (constructRecord t)) with
    module := t.name
    location := place site }

def objectDeclaration (g : Grammar) : Compile Unit := do
  let _ ← advance
  let name ← expect .identifier "Expected object name"
  if DeclaredType.named name.text ≠ .custom name.text then
    fail ("Object '" ++ name.text ++ "' shadows a built-in type") name
  else
    let fields ← members ([] : List Field) ("object '" ++ name.text ++ "'") fun fields =>
      objectMember g name.text fields
    let p := (← get).program
    let t : RecordType := ⟨⟨p.id, p.recordTypes.length⟩, name.text, fields.reverse⟩
    modifyProgram fun p => { p with recordTypes := p.recordTypes ++ [t] }
    register fun r => r.defineFunction (constructor t name)

def importStatement : Compile Unit := do
  let _ ← advance
  let name ← expect .identifier "Expected module name after 'import'"
  let d ← get
  let known := d.program.modules.hasModule name.text ||
    (d.builtins.map fun b => b.hasModule name.text).getD false
  if known then
    modifyProgram fun p => { p with imports := p.imports ++ [⟨name.text, place name⟩] }
  else fail ("Unknown module '" ++ name.text ++ "'") name

end Compile

end ScriptMachine
