import ScriptMachine.Token.Basic
import ScriptMachine.Fault

set_option autoImplicit false

/-!
# Splitting source text into tokens

The source is read from left to right. Blanks, comments and escaped line ends are skipped, and every
token is the longest one that starts where the last one ended. Lines that hold no token do not count
as separators of their own.
-/
namespace ScriptMachine

structure Position where
  offset : Nat
  line : Nat
  column : Nat
  deriving DecidableEq, Inhabited

namespace Position

def start : Position := ⟨0, 1, 1⟩

def next (p : Position) (b : UInt8) : Position :=
  if b == Text.byte '\n' then ⟨p.offset + 1, p.line + 1, 1⟩
  else ⟨p.offset + 1, p.line, p.column + 1⟩

def after (p : Position) (t : Text) : Position := t.foldl next p

end Position

structure LexError where
  message : Text
  location : Location

namespace Lexer

def isWordStart (b : UInt8) : Bool := Text.isLetter b || b == Text.byte '_'
def isWordByte (b : UInt8) : Bool := isWordStart b || Text.isDigit b
def isBlank (b : UInt8) : Bool :=
  b == Text.byte ' ' || b == Text.byte '\r' || b == Text.byte '\t'

def commentLength (t : Text) : Nat := (t.takeWhile (· != Text.byte '\n')).length

/-- How many bytes are skipped before the next token: blanks, escaped line ends and a comment. -/
def skipLength : Text → Nat
  | [] => 0
  | b :: rest =>
    if isBlank b then skipLength rest + 1
    else if b == Text.byte '#' then commentLength rest + 1
    else match rest with
      | [] => 0
      | c :: rest => if b == Text.byte '\\' && c == Text.byte '\n' then skipLength rest + 2 else 0

/-- A token without its place, and how many bytes it takes after its first one. -/
structure Lexeme where
  kind : TokenKind
  text : Text
  more : Nat

def word (b : UInt8) (rest : Text) : Lexeme :=
  let tail := rest.takeWhile isWordByte
  ⟨TokenKind.ofWord (b :: tail), b :: tail, tail.length⟩

def isNumberByte (b : UInt8) : Bool := Text.isDigit b || b == Text.byte '_'

def fraction : Text → Text
  | p :: d :: rest =>
    if p == Text.byte '.' && Text.isDigit d then p :: d :: rest.takeWhile isNumberByte else []
  | _ => []

def isSuffix (b : UInt8) : Bool :=
  b == Text.byte 'u' || b == Text.byte 'i' || b == Text.byte 'f'

/-- The letter that chooses a number's representation, unless a longer word follows. -/
def suffix : Text → Text
  | s :: c :: _ => if isSuffix s && !isWordByte c then [s] else []
  | [s] => if isSuffix s then [s] else []
  | [] => []

def number (b : UInt8) (rest : Text) : Option Lexeme :=
  let whole := rest.takeWhile isNumberByte
  let rest := rest.drop whole.length
  let part := fraction rest
  let rest := rest.drop part.length
  let letter := suffix rest
  let rest := rest.drop letter.length
  let text := b :: (whole ++ part ++ letter)
  if (rest.head?.map isWordByte).getD false then none else some ⟨.number, text, text.length - 1⟩

def unescape (b : UInt8) : UInt8 :=
  if b == Text.byte 'n' then Text.byte '\n'
  else if b == Text.byte 't' then Text.byte '\t'
  else if b == Text.byte 'r' then Text.byte '\r'
  else if b == Text.byte '0' then 0
  else b

inductive Unterminated where
  | literal
  | escape

def quoted (quote : UInt8) : Text → Except Unterminated (Text × Nat)
  | [] => .error .literal
  | b :: rest =>
    if b == quote then .ok ([], 1)
    else if b == Text.byte '\\' then
      match rest with
      | [] => .error .escape
      | e :: rest => do
        let (value, n) ← quoted quote rest
        return (unescape e :: value, n + 2)
    else do
      let (value, n) ← quoted quote rest
      return (b :: value, n + 1)

def sign (t : Text) : Option Lexeme :=
  (TokenKind.signs.find? fun s => s.1.isPrefixOf t).map fun s => ⟨s.2, s.1, s.1.length - 1⟩

def located (message : Text) (p : Position) : LexError := ⟨message, ⟨p.line, p.column⟩⟩

/-- The token that starts with the byte `b` at place `p`. A line end is written as in a literal. -/
def lexeme (p : Position) (b : UInt8) (rest : Text) : Except LexError Lexeme :=
  if b == Text.byte '\n' then .ok ⟨.newline, "\\n", 0⟩
  else if isWordStart b then .ok (word b rest)
  else if Text.isDigit b then
    match number b rest with
    | some l => .ok l
    | none => .error (located "Malformed number literal" p)
  else if b == Text.byte '"' || b == Text.byte '\'' then
    match quoted b rest with
    | .ok (value, n) => .ok ⟨.string, value, n⟩
    | .error .literal => .error (located "Unterminated string literal" p)
    | .error .escape =>
      .error (located "Unterminated escape sequence in string literal" (p.after (b :: rest)))
  else match sign (b :: rest) with
    | some l => .ok l
    | none => .error (located "Unexpected character in script source" p)

structure Spanned where
  token : Token
  start : Nat
  stop : Nat

/-- Reads the tokens from a place on; `previous` is the kind of the last one, if any. -/
def tokensFrom (p : Position) (previous : Option TokenKind) (t : Text) :
    Except LexError (List Spanned) :=
  let skipped := skipLength t
  let p := p.after (t.take skipped)
  match _h : t.drop skipped with
  | [] => .ok [⟨⟨.finish, [], p.line, p.column, false⟩, p.offset, p.offset⟩]
  | b :: rest => do
    let l ← lexeme p b rest
    let q := p.after (b :: rest.take l.more)
    if l.kind = .newline && previous = some .newline then
      tokensFrom q previous (rest.drop l.more)
    else
      let spaced := 0 < skipped && previous.isSome && previous ≠ some .newline
      let token : Token := ⟨l.kind, l.text, p.line, p.column, spaced⟩
      let others ← tokensFrom q (some l.kind) (rest.drop l.more)
      return ⟨token, p.offset, q.offset⟩ :: others
termination_by t.length
decreasing_by
  all_goals
    have := congrArg List.length _h
    simp only [List.length_drop, List.length_cons] at this ⊢
    omega

end Lexer

def spans (source : Text) : Except LexError (List Lexer.Spanned) :=
  Lexer.tokensFrom .start none source

def tokenize (source : Text) : Except LexError (List Token) := do
  return (← spans source).map (·.token)

end ScriptMachine
