import ScriptMachine.Text

set_option autoImplicit false

namespace ScriptMachine

inductive TokenKind where
  | finish
  | newline
  | identifier
  | number
  | string
  | kwFn
  | kwLet
  | kwMut
  | kwIf
  | kwUnless
  | kwElse
  | kwEnd
  | kwDo
  | kwTry
  | kwCatch
  | kwRaise
  | kwTrue
  | kwFalse
  | kwNone
  | kwAnd
  | kwOr
  | kwXor
  | kwAs
  | kwTrait
  | kwImpl
  | kwObject
  | kwAttr
  | kwImport
  | kwPuts
  | kwLog
  | kwFor
  | kwIn
  | kwReturn
  | lparen
  | rparen
  | lbrace
  | rbrace
  | lbracket
  | rbracket
  | dot
  | dotDot
  | dotDotEqual
  | comma
  | colon
  | semicolon
  | atSign
  | arrow
  | bang
  | bangEqual
  | tilde
  | equal
  | equalEqual
  | less
  | lessEqual
  | greater
  | greaterEqual
  | plus
  | minus
  | star
  | slash
  | percent
  | shiftLeft
  | shiftRight
  | amp
  | ampAmp
  | pipe
  | pipePipe
  | caret
  | plusEqual
  | minusEqual
  | starEqual
  | slashEqual
  | percentEqual
  | shiftLeftEqual
  | shiftRightEqual
  | ampEqual
  | pipeEqual
  | caretEqual
  deriving DecidableEq, Inhabited

structure Token where
  kind : TokenKind
  text : Text
  line : Nat
  column : Nat
  /-- Blanks separate the token from the one before it on the same line. -/
  spaceBefore : Bool
  deriving DecidableEq, Inhabited

namespace TokenKind

def name : TokenKind → Text
  | .finish => "End"
  | .newline => "Newline"
  | .identifier => "Identifier"
  | .number => "Number"
  | .string => "String"
  | .kwFn => "KeywordFn"
  | .kwLet => "KeywordLet"
  | .kwMut => "KeywordMut"
  | .kwIf => "KeywordIf"
  | .kwUnless => "KeywordUnless"
  | .kwElse => "KeywordElse"
  | .kwEnd => "KeywordEnd"
  | .kwDo => "KeywordDo"
  | .kwTry => "KeywordTry"
  | .kwCatch => "KeywordCatch"
  | .kwRaise => "KeywordRaise"
  | .kwTrue => "KeywordTrue"
  | .kwFalse => "KeywordFalse"
  | .kwNone => "KeywordNone"
  | .kwAnd => "KeywordAnd"
  | .kwOr => "KeywordOr"
  | .kwXor => "KeywordXor"
  | .kwAs => "KeywordAs"
  | .kwTrait => "KeywordTrait"
  | .kwImpl => "KeywordImpl"
  | .kwObject => "KeywordObject"
  | .kwAttr => "KeywordAttr"
  | .kwImport => "KeywordImport"
  | .kwPuts => "KeywordPuts"
  | .kwLog => "KeywordLog"
  | .kwFor => "KeywordFor"
  | .kwIn => "KeywordIn"
  | .kwReturn => "KeywordReturn"
  | .lparen => "LParen"
  | .rparen => "RParen"
  | .lbrace => "LBrace"
  | .rbrace => "RBrace"
  | .lbracket => "LBracket"
  | .rbracket => "RBracket"
  | .dot => "Dot"
  | .dotDot => "DotDot"
  | .dotDotEqual => "DotDotEqual"
  | .comma => "Comma"
  | .colon => "Colon"
  | .semicolon => "Semicolon"
  | .atSign => "At"
  | .arrow => "Arrow"
  | .bang => "Bang"
  | .bangEqual => "BangEqual"
  | .tilde => "Tilde"
  | .equal => "Equal"
  | .equalEqual => "EqualEqual"
  | .less => "Less"
  | .lessEqual => "LessEqual"
  | .greater => "Greater"
  | .greaterEqual => "GreaterEqual"
  | .plus => "Plus"
  | .minus => "Minus"
  | .star => "Star"
  | .slash => "Slash"
  | .percent => "Percent"
  | .shiftLeft => "ShiftLeft"
  | .shiftRight => "ShiftRight"
  | .amp => "Amp"
  | .ampAmp => "AmpAmp"
  | .pipe => "Pipe"
  | .pipePipe => "PipePipe"
  | .caret => "Caret"
  | .plusEqual => "PlusEqual"
  | .minusEqual => "MinusEqual"
  | .starEqual => "StarEqual"
  | .slashEqual => "SlashEqual"
  | .percentEqual => "PercentEqual"
  | .shiftLeftEqual => "ShiftLeftEqual"
  | .shiftRightEqual => "ShiftRightEqual"
  | .ampEqual => "AmpEqual"
  | .pipeEqual => "PipeEqual"
  | .caretEqual => "CaretEqual"

def keywords : List (Text × TokenKind) :=
  [("fn", .kwFn), ("let", .kwLet), ("mut", .kwMut), ("if", .kwIf), ("unless", .kwUnless),
    ("else", .kwElse), ("end", .kwEnd), ("do", .kwDo), ("try", .kwTry), ("catch", .kwCatch),
    ("raise", .kwRaise), ("true", .kwTrue), ("false", .kwFalse), ("none", .kwNone),
    ("and", .kwAnd), ("or", .kwOr), ("xor", .kwXor), ("as", .kwAs), ("trait", .kwTrait),
    ("impl", .kwImpl), ("object", .kwObject), ("attr", .kwAttr), ("import", .kwImport),
    ("puts", .kwPuts), ("log", .kwLog), ("for", .kwFor), ("in", .kwIn), ("return", .kwReturn)]

def ofWord (t : Text) : TokenKind := (keywords.lookup t).getD .identifier

def longSigns : List (Text × TokenKind) :=
  [("..=", .dotDotEqual), ("<<=", .shiftLeftEqual), (">>=", .shiftRightEqual), ("..", .dotDot),
    ("!=", .bangEqual), ("==", .equalEqual), ("<<", .shiftLeft), ("<=", .lessEqual),
    (">>", .shiftRight), (">=", .greaterEqual), ("+=", .plusEqual), ("->", .arrow),
    ("-=", .minusEqual), ("*=", .starEqual), ("/=", .slashEqual), ("%=", .percentEqual),
    ("^=", .caretEqual), ("&&", .ampAmp), ("&=", .ampEqual), ("||", .pipePipe), ("|=", .pipeEqual)]

def shortSigns : List (Text × TokenKind) :=
  [("(", .lparen), (")", .rparen), ("\x7b", .lbrace), ("\x7d", .rbrace), ("[", .lbracket),
    ("]", .rbracket), (".", .dot), (",", .comma), (":", .colon), (";", .semicolon), ("@", .atSign),
    ("~", .tilde), ("!", .bang), ("=", .equal), ("<", .less), (">", .greater), ("+", .plus),
    ("-", .minus), ("*", .star), ("/", .slash), ("%", .percent), ("^", .caret), ("&", .amp),
    ("|", .pipe)]

/-- The signs. Of two signs that begin alike the longer one stands first. -/
def signs : List (Text × TokenKind) := longSigns ++ shortSigns

end TokenKind

end ScriptMachine
