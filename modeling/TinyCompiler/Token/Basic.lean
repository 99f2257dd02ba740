/-! Tokens: a kind, the text it was read from, and the line it stands on. The kinds with a fixed
spelling are listed in two tables, `operators` and `keywords`; integers, identifiers and the end
marker have none. -/
namespace TinyCompiler

/-- The category of a token. The text of a token is kept beside its kind, never in it. -/
inductive Kind where
  | integer | identifier | trueWord | falseWord
  | plus | minus | star | slash | percent
  | shiftLeft | shiftRight | amp | ampCaret | pipe | caret
  | equal | notEqual | less | greater | lessEqual | greaterEqual
  | ampAmp | pipePipe | bang | colonEqual | assign
  | openParen | closeParen | openBrace | closeBrace | semicolon
  | ifWord | elseWord | forWord | returnWord
  | endOfInput
  deriving DecidableEq

namespace Kind

def name : Kind → String
  | integer => "INT"
  | identifier => "IDENT"
  | trueWord => "TRUE"
  | falseWord => "FALSE"
  | plus => "ADD"
  | minus => "SUB"
  | star => "MUL"
  | slash => "DIV"
  | percent => "REM"
  | shiftLeft => "LSHIFT"
  | shiftRight => "RSHIFT"
  | amp => "BAND"
  | ampCaret => "BCLR"
  | pipe => "BOR"
  | caret => "BXOR"
  | equal => "EQ"
  | notEqual => "NQ"
  | less => "LT"
  | greater => "GT"
  | lessEqual => "LTE"
  | greaterEqual => "GTE"
  | ampAmp => "CAND"
  | pipePipe => "COR"
  | bang => "NOT"
  | colonEqual => "SVDECL"
  | assign => "ASSIGN"
  | openParen => "LPAREN"
  | closeParen => "RPAREN"
  | openBrace => "LBRACE"
  | closeBrace => "RBRACE"
  | semicolon => "SEMICOLON"
  | ifWord => "IF"
  | elseWord => "ELSE"
  | forWord => "FOR"
  | returnWord => "RETURN"
  | endOfInput => "EOF"

def all : List Kind :=
  [integer, identifier, trueWord, falseWord, plus, minus, star, slash, percent,
    shiftLeft, shiftRight, amp, ampCaret, pipe, caret, equal, notEqual, less, greater,
    lessEqual, greaterEqual, ampAmp, pipePipe, bang, colonEqual, assign, openParen,
    closeParen, openBrace, closeBrace, semicolon, ifWord, elseWord, forWord, returnWord,
    endOfInput]

def ofName? (s : String) : Option Kind := all.find? (fun k => k.name = s)

/-- The fixed operators. Two-character spellings come first, so the first entry that
starts a text is its longest operator. -/
def operators : List (List Char × Kind) :=
  [(['<', '<'], shiftLeft), (['>', '>'], shiftRight), (['<', '='], lessEqual),
    (['>', '='], greaterEqual), (['=', '='], equal), (['!', '='], notEqual),
    (['&', '&'], ampAmp), (['|', '|'], pipePipe), (['&', '^'], ampCaret),
    ([':', '='], colonEqual),
    (['('], openParen), ([')'], closeParen), (['{'], openBrace), (['}'], closeBrace),
    ([';'], semicolon), (['+'], plus), (['-'], minus), (['*'], star), (['/'], slash),
    (['%'], percent), (['^'], caret), (['!'], bang), (['='], assign), (['|'], pipe),
    (['<'], less), (['>'], greater), (['&'], amp)]

def keywords : List (List Char × Kind) :=
  [(['e', 'l', 's', 'e'], elseWord), (['f', 'a', 'l', 's', 'e'], falseWord),
    (['f', 'o', 'r'], forWord), (['i', 'f'], ifWord),
    (['r', 'e', 't', 'u', 'r', 'n'], returnWord), (['t', 'r', 'u', 'e'], trueWord)]

end Kind

structure Token where
  kind : Kind
  lexeme : String
  line : Nat
  deriving DecidableEq

namespace Token

def endOfInput (line : Nat) : Token := ⟨.endOfInput, "", line⟩

/-- A token that comes from no source text stands on line 1. -/
def detached (kind : Kind) (lexeme : String) : Token := ⟨kind, lexeme, 1⟩

def render (t : Token) : String := t.kind.name ++ " " ++ t.lexeme

end Token

end TinyCompiler
