import TinyCompiler.Token.Basic

/-! The reasons for which a list of tokens is no program. Each names the token it was found
at, or what it needs of that token. -/
namespace TinyCompiler

inductive SyntaxError where
  /-- No rule of the grammar goes on with this token. -/
  | unexpected (found : Token)
  /-- A name is read or assigned before any declaration of it. -/
  | undeclared (name : String) (line : Nat)
  /-- A delimiter still waits for its closing partner. -/
  | unclosed (expected : Kind) (found : Token)
  /-- An integer numeral is no signed 64-bit word. -/
  | outOfRange (numeral : String) (line : Nat)
  /-- Nesting has reached the limit. -/
  | tooDeep (limit : Nat) (line : Nat)
  deriving DecidableEq

namespace SyntaxError

def line : SyntaxError → Nat
  | unexpected found | unclosed _ found => found.line
  | undeclared _ line | outOfRange _ line | tooDeep _ line => line

def reason : SyntaxError → String
  | unexpected found => "unexpected token " ++ found.kind.name ++ " '" ++ found.lexeme ++ "'"
  | undeclared name _ => "undeclared identifier: " ++ name
  | unclosed expected found =>
    "expected " ++ expected.name ++ ", but got " ++ found.kind.name ++ " '" ++ found.lexeme ++ "'"
  | outOfRange numeral _ => "integer literal out of range: " ++ numeral
  | tooDeep limit _ => "nesting deeper than " ++ limit.repr ++ " levels"

end SyntaxError

end TinyCompiler
