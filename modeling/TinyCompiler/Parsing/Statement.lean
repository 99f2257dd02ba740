import TinyCompiler.Parsing.Expression
import TinyCompiler.SymbolTable

/-! The rules for statements.

    program     → statement* end
    statement   → ( declaration | assignment | return | if | for | expression ) ";"?
    declaration → identifier ":=" expression
    assignment  → identifier "=" expression
    return      → "return" expression
    if          → "if" expression block ( "else" block )?
    for         → "for" expression block
    block       → "{" statement* "}"

Two tokens decide which statement it is. A block opens no scope. -/
namespace TinyCompiler

namespace Rule

def declare (name : String) (value : Expr) : Rule Nat := do
  let p ← get
  let (index, symbols) := p.symbols.declare name value
  set { p with symbols := symbols }
  return index

def assign (name : String) (value : Expr) (line : Nat) : Rule Nat := do
  let p ← get
  let (index, symbols) ← liftExcept (p.symbols.assign name value line)
  set { p with symbols := symbols }
  return index

/-- The name is bound when its value has been read. -/
def declaration (expression : Rule Expr) : Rule Stmt := do
  let target ← peek
  advance
  advance
  let value ← expression
  return .declare target.lexeme value (← declare target.lexeme value)

/-- The target is checked before its value is read. -/
def assignment (expression : Rule Expr) : Rule Stmt := do
  let target ← peek
  if (← get).symbols.contains target.lexeme then
    advance
    advance
    let value ← expression
    return .assign target.lexeme value (← assign target.lexeme value target.line)
  else throw (.undeclared target.lexeme target.line)

/-- Statements up to a token of the closing kind, which stays. -/
def untilKind (close : Kind) (statement : Rule Stmt) : Nat → Rule (List Stmt)
  | 0 => return []
  | bound + 1 => do
    let t ← peek
    if t.kind = close then return []
    if t.kind = .endOfInput then throw (.unclosed close t)
    let first ← statement
    return first :: (← untilKind close statement bound)

def block (bound : Nat) (statement : Rule Stmt) : Rule (List Stmt) := nested do
  if ← accept .openBrace then
    let statements ← untilKind .closeBrace statement bound
    advance
    return statements
  throw (.unexpected (← peek))

def branch (expression : Rule Expr) (block : Rule (List Stmt)) : Rule Stmt := do
  advance
  let condition ← expression
  let consequent ← block
  if ← accept .elseWord then return .ifElse condition consequent (← block)
  return .ifThen condition consequent

def loop (expression : Rule Expr) (block : Rule (List Stmt)) : Rule Stmt := do
  advance
  let condition ← expression
  return .loop condition (← block)

/-- A statement without the semicolon behind it. -/
def bareStatement (expression : Rule Expr) (block : Rule (List Stmt)) : Rule Stmt := do
  let t ← peek
  let second := (← get).peekSecond
  match t.kind, second.kind with
  | .identifier, .colonEqual => declaration expression
  | .identifier, .assign => assignment expression
  | .returnWord, _ => do
    advance
    return .ret (← expression)
  | .ifWord, _ => branch expression block
  | .forWord, _ => loop expression block
  | _, _ => return .expr (← expression)

def statement : Nat → Rule Stmt
  | 0 => do throw (.unexpected (← peek))
  | bound + 1 => do
    let s ← bareStatement (expression (bound + 1)) (block bound (statement bound))
    let _ ← accept .semicolon
    return s

end Rule

namespace Parser

/-- Reads one statement, with the semicolon behind it if there is one. -/
def statement (p : Parser) : Except SyntaxError Stmt × Parser :=
  (Rule.statement (p.rest.length + 1)).apply p

def statements (p : Parser) : Except SyntaxError (List Stmt) × Parser :=
  let bound := p.rest.length + 1
  (Rule.untilKind .endOfInput (Rule.statement bound) bound).apply p

def program (p : Parser) : Except SyntaxError Program :=
  let (result, q) := p.statements
  result.map fun statements => ⟨statements, q.symbols⟩

end Parser

def parse (tokens : List Token) (limit : Nat) : Except SyntaxError Program :=
  (Parser.start tokens limit).program

end TinyCompiler
