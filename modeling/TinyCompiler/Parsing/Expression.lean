import TinyCompiler.Parsing.Rule
import TinyCompiler.Decimal

/-! The rules for expressions.

    expression     → disjunction
    disjunction    → conjunction ( "||" conjunction )*
    conjunction    → comparison ( "&&" comparison )*
    comparison     → additive ( ( "==" | "!=" | "<" | ">" | "<=" | ">=" ) additive )*
    additive       → multiplicative ( ( "+" | "-" | "|" | "^" ) multiplicative )*
    multiplicative → unary ( ( "*" | "/" | "%" | "<<" | ">>" | "&" | "&^" ) unary )*
    unary          → ( "-" | "!" | "+" ) unary | primary
    primary        → integer | "true" | "false" | identifier | "(" expression ")"

Every tier folds to the left. A rule that calls itself does so behind a token it has stepped
past, so a bound above the number of tokens left is never used up. -/
namespace TinyCompiler

namespace Rule

/-- Operators and operands behind the first operand of a tier. Each operator puts the tree
one level deeper, and stays open until the tier ends. -/
def chain {ω : Type} (operator? : Kind → Option ω) (build : ω → Expr → Expr → Expr)
    (operand : Rule Expr) : Nat → Expr → Rule Expr
  | 0, left => return left
  | bound + 1, left => do
    match operator? (← peek).kind with
    | none => return left
    | some op =>
      deepen
      advance
      let right ← operand
      chain operator? build operand bound (build op left right)

/-- One level of precedence: operands joined by its operators. The levels that its operators
open are closed when it ends. -/
def tier {ω : Type} (bound : Nat) (operator? : Kind → Option ω)
    (build : ω → Expr → Expr → Expr) (operand : Rule Expr) : Rule Expr := do
  let entry := (← get).depth
  (operand >>= chain operator? build operand bound).thenAlways fun p => { p with depth := entry }

/-- The five levels of precedence over an operand, tightest first. -/
def tiers (bound : Nat) (operand : Rule Expr) : Rule Expr :=
  let multiplicative := tier bound BinaryOp.multiplicative? .binary operand
  let additive := tier bound BinaryOp.additive? .binary multiplicative
  let comparison := tier bound Comparison.ofKind? .comparison additive
  let conjunction := tier bound (Connective.tier? .and) .connective comparison
  tier bound (Connective.tier? .or) .connective conjunction

/-- A leaf, or an expression in parentheses, which leave no node of their own. -/
def primary (expression : Rule Expr) : Rule Expr := do
  let t ← peek
  match t.kind with
  | .identifier =>
    match (← get).symbols.lookup t.lexeme with
    | some index => do
      advance
      return .reference t.lexeme index
    | none => throw (.undeclared t.lexeme t.line)
  | .trueWord => do
    advance
    return .boolean true
  | .falseWord => do
    advance
    return .boolean false
  | .integer =>
    match Decimal.int64? t.lexeme with
    | some value => do
      advance
      return .integer value
    | none => throw (.outOfRange t.lexeme t.line)
  | .openParen => do
    advance
    let inner ← expression
    if ← accept .closeParen then return inner
    throw (.unclosed .closeParen (← peek))
  | _ => throw (.unexpected t)

/-- Operators in front of a primary. Plus leaves no node. -/
def unary : Nat → Rule Expr
  | 0 => do throw (.unexpected (← peek))
  | bound + 1 => do
    match UnaryOp.ofKind? (← peek).kind with
    | some op => do
      advance
      return .unary op (← nested (unary bound))
    | none => do
      if ← accept .plus then nested (unary bound)
      else primary (nested (tiers bound (unary bound)))

def expression (bound : Nat) : Rule Expr := nested (tiers bound (unary bound))

end Rule

def Parser.expression (p : Parser) : Except SyntaxError Expr × Parser :=
  (Rule.expression (p.rest.length + 1)).apply p

end TinyCompiler
