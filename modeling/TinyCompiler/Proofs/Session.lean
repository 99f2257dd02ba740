import TinyCompiler.Proofs.Onward
import TinyCompiler.Proofs.Scoping

/-! Sessions: calls that follow one another on one parser, failed ones included. A session moves
the parser on along its tokens and fills its table, and leaves no other trace. -/
namespace TinyCompiler

namespace Parser

inductive Reply where
  | expression (result : Except SyntaxError Expr)
  | statement (result : Except SyntaxError Stmt)
  deriving DecidableEq

def Reply.isOk : Reply → Bool
  | expression result => result.isOk
  | statement result => result.isOk

def reply (p : Parser) : Call → Reply
  | .expression => .expression p.expression.1
  | .statement => .statement p.statement.1

/-- The replies to calls that follow one another, each with the table behind it. -/
def replies : Parser → List Call → List (Reply × SymbolTable)
  | _, [] => []
  | p, c :: calls => (p.reply c, (p.call c).symbols) :: (p.call c).replies calls

def endLine (tokens : List Token) : Nat := (tokens.getLast?.map Token.line).getD 1

/-- A new parser for a list of tokens, placed at the token number `i` with a table of names. -/
def placed (tokens : List Token) (limit i : Nat) (table : SymbolTable) : Parser :=
  { start tokens limit with rest := tokens.drop i, symbols := table }

theorem peek_placed (tokens : List Token) (limit i : Nat) (table : SymbolTable) :
    (placed tokens limit i table).peek = tokens[i]?.getD (.endOfInput (endLine tokens)) := by
  rw [peek, placed, List.head?_drop]
  rfl

theorem onward_call (p : Parser) (c : Call) : p.Onward (p.call c) := by
  cases c with
  | expression => exact .of_skims p.expression_skims
  | statement => exact (Rule.statement_orderly _).onward p

theorem Onward.of_statement {p q : Parser} {result : Except SyntaxError Stmt}
    (h : p.statement = (result, q)) : p.Onward q := by
  have honward := p.onward_call .statement
  rwa [call, h] at honward

theorem onward_run (p : Parser) (calls : List Call) : p.Onward (p.run calls) := by
  induction calls generalizing p with
  | nil => exact .refl p
  | cons c calls ih => exact (p.onward_call c).trans (ih (p.call c))

/-- The place of a parser is the number of the tokens that it has left behind. -/
theorem eq_placed_of_onward {tokens : List Token} {limit : Nat} {p : Parser}
    (h : (start tokens limit).Onward p) :
    p = placed tokens limit (tokens.length - p.rest.length) p.symbols := by
  have hrest : p.rest = tokens.drop (tokens.length - p.rest.length) :=
    List.suffix_iff_eq_drop.mp h.rest
  rw [placed, ← hrest]
  obtain ⟨rest, lastLine, limit', depth, symbols⟩ := p
  obtain rfl : lastLine = (start tokens limit).lastLine := h.lastLine
  obtain rfl : limit' = limit := h.limit
  obtain rfl : depth = 0 := h.depth
  rfl

theorem run_eq_placed (tokens : List Token) (limit : Nat) (calls : List Call) :
    let p := (start tokens limit).run calls
    p = placed tokens limit (tokens.length - p.rest.length) p.symbols :=
  eq_placed_of_onward (onward_run _ calls)

end Parser

end TinyCompiler
