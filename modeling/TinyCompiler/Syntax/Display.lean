import TinyCompiler.SymbolTable
import TinyCompiler.Decimal

/-! Trees as S-expressions: operator first, then operands; statements begin with a word or
with their sign. Indices of bindings are not shown. -/
namespace TinyCompiler

/-- An atom is written as it is, a list in parentheses with one space between its items. -/
inductive SExpr where
  | atom (text : String)
  | list (items : List SExpr)

namespace SExpr

mutual

def render : SExpr → String
  | atom text => text
  | list items => "(" ++ " ".intercalate (renderAll items) ++ ")"

def renderAll : List SExpr → List String
  | [] => []
  | e :: rest => e.render :: renderAll rest

end

def headed (head : String) (items : List SExpr) : SExpr := list (atom head :: items)

end SExpr

def Expr.toSExpr : Expr → SExpr
  | integer value => .atom (Decimal.ofInt value.toInt)
  | boolean value => .atom (if value then "true" else "false")
  | reference name _ => .atom name
  | unary op operand => .headed op.symbol [operand.toSExpr]
  | binary op left right => .headed op.symbol [left.toSExpr, right.toSExpr]
  | comparison op left right => .headed op.symbol [left.toSExpr, right.toSExpr]
  | connective op left right => .headed op.symbol [left.toSExpr, right.toSExpr]

namespace Stmt

mutual

def toSExpr : Stmt → SExpr
  | expr value => .headed "expr" [value.toSExpr]
  | declare name value _ => .headed ":=" [.atom name, value.toSExpr]
  | assign name value _ => .headed "=" [.atom name, value.toSExpr]
  | ret value => .headed "return" [value.toSExpr]
  | ifThen condition consequent =>
    .headed "if" [condition.toSExpr, .headed "block" (blockItems consequent)]
  | ifElse condition consequent alternate =>
    .headed "if" [condition.toSExpr, .headed "block" (blockItems consequent),
      .headed "else" [.headed "block" (blockItems alternate)]]
  | loop condition body =>
    .headed "for" [condition.toSExpr, .headed "block" (blockItems body)]

def blockItems : List Stmt → List SExpr
  | [] => []
  | s :: rest => s.toSExpr :: blockItems rest

end

end Stmt

def Expr.display (e : Expr) : String := e.toSExpr.render

def Stmt.display (s : Stmt) : String := s.toSExpr.render

/-- One statement a line. -/
def Program.display (p : Program) : String := "\n".intercalate (p.statements.map Stmt.display)

end TinyCompiler
