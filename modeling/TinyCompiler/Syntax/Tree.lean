import TinyCompiler.Syntax.Operator

/-! Expressions and statements. A reference carries, beside its name, the index of the
binding that was current for the name where it was read; declarations and assignments carry
the index of the binding that they made. -/
namespace TinyCompiler

inductive Expr where
  | integer (value : Int64)
  | boolean (value : Bool)
  | reference (name : String) (binding : Nat)
  | unary (op : UnaryOp) (operand : Expr)
  | binary (op : BinaryOp) (left right : Expr)
  | comparison (op : Comparison) (left right : Expr)
  | connective (op : Connective) (left right : Expr)
  deriving DecidableEq, Inhabited

/-- A block is the list of its statements. An `if` without `else` is not one with an empty block. -/
inductive Stmt where
  | expr (value : Expr)
  | declare (name : String) (value : Expr) (binding : Nat)
  | assign (name : String) (value : Expr) (binding : Nat)
  | ret (value : Expr)
  | ifThen (condition : Expr) (consequent : List Stmt)
  | ifElse (condition : Expr) (consequent alternate : List Stmt)
  | loop (condition : Expr) (body : List Stmt)
  deriving Inhabited

namespace Stmt

mutual

def decEq : (s t : Stmt) → Decidable (s = t)
  | expr v, expr w => decidable_of_iff (v = w) (by simp)
  | declare n v i, declare m w j => decidable_of_iff (n = m ∧ v = w ∧ i = j) (by simp)
  | assign n v i, assign m w j => decidable_of_iff (n = m ∧ v = w ∧ i = j) (by simp)
  | ret v, ret w => decidable_of_iff (v = w) (by simp)
  | ifThen c b, ifThen d e =>
    have := decEqBlock b e
    decidable_of_iff (c = d ∧ b = e) (by simp)
  | ifElse c b a, ifElse d e f =>
    have := decEqBlock b e
    have := decEqBlock a f
    decidable_of_iff (c = d ∧ b = e ∧ a = f) (by simp)
  | loop c b, loop d e =>
    have := decEqBlock b e
    decidable_of_iff (c = d ∧ b = e) (by simp)
  | expr .., declare .. | expr .., assign .. | expr .., ret .. | expr .., ifThen ..
  | expr .., ifElse .. | expr .., loop ..
  | declare .., expr .. | declare .., assign .. | declare .., ret ..
  | declare .., ifThen .. | declare .., ifElse .. | declare .., loop ..
  | assign .., expr .. | assign .., declare .. | assign .., ret .. | assign .., ifThen ..
  | assign .., ifElse .. | assign .., loop ..
  | ret .., expr .. | ret .., declare .. | ret .., assign ..
  | ret .., ifThen .. | ret .., ifElse .. | ret .., loop ..
  | ifThen .., expr .. | ifThen .., declare .. | ifThen .., assign .. | ifThen .., ret ..
  | ifThen .., ifElse .. | ifThen .., loop ..
  | ifElse .., expr .. | ifElse .., declare .. | ifElse .., assign .. | ifElse .., ret ..
  | ifElse .., ifThen .. | ifElse .., loop ..
  | loop .., expr .. | loop .., declare .. | loop .., assign .. | loop .., ret ..
  | loop .., ifThen .. | loop .., ifElse .. => isFalse (by simp)

def decEqBlock : (b c : List Stmt) → Decidable (b = c)
  | [], [] => isTrue rfl
  | [], _ :: _ => isFalse (by simp)
  | _ :: _, [] => isFalse (by simp)
  | s :: b, t :: c =>
    have := decEq s t
    have := decEqBlock b c
    decidable_of_iff (s = t ∧ b = c) (by simp)

end

instance : DecidableEq Stmt := decEq

end Stmt

end TinyCompiler
