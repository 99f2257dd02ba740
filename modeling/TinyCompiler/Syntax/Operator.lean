import TinyCompiler.Token.Basic

/-! Operators, and the token kinds that spell them at each level of precedence. -/
namespace TinyCompiler

inductive UnaryOp where
  | neg | not
  deriving DecidableEq

/-- Arithmetic and bitwise operators. The first four bind looser than the others. -/
inductive BinaryOp where
  | add | sub | or | xor
  | mul | div | rem | shl | shr | and | andNot
  deriving DecidableEq

inductive Comparison where
  | eq | ne | lt | gt | le | ge
  deriving DecidableEq

/-- Boolean connectives, which read their right operand only if the left one does not decide. -/
inductive Connective where
  | and | or
  deriving DecidableEq

namespace UnaryOp

def ofKind? : Kind → Option UnaryOp
  | .minus => some neg
  | .bang => some not
  | _ => none

def symbol : UnaryOp → String
  | neg => "-"
  | not => "!"

def name : UnaryOp → String
  | neg => "Neg"
  | not => "Not"

end UnaryOp

namespace BinaryOp

def additive? : Kind → Option BinaryOp
  | .plus => some add
  | .minus => some sub
  | .pipe => some or
  | .caret => some xor
  | _ => none

def multiplicative? : Kind → Option BinaryOp
  | .star => some mul
  | .slash => some div
  | .percent => some rem
  | .shiftLeft => some shl
  | .shiftRight => some shr
  | .amp => some and
  | .ampCaret => some andNot
  | _ => none

def symbol : BinaryOp → String
  | add => "+"
  | sub => "-"
  | or => "|"
  | xor => "^"
  | mul => "*"
  | div => "/"
  | rem => "%"
  | shl => "<<"
  | shr => ">>"
  | and => "&"
  | andNot => "&^"

def name : BinaryOp → String
  | add => "Add"
  | sub => "Sub"
  | or => "Or"
  | xor => "Xor"
  | mul => "Mul"
  | div => "Div"
  | rem => "Rem"
  | shl => "Shl"
  | shr => "Shr"
  | and => "And"
  | andNot => "AndNot"

end BinaryOp

namespace Comparison

def ofKind? : Kind → Option Comparison
  | .equal => some eq
  | .notEqual => some ne
  | .less => some lt
  | .greater => some gt
  | .lessEqual => some le
  | .greaterEqual => some ge
  | _ => none

def symbol : Comparison → String
  | eq => "=="
  | ne => "!="
  | lt => "<"
  | gt => ">"
  | le => "<="
  | ge => ">="

def name : Comparison → String
  | eq => "Eq"
  | ne => "Ne"
  | lt => "Lt"
  | gt => "Gt"
  | le => "Le"
  | ge => "Ge"

end Comparison

namespace Connective

def kind : Connective → Kind
  | and => .ampAmp
  | or => .pipePipe

/-- Each connective is alone in its tier. -/
def tier? (op : Connective) (kind : Kind) : Option Connective :=
  if kind = op.kind then some op else none

def symbol : Connective → String
  | and => "&&"
  | or => "||"

def name : Connective → String
  | and => "And"
  | or => "Or"

end Connective

end TinyCompiler
