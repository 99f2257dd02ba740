/-! The instructions of the target machine that compiled programs use, and the lines of an
assembly text. Slots lie below the base pointer and are named by their distance from it. -/
namespace TinyCompiler

inductive Register where
  | rax | rcx | rdx | rdi | rsp | rbp
  deriving DecidableEq

inductive Operand where
  | register (r : Register)
  | immediate (value : Int)
  deriving DecidableEq

/-- Two-operand arithmetic; the result replaces the first operand. -/
inductive AluOp where
  | add | sub | or | xor | and | imul
  deriving DecidableEq

/-- Shifts by the low byte of `rcx`. -/
inductive ShiftOp where
  | shl | sar
  deriving DecidableEq

/-- Outcomes of the last signed comparison. -/
inductive Condition where
  | equal | notEqual | less | greater | lessEqual | greaterEqual
  deriving DecidableEq

inductive LabelRole where
  | otherwise | finish | begin | short
  deriving DecidableEq

/-- The place where a function returns, or a place numbered by the order of its making. -/
inductive Label where
  | exit
  | numbered (role : LabelRole) (number : Nat)
  deriving DecidableEq

inductive Instruction where
  | push (source : Register)
  | pop (target : Register)
  | mov (target : Register) (source : Operand)
  | load (target : Register) (slot : Nat)
  | store (slot : Nat) (source : Register)
  | alu (op : AluOp) (target : Register) (source : Operand)
  | neg (target : Register)
  | not (target : Register)
  | shift (op : ShiftOp) (target : Register)
  /-- Widens `rax` to the pair `rdx`, `rax`. -/
  | cqo
  /-- Divides the pair: the quotient to `rax`, the remainder to `rdx`. -/
  | idiv (divisor : Register)
  | cmp (left : Register) (right : Operand)
  /-- Sets the low byte of `rax` to 1 if the condition holds and to 0 if not. -/
  | setByte (condition : Condition)
  /-- Widens the low byte of `rax` to the whole register. -/
  | widenByte
  | jump (target : Label)
  | jumpIf (condition : Condition) (target : Label)
  | ret
  deriving DecidableEq

inductive Line where
  | intelNotation
  | global (symbol : String)
  | entry (symbol : String)
  | label (l : Label)
  | instruction (i : Instruction)
  deriving DecidableEq

end TinyCompiler
