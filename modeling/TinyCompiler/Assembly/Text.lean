import TinyCompiler.Assembly.Instruction
import TinyCompiler.Decimal

/-! Assembly text, one line for each `Line`, in Intel notation: the target comes first.
Instructions are indented by two spaces. -/
namespace TinyCompiler

def Register.render : Register → String
  | rax => "rax"
  | rcx => "rcx"
  | rdx => "rdx"
  | rdi => "rdi"
  | rsp => "rsp"
  | rbp => "rbp"

def Operand.render : Operand → String
  | register r => r.render
  | immediate value => Decimal.ofInt value

def AluOp.mnemonic : AluOp → String
  | add => "add"
  | sub => "sub"
  | or => "or"
  | xor => "xor"
  | and => "and"
  | imul => "imul"

def ShiftOp.mnemonic : ShiftOp → String
  | shl => "shl"
  | sar => "sar"

/-- The ending that jumps and byte settings share. -/
def Condition.suffix : Condition → String
  | equal => "e"
  | notEqual => "ne"
  | less => "l"
  | greater => "g"
  | lessEqual => "le"
  | greaterEqual => "ge"

def LabelRole.render : LabelRole → String
  | otherwise => "else"
  | finish => "end"
  | begin => "begin"
  | short => "short"

def Label.render : Label → String
  | exit => ".Lreturn"
  | numbered role number => ".L" ++ role.render ++ number.repr

def renderSlot (slot : Nat) : String := "QWORD PTR [rbp-" ++ slot.repr ++ "]"

def Instruction.render : Instruction → String
  | push source => "push " ++ source.render
  | pop target => "pop " ++ target.render
  | mov target source => "mov " ++ target.render ++ ", " ++ source.render
  | load target slot => "mov " ++ target.render ++ ", " ++ renderSlot slot
  | store slot source => "mov " ++ renderSlot slot ++ ", " ++ source.render
  | alu op target source => op.mnemonic ++ " " ++ target.render ++ ", " ++ source.render
  | neg target => "neg " ++ target.render
  | not target => "not " ++ target.render
  | shift op target => op.mnemonic ++ " " ++ target.render ++ ", cl"
  | cqo => "cqo"
  | idiv divisor => "idiv " ++ divisor.render
  | cmp left right => "cmp " ++ left.render ++ ", " ++ right.render
  | setByte condition => "set" ++ condition.suffix ++ " al"
  | widenByte => "movzx rax, al"
  | jump target => "jmp " ++ target.render
  | jumpIf condition target => "j" ++ condition.suffix ++ " " ++ target.render
  | ret => "ret"

def Line.render : Line → String
  | intelNotation => ".intel_syntax noprefix"
  | global symbol => ".globl " ++ symbol
  | entry symbol => symbol ++ ":"
  | label l => l.render ++ ":"
  | instruction i => "  " ++ i.render

/-- Each line ends with a line break. -/
def renderLines (lines : List Line) : String :=
  String.join (lines.map fun line => line.render ++ "\n")

end TinyCompiler
