import TinyCompiler.Assembly.Text
import TinyCompiler.SymbolTable

/-! Lowering of programs to assembly. Every declared name has a slot of eight bytes; every
expression leaves its value in `rax`, and keeps what it has to remember on the stack. A
program that reaches its end gives the value of the last expression evaluated. -/
namespace TinyCompiler

/-- What makes a tree and its table unfit for each other. -/
inductive LoweringError where
  /-- A reference points at no binding of its name. -/
  | dangling (name : String) (binding : Nat)
  /-- A declaration or an assignment names nothing in the table. -/
  | noSlot (name : String)
  deriving DecidableEq

def LoweringError.message : LoweringError → String
  | dangling name binding =>
    "Codegen error: dangling binding #" ++ binding.repr ++ " for '" ++ name ++ "'"
  | noSlot name => "Codegen error: no stack slot for '" ++ name ++ "'"

namespace SymbolTable

/-- Slots of eight bytes, in the order of the names. -/
def slot? (t : SymbolTable) (name : String) : Option Nat :=
  (t.names.idxOf? name).map fun i => (i + 1) * 8

/-- Room for all slots, in units of sixteen bytes. -/
def frameSize (t : SymbolTable) : Nat := (t.size * 8 + 15) / 16 * 16

end SymbolTable

/-- Lowering counts the labels made so far. -/
abbrev Lowering (α : Type) := StateT Nat (Except LoweringError) α

namespace Lowering

def labels (first second : LabelRole) : Lowering (Label × Label) := do
  let n ← get
  set (n + 2)
  return (.numbered first n, .numbered second (n + 1))

def slot (t : SymbolTable) (name : String) : Lowering Nat :=
  match t.slot? name with
  | some offset => return offset
  | none => throw (.noSlot name)

/-- A reference has to point at a binding of its own name. -/
def checkBinding (t : SymbolTable) (name : String) (binding : Nat) : Lowering Unit :=
  if (t.resolve binding).map Binding.name = some name then return ()
  else throw (.dangling name binding)

end Lowering

def code (instructions : List Instruction) : List Line := instructions.map .instruction

def UnaryOp.instructions : UnaryOp → List Instruction
  | neg => [.neg .rax]
  | not => [.cmp .rax (.immediate 0), .setByte .equal, .widenByte]

/-- Applies an operator to `rax` and `rdi`. -/
def BinaryOp.instructions : BinaryOp → List Instruction
  | add => [.alu .add .rax (.register .rdi)]
  | sub => [.alu .sub .rax (.register .rdi)]
  | or => [.alu .or .rax (.register .rdi)]
  | xor => [.alu .xor .rax (.register .rdi)]
  | mul => [.alu .imul .rax (.register .rdi)]
  | div => [.cqo, .idiv .rdi]
  | rem => [.cqo, .idiv .rdi, .mov .rax (.register .rdx)]
  | shl => [.mov .rcx (.register .rdi), .shift .shl .rax]
  | shr => [.mov .rcx (.register .rdi), .shift .sar .rax]
  | and => [.alu .and .rax (.register .rdi)]
  | andNot => [.not .rdi, .alu .and .rax (.register .rdi)]

def Comparison.condition : Comparison → Condition
  | eq => .equal
  | ne => .notEqual
  | lt => .less
  | gt => .greater
  | le => .lessEqual
  | ge => .greaterEqual

def Comparison.instructions (op : Comparison) : List Instruction :=
  [.cmp .rax (.register .rdi), .setByte op.condition, .widenByte]

namespace Connective

/-- The value that decides a connective: the result is the same as soon as one operand has it. -/
def decided : Connective → Int
  | and => 0
  | or => 1

/-- How an operand in `rax`, compared with zero, decides the connective. -/
def exitCondition : Connective → Condition
  | and => .equal
  | or => .notEqual

end Connective

namespace Expr

/-- Left operand in `rax`, right operand in `rdi`; the left one is evaluated first. -/
def operands (left right : List Line) : List Line :=
  left ++ .instruction (.push .rax) ::
    (right ++ code [.mov .rdi (.register .rax), .pop .rax])

def lower (t : SymbolTable) : Expr → Lowering (List Line)
  | integer value => return code [.mov .rax (.immediate value.toInt)]
  | boolean value => return code [.mov .rax (.immediate (if value then 1 else 0))]
  | reference name binding => do
    Lowering.checkBinding t name binding
    return code [.load .rax (← Lowering.slot t name)]
  | unary op operand => return (← operand.lower t) ++ code op.instructions
  | binary op left right => do
    let l ← left.lower t
    let r ← right.lower t
    return operands l r ++ code op.instructions
  | comparison op left right => do
    let l ← left.lower t
    let r ← right.lower t
    return operands l r ++ code op.instructions
  | connective op left right => do
    let (short, finish) ← Lowering.labels .short .finish
    let l ← left.lower t
    let r ← right.lower t
    let leave := code [.cmp .rax (.immediate 0), .jumpIf op.exitCondition short]
    return l ++ leave ++ r ++ leave ++
      code [.mov .rax (.immediate (1 - op.decided)), .jump finish] ++ .label short ::
      code [.mov .rax (.immediate op.decided)] ++ [.label finish]

end Expr

namespace Stmt

def lowerStore (t : SymbolTable) (name : String) (value : Expr) : Lowering (List Line) := do
  let v ← value.lower t
  return v ++ code [.store (← Lowering.slot t name) .rax]

mutual

def lower (t : SymbolTable) : Stmt → Lowering (List Line)
  | expr value => value.lower t
  | declare name value _ => lowerStore t name value
  | assign name value _ => lowerStore t name value
  | ret value => return (← value.lower t) ++ code [.jump .exit]
  | ifThen condition consequent => do
    let (otherwise, finish) ← Lowering.labels .otherwise .finish
    let c ← condition.lower t
    let b ← lowerBlock t consequent
    return c ++ code [.cmp .rax (.immediate 0), .jumpIf .equal otherwise] ++ b ++
      code [.jump finish] ++ [.label otherwise, .label finish]
  | ifElse condition consequent alternate => do
    let (otherwise, finish) ← Lowering.labels .otherwise .finish
    let c ← condition.lower t
    let b ← lowerBlock t consequent
    let a ← lowerBlock t alternate
    return c ++ code [.cmp .rax (.immediate 0), .jumpIf .equal otherwise] ++ b ++
      code [.jump finish] ++ .label otherwise :: a ++ [.label finish]
  | loop condition body => do
    let (begin, finish) ← Lowering.labels .begin .finish
    let c ← condition.lower t
    let b ← lowerBlock t body
    return .label begin :: c ++ code [.cmp .rax (.immediate 0), .jumpIf .equal finish] ++ b ++
      code [.jump begin] ++ [.label finish]

def lowerBlock (t : SymbolTable) : List Stmt → Lowering (List Line)
  | [] => return []
  | s :: rest => do
    let first ← s.lower t
    return first ++ (← lowerBlock t rest)

end

end Stmt

namespace Program

/-- Opens the frame of the entry function; the last value starts as zero. -/
def prologue (entry : String) (frame : Nat) : List Line :=
  [.intelNotation, .global entry, .entry entry] ++
    code [.push .rbp, .mov .rbp (.register .rsp)] ++
    (if frame = 0 then [] else code [.alu .sub .rsp (.immediate frame)]) ++
    code [.mov .rax (.immediate 0)]

def epilogue : List Line :=
  .label .exit :: code [.mov .rsp (.register .rbp), .pop .rbp, .ret]

def assemble (p : Program) (entry : String) : Except LoweringError (List Line) := do
  let (body, _) ← (Stmt.lowerBlock p.symbols p.statements).run 0
  return prologue entry p.symbols.frameSize ++ body ++ epilogue

def assembly (p : Program) (entry : String) : Except LoweringError String :=
  (p.assemble entry).map renderLines

end Program

end TinyCompiler
