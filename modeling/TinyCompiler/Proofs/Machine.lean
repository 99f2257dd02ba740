import Mathlib.Algebra.Ring.Int.Defs
import TinyCompiler.Assembly.Instruction

/-! A machine for assembly. Its words have 64 bits and its stack is ideal: addresses are integers
without bound, every cell of eight bytes holds one value, and a cell that holds an address is told
from one that holds a word. A jump goes to the line that carries its label. -/
namespace TinyCompiler.Machine

inductive Value where
  | word (w : Int64)
  | address (a : Int)
  deriving DecidableEq

inductive Mnemonic where
  | push | pop | mov | movzx
  | add | sub | or | xor | and | imul | neg | not | shl | sar | cqo | idiv
  | cmp | set (condition : Condition)
  | jmp | jmpIf (condition : Condition) | ret
  deriving DecidableEq

inductive Operand where
  | register (r : Register)
  /-- The low byte of a register. -/
  | lowByte (r : Register)
  | immediate (value : Int)
  | memory (base : Register) (displacement : Int)
  | symbol (name : String)
  deriving DecidableEq

structure Operation where
  mnemonic : Mnemonic
  operands : List Operand
  deriving DecidableEq

/-- What a line of assembly is. Directives do nothing when the program runs. -/
inductive Item where
  | label (name : String)
  | directive
  | operation (o : Operation)
  deriving DecidableEq

structure Flags where
  zero : Bool
  sign : Bool
  overflow : Bool

structure State where
  pc : Nat
  registers : Register → Value
  memory : Int → Value
  /-- Other arithmetic leaves the flags undefined. -/
  flags : Option Flags

/-- A division may fault. A state that the machine has no rule for is stuck. -/
inductive Outcome where
  | running (s : State)
  | returned (s : State)
  | fault
  | stuck

def Flags.compare (a b : Int64) : Flags where
  zero := a - b = 0
  sign := a - b < 0
  overflow := (a - b).toInt ≠ a.toInt - b.toInt

def Flags.holds (f : Flags) : Condition → Bool
  | .equal => f.zero
  | .notEqual => !f.zero
  | .less => f.sign != f.overflow
  | .greaterEqual => f.sign == f.overflow
  | .lessEqual => f.zero || f.sign != f.overflow
  | .greater => !f.zero && f.sign == f.overflow

namespace State

def next (s : State) : State := { s with pc := s.pc + 1 }

def set (s : State) (r : Register) (v : Value) : State :=
  { s with registers := fun r' => if r' = r then v else s.registers r' }

def store (s : State) (a : Int) (v : Value) : State :=
  { s with memory := fun a' => if a' = a then v else s.memory a' }

def address? (s : State) (base : Register) (displacement : Int) : Option Int :=
  match s.registers base with
  | .address a => some (a + displacement)
  | .word _ => none

def read (s : State) : Operand → Option Value
  | .register r => some (s.registers r)
  | .immediate value => some (.word (Int64.ofInt value))
  | .memory base displacement => (s.address? base displacement).map s.memory
  | .lowByte _ | .symbol _ => none

def readWord (s : State) (o : Operand) : Option Int64 :=
  match s.read o with
  | some (.word w) => some w
  | _ => none

def write (s : State) (v : Value) : Operand → Option State
  | .register r => some (s.set r v)
  | .memory base displacement => (s.address? base displacement).map fun a => s.store a v
  | .immediate _ | .lowByte _ | .symbol _ => none

/-- Arithmetic on words, which leaves the flags undefined. -/
def compute (s : State) (f : Int64 → Int64 → Int64) (target source : Operand) : Option State := do
  let a ← s.readWord target
  let b ← s.readWord source
  { s with flags := none }.write (.word (f a b)) target

def push (s : State) (v : Value) : Option State :=
  match s.registers .rsp with
  | .address a => some ((s.set .rsp (.address (a - 8))).store (a - 8) v)
  | .word _ => none

def pop (s : State) : Option (Value × State) :=
  match s.registers .rsp with
  | .address a => some (s.memory a, s.set .rsp (.address (a + 8)))
  | .word _ => none

end State

/-- Divides the pair `rdx`, `rax` by a word. The quotient has to be a word. -/
def divide (s : State) (divisor : Int64) : Outcome :=
  match s.registers .rdx, s.registers .rax with
  | .word high, .word low =>
    let dividend := high.toInt * 2 ^ 64 + low.toUInt64.toNat
    let quotient := dividend.tdiv divisor.toInt
    if divisor = 0 ∨ quotient < -(2 ^ 63) ∨ 2 ^ 63 ≤ quotient then .fault
    else .running ((({ s with flags := none }).set .rax (.word (Int64.ofInt quotient))).set .rdx
      (.word (Int64.ofInt (dividend.tmod divisor.toInt)))).next
  | _, _ => .stuck

/-- The state behind an operation that does not jump, divide or return. -/
def advance (s : State) : Mnemonic → List Operand → Option State
  | .push, [source] => (s.read source).bind s.push
  | .pop, [target] => s.pop.bind fun (v, s') => s'.write v target
  | .mov, [target, source] => (s.read source).bind fun v => s.write v target
  | .movzx, [target, .lowByte r] =>
    (s.readWord (.register r)).bind fun w => s.write (.word (w &&& 255)) target
  | .add, [target, source] => s.compute (· + ·) target source
  | .sub, [.register r, .immediate value] =>
    match s.registers r with
    | .address a => some ({ s with flags := none }.set r (.address (a - value)))
    | .word w => some ({ s with flags := none }.set r (.word (w - Int64.ofInt value)))
  | .sub, [target, source] => s.compute (· - ·) target source
  | .or, [target, source] => s.compute (· ||| ·) target source
  | .xor, [target, source] => s.compute (· ^^^ ·) target source
  | .and, [target, source] => s.compute (· &&& ·) target source
  | .imul, [target, source] => s.compute (· * ·) target source
  | .neg, [target] => s.compute (fun w _ => -w) target target
  | .not, [target] => (s.readWord target).bind fun w => s.write (.word (~~~w)) target
  | .shl, [target, .lowByte r] =>
    s.compute (fun w count => w <<< (count &&& 255 &&& 63)) target (.register r)
  | .sar, [target, .lowByte r] =>
    s.compute (fun w count => w >>> (count &&& 255 &&& 63)) target (.register r)
  | .cqo, [] => (s.readWord (.register .rax)).map fun w =>
    s.set .rdx (.word (if w < 0 then -1 else 0))
  | .cmp, [left, right] => do
    let a ← s.readWord left
    let b ← s.readWord right
    return { s with flags := some (.compare a b) }
  | .set condition, [.lowByte r] => do
    let f ← s.flags
    let w ← s.readWord (.register r)
    return s.set r (.word (w &&& ~~~255 ||| if f.holds condition then 1 else 0))
  | _, _ => none

def target? (image : List Item) (name : String) : Option Nat := image.idxOf? (.label name)

def goto (image : List Item) (s : State) (name : String) : Outcome :=
  match target? image name with
  | some pc => .running { s with pc := pc }
  | none => .stuck

def perform (image : List Item) (s : State) : Operation → Outcome
  | ⟨.jmp, [.symbol name]⟩ => goto image s name
  | ⟨.jmpIf condition, [.symbol name]⟩ =>
    match s.flags with
    | some f => if f.holds condition then goto image s name else .running s.next
    | none => .stuck
  | ⟨.idiv, [source]⟩ =>
    match s.readWord source with
    | some divisor => divide s divisor
    | none => .stuck
  | ⟨.ret, []⟩ => .returned s
  | ⟨mnemonic, operands⟩ =>
    match advance s mnemonic operands with
    | some s' => .running s'.next
    | none => .stuck

def step (image : List Item) (s : State) : Outcome :=
  match image[s.pc]? with
  | some (.operation o) => perform image s o
  | some (.label _) | some .directive => .running s.next
  | none => .stuck

def run (image : List Item) : Nat → State → Outcome
  | 0, s => .running s
  | n + 1, s =>
    match step image s with
    | .running s' => run image n s'
    | outcome => outcome

variable {image : List Item} {s s' : State}

theorem run_succ_of_step (h : step image s = .running s') (n : Nat) :
    run image (n + 1) s = run image n s' := by
  rw [run, h]

theorem run_add {m : Nat} (h : run image m s = .running s') (n : Nat) :
    run image (m + n) s = run image n s' := by
  induction m generalizing s with
  | zero =>
    cases h
    rw [Nat.zero_add]
  | succ m ih =>
    rw [run] at h
    cases hs : step image s with
    | running s₁ =>
      rw [hs] at h
      rw [Nat.succ_add, run_succ_of_step hs]
      exact ih h
    | returned _ => simp [hs] at h
    | fault => simp [hs] at h
    | stuck => simp [hs] at h

theorem run_mono {m n : Nat} (hmn : m ≤ n) (h : ∀ s', run image m s ≠ .running s') :
    run image n s = run image m s := by
  induction m generalizing s n with
  | zero => exact absurd rfl (h s)
  | succ m ih =>
    obtain ⟨k, rfl⟩ : ∃ k, n = k + 1 := ⟨n - 1, by omega⟩
    cases hs : step image s with
    | running s₁ =>
      rw [run_succ_of_step hs, run_succ_of_step hs]
      refine ih (by omega) fun s' => ?_
      rw [← run_succ_of_step hs]
      exact h s'
    | returned _ => simp [run, hs]
    | fault => simp [run, hs]
    | stuck => simp [run, hs]

end TinyCompiler.Machine
