import TinyCompiler.SymbolTable

/-! What programs mean. Every name has a word at every time, and beside them stands the last
expression evaluated by a statement, at first zero. Loops need not end, so statements run on
fuel: every loop may turn that often, each time it is entered. -/
namespace TinyCompiler

abbrev Env := String → Int64

def UnaryOp.apply : UnaryOp → Int64 → Int64
  | neg, a => -a
  | not, a => if a = 0 then 1 else 0

/-- Division truncates. It faults on a zero divisor, and where the quotient is no word. -/
def BinaryOp.apply : BinaryOp → Int64 → Int64 → Option Int64
  | add, a, b => some (a + b)
  | sub, a, b => some (a - b)
  | or, a, b => some (a ||| b)
  | xor, a, b => some (a ^^^ b)
  | mul, a, b => some (a * b)
  | div, a, b => if b = 0 ∨ (a = Int64.minValue ∧ b = -1) then none else some (a / b)
  | rem, a, b => if b = 0 ∨ (a = Int64.minValue ∧ b = -1) then none else some (a % b)
  | shl, a, b => some (a <<< (b &&& 63))
  | shr, a, b => some (a >>> (b &&& 63))
  | and, a, b => some (a &&& b)
  | andNot, a, b => some (a &&& ~~~b)

def Comparison.holds : Comparison → Int64 → Int64 → Bool
  | eq, a, b => a = b
  | ne, a, b => a ≠ b
  | lt, a, b => a < b
  | gt, a, b => b < a
  | le, a, b => a ≤ b
  | ge, a, b => b ≤ a

namespace Expr

def truth (b : Bool) : Int64 := if b then 1 else 0

/-- The value of an expression, or nothing where a division faults. Connectives read their right
operand only if the left one does not decide. -/
def eval (env : Env) : Expr → Option Int64
  | integer value => some value
  | boolean value => some (truth value)
  | reference name _ => some (env name)
  | unary op operand => (operand.eval env).map op.apply
  | binary op left right =>
    (left.eval env).bind fun a => (right.eval env).bind fun b => op.apply a b
  | comparison op left right =>
    (left.eval env).bind fun a => (right.eval env).map fun b => truth (op.holds a b)
  | connective .and left right =>
    (left.eval env).bind fun a =>
      if a = 0 then some 0 else (right.eval env).map fun b => truth (b ≠ 0)
  | connective .or left right =>
    (left.eval env).bind fun a =>
      if a = 0 then (right.eval env).map fun b => truth (b ≠ 0) else some 1

end Expr

/-- The words of the names, and the last value. -/
structure Store where
  env : Env
  last : Int64

/-- How a statement ends, if the fuel lasts. -/
inductive Ending where
  | next (σ : Store)
  | returned (value : Int64)
  | fault
  | exhausted

def Ending.andThen (e : Ending) (f : Store → Ending) : Ending :=
  match e with
  | next σ => f σ
  | returned value => returned value
  | fault => fault
  | exhausted => exhausted

namespace Stmt

/-- Evaluates an expression, which becomes the last one. -/
def evaluate (value : Expr) (σ : Store) (f : Int64 → Store → Ending) : Ending :=
  match value.eval σ.env with
  | some v => f v { σ with last := v }
  | none => .fault

def turn (condition : Expr) (body : Store → Ending) : Nat → Store → Ending
  | 0, _ => .exhausted
  | n + 1, σ => evaluate condition σ fun v σ =>
    if v = 0 then .next σ else (body σ).andThen (turn condition body n)

mutual

def exec (fuel : Nat) : Stmt → Store → Ending
  | expr value, σ => evaluate value σ fun _ σ => .next σ
  | declare name value _, σ | assign name value _, σ => evaluate value σ fun v σ =>
    .next { σ with env := fun name' => if name' = name then v else σ.env name' }
  | ret value, σ => evaluate value σ fun v _ => .returned v
  | ifThen condition consequent, σ => evaluate condition σ fun v σ =>
    if v = 0 then .next σ else execAll fuel consequent σ
  | ifElse condition consequent alternate, σ => evaluate condition σ fun v σ =>
    if v = 0 then execAll fuel alternate σ else execAll fuel consequent σ
  | loop condition body, σ => turn condition (execAll fuel body) fuel σ

def execAll (fuel : Nat) : List Stmt → Store → Ending
  | [], σ => .next σ
  | s :: rest, σ => (s.exec fuel σ).andThen (execAll fuel rest)

end

end Stmt

inductive Result where
  | value (v : Int64)
  | fault
  | exhausted
  deriving DecidableEq

/-- A program that does not return gives the last value. -/
def Ending.result : Ending → Result
  | next σ => .value σ.last
  | returned v => .value v
  | fault => .fault
  | exhausted => .exhausted

def Program.interpret (p : Program) (env : Env) (fuel : Nat) : Result :=
  (Stmt.execAll fuel p.statements ⟨env, 0⟩).result

theorem Ending.andThen_congr {e e' : Ending} {f f' : Store → Ending}
    (h : e.andThen f ≠ .exhausted) (he : e ≠ .exhausted → e' = e)
    (hf : ∀ σ, f σ ≠ .exhausted → f' σ = f σ) : e'.andThen f' = e.andThen f := by
  cases e with
  | next σ =>
    rw [he (by simp)]
    exact hf σ h
  | returned value =>
    rw [he (by simp)]
    rfl
  | fault =>
    rw [he (by simp)]
    rfl
  | exhausted => exact absurd rfl h

namespace Stmt

theorem evaluate_congr {value : Expr} {σ : Store} {f f' : Int64 → Store → Ending}
    (h : evaluate value σ f ≠ .exhausted)
    (hf : ∀ v σ, f v σ ≠ .exhausted → f' v σ = f v σ) :
    evaluate value σ f' = evaluate value σ f := by
  rw [evaluate] at h ⊢
  rw [evaluate]
  cases hv : value.eval σ.env with
  | some v =>
    rw [hv] at h
    exact hf v _ h
  | none => rfl

/-- A loop that comes to an end does not need the rest of its turns. -/
theorem turn_of_le {condition : Expr} {body body' : Store → Ending} {n m : Nat} {σ : Store}
    (hbody : ∀ σ, body σ ≠ .exhausted → body' σ = body σ) (hle : n ≤ m)
    (h : turn condition body n σ ≠ .exhausted) :
    turn condition body' m σ = turn condition body n σ := by
  induction n generalizing m σ with
  | zero => exact absurd rfl h
  | succ n ih =>
    obtain ⟨k, rfl⟩ := Nat.exists_eq_add_of_le' (Nat.lt_of_lt_of_le n.succ_pos hle)
    rw [turn] at h ⊢
    rw [turn]
    refine evaluate_congr h fun v σ hv => ?_
    by_cases hzero : v = 0
    · rw [if_pos hzero, if_pos hzero]
    · rw [if_neg hzero] at hv ⊢
      rw [if_neg hzero]
      exact Ending.andThen_congr hv (hbody σ) fun σ' hσ' => ih (Nat.le_of_succ_le_succ hle) hσ'

mutual

theorem exec_of_le (s : Stmt) (σ : Store) (n m : Nat) (hle : n ≤ m)
    (h : s.exec n σ ≠ .exhausted) : s.exec m σ = s.exec n σ := by
  cases s with
  | expr value => rfl
  | declare name value binding => rfl
  | assign name value binding => rfl
  | ret value => rfl
  | ifThen condition consequent =>
    rw [exec] at h ⊢
    rw [exec]
    refine evaluate_congr h fun v σ' hv => ?_
    by_cases hzero : v = 0
    · rw [if_pos hzero, if_pos hzero]
    · rw [if_neg hzero] at hv ⊢
      rw [if_neg hzero]
      exact execAll_of_le consequent σ' n m hle hv
  | ifElse condition consequent alternate =>
    rw [exec] at h ⊢
    rw [exec]
    refine evaluate_congr h fun v σ' hv => ?_
    by_cases hzero : v = 0
    · rw [if_pos hzero] at hv ⊢
      rw [if_pos hzero]
      exact execAll_of_le alternate σ' n m hle hv
    · rw [if_neg hzero] at hv ⊢
      rw [if_neg hzero]
      exact execAll_of_le consequent σ' n m hle hv
  | loop condition body =>
    rw [exec] at h ⊢
    rw [exec]
    exact turn_of_le (fun σ' hσ' => execAll_of_le body σ' n m hle hσ') hle h

theorem execAll_of_le (ss : List Stmt) (σ : Store) (n m : Nat) (hle : n ≤ m)
    (h : execAll n ss σ ≠ .exhausted) : execAll m ss σ = execAll n ss σ := by
  cases ss with
  | nil => rfl
  | cons s rest =>
    rw [execAll] at h ⊢
    rw [execAll]
    exact Ending.andThen_congr h (exec_of_le s σ n m hle) fun σ' hσ' =>
      execAll_of_le rest σ' n m hle hσ'

end

end Stmt

/-- More fuel changes nothing where it lasted. -/
theorem Program.interpret_of_le {p : Program} {env : Env} {n m : Nat} (hle : n ≤ m)
    (h : p.interpret env n ≠ .exhausted) : p.interpret env m = p.interpret env n := by
  have hlasts : Stmt.execAll n p.statements ⟨env, 0⟩ ≠ .exhausted := by
    intro hexhausted
    exact h (by rw [interpret, hexhausted, Ending.result])
  rw [interpret, interpret, Stmt.execAll_of_le _ _ n m hle hlasts]

end TinyCompiler
