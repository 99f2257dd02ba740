import Mathlib.Tactic.Simproc.ExistsAndEq
import TinyCompiler.Assembly.Lowering

/-! What the lowering of each form consists of: the code of its parts with a fixed frame around
it, and numbers for its labels that follow the numbers made before. -/
namespace TinyCompiler

namespace Lowering

/-- From the count `n` a lowering gives `a` and leaves the count `n'`. -/
def Gives {α : Type} (m : Lowering α) (n : Nat) (a : α) (n' : Nat) : Prop := m.run n = .ok (a, n')

variable {α β : Type} {n n' : Nat}

@[simp] theorem gives_pure {a b : α} : Gives (pure a) n b n' ↔ b = a ∧ n' = n := by
  have hrun : (pure a : Lowering α).run n = .ok (a, n) := rfl
  simp [Gives, hrun, eq_comm]

theorem not_gives_throw {e : LoweringError} {a : α} : ¬Gives (throw e) n a n' := by
  simp [Gives, throw, throwThe, MonadExceptOf.throw, StateT.run, StateT.lift, bind, Except.bind]

@[simp] theorem gives_bind {m : Lowering α} {f : α → Lowering β} {b : β} :
    Gives (m >>= f) n b n' ↔ ∃ a k, Gives m n a k ∧ Gives (f a) k b n' := by
  unfold Gives
  rw [StateT.run_bind]
  cases m.run n with
  | error e => simp [bind, Except.bind]
  | ok out =>
    have hout (a : α) (k : Nat) : out = (a, k) ↔ a = out.1 ∧ k = out.2 := by
      rw [Prod.ext_iff, eq_comm, @eq_comm _ out.2]
    simp [bind, Except.bind, hout]

@[simp] theorem gives_map {m : Lowering α} {f : α → β} {b : β} :
    Gives (f <$> m) n b n' ↔ ∃ a, Gives m n a n' ∧ b = f a := by
  rw [← bind_pure_comp, gives_bind]
  simp

@[simp] theorem gives_labels {first second : LabelRole} {ls : Label × Label} :
    Gives (labels first second) n ls n' ↔
      ls = (.numbered first n, .numbered second (n + 1)) ∧ n' = n + 2 := by
  have h : Gives (labels first second) n (.numbered first n, .numbered second (n + 1)) (n + 2) :=
    rfl
  refine ⟨fun h' => ?_, fun h' => ?_⟩
  · cases h.symm.trans h'
    exact ⟨rfl, rfl⟩
  · rw [h'.1, h'.2]
    exact h

@[simp] theorem gives_slot {t : SymbolTable} {name : String} {offset : Nat} :
    Gives (slot t name) n offset n' ↔ t.slot? name = some offset ∧ n' = n := by
  rw [slot]
  cases t.slot? name with
  | none => simp [not_gives_throw]
  | some found => simp [eq_comm]

@[simp] theorem gives_checkBinding {t : SymbolTable} {name : String} {binding : Nat} {u : Unit} :
    Gives (checkBinding t name binding) n u n' ↔
      (t.resolve binding).map Binding.name = some name ∧ n' = n := by
  rw [checkBinding]
  split
  next h => simp [h]
  next h => simp [h, not_gives_throw]

end Lowering

open Lowering

/-- Both operands of a connective may leave for the short end. -/
def Connective.frame (op : Connective) (n : Nat) (left right : List Line) : List Line :=
  let leave := code [.cmp .rax (.immediate 0), .jumpIf op.exitCondition (.numbered .short n)]
  left ++ leave ++ right ++ leave ++
    code [.mov .rax (.immediate (1 - op.decided)), .jump (.numbered .finish (n + 1))] ++
    .label (.numbered .short n) :: code [.mov .rax (.immediate op.decided)] ++
    [.label (.numbered .finish (n + 1))]

def branch (n : Nat) (condition consequent alternate : List Line) : List Line :=
  condition ++ code [.cmp .rax (.immediate 0), .jumpIf .equal (.numbered .otherwise n)] ++
    consequent ++ code [.jump (.numbered .finish (n + 1))] ++
    .label (.numbered .otherwise n) :: alternate ++ [.label (.numbered .finish (n + 1))]

def cycle (n : Nat) (condition body : List Line) : List Line :=
  .label (.numbered .begin n) :: condition ++
    code [.cmp .rax (.immediate 0), .jumpIf .equal (.numbered .finish (n + 1))] ++ body ++
    code [.jump (.numbered .begin n)] ++ [.label (.numbered .finish (n + 1))]

variable {t : SymbolTable} {block : List Line} {n n' : Nat}

namespace Expr

attribute [local simp] lower Connective.frame

theorem lower_integer {value : Int64} :
    Gives ((integer value).lower t) n block n' ↔
      block = code [.mov .rax (.immediate value.toInt)] ∧ n' = n := by
  simp

theorem lower_boolean {value : Bool} :
    Gives ((boolean value).lower t) n block n' ↔
      block = code [.mov .rax (.immediate (if value then 1 else 0))] ∧ n' = n := by
  simp

theorem lower_reference {name : String} {binding : Nat} :
    Gives ((reference name binding).lower t) n block n' ↔
      (t.resolve binding).map Binding.name = some name ∧ ∃ slot, t.slot? name = some slot ∧
        block = code [.load .rax slot] ∧ n' = n := by
  simp only [lower, gives_bind, gives_checkBinding, gives_map, gives_slot, bind_pure_comp]
  refine ⟨fun h => ?_, fun h => ?_⟩
  · obtain ⟨_, _, ⟨hbinding, rfl⟩, slot, ⟨hslot, rfl⟩, rfl⟩ := h
    exact ⟨hbinding, slot, hslot, rfl, rfl⟩
  · obtain ⟨hbinding, slot, hslot, rfl, rfl⟩ := h
    exact ⟨(), _, ⟨hbinding, rfl⟩, slot, ⟨hslot, rfl⟩, rfl⟩

theorem lower_unary {op : UnaryOp} {operand : Expr} :
    Gives ((unary op operand).lower t) n block n' ↔
      ∃ o, Gives (operand.lower t) n o n' ∧ block = o ++ code op.instructions := by
  simp

theorem lower_binary {op : BinaryOp} {left right : Expr} :
    Gives ((binary op left right).lower t) n block n' ↔ ∃ l m, Gives (left.lower t) n l m ∧
      ∃ r, Gives (right.lower t) m r n' ∧ block = operands l r ++ code op.instructions := by
  simp

theorem lower_comparison {op : Comparison} {left right : Expr} :
    Gives ((comparison op left right).lower t) n block n' ↔ ∃ l m, Gives (left.lower t) n l m ∧
      ∃ r, Gives (right.lower t) m r n' ∧ block = operands l r ++ code op.instructions := by
  simp

theorem lower_connective {op : Connective} {left right : Expr} :
    Gives ((connective op left right).lower t) n block n' ↔
      ∃ l m, Gives (left.lower t) (n + 2) l m ∧
        ∃ r, Gives (right.lower t) m r n' ∧ block = op.frame n l r := by
  simp

end Expr

namespace Stmt

attribute [local simp] lower lowerBlock lowerStore branch cycle

theorem gives_lowerStore {name : String} {value : Expr} :
    Gives (lowerStore t name value) n block n' ↔ ∃ v, Gives (value.lower t) n v n' ∧
      ∃ slot, t.slot? name = some slot ∧ block = v ++ code [.store slot .rax] := by
  simp [and_comm, and_left_comm]

theorem lower_ret {value : Expr} :
    Gives ((ret value).lower t) n block n' ↔
      ∃ v, Gives (value.lower t) n v n' ∧ block = v ++ code [.jump .exit] := by
  simp

theorem lower_ifThen {condition : Expr} {consequent : List Stmt} :
    Gives ((ifThen condition consequent).lower t) n block n' ↔
      ∃ c m, Gives (condition.lower t) (n + 2) c m ∧
        ∃ b, Gives (lowerBlock t consequent) m b n' ∧ block = branch n c b [] := by
  simp

theorem lower_ifElse {condition : Expr} {consequent alternate : List Stmt} :
    Gives ((ifElse condition consequent alternate).lower t) n block n' ↔
      ∃ c m, Gives (condition.lower t) (n + 2) c m ∧
        ∃ b k, Gives (lowerBlock t consequent) m b k ∧
          ∃ a, Gives (lowerBlock t alternate) k a n' ∧ block = branch n c b a := by
  simp

theorem lower_loop {condition : Expr} {body : List Stmt} :
    Gives ((loop condition body).lower t) n block n' ↔
      ∃ c m, Gives (condition.lower t) (n + 2) c m ∧
        ∃ b, Gives (lowerBlock t body) m b n' ∧ block = cycle n c b := by
  simp

theorem lowerBlock_nil : Gives (lowerBlock t []) n block n' ↔ block = [] ∧ n' = n := by
  simp

theorem lowerBlock_cons {s : Stmt} {rest : List Stmt} :
    Gives (lowerBlock t (s :: rest)) n block n' ↔ ∃ first m, Gives (s.lower t) n first m ∧
      ∃ others, Gives (lowerBlock t rest) m others n' ∧ block = first ++ others := by
  simp

end Stmt

theorem Program.assemble_eq_ok {p : Program} {entry : String} {lines : List Line} :
    p.assemble entry = .ok lines ↔
      ∃ body n, Gives (Stmt.lowerBlock p.symbols p.statements) 0 body n ∧
        lines = prologue entry p.symbols.frameSize ++ body ++ epilogue := by
  rw [assemble]
  unfold Gives
  cases (Stmt.lowerBlock p.symbols p.statements).run 0 with
  | error e => simp [bind, Except.bind]
  | ok out => simp [bind, Except.bind, pure, Except.pure, Prod.ext_iff, eq_comm]

theorem Program.assembly_eq_ok {p : Program} {entry text : String} :
    p.assembly entry = .ok text ↔ ∃ lines, p.assemble entry = .ok lines ∧
      renderLines lines = text := by
  rw [assembly]
  cases p.assemble entry with
  | error e => simp [Except.map]
  | ok lines => simp [Except.map]

end TinyCompiler
