import TinyCompiler.Proofs.LabelPlacement

/-! The labels of a compiled program and the targets of its jumps. Lowering numbers the labels of a
form before it lowers what stands inside, so the numbers of a form lie around those of its parts.
Still every label that was made stands on one line, and no code jumps out of the lines of the
statement or the expression it belongs to, except to the exit. -/
namespace TinyCompiler

open Lowering Machine

def labelsFrom (n : Nat) : List LabelRole → List Label
  | [] => []
  | role :: rest => .numbered role n :: labelsFrom (n + 1) rest

theorem labelsFrom_append (n : Nat) (a b : List LabelRole) :
    labelsFrom n (a ++ b) = labelsFrom n a ++ labelsFrom (n + a.length) b := by
  induction a generalizing n with
  | nil => rfl
  | cons role rest ih =>
    rw [List.cons_append, labelsFrom, ih, labelsFrom, List.length_cons, Nat.add_right_comm,
      Nat.add_assoc, List.cons_append]

theorem length_labelsFrom (n : Nat) (roles : List LabelRole) :
    (labelsFrom n roles).length = roles.length := by
  induction roles generalizing n with
  | nil => rfl
  | cons role rest ih => rw [labelsFrom, List.length_cons, ih, List.length_cons]

/-- The roles of the labels of an expression, in the order of their making: a connective makes its
two labels before its operands are lowered. -/
def Expr.roles : Expr → List LabelRole
  | integer _ | boolean _ | reference _ _ => []
  | unary _ operand => operand.roles
  | binary _ left right | comparison _ left right => left.roles ++ right.roles
  | connective _ left right => .short :: .finish :: (left.roles ++ right.roles)

namespace Stmt

mutual

def roles : Stmt → List LabelRole
  | expr value | declare _ value _ | assign _ value _ | ret value => value.roles
  | ifThen condition consequent =>
    .otherwise :: .finish :: (condition.roles ++ rolesAll consequent)
  | ifElse condition consequent alternate =>
    .otherwise :: .finish :: (condition.roles ++ rolesAll consequent ++ rolesAll alternate)
  | loop condition body => .begin :: .finish :: (condition.roles ++ rolesAll body)

def rolesAll : List Stmt → List LabelRole
  | [] => []
  | s :: rest => s.roles ++ rolesAll rest

end

end Stmt

def Program.labels (p : Program) : List Label := .exit :: labelsFrom 0 (Stmt.rolesAll p.statements)

def Instruction.target? : Instruction → Option Label
  | jump target | jumpIf _ target => some target
  | _ => none

def Line.target? : Line → Option Label
  | instruction i => i.target?
  | _ => none

def targets (block : List Line) : List Label := block.filterMap Line.target?

section

variable {a b : List Line}

@[simp] theorem targets_append : targets (a ++ b) = targets a ++ targets b :=
  List.filterMap_append

@[simp] theorem targets_label (l : Label) : targets (.label l :: a) = targets a := rfl

@[simp] theorem targets_nil : targets [] = [] := rfl

@[simp] theorem targets_code (is : List Instruction) :
    targets (code is) = is.filterMap Instruction.target? := by
  rw [targets, code, List.filterMap_map]
  rfl

@[simp] theorem blockLabels_append : blockLabels (a ++ b) = blockLabels a ++ blockLabels b :=
  List.filterMap_append

@[simp] theorem blockLabels_label (l : Label) :
    blockLabels (.label l :: a) = l :: blockLabels a := rfl

@[simp] theorem blockLabels_nil : blockLabels [] = [] := rfl

@[simp] theorem blockLabels_code (is : List Instruction) : blockLabels (code is) = [] := by
  simp [blockLabels, code, List.filterMap_map]

end

@[simp] theorem UnaryOp.targets_instructions (op : UnaryOp) :
    op.instructions.filterMap Instruction.target? = [] := by
  cases op <;> rfl

@[simp] theorem BinaryOp.targets_instructions (op : BinaryOp) :
    op.instructions.filterMap Instruction.target? = [] := by
  cases op <;> rfl

@[simp] theorem Comparison.targets_instructions (op : Comparison) :
    op.instructions.filterMap Instruction.target? = [] := rfl

section

variable (n : Nat) (a b c : List Line)

attribute [local simp] Connective.frame branch cycle Instruction.target? List.filterMap_cons

theorem blockLabels_frame (op : Connective) : blockLabels (op.frame n a b) =
    blockLabels a ++ blockLabels b ++ [.numbered .short n, .numbered .finish (n + 1)] := by
  simp

theorem targets_frame (op : Connective) : targets (op.frame n a b) =
    targets a ++ .numbered .short n :: targets b ++
      [.numbered .short n, .numbered .finish (n + 1)] := by
  simp

theorem blockLabels_branch : blockLabels (branch n a b c) =
    blockLabels a ++ blockLabels b ++ .numbered .otherwise n :: blockLabels c ++
      [.numbered .finish (n + 1)] := by
  simp

theorem targets_branch : targets (branch n a b c) =
    targets a ++ .numbered .otherwise n :: targets b ++
      .numbered .finish (n + 1) :: targets c := by
  simp

theorem blockLabels_cycle : blockLabels (cycle n a b) =
    .numbered .begin n :: blockLabels a ++ blockLabels b ++ [.numbered .finish (n + 1)] := by
  simp

theorem targets_cycle : targets (cycle n a b) =
    targets a ++ .numbered .finish (n + 1) :: targets b ++ [.numbered .begin n] := by
  simp

end

/-- A block that holds the labels of some roles, numbered from `n` on, each of them once, and whose
jumps stay inside or go to the exit. -/
structure Labelled (roles : List LabelRole) (n n' : Nat) (block : List Line) : Prop where
  stop : n' = n + roles.length
  labels : (blockLabels block).Perm (labelsFrom n roles)
  closed : ∀ l ∈ targets block, l = .exit ∨ l ∈ blockLabels block

namespace Labelled

variable {xs ys zs : List LabelRole} {n m k n' : Nat} {a b c block : List Line}

theorem code (is : List Instruction) (h : ∀ l ∈ targets (code is), l = .exit) :
    Labelled [] n n (TinyCompiler.code is) :=
  ⟨rfl, by simp [labelsFrom], fun l hl => .inl (h l hl)⟩

theorem append (ha : Labelled xs n m a) (hb : Labelled ys m n' b) :
    Labelled (xs ++ ys) n n' (a ++ b) := by
  have hm := ha.stop
  refine ⟨by rw [hb.stop, hm, List.length_append, Nat.add_assoc], ?_, fun l hl => ?_⟩
  · rw [blockLabels_append, labelsFrom_append, ← hm]
    exact ha.labels.append hb.labels
  · rw [blockLabels_append, List.mem_append]
    rw [targets_append] at hl
    obtain hl | hl := List.mem_append.mp hl
    · exact (ha.closed l hl).imp_right .inl
    · exact (hb.closed l hl).imp_right .inr

theorem append_code {is : List Instruction} (ha : Labelled xs n n' a)
    (h : ∀ l ∈ targets (TinyCompiler.code is), l = .exit) :
    Labelled xs n n' (a ++ TinyCompiler.code is) := by
  have happend := ha.append (code is h)
  rwa [List.append_nil] at happend

theorem operands (ha : Labelled xs n m a) (hb : Labelled ys m n' b) :
    Labelled (xs ++ ys) n n' (Expr.operands a b) :=
  ha.append ((code [.push .rax] fun _ hl => nomatch hl).append
    (hb.append_code fun _ hl => nomatch hl))

/-- Two labels made first, wherever they stand around the rest. -/
theorem around {first second : LabelRole} {inner : List Line} (h : Labelled xs (n + 2) n' inner)
    (hlabels : ∀ l, (blockLabels block).count l = (blockLabels inner).count l +
      [Label.numbered first n, .numbered second (n + 1)].count l)
    (htargets : targets block ⊆
      .numbered first n :: .numbered second (n + 1) :: targets inner) :
    Labelled (first :: second :: xs) n n' block := by
  have hperm : (blockLabels block).Perm
      (.numbered first n :: .numbered second (n + 1) :: blockLabels inner) := by
    rw [List.perm_iff_count]
    intro l
    rw [hlabels]
    simp only [List.count_cons, List.count_nil]
    omega
  refine ⟨by rw [h.stop, List.length_cons, List.length_cons]; omega,
    hperm.trans ((h.labels.cons _).cons _), fun l hl => ?_⟩
  rw [hperm.mem_iff]
  obtain hfirst | hl := List.mem_cons.mp (htargets hl)
  · exact .inr (List.mem_cons.mpr (.inl hfirst))
  obtain hsecond | hl := List.mem_cons.mp hl
  · exact .inr (List.mem_cons_of_mem _ (List.mem_cons.mpr (.inl hsecond)))
  · exact (h.closed l hl).imp_right fun h => List.mem_cons_of_mem _ (List.mem_cons_of_mem _ h)

theorem frame (op : Connective) (ha : Labelled xs (n + 2) m a) (hb : Labelled ys m n' b) :
    Labelled (.short :: .finish :: (xs ++ ys)) n n' (op.frame n a b) := by
  refine (ha.append hb).around (fun l => ?_) fun l hl => ?_
  · grind [blockLabels_frame, blockLabels_append]
  · grind [targets_frame, targets_append]

theorem branch (ha : Labelled xs (n + 2) m a) (hb : Labelled ys m k b) (hc : Labelled zs k n' c) :
    Labelled (.otherwise :: .finish :: (xs ++ ys ++ zs)) n n' (TinyCompiler.branch n a b c) := by
  refine ((ha.append hb).append hc).around (fun l => ?_) fun l hl => ?_
  · grind [blockLabels_branch, blockLabels_append]
  · grind [targets_branch, targets_append]

theorem cycle (ha : Labelled xs (n + 2) m a) (hb : Labelled ys m n' b) :
    Labelled (.begin :: .finish :: (xs ++ ys)) n n' (TinyCompiler.cycle n a b) := by
  refine (ha.append hb).around (fun l => ?_) fun l hl => ?_
  · grind [blockLabels_cycle, blockLabels_append]
  · grind [targets_cycle, targets_append]

end Labelled

variable {t : SymbolTable} {block : List Line} {n n' : Nat}

theorem Expr.labelled {e : Expr} (h : Gives (e.lower t) n block n') :
    Labelled e.roles n n' block := by
  induction e generalizing n block n' with
  | integer value =>
    obtain ⟨rfl, rfl⟩ := lower_integer.mp h
    exact .code _ fun _ hl => nomatch hl
  | boolean value =>
    obtain ⟨rfl, rfl⟩ := lower_boolean.mp h
    exact .code _ fun _ hl => nomatch hl
  | reference name binding =>
    obtain ⟨-, slot, -, rfl, rfl⟩ := lower_reference.mp h
    exact .code _ fun _ hl => nomatch hl
  | unary op operand ih =>
    obtain ⟨o, ho, rfl⟩ := lower_unary.mp h
    exact (ih ho).append_code (by simp)
  | binary op left right ihl ihr =>
    obtain ⟨l, m, hl, r, hr, rfl⟩ := lower_binary.mp h
    exact ((ihl hl).operands (ihr hr)).append_code (by simp)
  | comparison op left right ihl ihr =>
    obtain ⟨l, m, hl, r, hr, rfl⟩ := lower_comparison.mp h
    exact ((ihl hl).operands (ihr hr)).append_code (by simp)
  | connective op left right ihl ihr =>
    obtain ⟨l, m, hl, r, hr, rfl⟩ := lower_connective.mp h
    exact (ihl hl).frame op (ihr hr)

namespace Stmt

theorem labelled_store {name : String} {value : Expr}
    (h : Gives (lowerStore t name value) n block n') : Labelled value.roles n n' block := by
  obtain ⟨v, hv, slot, -, rfl⟩ := gives_lowerStore.mp h
  exact (Expr.labelled hv).append_code fun _ hl => nomatch hl

mutual

theorem labelled (s : Stmt) (n : Nat) (block : List Line) (n' : Nat)
    (h : Gives (s.lower t) n block n') : Labelled s.roles n n' block := by
  cases s with
  | expr value => exact Expr.labelled h
  | declare name value binding => exact labelled_store h
  | assign name value binding => exact labelled_store h
  | ret value =>
    obtain ⟨v, hv, rfl⟩ := lower_ret.mp h
    exact (Expr.labelled hv).append_code fun l hl => List.mem_singleton.mp hl
  | ifThen condition consequent =>
    obtain ⟨c, m, hc, b, hb, rfl⟩ := lower_ifThen.mp h
    have hbranch := (Expr.labelled hc).branch (labelledBlock consequent m b n' hb)
      (.code [] fun _ hl => nomatch hl)
    rwa [List.append_nil] at hbranch
  | ifElse condition consequent alternate =>
    obtain ⟨c, m, hc, b, k, hb, a, ha, rfl⟩ := lower_ifElse.mp h
    exact (Expr.labelled hc).branch (labelledBlock consequent m b k hb)
      (labelledBlock alternate k a n' ha)
  | loop condition body =>
    obtain ⟨c, m, hc, b, hb, rfl⟩ := lower_loop.mp h
    exact (Expr.labelled hc).cycle (labelledBlock body m b n' hb)

theorem labelledBlock (ss : List Stmt) (n : Nat) (block : List Line) (n' : Nat)
    (h : Gives (lowerBlock t ss) n block n') : Labelled (rolesAll ss) n n' block := by
  cases ss with
  | nil =>
    obtain ⟨rfl, rfl⟩ := lowerBlock_nil.mp h
    exact .code [] fun _ hl => nomatch hl
  | cons s rest =>
    obtain ⟨first, m, hfirst, others, hothers, rfl⟩ := lowerBlock_cons.mp h
    exact (labelled s n first m hfirst).append (labelledBlock rest m others n' hothers)

end

end Stmt

end TinyCompiler
