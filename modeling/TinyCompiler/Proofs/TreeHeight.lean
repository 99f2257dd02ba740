import Mathlib.Data.Nat.Choose.Basic
import TinyCompiler.Proofs.Scoping

/-! How tall the trees become that a limit on nesting lets through. An operator is charged to the
operands behind it alone, and the fold that it makes puts the whole tree to its left one level
down; so trees grow past the limit. -/
namespace TinyCompiler

open Grammar

def Expr.height : Expr → Nat
  | integer _ | boolean _ | reference _ _ => 1
  | unary _ operand => operand.height + 1
  | binary _ left right | comparison _ left right | connective _ left right =>
    max left.height right.height + 1

theorem Expr.one_le_height (e : Expr) : 1 ≤ e.height := by
  cases e <;> simp [height]

mutual

def Stmt.expressions : Stmt → List Expr
  | .expr value | .ret value | .declare _ value _ | .assign _ value _ => [value]
  | .ifThen condition consequent => condition :: expressionsAll consequent
  | .ifElse condition consequent alternate =>
    condition :: (expressionsAll consequent ++ expressionsAll alternate)
  | .loop condition body => condition :: expressionsAll body

def Stmt.expressionsAll : List Stmt → List Expr
  | [] => []
  | s :: rest => s.expressions ++ expressionsAll rest

end

/-- The expressions in the statements, and the values in the table. -/
def Program.expressions (program : Program) : List Expr :=
  Stmt.expressionsAll program.statements ++ program.symbols.bindings.toList.map Binding.value

mutual

theorem Stmt.value_mem_expressions : (s : Stmt) → ∀ entry ∈ s.bindings,
    entry.value ∈ s.expressions
  | .expr _ | .ret _ => by simp [bindings]
  | .declare _ _ _ | .assign _ _ _ => by simp [bindings, expressions]
  | .ifThen _ consequent => fun entry h =>
    List.mem_cons_of_mem _ (value_mem_expressionsAll consequent entry h)
  | .ifElse _ consequent alternate => fun entry h => by
    rw [bindings, List.mem_append] at h
    refine List.mem_cons_of_mem _ (List.mem_append.mpr ?_)
    exact h.imp (value_mem_expressionsAll consequent entry)
      (value_mem_expressionsAll alternate entry)
  | .loop _ body => fun entry h =>
    List.mem_cons_of_mem _ (value_mem_expressionsAll body entry h)

theorem Stmt.value_mem_expressionsAll : (b : List Stmt) → ∀ entry ∈ bindingsAll b,
    entry.value ∈ expressionsAll b
  | [] => by simp [bindingsAll]
  | s :: rest => fun entry h => by
    rw [bindingsAll, List.mem_append] at h
    exact List.mem_append.mpr (h.imp (value_mem_expressions s entry)
      (value_mem_expressionsAll rest entry))

end

/-- The table of a parsed program adds no expression. -/
theorem forall_expressions_of_parse {tokens : List Token} {limit : Nat} {program : Program}
    (h : parse tokens limit = .ok program) (Q : Expr → Prop) :
    (∀ e ∈ program.expressions, Q e) ↔ ∀ e ∈ Stmt.expressionsAll program.statements, Q e := by
  have hsymbols := (traced_of_parse h).2
  rw [Program.expressions, List.forall_mem_append]
  refine and_iff_left_of_imp fun hall e he => ?_
  obtain ⟨entry, hentry, rfl⟩ := List.mem_map.mp he
  rw [hsymbols, Stmt.bindings_replayAll] at hentry
  exact hall _ (Stmt.value_mem_expressionsAll _ entry (by simpa [SymbolTable.empty] using hentry))

namespace Grammar

mutual

/-- The load of a primary is the height of the tree on the way down to its leaf: the leaf counts,
and every sign in front of it. Of a chain around it count the operators behind its operand and the
one before it. -/
def Phrase.loads : {l : Level} → Phrase l → Nat → List Nat
  | _, .numeral _, above | _, .yes _, above | _, .no _, above | _, .name _, above => [above + 1]
  | _, .group _ inner _, above => inner.loads above
  | _, .bare operand, above => operand.loads above
  | _, .sign _ _ operand, above => operand.loads (above + 1)
  | _, .plus _ operand, above => operand.loads above
  | _, .chain first links, above => first.loads (above + links.length) ++ links.loads above

def Links.loads : {t : Tier} → Links t → Nat → List Nat
  | _, .nil, _ => []
  | _, .cons _ _ _ right rest, above => right.loads (above + rest.length + 1) ++ rest.loads above

end

mutual

def Sentence.loads : Sentence → List Nat
  | .expr value | .declare _ _ value | .assign _ _ value | .ret _ value => value.loads 0
  | .ifThen _ condition consequent => condition.loads 0 ++ consequent.loads
  | .ifElse _ condition consequent _ alternate =>
    condition.loads 0 ++ (consequent.loads ++ alternate.loads)
  | .loop _ condition body => condition.loads 0 ++ body.loads

def Block.loads : Block → List Nat
  | .braces _ body _ => body.loads

def Text.loads : Text → List Nat
  | .nil => []
  | .cons s _ rest => s.loads ++ rest.loads

end

theorem Tier.height_node {k : Tier} {kind : Kind} {node : Expr → Expr → Expr}
    (h : k.node? kind = some node) (left right : Expr) :
    (node left right).height = max left.height right.height + 1 := by
  unfold Tier.node? at h
  split at h <;> cases h <;> rfl

mutual

theorem Phrase.height_le_iff (binding : String → Nat) : {l : Level} → (P : Phrase l) →
    ∀ above n, (P.tree binding).height + above ≤ n ↔ ∀ m ∈ P.loads above, m ≤ n
  | _, .numeral _, above, n | _, .yes _, above, n | _, .no _, above, n | _, .name _, above, n => by
    simp [Phrase.tree, Phrase.loads, Expr.height, Nat.add_comm]
  | _, .group _ inner _, above, n => inner.height_le_iff binding above n
  | _, .bare operand, above, n => operand.height_le_iff binding above n
  | _, .sign op _ operand, above, n => by
    rw [Phrase.loads, ← operand.height_le_iff binding, Phrase.tree, Expr.height, Nat.add_assoc,
      Nat.add_comm 1]
  | _, .plus _ operand, above, n => operand.height_le_iff binding above n
  | _, .chain first links, above, n => by
    rw [Phrase.loads, List.forall_mem_append, ← first.height_le_iff binding]
    exact links.height_fold_le_iff binding _ above n

theorem Links.height_fold_le_iff (binding : String → Nat) : {t : Tier} → (L : Links t) →
    ∀ left above n, (L.fold binding left).height + above ≤ n ↔
      left.height + (above + L.length) ≤ n ∧ ∀ m ∈ L.loads above, m ≤ n
  | _, .nil, left, above, n => by simp [Links.fold, Links.length, Links.loads]
  | _, .cons _ _ h right rest, left, above, n => by
    rw [Links.loads, List.forall_mem_append, ← right.height_le_iff binding, Links.fold,
      rest.height_fold_le_iff binding, Tier.height_node h, Links.length, ← and_assoc]
    refine and_congr_left fun _ => ?_
    omega

end

mutual

theorem Sentence.heights_le_iff (n : Nat) : (D : Sentence) → (scope : List String) →
    ((∀ e ∈ (D.tree scope).expressions, e.height ≤ n) ↔ ∀ m ∈ D.loads, m ≤ n)
  | .expr value, scope | .declare _ _ value, scope | .assign _ _ value, scope
  | .ret _ value, scope => by
    simpa [Sentence.tree, Stmt.expressions, Sentence.loads] using
      value.height_le_iff (latest scope) 0 n
  | .ifThen _ condition consequent, scope => by
    have hcondition := condition.height_le_iff (latest scope) 0 n
    rw [Sentence.loads, List.forall_mem_append, ← hcondition,
      ← Block.heights_le_iff n consequent scope]
    exact List.forall_mem_cons
  | .ifElse _ condition consequent _ alternate, scope => by
    have hcondition := condition.height_le_iff (latest scope) 0 n
    rw [Sentence.loads, List.forall_mem_append, List.forall_mem_append, ← hcondition,
      ← Block.heights_le_iff n consequent scope, ← Block.heights_le_iff n alternate _,
      ← List.forall_mem_append]
    exact List.forall_mem_cons
  | .loop _ condition body, scope => by
    have hcondition := condition.height_le_iff (latest scope) 0 n
    rw [Sentence.loads, List.forall_mem_append, ← hcondition, ← Block.heights_le_iff n body scope]
    exact List.forall_mem_cons

theorem Block.heights_le_iff (n : Nat) : (B : Block) → (scope : List String) →
    ((∀ e ∈ Stmt.expressionsAll (B.trees scope), e.height ≤ n) ↔ ∀ m ∈ B.loads, m ≤ n)
  | .braces _ body _, scope => Text.heights_le_iff n body scope

theorem Text.heights_le_iff (n : Nat) : (T : Text) → (scope : List String) →
    ((∀ e ∈ Stmt.expressionsAll (T.trees scope), e.height ≤ n) ↔ ∀ m ∈ T.loads, m ≤ n)
  | .nil, _ => by simp [Text.trees, Stmt.expressionsAll, Text.loads]
  | .cons s _ rest, scope => by
    rw [Text.loads, List.forall_mem_append, ← Sentence.heights_le_iff n s scope,
      ← Text.heights_le_iff n rest _, ← List.forall_mem_append]
    rfl

end

/-- The height that a unary phrase reaches with so many levels left: every tier can put as many
operators behind its first operand, which still has all the levels left. -/
def tallest : Nat → Nat
  | 0 => 1
  | m + 1 => tallest m + max 1 (5 * m)

theorem one_le_tallest (m : Nat) : 1 ≤ tallest m := by
  induction m with
  | zero => exact Nat.le_refl 1
  | succ m ih => exact Nat.le_trans ih (Nat.le_add_right _ _)

def Tier.rank : Tier → Nat
  | multiplicative => 1
  | additive => 2
  | comparison => 3
  | conjunction => 4
  | disjunction => 5

def Level.rank : Level → Nat
  | tier t => t.rank
  | unary | primary => 0

theorem Tier.rank_operand (t : Tier) : t.operand.rank + 1 = t.rank := by cases t <;> rfl

def Level.tallest (l : Level) (m : Nat) : Nat := Grammar.tallest m + l.rank * m

theorem Level.tallest_le_succ (l : Level) (m : Nat) : l.tallest m ≤ l.tallest (m + 1) := by
  have hmul : l.rank * m ≤ l.rank * (m + 1) := Nat.mul_le_mul_left _ (Nat.le_succ m)
  simp only [Level.tallest, Grammar.tallest]
  omega

theorem Phrase.exists_level {l : Level} {P : Phrase l} {around m : Nat}
    (h : ∀ n ∈ P.needs (around + 1), n ≤ around + m) : ∃ k, m = k + 1 := by
  obtain ⟨n, hn, hle⟩ := P.exists_need (around + 1)
  have hroom := h n hn
  exact ⟨m - 1, by omega⟩

theorem Phrase.needs_succ {l : Level} {P : Phrase l} {around m : Nat}
    (h : ∀ n ∈ P.needs (around + 1), n ≤ around + (m + 1)) :
    ∀ n ∈ P.needs (around + 1), n ≤ around + 1 + m := fun n hn => by
  have hroom := h n hn
  omega

mutual

theorem Phrase.height_tree_le (binding : String → Nat) : {l : Level} → (P : Phrase l) →
    ∀ around m, (∀ n ∈ P.needs around, n ≤ around + m) → (P.tree binding).height ≤ l.tallest m
  | _, .numeral _, around, m, _ | _, .yes _, around, m, _ | _, .no _, around, m, _
  | _, .name _, around, m, _ => by
    simpa [Phrase.tree, Expr.height, Level.tallest, Level.rank] using one_le_tallest m
  | _, .group _ inner _, around, m, h => by
    have hinner := (List.forall_mem_cons.mp h).2
    obtain ⟨k, rfl⟩ := Phrase.exists_level hinner
    have hheight := inner.height_tree_le binding (around + 1) k (Phrase.needs_succ hinner)
    simp only [Level.tallest, Level.rank, Tier.rank, Grammar.tallest, Phrase.tree] at hheight ⊢
    omega
  | _, .bare operand, around, m, h => operand.height_tree_le binding around m h
  | _, .sign _ _ operand, around, m, h => by
    obtain ⟨k, rfl⟩ := Phrase.exists_level h
    have hheight := operand.height_tree_le binding (around + 1) k (Phrase.needs_succ h)
    simp only [Level.tallest, Level.rank, Grammar.tallest, Phrase.tree, Expr.height] at hheight ⊢
    omega
  | _, .plus _ operand, around, m, h => by
    obtain ⟨k, rfl⟩ := Phrase.exists_level h
    have hheight := operand.height_tree_le binding (around + 1) k (Phrase.needs_succ h)
    exact Nat.le_trans hheight (Level.tallest_le_succ _ k)
  | _, .chain (t := t) first links, around, m, h => by
    have hboth := List.forall_mem_append.mp h
    have hfirst := first.height_tree_le binding around m hboth.1
    obtain ⟨hfold, hlength⟩ := links.height_fold_le binding around m _ _ hboth.2 hfirst
      (Nat.le_refl _)
    have hrank : t.operand.tallest m + m = (Level.tier t).tallest m := by
      rw [Level.tallest, Level.tallest, Level.rank, ← t.rank_operand, Nat.succ_mul, Nat.add_assoc]
    rw [Phrase.tree]
    omega

/-- Every link puts the tree so far one level down, and its right operand not as far. -/
theorem Links.height_fold_le (binding : String → Nat) : {t : Tier} → (L : Links t) →
    ∀ around m left h, (∀ n ∈ L.needs around, n ≤ around + m) → left.height ≤ h →
      t.operand.tallest m ≤ h → (L.fold binding left).height ≤ h + L.length ∧ L.length ≤ m
  | _, .nil, _, m, _, _, _, hleft, _ => ⟨hleft, Nat.zero_le m⟩
  | t, .cons _ node hnode right rest, around, m, left, h, hneeds, hleft, htall => by
    have hboth := List.forall_mem_append.mp hneeds
    obtain ⟨k, rfl⟩ := Phrase.exists_level hboth.1
    have hmono := t.operand.tallest_le_succ k
    have hright := right.height_tree_le binding (around + 1) k (Phrase.needs_succ hboth.1)
    have hnodeHeight := Tier.height_node hnode left (right.tree binding)
    have hrest := rest.height_fold_le binding (around + 1) k
      (node left (right.tree binding)) (h + 1)
      (fun n hn => by have := hboth.2 n hn; omega) (by omega) (by omega)
    rw [Links.fold, Links.length]
    omega

end

theorem tallest_succ (m : Nat) : tallest (m + 1) = 2 + 5 * ((m + 1) * (m + 1 - 1) / 2) := by
  induction m with
  | zero => rfl
  | succ m ih =>
    rw [tallest, ih, Nat.triangle_succ (m + 1)]
    omega

/-- The height that an expression reaches under a limit. -/
def heightBound (limit : Nat) : Nat :=
  if limit ≤ 1 then limit else 2 + 5 * (limit * (limit - 1) / 2)

theorem heightBound_succ (m : Nat) :
    heightBound (m + 1) = (Level.tier .disjunction).tallest m := by
  cases m with
  | zero => rfl
  | succ m =>
    rw [heightBound, if_neg (by omega), Nat.triangle_succ (m + 1), Level.tallest, tallest_succ,
      Level.rank, Tier.rank]
    omega

theorem heightBound_mono {m n : Nat} (h : m ≤ n) : heightBound m ≤ heightBound n := by
  have hstep : ∀ k, heightBound k ≤ heightBound (k + 1) := by
    intro k
    cases k with
    | zero => exact Nat.zero_le _
    | succ k =>
      rw [heightBound_succ, heightBound_succ]
      exact Level.tallest_le_succ _ k
  exact monotone_nat_of_le_succ hstep h

theorem heightBound_le_iff (limit : Nat) : heightBound limit ≤ limit ↔ limit ≤ 1 := by
  unfold heightBound
  split
  · simp_all
  · rename_i h
    obtain ⟨m, rfl⟩ : ∃ m, limit = m + 1 + 1 := ⟨limit - 2, by omega⟩
    rw [Nat.triangle_succ]
    omega

theorem Phrase.height_le_bound (binding : String → Nat) {P : Expression} {blocks limit : Nat}
    (h : ∀ n ∈ P.needs (blocks + 1), n ≤ limit) : (P.tree binding).height ≤ heightBound limit := by
  obtain ⟨n, hn, hle⟩ := P.exists_need (blocks + 1)
  have hlimit := h n hn
  obtain ⟨m, rfl⟩ : ∃ m, limit = blocks + 1 + m := ⟨limit - (blocks + 1), by omega⟩
  have hheight := P.height_tree_le binding (blocks + 1) m h
  rw [← heightBound_succ] at hheight
  exact Nat.le_trans hheight (heightBound_mono (by omega))

mutual

theorem Sentence.heights_le_bound {limit : Nat} : (D : Sentence) → ∀ scope blocks,
    (∀ n ∈ D.needs blocks, n ≤ limit) →
      ∀ e ∈ (D.tree scope).expressions, e.height ≤ heightBound limit
  | .expr value, scope, blocks, h | .declare _ _ value, scope, blocks, h
  | .assign _ _ value, scope, blocks, h | .ret _ value, scope, blocks, h =>
    List.forall_mem_singleton.mpr (Phrase.height_le_bound _ h)
  | .ifThen _ condition consequent, scope, blocks, h => by
    have hboth := List.forall_mem_append.mp h
    exact List.forall_mem_cons.mpr ⟨Phrase.height_le_bound _ hboth.1,
      Block.heights_le_bound consequent scope blocks hboth.2⟩
  | .ifElse _ condition consequent _ alternate, scope, blocks, h => by
    have hboth := List.forall_mem_append.mp h
    have hbodies := List.forall_mem_append.mp hboth.2
    refine List.forall_mem_cons.mpr ⟨Phrase.height_le_bound _ hboth.1, ?_⟩
    exact List.forall_mem_append.mpr ⟨Block.heights_le_bound consequent scope blocks hbodies.1,
      Block.heights_le_bound alternate _ blocks hbodies.2⟩
  | .loop _ condition body, scope, blocks, h => by
    have hboth := List.forall_mem_append.mp h
    exact List.forall_mem_cons.mpr ⟨Phrase.height_le_bound _ hboth.1,
      Block.heights_le_bound body scope blocks hboth.2⟩

theorem Block.heights_le_bound {limit : Nat} : (B : Block) → ∀ scope blocks,
    (∀ n ∈ B.needs blocks, n ≤ limit) →
      ∀ e ∈ Stmt.expressionsAll (B.trees scope), e.height ≤ heightBound limit
  | .braces _ body _, scope, blocks, h =>
    Text.heights_le_bound body scope (blocks + 1) (List.forall_mem_cons.mp h).2

theorem Text.heights_le_bound {limit : Nat} : (T : Text) → ∀ scope blocks,
    (∀ n ∈ T.needs blocks, n ≤ limit) →
      ∀ e ∈ Stmt.expressionsAll (T.trees scope), e.height ≤ heightBound limit
  | .nil, _, _, _ => by simp [Text.trees, Stmt.expressionsAll]
  | .cons s _ rest, scope, blocks, h => by
    have hboth := List.forall_mem_append.mp h
    exact List.forall_mem_append.mpr ⟨Sentence.heights_le_bound s scope blocks hboth.1,
      Text.heights_le_bound rest _ blocks hboth.2⟩

end

end Grammar

end TinyCompiler
