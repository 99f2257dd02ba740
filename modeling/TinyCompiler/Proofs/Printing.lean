import TinyCompiler.Proofs.MaximalMunch
import TinyCompiler.Proofs.TreeHeight

/-! Statements written as source text with the fewest parentheses. An expression stands in
parentheses where it binds looser than its place needs, and nowhere else; no derivation of the
same tree has fewer tokens. -/
namespace TinyCompiler

open Grammar

/-- Tighter levels come first: what stands at a level can stand at every later one. -/
def Grammar.Level.looseness : Level → Nat
  | .primary => 0
  | .unary => 1
  | .tier t => t.rank + 1

theorem Grammar.Tier.looseness_operand (t : Tier) :
    t.operand.looseness + 1 = (Level.tier t).looseness := by cases t <;> rfl

theorem Grammar.Level.looseness_le (l : Level) :
    l.looseness ≤ (Level.tier .disjunction).looseness := by
  obtain t | _ | _ := l
  · cases t <;> decide
  · decide
  · decide

def BinaryOp.tier : BinaryOp → Tier
  | add | sub | or | xor => .additive
  | mul | div | rem | shl | shr | and | andNot => .multiplicative

def Connective.tier : Connective → Tier
  | and => .conjunction
  | or => .disjunction

namespace Expr

def level : Expr → Level
  | integer _ | boolean _ | reference _ _ => .primary
  | unary _ _ => .unary
  | binary op _ _ => .tier op.tier
  | comparison _ _ _ => .tier .comparison
  | connective op _ _ => .tier op.tier

/-- The words of an expression of a level, at a place. -/
def enclosed (place level : Level) (words : List String) : List String :=
  if place.looseness < level.looseness then "(" :: (words ++ [")"]) else words

/-- An operator between its operands. A right operand of the same tier needs parentheses. -/
def joined (t : Tier) (symbol : String) (left right : Level × List String) : List String :=
  enclosed (.tier t) left.1 left.2 ++ symbol :: enclosed t.operand right.1 right.2

def words : Expr → List String
  | integer value => [Decimal.ofInt value.toInt]
  | boolean value => [if value then "true" else "false"]
  | reference name _ => [name]
  | unary op operand => op.symbol :: enclosed .unary operand.level operand.words
  | binary op left right =>
    joined op.tier op.symbol (left.level, left.words) (right.level, right.words)
  | comparison op left right =>
    joined .comparison op.symbol (left.level, left.words) (right.level, right.words)
  | connective op left right =>
    joined op.tier op.symbol (left.level, left.words) (right.level, right.words)

end Expr

namespace Stmt

def braced (words : List String) : List String := "\x7b" :: (words ++ ["\x7d"])

mutual

def words : Stmt → List String
  | expr value => value.words
  | declare name value _ => name :: ":=" :: value.words
  | assign name value _ => name :: "=" :: value.words
  | ret value => "return" :: value.words
  | ifThen condition consequent => "if" :: (condition.words ++ braced (wordsAll consequent))
  | ifElse condition consequent alternate =>
    "if" :: (condition.words ++ (braced (wordsAll consequent) ++
      "else" :: braced (wordsAll alternate)))
  | loop condition body => "for" :: (condition.words ++ braced (wordsAll body))

def wordsAll : List Stmt → List String
  | [] => []
  | s :: rest => s.words ++ ";" :: wordsAll rest

end

/-- The source text: words with a blank between any two. -/
def render (b : List Stmt) : String := " ".intercalate (wordsAll b)

end Stmt

def IsName (name : String) : Prop :=
  Segment.IsWord (Utf8.encode name) ∧ ¬Segment.IsKeyword (Utf8.encode name)

def Expr.Printable : Expr → Prop
  | integer value => 0 ≤ value.toInt
  | boolean _ => True
  | reference name _ => IsName name
  | unary _ operand => operand.Printable
  | binary _ left right | comparison _ left right | connective _ left right =>
    left.Printable ∧ right.Printable

namespace Stmt

mutual

def Printable : Stmt → Prop
  | expr value | ret value => value.Printable
  | declare name value _ | assign name value _ => IsName name ∧ value.Printable
  | ifThen condition consequent => condition.Printable ∧ PrintableAll consequent
  | ifElse condition consequent alternate =>
    condition.Printable ∧ PrintableAll consequent ∧ PrintableAll alternate
  | loop condition body => condition.Printable ∧ PrintableAll body

def PrintableAll : List Stmt → Prop
  | [] => True
  | s :: rest => s.Printable ∧ PrintableAll rest

end

end Stmt

namespace Expr

theorem enclosed_of_le {place level : Level} (h : level.looseness ≤ place.looseness)
    (words : List String) : enclosed place level words = words :=
  if_neg (Nat.not_lt.mpr h)

theorem length_enclosed_le (place level : Level) (words : List String) :
    (enclosed place level words).length ≤ words.length + 2 := by
  unfold enclosed
  split <;> simp

theorem length_enclosed_mono {place place' : Level} (h : place.looseness ≤ place'.looseness)
    (level : Level) (words : List String) :
    (enclosed place' level words).length ≤ (enclosed place level words).length := by
  by_cases hlt : place'.looseness < level.looseness
  · rw [enclosed, enclosed, if_pos hlt, if_pos (Nat.lt_of_le_of_lt h hlt)]
  · rw [enclosed_of_le (Nat.not_lt.mp hlt), enclosed]
    split
    · simp only [List.length_cons, List.length_append]
      omega
    · exact Nat.le_refl _

end Expr

namespace Grammar

variable {binding : String → Nat}

/-- A node of a tier is an expression of that level, written with its operator in the middle. -/
theorem Tier.words_node {t : Tier} {kind : Kind} {node : Expr → Expr → Expr}
    (h : t.node? kind = some node) : ∃ symbol, ∀ left right,
      (node left right).level = .tier t ∧ (node left right).words =
        Expr.joined t symbol (left.level, left.words) (right.level, right.words) := by
  unfold Tier.node? at h
  split at h <;> cases h <;> exact ⟨_, fun _ _ => ⟨rfl, rfl⟩⟩

mutual

/-- The words of an expression are the shortest of all that derive its tree at that place. -/
theorem Phrase.length_words_le : {l : Level} → (P : Phrase l) →
    (Expr.enclosed l (P.tree binding).level (P.tree binding).words).length ≤ P.tokens.length
  | _, .numeral _ | _, .yes _ | _, .no _ | _, .name _ => Nat.le_refl 1
  | _, .group _ inner _ => by
    have hinner := Phrase.length_words_le inner
    rw [Expr.enclosed_of_le (Level.looseness_le _)] at hinner
    have henclosed := Expr.length_enclosed_le .primary (inner.tree binding).level
      (inner.tree binding).words
    simp only [Phrase.tree, Phrase.tokens, List.length_cons, List.length_append,
      List.length_nil]
    omega
  | _, .bare operand => by
    have hplace : Level.primary.looseness ≤ Level.unary.looseness := by decide
    exact (Expr.length_enclosed_mono hplace _ _).trans (Phrase.length_words_le operand)
  | _, .sign _ _ operand => Nat.succ_le_succ (Phrase.length_words_le operand)
  | _, .plus _ operand => (Phrase.length_words_le operand).trans (Nat.le_succ _)
  | _, .chain (t := t) first links => by
    have hplace : t.operand.looseness ≤ (Level.tier t).looseness := by
      rw [← t.looseness_operand]
      exact Nat.le_succ _
    have hfirst := (Expr.length_enclosed_mono hplace _ _).trans (Phrase.length_words_le first)
    rw [Phrase.tokens, List.length_append]
    exact (Links.length_words_le links _).trans (Nat.add_le_add_right hfirst _)

theorem Links.length_words_le : {t : Tier} → (L : Links t) → (left : Expr) →
    (Expr.enclosed (.tier t) (L.fold binding left).level (L.fold binding left).words).length ≤
      (Expr.enclosed (.tier t) left.level left.words).length + L.tokens.length
  | _, .nil, _ => Nat.le_add_right _ _
  | t, .cons op node h right rest, left => by
    obtain ⟨symbol, hnode⟩ := Tier.words_node h
    obtain ⟨hlevel, hwords⟩ := hnode left (right.tree binding)
    have hright := Phrase.length_words_le right
    have hrest := Links.length_words_le rest (node left (right.tree binding))
    rw [hlevel, hwords, Expr.enclosed_of_le (Nat.le_refl _)] at hrest
    simp only [Expr.joined, List.length_append, List.length_cons] at hrest
    simp only [Links.fold, Links.tokens, List.length_append, List.length_cons]
    omega

end

end Grammar

end TinyCompiler
