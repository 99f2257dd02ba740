import TinyCompiler.Parsing.Statement

/-! When a rule succeeds, and when it fails: one equivalence for each way of building rules, so
that what a rule gives comes apart into what its parts give. -/
namespace TinyCompiler

namespace Parser

variable {p : Parser} {t : Token} {ts : List Token}

@[simp] theorem rest_set (p : Parser) (ts : List Token) : { p with rest := ts }.rest = ts := rfl

theorem peek_of_rest (h : p.rest = t :: ts) : p.peek = t := by simp [peek, h]

theorem peekSecond_of_rest {u : Token} (h : p.rest = t :: u :: ts) : p.peekSecond = u := by
  simp [peekSecond, h]

theorem peek_of_rest_nil (h : p.rest = []) : p.peek.kind = .endOfInput := by
  simp [peek, h, Token.endOfInput]

theorem advance_of_rest (h : p.rest = t :: ts) (ht : t.kind ≠ .endOfInput) :
    p.advance = { p with rest := ts } := by
  simp [advance, peek_of_rest h, ht, h]

/-- Only the end marker may stand behind the list; every other kind is read off a token. -/
theorem exists_rest_of_peek {k : Kind} (h : p.peek.kind = k) (hk : k ≠ .endOfInput) :
    ∃ ts, p.rest = p.peek :: ts := by
  cases hr : p.rest with
  | nil => exact absurd ((peek_of_rest_nil hr).symm.trans h).symm hk
  | cons t ts => exact ⟨ts, by rw [peek_of_rest hr]⟩

end Parser

namespace Rule

variable {α β : Type} {p q : Parser}

theorem pure_eq_ok {a b : α} : (pure a : Rule α).apply p = (.ok b, q) ↔ b = a ∧ q = p := by
  simp [eq_comm]

theorem bind_eq_ok {r : Rule α} {f : α → Rule β} {b : β} :
    (r >>= f).apply p = (.ok b, q) ↔
      ∃ a p', r.apply p = (.ok a, p') ∧ (f a).apply p' = (.ok b, q) := by
  rw [apply_bind]
  rcases r.apply p with ⟨_ | _, _⟩ <;> simp [and_assoc]

theorem bind_eq_error {r : Rule α} {f : α → Rule β} {e : SyntaxError} :
    (r >>= f).apply p = (.error e, q) ↔ r.apply p = (.error e, q) ∨
      ∃ a p', r.apply p = (.ok a, p') ∧ (f a).apply p' = (.error e, q) := by
  rw [apply_bind]
  rcases r.apply p with ⟨_ | _, _⟩ <;> simp [and_assoc]

theorem map_eq_ok {f : α → β} {r : Rule α} {b : β} :
    (f <$> r).apply p = (.ok b, q) ↔ ∃ a, r.apply p = (.ok a, q) ∧ b = f a := by
  rw [← bind_pure_comp, bind_eq_ok]
  simp only [pure_eq_ok]
  constructor
  · rintro ⟨a, p', h, rfl, rfl⟩
    exact ⟨a, h, rfl⟩
  · rintro ⟨a, h, rfl⟩
    exact ⟨a, q, h, rfl, rfl⟩

theorem map_eq_error {f : α → β} {r : Rule α} {e : SyntaxError} :
    (f <$> r).apply p = (.error e, q) ↔ r.apply p = (.error e, q) := by
  rw [apply_map]
  rcases r.apply p with ⟨_ | _, _⟩ <;> simp [Except.map]

theorem apply_bind_of_ok {r : Rule α} {f : α → Rule β} {a : α} (h : r.apply p = (.ok a, q)) :
    (r >>= f).apply p = (f a).apply q := by
  rw [apply_bind, h]

theorem accept_ne_error {k : Kind} {e : SyntaxError} : (accept k).apply p ≠ (.error e, q) := by
  rw [apply_accept]
  by_cases h : p.peek.kind = k <;> simp [h]

theorem thenAlways_eq_ok {r : Rule α} {f : Parser → Parser} {a : α} :
    (r.thenAlways f).apply p = (.ok a, q) ↔ ∃ p', r.apply p = (.ok a, p') ∧ q = f p' := by
  rw [apply_thenAlways]
  rcases r.apply p with ⟨_ | _, p'⟩
  · simp
  · simp [and_assoc, eq_comm]

theorem deepen_eq_ok {u : Unit} :
    deepen.apply p = (.ok u, q) ↔ p.depth < p.limit ∧ q = { p with depth := p.depth + 1 } := by
  rw [apply_deepen]
  by_cases h : p.depth < p.limit <;> simp [h, eq_comm]

theorem nested_eq_ok {r : Rule α} {a : α} :
    (nested r).apply p = (.ok a, q) ↔ p.depth < p.limit ∧
      ∃ p', r.apply { p with depth := p.depth + 1 } = (.ok a, p') ∧
        q = { p' with depth := p'.depth - 1 } := by
  rw [nested, bind_eq_ok]
  simp only [deepen_eq_ok, thenAlways_eq_ok]
  constructor
  · rintro ⟨_, p', ⟨h, rfl⟩, hr⟩
    exact ⟨h, hr⟩
  · rintro ⟨h, hr⟩
    exact ⟨(), _, ⟨h, rfl⟩, hr⟩

end Rule

end TinyCompiler
