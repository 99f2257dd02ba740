import TinyCompiler.Proofs.ExpressionReading

/-! Where the rules for expressions stop, also when they fail: behind tokens that belong to
expressions, with everything else of the parser as it was. -/
namespace TinyCompiler

open Grammar

/-- The kinds that bind names and enclose statements. No expression holds them. -/
def marks : List Kind := [.colonEqual, .assign, .openBrace, .closeBrace]

namespace Parser

/-- The same parser, behind tokens that are no marks. -/
structure Skims (p q : Parser) : Prop where
  read : ∃ read, p.rest = read ++ q.rest ∧ ∀ t ∈ read, t.kind ∉ marks
  same : q = { p with rest := q.rest }

namespace Skims

variable {p q r : Parser} {t : Token} {ts : List Token}

theorem refl (p : Parser) : p.Skims p := ⟨⟨[], rfl, by simp⟩, rfl⟩

theorem trans (h : p.Skims q) (h' : q.Skims r) : p.Skims r := by
  obtain ⟨read, hr, hm⟩ := h.read
  obtain ⟨read', hr', hm'⟩ := h'.read
  refine ⟨⟨read ++ read', ?_, ?_⟩, ?_⟩
  · rw [hr, hr', List.append_assoc]
  · exact List.forall_mem_append.mpr ⟨hm, hm'⟩
  · rw [h'.same, h.same]

theorem token (h : p.rest = t :: ts) (ht : t.kind ∉ marks) : p.Skims { p with rest := ts } :=
  ⟨⟨[t], h, by simpa using ht⟩, rfl⟩

theorem set_depth (h : p.Skims q) (d : Nat) :
    { p with depth := d }.Skims { q with depth := d } := by
  refine ⟨h.read, ?_⟩
  rw [h.same]

theorem depth (h : p.Skims q) : q.depth = p.depth := by rw [h.same]

theorem length_le (h : p.Skims q) : q.rest.length ≤ p.rest.length := by
  obtain ⟨read, hr, -⟩ := h.read
  rw [hr, List.length_append]
  omega

theorem symbols (h : p.Skims q) : q.symbols = p.symbols := by rw [h.same]

end Skims

end Parser

namespace Rule

def Skims {α : Type} (r : Rule α) : Prop := ∀ p : Parser, p.Skims (r.apply p).2

variable {bound : Nat} {operand : Rule Expr}

theorem Skims.nested {α : Type} {r : Rule α} (h : r.Skims) : (nested r).Skims := by
  intro p
  rw [apply_nested]
  by_cases hd : p.depth < p.limit
  · rw [if_pos hd]
    have hr := h { p with depth := p.depth + 1 }
    generalize r.apply { p with depth := p.depth + 1 } = out at hr ⊢
    obtain ⟨result, q⟩ := out
    have hq : q.depth = p.depth + 1 := hr.depth
    have hback := hr.set_depth p.depth
    simpa [hq] using hback
  · rw [if_neg hd]
    exact .refl p

section Chain

variable {ω : Type} {operator? : Kind → Option ω} {build : ω → Expr → Expr → Expr}

/-- A chain leaves the levels open that its operators have opened. Induction on its bound. -/
theorem chain_skims (hop : ∀ k, (operator? k).isSome → k ∉ .endOfInput :: marks)
    (ho : operand.Skims) (n : Nat) (left : Expr) (p : Parser) :
    p.Skims { ((chain operator? build operand n left).apply p).2 with depth := p.depth } := by
  induction n generalizing left p with
  | zero => exact .refl p
  | succ n ih =>
    cases hk : operator? p.peek.kind with
    | none =>
      rw [chain_of_none hk]
      exact .refl p
    | some op =>
      have hmark := hop p.peek.kind (by rw [hk]; rfl)
      simp only [List.mem_cons, not_or] at hmark
      obtain ⟨ts, hts⟩ := Parser.exists_rest_of_peek rfl hmark.1
      rw [chain_of_some hk hmark.1 hts]
      by_cases hd : p.depth < p.limit
      · have htoken : p.Skims { p with rest := ts } := .token hts hmark.2
        have hright := ho (p.inside ts)
        rw [if_pos hd, apply_bind]
        generalize operand.apply (p.inside ts) = out at hright ⊢
        obtain ⟨_ | right, q⟩ := out
        · exact htoken.trans (hright.set_depth p.depth)
        · exact htoken.trans ((hright.set_depth p.depth).trans
            ((ih (build op left right) q).set_depth p.depth))
      · rw [if_neg hd]
        exact .refl p

theorem Skims.tier (hop : ∀ k, (operator? k).isSome → k ∉ .endOfInput :: marks)
    (ho : operand.Skims) : (tier bound operator? build operand).Skims := by
  intro p
  rw [Rule.tier, apply_bind_of_ok (apply_get p), apply_thenAlways, apply_bind]
  have hfirst := ho p
  generalize operand.apply p = out at hfirst ⊢
  obtain ⟨_ | left, q⟩ := out
  · have hback := hfirst.set_depth p.depth
    exact hback
  · have hback := hfirst.set_depth p.depth
    exact hback.trans ((chain_skims hop ho bound left q).set_depth p.depth)

end Chain

theorem Skims.tiers (h : operand.Skims) : (tiers bound operand).Skims := by
  have hmul : (Rule.tier bound BinaryOp.multiplicative? .binary operand).Skims :=
    h.tier (by rintro (_ | _) <;> decide)
  have hadd : (Rule.tier bound BinaryOp.additive? .binary _).Skims :=
    hmul.tier (by rintro (_ | _) <;> decide)
  have hcmp : (Rule.tier bound Comparison.ofKind? .comparison _).Skims :=
    hadd.tier (by rintro (_ | _) <;> decide)
  have hand : (Rule.tier bound (Connective.tier? .and) .connective _).Skims :=
    hcmp.tier (by rintro (_ | _) <;> decide)
  exact hand.tier (by rintro (_ | _) <;> decide)

theorem Skims.primary {expression : Rule Expr} (h : expression.Skims) :
    (primary expression).Skims := by
  intro p
  by_cases hk : p.peek.kind ∈ [Kind.identifier, .trueWord, .falseWord, .integer, .openParen]
  · obtain ⟨t, ts, ht⟩ | ⟨t, ts, ht⟩ | ⟨t, ts, ht⟩ | ⟨t, ts, ht⟩ | ⟨t, ts, ht⟩ :=
      exists_primary_token hk <;>
      have htoken : p.Skims { p with rest := ts } := .token ht (by rw [t.2]; decide)
    · rw [primary_of_name ht]
      cases p.symbols.lookup t.1.lexeme with
      | none => exact .refl p
      | some i => exact htoken
    · rw [primary_of_yes ht]
      exact htoken
    · rw [primary_of_no ht]
      exact htoken
    · rw [primary_of_numeral ht]
      cases Decimal.int64? t.1.lexeme with
      | none => exact .refl p
      | some v => exact htoken
    · rw [primary_of_group ht]
      have hinner := h { p with rest := ts }
      generalize expression.apply { p with rest := ts } = out at hinner ⊢
      obtain ⟨_ | e, q⟩ := out
      · exact htoken.trans hinner
      · by_cases hclose : q.peek.kind = .closeParen
        · obtain ⟨u, us, hu⟩ := Parser.exists_token hclose (by decide)
          simp only [hclose, if_true]
          rw [Parser.advance_of_token hu (by decide)]
          exact (htoken.trans hinner).trans (.token hu (by rw [u.2]; decide))
        · simp only [hclose, if_false]
          exact htoken.trans hinner
  · rw [primary_of_other hk]
    exact .refl p

theorem unary_skims (bound : Nat) : (unary bound).Skims := by
  -- Induction on the bound: a sign or a parenthesis is stepped past before the rule recurs.
  induction bound with
  | zero => exact fun p => .refl p
  | succ n ih =>
    intro p
    by_cases hk : p.peek.kind ∈ [Kind.minus, .bang, .plus]
    · obtain ⟨op, t, ts, ht⟩ | ⟨t, ts, ht⟩ := exists_sign_token hk
      · have htoken : p.Skims { p with rest := ts } :=
          .token ht (by rw [t.2]; cases op <;> decide)
        have hoperand := ih.nested { p with rest := ts }
        rw [unary_of_sign ht]
        generalize (nested (unary n)).apply { p with rest := ts } = out at hoperand ⊢
        obtain ⟨_ | e, q⟩ := out
        · exact htoken.trans hoperand
        · exact htoken.trans hoperand
      · have htoken : p.Skims { p with rest := ts } := .token ht (by rw [t.2]; decide)
        rw [unary_of_plus ht]
        exact htoken.trans (ih.nested { p with rest := ts })
    · rw [unary_of_other hk]
      exact ih.tiers.nested.primary p

theorem expression_skims (bound : Nat) : (expression bound).Skims :=
  (unary_skims bound).tiers.nested

end Rule

end TinyCompiler
