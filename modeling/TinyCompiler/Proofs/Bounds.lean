import TinyCompiler.Proofs.Productions

/-! The bounds of the rules are never used up. A rule that succeeds has stepped past a token, and
one that recurs steps past one before, so all bounds above the number of tokens left are alike. -/
namespace TinyCompiler

open Grammar

def Parser.Short (bound : Nat) (p : Parser) : Prop := p.rest.length < bound

namespace Parser

variable {p q : Parser} {k : Nat}

theorem Ahead.short (h : p.Ahead q) (hp : p.Short k) : q.Short k :=
  Nat.lt_of_le_of_lt h.length_le hp

theorem Short.token {t : Token} {ts : List Token} (hp : p.Short (k + 1)) (hts : p.rest = t :: ts) :
    { p with rest := ts }.Short k := by
  unfold Short at hp ⊢
  rw [hts, List.length_cons] at hp
  exact Nat.lt_of_succ_lt_succ hp

theorem leads_short : Leads (Short (k + 1)) (Short k) := fun _ _ _ _ hts _ hp => hp.token hts

theorem steady_short : Steady (Short k) where
  advance p hp := p.advance_onward.ahead.short hp
  deepen p hp := by
    rw [Rule.apply_deepen]
    split <;> exact hp
  rule π p hp := (π.onward p).ahead.short hp

end Parser

namespace Rule

variable {α β : Type} {k n m : Nat}

theorem Onward.stays_short {r : Rule α} (h : r.Onward) : r.Stays (Parser.Short k) :=
  fun p hp => (h p).ahead.short hp

/-- If it gives a result, the rule has stepped past a token. -/
def Moves (r : Rule α) : Prop :=
  ∀ p a q, r.apply p = (.ok a, q) → q.rest.length < p.rest.length

theorem Moves.bind {r : Rule α} {f : α → Rule β} (h : r.Moves) (hf : ∀ a, (f a).Ahead) :
    (r >>= f).Moves := by
  intro p b q hq
  obtain ⟨a, p', hr, hb⟩ := bind_eq_ok.mp hq
  have hahead : p'.Ahead q := by
    have hstep := hf a p'
    rwa [hb] at hstep
  exact Nat.lt_of_le_of_lt hahead.length_le (h p a p' hr)

theorem Moves.map {r : Rule α} (h : r.Moves) (f : α → β) : (f <$> r).Moves := by
  rw [← bind_pure_comp]
  exact h.bind fun a => (orderly_pure (k := 0) (f a)).ahead

theorem Moves.nested {r : Rule α} (h : r.Moves) : (nested r).Moves := by
  intro p a q hq
  obtain ⟨-, p', hr, rfl⟩ := nested_eq_ok.mp hq
  exact h { p with depth := p.depth + 1 } a p' hr

/-- A rule that goes on behind a token moves on from it. -/
theorem Ahead.lt_of_token {r : Rule α} (h : r.Ahead) {p q : Parser} {t : Token} {ts : List Token}
    {a : α} (hts : p.rest = t :: ts) (hr : r.apply { p with rest := ts } = (.ok a, q)) :
    q.rest.length < p.rest.length := by
  have hahead := h { p with rest := ts }
  rw [hr] at hahead
  rw [hts]
  exact Nat.lt_succ_of_le hahead.length_le

section Expressions

variable {ω : Type} {operator? : Kind → Option ω} {build : ω → Expr → Expr → Expr}
variable {r r' operand : Rule Expr}

theorem Moves.tier (hop : Operators operator? build) (h : operand.Moves) (hs : operand.Skims)
    (bound : Nat) : (tier bound operator? build operand).Moves := by
  intro p e q hq
  rw [Rule.tier, apply_bind_of_ok (apply_get p), thenAlways_eq_ok] at hq
  obtain ⟨p', hr, rfl⟩ := hq
  exact h.bind (hop.chain_ahead hs bound) p e p' hr

theorem Moves.tiers (h : operand.Moves) (hs : operand.Skims) (bound : Nat) :
    (tiers bound operand).Moves := by
  have hboth : (Rule.tiers bound operand).Skims ∧ (Rule.tiers bound operand).Moves := by
    refine tiers_induction (P := fun r => r.Skims ∧ r.Moves) bound ?_ ⟨hs, h⟩
    intro ω operator? build hop r ⟨hs, h⟩
    exact ⟨hs.tier hop.no_mark, h.tier hop hs bound⟩
  exact hboth.2

/-- Every leaf is a token, and a parenthesis is one. -/
theorem moves_primary (h : r.Ahead) : (primary r).Moves := by
  intro p e q hq
  by_cases hk : p.peek.kind ∈ [Kind.identifier, .trueWord, .falseWord, .integer, .openParen]
  · obtain ⟨t, ts, ht⟩ | ⟨t, ts, ht⟩ | ⟨t, ts, ht⟩ | ⟨t, ts, ht⟩ | ⟨t, ts, ht⟩ :=
      exists_primary_token hk <;>
      have htoken : ts.length < p.rest.length := by rw [ht]; exact Nat.lt_succ_self _
    · rw [primary_of_name ht] at hq
      split at hq <;> cases hq
      exact htoken
    · rw [primary_of_yes ht] at hq
      cases hq
      exact htoken
    · rw [primary_of_no ht] at hq
      cases hq
      exact htoken
    · rw [primary_of_numeral ht] at hq
      split at hq <;> cases hq
      exact htoken
    · rw [primary_of_group ht] at hq
      split at hq
      · rename_i e' p' hinner
        have hlt := h.lt_of_token ht hinner
        split at hq <;> cases hq
        exact Nat.lt_of_le_of_lt p'.advance_onward.ahead.length_le hlt
      · cases hq
  · rw [primary_of_other hk] at hq
    cases hq

theorem moves_unary (bound : Nat) : (unary bound).Moves := by
  cases bound with
  | zero => rintro p e q ⟨⟩
  | succ n =>
    intro p e q hq
    by_cases hk : p.peek.kind ∈ [Kind.minus, .bang, .plus]
    · have hinner := ((unary_skims n).onward.nested).ahead
      obtain ⟨op, t, ts, ht⟩ | ⟨t, ts, ht⟩ := exists_sign_token hk
      · rw [unary_of_sign ht] at hq
        split at hq <;> cases hq
        rename_i hoperand
        exact hinner.lt_of_token ht hoperand
      · rw [unary_of_plus ht] at hq
        exact hinner.lt_of_token ht hq
    · rw [unary_of_other hk] at hq
      exact moves_primary ((unary_skims n).tiers.nested.onward.ahead) p e q hq

theorem moves_expression (bound : Nat) : (expression bound).Moves :=
  ((moves_unary bound).tiers (unary_skims bound) bound).nested

theorem Agrees.chain_bounds (hop : Operators operator? build) (h : r.Agrees (Parser.Short k) r')
    (hs : r'.Skims) (hn : k ≤ n) (hm : k ≤ m) (left : Expr) :
    (Rule.chain operator? build r n left).Agrees (Parser.Short k)
      (Rule.chain operator? build r' m left) := by
  -- Induction on a number of tokens below both bounds: every operator is one of them.
  induction k generalizing n m left with
  | zero =>
    intro p hp
    exact absurd hp (Nat.not_lt_zero _)
  | succ k ih =>
    obtain ⟨n, rfl⟩ := Nat.exists_eq_add_of_le' (Nat.lt_of_lt_of_le (Nat.succ_pos k) hn)
    obtain ⟨m, rfl⟩ := Nat.exists_eq_add_of_le' (Nat.lt_of_lt_of_le (Nat.succ_pos k) hm)
    intro p hp
    cases hk : operator? p.peek.kind with
    | none => rw [chain_of_none hk, chain_of_none hk]
    | some op =>
      have hmark := hop.no_mark p.peek.kind (by rw [hk]; rfl)
      simp only [List.mem_cons, not_or] at hmark
      obtain ⟨ts, hts⟩ := Parser.exists_rest_of_peek rfl hmark.1
      have hlower : r.Agrees (Parser.Short k) r' := h.mono fun q hq => Nat.lt_succ_of_lt hq
      have hbehind := hlower.bind hs.onward.stays_short fun right =>
        ih hlower (Nat.le_of_succ_le_succ hn) (Nat.le_of_succ_le_succ hm) (build op left right)
      rw [chain_of_some hk hmark.1 hts, chain_of_some hk hmark.1 hts]
      split
      · exact hbehind (p.inside ts) (hp.token hts)
      · rfl

theorem Agrees.tier_bounds (hop : Operators operator? build) (h : r.Agrees (Parser.Short k) r')
    (hs : r'.Skims) (hn : k ≤ n) (hm : k ≤ m) :
    (Rule.tier n operator? build r).Agrees (Parser.Short k) (Rule.tier m operator? build r') :=
  behind stays_get fun _ => (h.bind hs.onward.stays_short fun left =>
    h.chain_bounds hop hs hn hm left).thenAlways _

theorem Agrees.ofTier_bounds (h : (unary n).Agrees (Parser.Short k) (unary m)) (hn : k ≤ n)
    (hm : k ≤ m) (t : Tier) :
    (Rule.ofTier n t).Agrees (Parser.Short k) (Rule.ofTier m t) := by
  have hmul := h.tier_bounds .multiplicative (unary_skims m) hn hm
  have hadd := hmul.tier_bounds .additive (ofTier_skims m .multiplicative) hn hm
  have hcmp := hadd.tier_bounds .comparison (ofTier_skims m .additive) hn hm
  have hand := hcmp.tier_bounds (.connective .and) (ofTier_skims m .comparison) hn hm
  cases t with
  | multiplicative => exact hmul
  | additive => exact hadd
  | comparison => exact hcmp
  | conjunction => exact hand
  | disjunction => exact hand.tier_bounds (.connective .or) (ofTier_skims m .conjunction) hn hm

theorem agrees_unary (hn : k ≤ n) (hm : k ≤ m) :
    (unary n).Agrees (Parser.Short k) (unary m) := by
  -- Induction on a number of tokens below both bounds: a sign or a parenthesis is one of them.
  induction k generalizing n m with
  | zero =>
    intro p hp
    exact absurd hp (Nat.not_lt_zero _)
  | succ k ih =>
    obtain ⟨n, rfl⟩ := Nat.exists_eq_add_of_le' (Nat.lt_of_lt_of_le (Nat.succ_pos k) hn)
    obtain ⟨m, rfl⟩ := Nat.exists_eq_add_of_le' (Nat.lt_of_lt_of_le (Nat.succ_pos k) hm)
    have hkn := Nat.le_of_succ_le_succ hn
    have hkm := Nat.le_of_succ_le_succ hm
    have hinner := (ih hkn hkm).nested Parser.steady_short.deepen
    have htiers := ((ih hkn hkm).ofTier_bounds hkn hkm .disjunction).nested
      Parser.steady_short.deepen
    intro p hp
    by_cases hk : p.peek.kind ∈ [Kind.minus, .bang, .plus]
    · obtain ⟨op, t, ts, ht⟩ | ⟨t, ts, ht⟩ := exists_sign_token hk
      · rw [unary_of_sign ht, unary_of_sign ht, hinner _ (hp.token ht)]
      · rw [unary_of_plus ht, unary_of_plus ht, hinner _ (hp.token ht)]
    · rw [unary_of_other hk, unary_of_other hk]
      exact htiers.primary Parser.leads_short p hp

theorem agrees_expression (hn : k ≤ n) (hm : k ≤ m) :
    (expression n).Agrees (Parser.Short k) (expression m) :=
  ((agrees_unary hn hm).ofTier_bounds hn hm .disjunction).nested Parser.steady_short.deepen

end Expressions

section Statements

variable {value value' : Rule Expr} {body body' : Rule (List Stmt)} {s s' : Rule Stmt}

/-- Two tokens decide the form; an expression that is a statement moves on itself. -/
theorem moves_bareStatement (h : value.Moves) (hvalue : value.Orderly k) (hbody : body.Orderly k) :
    (bareStatement value body).Moves := by
  intro p statement q hq
  by_cases hbinding : StartsBinding [p.peek.kind, p.peekSecond.kind]
  · obtain ⟨t, m, ts, hts⟩ | ⟨t, m, ts, hts⟩ := exists_binding_tokens hbinding <;>
      have hlen : ts.length < p.rest.length := by
        rw [hts, List.length_cons, List.length_cons]
        omega
    · rw [bareStatement_of_declaration hts] at hq
      have hmoves := h.bind (fun e => ((orderly_declare (k := 0) t.1.lexeme e).map
        (Stmt.declare t.1.lexeme e)).ahead) _ _ _ hq
      exact Nat.lt_trans hmoves hlen
    · rw [bareStatement_of_assignment hts] at hq
      split at hq
      · have hmoves := h.bind (fun e => ((orderly_assign (k := 0) t.1.lexeme e t.1.line).map
          (Stmt.assign t.1.lexeme e)).ahead) _ _ _ hq
        exact Nat.lt_trans hmoves hlen
      · cases hq
  by_cases hword : p.peek.kind ∈ [Kind.returnWord, .ifWord, .forWord]
  · obtain ⟨t, ts, ht⟩ | ⟨t, ts, ht⟩ | ⟨t, ts, ht⟩ := exists_word_token hword
    · rw [bareStatement_of_return ht] at hq
      obtain ⟨e, hr, -⟩ := map_eq_ok.mp hq
      exact hvalue.ahead.lt_of_token ht hr
    · rw [bareStatement_of_if ht] at hq
      exact (hvalue.bind fun condition => hbody.alternatives condition).ahead.lt_of_token ht hq
    · rw [bareStatement_of_for ht] at hq
      exact (hvalue.bind fun _ => hbody.map _).ahead.lt_of_token ht hq
  · rw [bareStatement_of_other hbinding hword] at hq
    exact h.map _ p statement q hq

theorem moves_statement (bound : Nat) : (statement bound).Moves := by
  cases bound with
  | zero => rintro p s q ⟨⟩
  | succ n =>
    have hbare := moves_bareStatement (moves_expression (n + 1)) (expression_orderly (n + 1))
      ((statement_orderly n).block n)
    exact hbare.bind fun s => ((orderly_accept (k := 1) _).bind fun _ => orderly_pure s).ahead

theorem Agrees.untilKind_bounds (h : s.Agrees (Parser.Short k) s') (hmoves : s'.Moves) (hn : k ≤ n)
    (hm : k ≤ m) (close : Kind) :
    (Rule.untilKind close s n).Agrees (Parser.Short k) (Rule.untilKind close s' m) := by
  -- Induction on a number of tokens below both bounds: every statement steps past one of them.
  induction k generalizing n m with
  | zero =>
    intro p hp
    exact absurd hp (Nat.not_lt_zero _)
  | succ k ih =>
    obtain ⟨n, rfl⟩ := Nat.exists_eq_add_of_le' (Nat.lt_of_lt_of_le (Nat.succ_pos k) hn)
    obtain ⟨m, rfl⟩ := Nat.exists_eq_add_of_le' (Nat.lt_of_lt_of_le (Nat.succ_pos k) hm)
    intro p hp
    by_cases hk : p.peek.kind = close
    · rw [untilKind_of_close hk, untilKind_of_close hk]
    · by_cases he : p.peek.kind = .endOfInput
      · rw [untilKind_of_end hk he, untilKind_of_end hk he]
      · have hlower : s.Agrees (Parser.Short k) s' := h.mono fun q hq => Nat.lt_succ_of_lt hq
        rw [untilKind_of_other hk he, untilKind_of_other hk he, apply_bind, apply_bind, h p hp]
        rcases hs : s'.apply p with ⟨_ | first, q⟩
        · rfl
        · have hq : q.Short k :=
            Nat.lt_of_lt_of_le (hmoves p first q hs) (Nat.le_of_lt_succ hp)
          exact (ih hlower (Nat.le_of_succ_le_succ hn) (Nat.le_of_succ_le_succ hm)).map
            (List.cons first) q hq

theorem Agrees.block_bounds (h : s.Agrees (Parser.Short k) s') (hmoves : s'.Moves) (hn : k ≤ n)
    (hm : k ≤ m) : (Rule.block n s).Agrees (Parser.Short k) (Rule.block m s') := by
  refine nested Parser.steady_short.deepen
    (behind (Parser.steady_short.advance.accept _) fun opened => ?_)
  split
  · exact (h.untilKind_bounds hmoves hn hm .closeBrace).before _
  · exact refl _

theorem agrees_statement (hn : k ≤ n) (hm : k ≤ m) :
    (statement n).Agrees (Parser.Short k) (statement m) := by
  -- Induction on a number of tokens below both bounds, since a block stands behind a word.
  induction k generalizing n m with
  | zero =>
    intro p hp
    exact absurd hp (Nat.not_lt_zero _)
  | succ k ih =>
    obtain ⟨n, rfl⟩ := Nat.exists_eq_add_of_le' (Nat.lt_of_lt_of_le (Nat.succ_pos k) hn)
    obtain ⟨m, rfl⟩ := Nat.exists_eq_add_of_le' (Nat.lt_of_lt_of_le (Nat.succ_pos k) hm)
    have hkn := Nat.le_of_succ_le_succ hn
    have hkm := Nat.le_of_succ_le_succ hm
    have hvalue := agrees_expression hn hm
    have hlower := hvalue.mono (J := Parser.Short k) fun p hp => Nat.lt_succ_of_lt hp
    have hblock := (ih hkn hkm).block_bounds (moves_statement m) hkn hkm
    exact (hvalue.bareStatement Parser.leads_short Parser.steady_short hlower
      (expression_orderly _).onward.stays_short hblock
        ((statement_orderly m).block m).onward.stays_short).before _

end Statements

end Rule

namespace Parser

variable {p : Parser} {bound n : Nat}

theorem expression_of_bound (h : p.rest.length < bound) :
    (Rule.expression bound).apply p = p.expression :=
  Rule.agrees_expression h (Nat.le_refl _) p (Nat.lt_succ_self _)

theorem statement_of_bound (h : p.rest.length < bound) :
    (Rule.statement bound).apply p = p.statement :=
  Rule.agrees_statement h (Nat.le_refl _) p (Nat.lt_succ_self _)

theorem statements_of_bounds (h : p.rest.length < bound) (hn : p.rest.length < n) :
    (Rule.untilKind .endOfInput (Rule.statement bound) n).apply p = p.statements :=
  (Rule.agrees_statement h (Nat.le_refl _)).untilKind_bounds (Rule.moves_statement _) hn
    (Nat.le_refl _) .endOfInput p (Nat.lt_succ_self _)

end Parser

end TinyCompiler
