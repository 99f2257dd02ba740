import TinyCompiler.Proofs.BlockReading
import TinyCompiler.Proofs.Skimming

/-! Rules only go on. Whether it gives a result or fails, a rule leaves a parser behind some of the
tokens, under the same limit, and closes every level of nesting that it has opened. Every level
that it opens belongs to a token that it steps past, so it does not fail at the limit as long as
there is a level left for each token. -/
namespace TinyCompiler

namespace Parser

/-- The parser behind some of the tokens; only the names bound may differ as well. -/
structure Onward (p q : Parser) : Prop where
  rest : q.rest <:+ p.rest
  lastLine : q.lastLine = p.lastLine
  limit : q.limit = p.limit
  depth : q.depth = p.depth

/-- Behind some of the tokens, where levels may still be open. -/
def Ahead (p q : Parser) : Prop := q.rest <:+ p.rest

/-- A level is left for each token left, and `k` more. -/
def Room (k : Nat) (p : Parser) : Prop := p.depth + p.rest.length + k ≤ p.limit

namespace Onward

variable {p q r : Parser}

theorem ahead (h : p.Onward q) : p.Ahead q := h.rest

theorem refl (p : Parser) : p.Onward p := ⟨List.suffix_rfl, rfl, rfl, rfl⟩

theorem trans (h : p.Onward q) (h' : q.Onward r) : p.Onward r :=
  ⟨h'.rest.trans h.rest, h'.lastLine.trans h.lastLine, h'.limit.trans h.limit,
    h'.depth.trans h.depth⟩

theorem of_skims (h : p.Skims q) : p.Onward q := by
  obtain ⟨read, hr, -⟩ := h.read
  rw [h.same]
  exact ⟨⟨read, hr.symm⟩, rfl, rfl, rfl⟩

theorem inside (h : { p with depth := p.depth + 1 }.Onward q) :
    p.Onward { q with depth := q.depth - 1 } :=
  ⟨h.rest, h.lastLine, h.limit, by rw [h.depth]; rfl⟩

theorem room {k : Nat} (h : p.Onward q) (hp : p.Room k) : q.Room k := by
  have hlen := h.rest.length_le
  unfold Room at hp ⊢
  rw [h.limit, h.depth]
  omega

end Onward

namespace Room

variable {p : Parser} {k : Nat} {t : Token} {ts : List Token}

/-- A token that is stepped past leaves its level. -/
theorem token (h : p.Room k) (hts : p.rest = t :: ts) : { p with rest := ts }.Room (k + 1) := by
  unfold Room at h ⊢
  rw [hts, List.length_cons] at h
  simp only
  omega

theorem depth_lt (h : p.Room (k + 1)) : p.depth < p.limit := by
  unfold Room at h
  omega

theorem deeper (h : p.Room (k + 1)) : { p with depth := p.depth + 1 }.Room k := by
  unfold Room at h ⊢
  simp only
  omega

end Room

theorem advance_onward (p : Parser) : p.Onward p.advance := by
  unfold advance
  split
  · exact .refl p
  · exact ⟨List.tail_suffix p.rest, rfl, rfl, rfl⟩

end Parser

def SyntaxError.Deep : SyntaxError → Prop
  | tooDeep .. => True
  | unexpected _ | undeclared .. | unclosed .. | outOfRange .. => False

namespace Rule

variable {α β : Type} {bound k : Nat}

def Onward (r : Rule α) : Prop := ∀ p : Parser, p.Onward (r.apply p).2

def Ahead (r : Rule α) : Prop := ∀ p : Parser, p.Ahead (r.apply p).2

/-- Where there is room, the rule does not fail at the limit. -/
def NeverDeep (k : Nat) (r : Rule α) : Prop :=
  ∀ p : Parser, p.Room k → ∀ e, (r.apply p).1 = .error e → ¬e.Deep

structure Orderly (k : Nat) (r : Rule α) : Prop where
  onward : r.Onward
  neverDeep : r.NeverDeep k

theorem Onward.ahead {r : Rule α} (h : r.Onward) : r.Ahead := fun p => (h p).ahead

theorem Orderly.ahead {r : Rule α} (h : r.Orderly k) : r.Ahead := h.onward.ahead

theorem Skims.onward {r : Rule α} (h : r.Skims) : r.Onward := fun p => .of_skims (h p)

theorem neverDeep_of_ok {r : Rule α} (h : ∀ p, ∃ a q, r.apply p = (.ok a, q)) :
    r.NeverDeep k := by
  intro p hp e he
  obtain ⟨a, q, hr⟩ := h p
  rw [hr] at he
  cases he

theorem orderly_pure (a : α) : (pure a : Rule α).Orderly k :=
  ⟨fun p => .refl p, neverDeep_of_ok fun p => ⟨a, p, rfl⟩⟩

theorem orderly_throw {e : SyntaxError} (he : ¬e.Deep) : (throw e : Rule α).Orderly k := by
  refine ⟨fun p => .refl p, ?_⟩
  rintro p hp _ ⟨⟩
  exact he

theorem orderly_get : (get : Rule Parser).Orderly k :=
  ⟨fun p => .refl p, neverDeep_of_ok fun p => ⟨p, p, rfl⟩⟩

theorem orderly_peek : peek.Orderly k :=
  ⟨fun p => .refl p, neverDeep_of_ok fun p => ⟨p.peek, p, rfl⟩⟩

theorem orderly_advance : advance.Orderly k :=
  ⟨Parser.advance_onward, neverDeep_of_ok fun p => ⟨(), p.advance, rfl⟩⟩

theorem NeverDeep.bind {r : Rule α} {f : α → Rule β} (h : r.NeverDeep k) (hr : r.Onward)
    (hf : ∀ a, (f a).NeverDeep k) : (r >>= f).NeverDeep k := by
  intro p hp e he
  have hdeep := h p hp
  have hroom := (hr p).room hp
  rw [apply_bind] at he
  generalize r.apply p = out at he hdeep hroom
  obtain ⟨_ | a, q⟩ := out
  · cases he
    exact hdeep e rfl
  · exact hf a q hroom e he

theorem Onward.bind {r : Rule α} {f : α → Rule β} (hr : r.Onward) (hf : ∀ a, (f a).Onward) :
    (r >>= f).Onward := by
  intro p
  have hp := hr p
  rw [apply_bind]
  generalize r.apply p = out at hp ⊢
  obtain ⟨_ | a, q⟩ := out
  · exact hp
  · exact hp.trans (hf a q)

theorem Orderly.bind {r : Rule α} {f : α → Rule β} (hr : r.Orderly k)
    (hf : ∀ a, (f a).Orderly k) : (r >>= f).Orderly k :=
  ⟨hr.onward.bind fun a => (hf a).onward, hr.neverDeep.bind hr.onward fun a => (hf a).neverDeep⟩

theorem Orderly.map {r : Rule α} (hr : r.Orderly k) (f : α → β) : (f <$> r).Orderly k := by
  rw [← bind_pure_comp]
  exact hr.bind fun a => orderly_pure (f a)

theorem orderly_accept (kind : Kind) : (accept kind).Orderly k := by
  constructor
  · intro p
    rw [apply_accept]
    split
    · exact p.advance_onward
    · exact .refl p
  · refine neverDeep_of_ok fun p => ?_
    rw [apply_accept]
    split
    · exact ⟨true, p.advance, rfl⟩
    · exact ⟨false, p, rfl⟩

theorem orderly_declare (name : String) (value : Expr) : (declare name value).Orderly k :=
  ⟨fun p => by rw [apply_declare]; exact ⟨List.suffix_rfl, rfl, rfl, rfl⟩,
    neverDeep_of_ok fun p => ⟨_, _, apply_declare name value p⟩⟩

theorem orderly_assign (name : String) (value : Expr) (line : Nat) :
    (assign name value line).Orderly k := by
  constructor
  · intro p
    rw [apply_assign]
    split <;> exact ⟨List.suffix_rfl, rfl, rfl, rfl⟩
  · intro p hp e he
    rw [apply_assign] at he
    split at he <;> cases he
    exact id

theorem Onward.nested {r : Rule α} (h : r.Onward) : (nested r).Onward := by
  intro p
  rw [apply_nested]
  split
  · exact (h _).inside
  · exact .refl p

theorem NeverDeep.nested {r : Rule α} (h : r.NeverDeep k) : (nested r).NeverDeep (k + 1) := by
  intro p hp e he
  rw [apply_nested, if_pos hp.depth_lt] at he
  exact h _ hp.deeper e he

/-- The operators of one of the tiers, with the nodes that they build. -/
inductive Operators : {ω : Type} → (Kind → Option ω) → (ω → Expr → Expr → Expr) → Prop where
  | multiplicative : Operators BinaryOp.multiplicative? .binary
  | additive : Operators BinaryOp.additive? .binary
  | comparison : Operators Comparison.ofKind? .comparison
  | connective (op : Connective) : Operators op.tier? .connective

section Tiers

variable {ω : Type} {operator? : Kind → Option ω} {build : ω → Expr → Expr → Expr}
variable {operand : Rule Expr}

theorem Operators.no_mark (h : Operators operator? build) :
    ∀ k, (operator? k).isSome → k ∉ .endOfInput :: marks := by
  cases h with
  | connective op => cases op <;> rintro (_ | _) <;> decide
  | multiplicative | additive | comparison => rintro (_ | _) <;> decide

theorem tiers_induction {P : Rule Expr → Prop} (bound : Nat)
    (step : ∀ {ω : Type} {operator? : Kind → Option ω} {build : ω → Expr → Expr → Expr},
      Operators operator? build → ∀ r, P r → P (tier bound operator? build r))
    (h : P operand) : P (tiers bound operand) :=
  step (.connective .or) _ (step (.connective .and) _ (step .comparison _
    (step .additive _ (step .multiplicative _ h))))

theorem Operators.chain_ahead (h : Operators operator? build) (hs : operand.Skims) (n : Nat)
    (left : Expr) : (chain operator? build operand n left).Ahead := by
  intro p
  obtain ⟨read, hr, -⟩ := (chain_skims h.no_mark hs n left p).read
  exact ⟨read, hr.symm⟩

theorem Operators.chain_neverDeep (hop : Operators operator? build) (hs : operand.Skims)
    (h : operand.NeverDeep 0) (n : Nat) (left : Expr) :
    (chain operator? build operand n left).NeverDeep 0 := by
  -- Induction on the bound: an operator opens a level and is stepped past.
  induction n generalizing left with
  | zero => exact (orderly_pure left).neverDeep
  | succ n ih =>
    intro p hp e he
    cases hk : operator? p.peek.kind with
    | none =>
      rw [chain_of_none hk] at he
      cases he
    | some op =>
      have hmark := hop.no_mark p.peek.kind (by rw [hk]; rfl)
      simp only [List.mem_cons, not_or] at hmark
      obtain ⟨ts, hts⟩ := Parser.exists_rest_of_peek rfl hmark.1
      have hroom := hp.token hts
      rw [chain_of_some hk hmark.1 hts, if_pos hroom.depth_lt] at he
      exact h.bind hs.onward (fun right => ih _) (p.inside ts) hroom.deeper e he

theorem Operators.tier_neverDeep (hop : Operators operator? build) (hs : operand.Skims)
    (h : operand.NeverDeep 0) (bound : Nat) : (tier bound operator? build operand).NeverDeep 0 := by
  intro p hp e he
  rw [tier, apply_bind_of_ok (apply_get p), apply_thenAlways] at he
  exact h.bind hs.onward (hop.chain_neverDeep hs h bound) p hp e he

theorem NeverDeep.tiers (hs : operand.Skims) (h : operand.NeverDeep 0) (bound : Nat) :
    (tiers bound operand).NeverDeep 0 := by
  have hboth : (Rule.tiers bound operand).Skims ∧ (Rule.tiers bound operand).NeverDeep 0 := by
    refine tiers_induction (P := fun r => r.Skims ∧ r.NeverDeep 0) bound ?_ ⟨hs, h⟩
    intro ω operator? build hop r ⟨hs, h⟩
    exact ⟨hs.tier hop.no_mark, hop.tier_neverDeep hs h bound⟩
  exact hboth.2

/-- A parenthesis opens a level and is stepped past. -/
theorem NeverDeep.primary {value : Rule Expr} (h : value.NeverDeep 1) :
    (primary value).NeverDeep 0 := by
  intro p hp e he
  by_cases hk : p.peek.kind ∈ [Kind.identifier, .trueWord, .falseWord, .integer, .openParen]
  · obtain ⟨t, ts, ht⟩ | ⟨t, ts, ht⟩ | ⟨t, ts, ht⟩ | ⟨t, ts, ht⟩ | ⟨t, ts, ht⟩ :=
      exists_primary_token hk
    · rw [primary_of_name ht] at he
      split at he <;> cases he
      exact id
    · rw [primary_of_yes ht] at he
      cases he
    · rw [primary_of_no ht] at he
      cases he
    · rw [primary_of_numeral ht] at he
      split at he <;> cases he
      exact id
    · have hinner := h _ (hp.token ht)
      rw [primary_of_group ht] at he
      split at he
      · split at he <;> cases he
        exact id
      · rename_i hfail
        rw [hfail] at hinner
        exact hinner e he
  · rw [primary_of_other hk] at he
    cases he
    exact id

theorem unary_neverDeep (bound : Nat) : (unary bound).NeverDeep 0 := by
  -- Induction on the bound: a sign opens a level and is stepped past.
  induction bound with
  | zero =>
    rintro p hp _ ⟨⟩
    exact id
  | succ n ih =>
    intro p hp e he
    by_cases hk : p.peek.kind ∈ [Kind.minus, .bang, .plus]
    · obtain ⟨op, t, ts, ht⟩ | ⟨t, ts, ht⟩ := exists_sign_token hk
      · have hoperand := ih.nested _ (hp.token ht)
        rw [unary_of_sign ht] at he
        split at he
        · cases he
        · rename_i hfail
          rw [hfail] at hoperand
          exact hoperand e he
      · rw [unary_of_plus ht] at he
        exact ih.nested _ (hp.token ht) e he
    · rw [unary_of_other hk] at he
      exact (ih.tiers (unary_skims n) n).nested.primary p hp e he

end Tiers

theorem expression_orderly (bound : Nat) : (expression bound).Orderly 1 :=
  ⟨(expression_skims bound).onward,
    ((unary_neverDeep bound).tiers (unary_skims bound) bound).nested⟩

section Statements

variable {value : Rule Expr} {body : Rule (List Stmt)} {r : Rule Stmt}

theorem Orderly.declaration (h : value.Orderly k) : (declaration value).Orderly k :=
  orderly_peek.bind fun _ => orderly_advance.bind fun _ => orderly_advance.bind fun _ =>
    h.bind fun _ => (orderly_declare _ _).map _

theorem Orderly.assignment (h : value.Orderly k) : (assignment value).Orderly k := by
  refine orderly_peek.bind fun target => orderly_get.bind fun p => ?_
  split
  · exact orderly_advance.bind fun _ => orderly_advance.bind fun _ =>
      h.bind fun _ => (orderly_assign _ _ _).map _
  · exact orderly_throw id

theorem Orderly.alternative (hb : body.Orderly k) (condition : Expr) (consequent : List Stmt) :
    (accept .elseWord >>= fun more =>
      if more then Stmt.ifElse condition consequent <$> body
      else pure (.ifThen condition consequent)).Orderly k := by
  refine (orderly_accept _).bind fun more => ?_
  split
  · exact hb.map _
  · exact orderly_pure _

theorem Orderly.alternatives (hb : body.Orderly k) (condition : Expr) :
    (body >>= fun consequent => accept .elseWord >>= fun more =>
      if more then Stmt.ifElse condition consequent <$> body
      else pure (.ifThen condition consequent)).Orderly k :=
  hb.bind fun consequent => hb.alternative condition consequent

theorem Orderly.branch (h : value.Orderly k) (hb : body.Orderly k) :
    (branch value body).Orderly k :=
  orderly_advance.bind fun _ => h.bind fun condition => hb.alternatives condition

theorem Orderly.loop (h : value.Orderly k) (hb : body.Orderly k) : (loop value body).Orderly k :=
  orderly_advance.bind fun _ => h.bind fun _ => hb.map _

theorem Orderly.bareStatement (h : value.Orderly k) (hb : body.Orderly k) :
    (bareStatement value body).Orderly k := by
  refine orderly_peek.bind fun t => orderly_get.bind fun p => ?_
  dsimp only
  split
  · exact h.declaration
  · exact h.assignment
  · exact orderly_advance.bind fun _ => h.map _
  · exact h.branch hb
  · exact h.loop hb
  · exact h.map _

theorem Orderly.untilKind (h : r.Orderly k) (close : Kind) (n : Nat) :
    (untilKind close r n).Orderly k := by
  induction n with
  | zero => exact orderly_pure _
  | succ n ih =>
    refine orderly_peek.bind fun t => ?_
    split
    · exact orderly_pure _
    · split
      · exact (orderly_throw id).bind fun _ => h.bind fun _ => ih.map _
      · exact h.bind fun _ => ih.map _

theorem Orderly.braces (h : r.Orderly k) (bound : Nat) : (braces bound r).Orderly k := by
  refine (orderly_accept _).bind fun opened => ?_
  split
  · exact (h.untilKind _ _).bind fun _ => orderly_advance.bind fun _ => orderly_pure _
  · exact orderly_peek.bind fun _ => orderly_throw id

/-- The level that a block opens belongs to its brace. -/
theorem Orderly.block (h : r.Orderly 1) (bound : Nat) : (block bound r).Orderly 1 := by
  constructor
  · rw [block_eq_nested]
    exact (h.braces bound).onward.nested
  · intro p hp e he
    by_cases hk : p.peek.kind = .openBrace
    · obtain ⟨t, ts, hts⟩ := Parser.exists_token hk (by decide)
      have hbody := (h.untilKind .closeBrace bound).neverDeep _ (hp.token hts).deeper
      rw [block_of_brace hp.depth_lt hts] at he
      split at he
      · cases he
      · rename_i hfail
        rw [Parser.inside] at hfail
        rw [hfail] at hbody
        exact hbody e he
    · rw [block_of_other hp.depth_lt hk] at he
      cases he
      exact id

end Statements

theorem statement_orderly (bound : Nat) : (statement bound).Orderly 1 := by
  induction bound with
  | zero => exact orderly_peek.bind fun _ => orderly_throw id
  | succ n ih =>
    exact ((expression_orderly _).bareStatement (ih.block n)).bind fun _ =>
      (orderly_accept _).bind fun _ => orderly_pure _

end Rule

namespace Parser

theorem neverDeep_statements {p : Parser} (h : p.Room 1) :
    ∀ e, p.statements.1 = .error e → ¬e.Deep :=
  ((Rule.statement_orderly _).untilKind .endOfInput _).neverDeep p h

end Parser

end TinyCompiler
