import TinyCompiler.Proofs.Session

/-! The productions of the grammar, each as a rule in terms of the productions that it calls, and
which parsers they are called on. -/
namespace TinyCompiler

open Grammar

namespace Rule

/-- The tiers one by one, over the operators in front of a primary. -/
def ofTier (bound : Nat) (t : Tier) : Rule Expr :=
  let multiplicative := tier bound BinaryOp.multiplicative? .binary (unary bound)
  let additive := tier bound BinaryOp.additive? .binary multiplicative
  let comparison := tier bound Comparison.ofKind? .comparison additive
  let conjunction := tier bound (Connective.tier? .and) .connective comparison
  match t with
  | .multiplicative => multiplicative
  | .additive => additive
  | .comparison => comparison
  | .conjunction => conjunction
  | .disjunction => tier bound (Connective.tier? .or) .connective conjunction

end Rule

/-- The productions of the grammar, with the bounds that they recur with. -/
inductive Production where
  | tier (t : Tier) (bound : Nat)
  | unary (bound : Nat)
  | primary (bound : Nat)
  | statement (bound : Nat)
  | braces (bound : Nat)
  | program (bound : Nat)
  /-- Another production one level deeper. -/
  | nested (inner : Production)
  deriving DecidableEq

namespace Production

def expression (bound : Nat) : Production := nested (tier .disjunction bound)

def block (bound : Nat) : Production := nested (braces bound)

def Tree : Production → Type
  | tier _ _ | unary _ | primary _ => Expr
  | statement _ => Stmt
  | braces _ | program _ => List Stmt
  | nested inner => inner.Tree

def rule : (π : Production) → Rule π.Tree
  | tier t bound => Rule.ofTier bound t
  | unary bound => Rule.unary bound
  | primary bound => Rule.primary (Rule.expression bound)
  | statement bound => Rule.statement bound
  | braces bound => Rule.braces bound (Rule.statement bound)
  | program bound => Rule.untilKind .endOfInput (Rule.statement bound) bound
  | nested inner => Rule.nested inner.rule

/-- The rule of a production, where `call` stands for the rules that it calls. -/
def body (call : (π : Production) → Rule π.Tree) : (π : Production) → Rule π.Tree
  | tier .multiplicative bound =>
    Rule.tier bound BinaryOp.multiplicative? .binary (call (unary bound))
  | tier .additive bound =>
    Rule.tier bound BinaryOp.additive? .binary (call (tier .multiplicative bound))
  | tier .comparison bound =>
    Rule.tier bound Comparison.ofKind? .comparison (call (tier .additive bound))
  | tier .conjunction bound =>
    Rule.tier bound (Connective.tier? .and) .connective (call (tier .comparison bound))
  | tier .disjunction bound =>
    Rule.tier bound (Connective.tier? .or) .connective (call (tier .conjunction bound))
  | unary 0 | statement 0 => do throw (.unexpected (← Rule.peek))
  | unary (bound + 1) => do
    match UnaryOp.ofKind? (← Rule.peek).kind with
    | some op => do
      Rule.advance
      return .unary op (← call (nested (unary bound)))
    | none => do
      if ← Rule.accept .plus then call (nested (unary bound)) else call (primary bound)
  | primary bound => Rule.primary (call (expression bound))
  | statement (bound + 1) => do
    let s ← Rule.bareStatement (call (expression (bound + 1))) (call (block bound))
    let _ ← Rule.accept .semicolon
    return s
  | braces bound => Rule.braces bound (call (statement bound))
  | program bound => Rule.untilKind .endOfInput (call (statement bound)) bound
  | nested inner => Rule.nested (call inner)

/-- Productions that call one another are the rules of the grammar. -/
theorem body_rule (π : Production) : π.body rule = π.rule := by
  cases π with
  | tier t bound => cases t <;> rfl
  | unary bound => cases bound <;> rfl
  | statement bound => cases bound <;> rfl
  | _ => rfl

end Production

namespace Rule

theorem ofTier_skims (bound : Nat) (t : Tier) : (ofTier bound t).Skims := by
  have hmul : (tier bound BinaryOp.multiplicative? .binary _).Skims :=
    (unary_skims bound).tier Operators.multiplicative.no_mark
  have hadd : (tier bound BinaryOp.additive? .binary _).Skims :=
    hmul.tier Operators.additive.no_mark
  have hcmp : (tier bound Comparison.ofKind? .comparison _).Skims :=
    hadd.tier Operators.comparison.no_mark
  have hand : (tier bound (Connective.tier? .and) .connective _).Skims :=
    hcmp.tier (Operators.connective .and).no_mark
  cases t with
  | multiplicative => exact hmul
  | additive => exact hadd
  | comparison => exact hcmp
  | conjunction => exact hand
  | disjunction => exact hand.tier (Operators.connective .or).no_mark

end Rule

/-- Whether it gives a result or fails, every production closes the levels that it has opened. -/
theorem Production.onward (π : Production) : π.rule.Onward := by
  induction π with
  | tier t bound => exact (Rule.ofTier_skims bound t).onward
  | unary bound => exact (Rule.unary_skims bound).onward
  | primary bound => exact (Rule.expression_skims bound).primary.onward
  | statement bound => exact (Rule.statement_orderly bound).onward
  | braces bound => exact ((Rule.statement_orderly bound).braces bound).onward
  | program bound => exact ((Rule.statement_orderly bound).untilKind _ bound).onward
  | nested inner ih => exact Rule.Onward.nested ih

namespace Rule

variable {α β : Type} {I : Parser → Prop}

/-- From the parsers of which `I` holds, the rule does not lead to others. -/
def Stays (I : Parser → Prop) (r : Rule α) : Prop := ∀ p : Parser, I p → I (r.apply p).2

def Agrees (I : Parser → Prop) (r r' : Rule α) : Prop :=
  ∀ p : Parser, I p → r.apply p = r'.apply p

theorem stays_peek : peek.Stays I := fun _ h => h

theorem stays_get : (get : Rule Parser).Stays I := fun _ h => h

theorem stays_throw (e : SyntaxError) : (throw e : Rule α).Stays I := fun _ h => h

theorem Stays.accept (h : advance.Stays I) (kind : Kind) : (accept kind).Stays I := by
  intro p hp
  rw [apply_accept]
  split
  · exact h p hp
  · exact hp

end Rule

/-- What holds of a parser and is kept by every step of the rules: past a token, one level deeper,
and through a whole production. -/
structure Parser.Steady (I : Parser → Prop) : Prop where
  advance : Rule.advance.Stays I
  deepen : Rule.deepen.Stays I
  rule (π : Production) : π.rule.Stays I

def Parser.Leads (I J : Parser → Prop) : Prop :=
  ∀ ⦃p : Parser⦄ ⦃k : Kind⦄ ⦃t : TokenOf k⦄ ⦃ts : List Token⦄, p.rest = t.1 :: ts →
    k ≠ .endOfInput → I p → J { p with rest := ts }

theorem Parser.Steady.leads {I : Parser → Prop} (h : Steady I) : Leads I I := by
  intro p k t ts hts hk hp
  have hadvance := h.advance p hp
  rwa [Rule.apply_advance, advance_of_token hts hk] at hadvance

theorem Parser.Steady.and {I J : Parser → Prop} (h : Steady I) (h' : Steady J) :
    Steady fun p => I p ∧ J p where
  advance p hp := ⟨h.advance p hp.1, h'.advance p hp.2⟩
  deepen p hp := ⟨h.deepen p hp.1, h'.deepen p hp.2⟩
  rule π p hp := ⟨h.rule π p hp.1, h'.rule π p hp.2⟩

theorem Parser.Leads.and {I J J' : Parser → Prop} (h : Leads I J) (h' : Leads I J') :
    Leads I fun p => J p ∧ J' p :=
  fun _ _ _ _ hts hk hp => ⟨h hts hk hp, h' hts hk hp⟩

theorem Parser.Leads.advance {I J : Parser → Prop} (h : Leads I J) {p : Parser} (hp : I p)
    (hk : p.peek.kind ≠ .endOfInput) : J p.advance := by
  obtain ⟨t, ts, hts⟩ := exists_token rfl hk
  rw [advance_of_token hts hk]
  exact h hts hk hp

namespace Rule

namespace Agrees

variable {α β : Type} {I J : Parser → Prop}

theorem refl (r : Rule α) : r.Agrees I r := fun _ _ => rfl

theorem mono {r r' : Rule α} (h : r.Agrees I r') (hJ : ∀ p, J p → I p) : r.Agrees J r' :=
  fun p hp => h p (hJ p hp)

theorem and_left {r r' : Rule α} (h : r.Agrees I r') : r.Agrees (fun p => I p ∧ J p) r' :=
  h.mono fun _ hp => hp.1

theorem and_right {r r' : Rule α} (h : r.Agrees J r') : r.Agrees (fun p => I p ∧ J p) r' :=
  h.mono fun _ hp => hp.2

theorem bind {r r' : Rule α} {f f' : α → Rule β} (h : r.Agrees I r') (hr : r'.Stays I)
    (hf : ∀ a, (f a).Agrees I (f' a)) : (r >>= f).Agrees I (r' >>= f') := by
  intro p hp
  have hq := hr p hp
  rw [apply_bind, apply_bind, h p hp]
  generalize r'.apply p = out at hq ⊢
  obtain ⟨_ | a, q⟩ := out
  · rfl
  · exact hf a q hq

theorem behind {r : Rule α} {f f' : α → Rule β} (hr : r.Stays I)
    (hf : ∀ a, (f a).Agrees I (f' a)) : (r >>= f).Agrees I (r >>= f') :=
  (refl r).bind hr hf

theorem before {r r' : Rule α} (h : r.Agrees I r') (f : α → Rule β) :
    (r >>= f).Agrees I (r' >>= f) := by
  intro p hp
  rw [apply_bind, apply_bind, h p hp]

theorem map {r r' : Rule α} (h : r.Agrees I r') (f : α → β) : (f <$> r).Agrees I (f <$> r') := by
  intro p hp
  rw [apply_map, apply_map, h p hp]

theorem thenAlways {r r' : Rule α} (h : r.Agrees I r') (f : Parser → Parser) :
    (r.thenAlways f).Agrees I (r'.thenAlways f) := by
  intro p hp
  rw [apply_thenAlways, apply_thenAlways, h p hp]

theorem nested {r r' : Rule α} (hdeepen : deepen.Stays I) (h : r.Agrees I r') :
    (nested r).Agrees I (Rule.nested r') :=
  behind hdeepen fun _ => h.thenAlways _

section Calls

variable {ω : Type} {operator? : Kind → Option ω} {build : ω → Expr → Expr → Expr}
variable {bound : Nat} {r r' : Rule Expr} {s s' : Rule Stmt} {b b' : Rule (List Stmt)}

theorem chain (hI : Parser.Steady I) (h : r.Agrees I r') (hr : r'.Stays I) (n : Nat)
    (left : Expr) :
    (Rule.chain operator? build r n left).Agrees I (Rule.chain operator? build r' n left) := by
  -- Induction on the bound: behind an operator the operand is read one level deeper.
  induction n generalizing left with
  | zero => exact refl _
  | succ n ih =>
    refine behind stays_peek fun t => ?_
    split
    · exact refl _
    · exact behind hI.deepen fun _ => behind hI.advance fun _ => h.bind hr fun _ => ih _

theorem tier (hI : Parser.Steady I) (h : r.Agrees I r') (hr : r'.Stays I) :
    (Rule.tier bound operator? build r).Agrees I (Rule.tier bound operator? build r') :=
  behind stays_get fun _ => (h.bind hr fun left => h.chain hI hr bound left).thenAlways _

theorem primary (hIJ : Parser.Leads I J) (h : r.Agrees J r') :
    (Rule.primary r).Agrees I (Rule.primary r') := by
  intro p hp
  by_cases hk : p.peek.kind = .openParen
  · obtain ⟨t, ts, ht⟩ := Parser.exists_token hk (by decide)
    rw [primary_of_group ht, primary_of_group ht, h _ (hIJ ht (by decide) hp)]
  · rw [Rule.primary, Rule.primary, apply_bind_of_ok (apply_peek p),
      apply_bind_of_ok (apply_peek p)]
    split
    case h_5 hparen => exact absurd hparen hk
    all_goals rfl

/-- The words in front of an expression or a block are stepped past. Only an expression that is a
statement begins at the same token. -/
theorem bareStatement (hIJ : Parser.Leads I J) (hJ : Parser.Steady J) (h : r.Agrees I r')
    (h' : r.Agrees J r') (hr : r'.Stays J) (hb : b.Agrees J b') (hs : b'.Stays J) :
    (Rule.bareStatement r b).Agrees I (Rule.bareStatement r' b') := by
  intro p hp
  by_cases hbinding : StartsBinding [p.peek.kind, p.peekSecond.kind]
  · obtain ⟨t, m, ts, hts⟩ | ⟨t, m, ts, hts⟩ := exists_binding_tokens hbinding <;>
      have hbehind : J { p with rest := ts } :=
        hJ.leads (p := { p with rest := m.1 :: ts }) rfl (by decide) (hIJ hts (by decide) hp)
    · rw [bareStatement_of_declaration hts, bareStatement_of_declaration hts]
      exact h'.before _ _ hbehind
    · rw [bareStatement_of_assignment hts, bareStatement_of_assignment hts]
      split
      · exact h'.before _ _ hbehind
      · rfl
  by_cases hword : p.peek.kind ∈ [Kind.returnWord, .ifWord, .forWord]
  · obtain ⟨t, ts, ht⟩ | ⟨t, ts, ht⟩ | ⟨t, ts, ht⟩ := exists_word_token hword <;>
      have hbehind := hIJ ht (by decide) hp
    · rw [bareStatement_of_return ht, bareStatement_of_return ht]
      exact h'.map _ _ hbehind
    · rw [bareStatement_of_if ht, bareStatement_of_if ht]
      refine (h'.bind hr fun _ => hb.bind hs fun _ => behind (hJ.advance.accept _) fun more => ?_) _
        hbehind
      split
      · exact hb.map _
      · exact refl _
    · rw [bareStatement_of_for ht, bareStatement_of_for ht]
      exact (h'.bind hr fun _ => hb.map _) _ hbehind
  · rw [bareStatement_of_other hbinding hword, bareStatement_of_other hbinding hword]
    exact h.map _ p hp

theorem untilKind (h : s.Agrees I s') (hs : s'.Stays I) (close : Kind) (n : Nat) :
    (Rule.untilKind close s n).Agrees I (Rule.untilKind close s' n) := by
  induction n with
  | zero => exact refl _
  | succ n ih =>
    refine behind stays_peek fun t => ?_
    split
    · exact refl _
    · split
      · exact behind (stays_throw _) fun _ => h.bind hs fun _ => ih.map _
      · exact h.bind hs fun _ => ih.map _

theorem braces (hI : Parser.Steady I) (h : s.Agrees I s') (hs : s'.Stays I) :
    (Rule.braces bound s).Agrees I (Rule.braces bound s') := by
  refine behind (hI.advance.accept _) fun opened => ?_
  split
  · exact (h.untilKind hs _ _).before _
  · exact refl _

end Calls

end Agrees

end Rule

namespace Production

def operand : Tier → Nat → Production
  | .multiplicative, bound => unary bound
  | .additive, bound => tier .multiplicative bound
  | .comparison, bound => tier .additive bound
  | .conjunction, bound => tier .comparison bound
  | .disjunction, bound => tier .conjunction bound

/-- The productions that a production may call at the token where it stands, or further on. -/
inductive Calls : Production → Production → Prop where
  | operand (t : Tier) (bound : Nat) : Calls (tier t bound) (operand t bound)
  | primary (bound : Nat) : Calls (unary (bound + 1)) (primary bound)
  | value (bound : Nat) : Calls (statement (bound + 1)) (expression (bound + 1))
  | body (bound : Nat) : Calls (braces bound) (statement bound)
  | main (bound : Nat) : Calls (program bound) (statement bound)
  | nested (inner : Production) : Calls (nested inner) inner

/-- The productions that a production calls behind a token that it has stepped past. -/
inductive CallsBehind : Production → Production → Prop where
  | sign (bound : Nat) : CallsBehind (unary (bound + 1)) (nested (unary bound))
  | group (bound : Nat) : CallsBehind (primary bound) (expression bound)
  | value (bound : Nat) : CallsBehind (statement (bound + 1)) (expression (bound + 1))
  | block (bound : Nat) : CallsBehind (statement (bound + 1)) (block bound)

/-- What holds of a production and its parser, and of all productions that it calls and theirs. -/
structure Kept (I : Production → Parser → Prop) : Prop where
  steady (π : Production) : Parser.Steady (I π)
  calls {π ρ : Production} (h : π.Calls ρ) (p : Parser) : I π p → I ρ p
  behind {π ρ : Production} (h : π.CallsBehind ρ) : Parser.Leads (I π) (I ρ)

theorem kept_of_steady {I : Parser → Prop} (h : Parser.Steady I) : Kept fun _ => I :=
  ⟨fun _ => h, fun _ _ hp => hp, fun _ => h.leads⟩

variable {I : Production → Parser → Prop} {call : (π : Production) → Rule π.Tree}

/-- Whatever the others do on parsers of which what is kept does not hold, makes no difference to a
production on parsers of which it does. -/
theorem agrees (hI : Kept I) (h : ∀ π : Production, (call π).Agrees (I π) π.rule)
    (π : Production) : (π.body call).Agrees (I π) π.rule := by
  have hcalls {π ρ : Production} (hρ : π.Calls ρ) : (call ρ).Agrees (I π) ρ.rule :=
    (h ρ).mono (hI.calls hρ)
  have hstays (π ρ : Production) : ρ.rule.Stays (I π) := (hI.steady π).rule ρ
  rw [← body_rule]
  cases π with
  | tier t bound =>
    have hoperand := hcalls (.operand t bound)
    cases t <;> exact hoperand.tier (hI.steady _) (hstays _ _)
  | unary bound =>
    cases bound with
    | zero => exact .refl _
    | succ n =>
      have hoperand := h (nested (unary n))
      intro p hp
      rw [body, body, Rule.apply_bind_of_ok (Rule.apply_peek p),
        Rule.apply_bind_of_ok (Rule.apply_peek p)]
      split
      · rename_i op hop
        have hk : p.peek.kind ≠ .endOfInput := fun hk => by rw [hk] at hop; cases hop
        exact hoperand.map (Expr.unary op) p.advance ((hI.behind (.sign n)).advance hp hk)
      · rw [Rule.apply_bind, Rule.apply_bind, Rule.apply_accept]
        by_cases hplus : p.peek.kind = .plus
        · rw [if_pos hplus]
          exact hoperand _ ((hI.behind (.sign n)).advance hp (by rw [hplus]; decide))
        · rw [if_neg hplus]
          exact hcalls (.primary n) p hp
  | primary bound => exact (h (expression bound)).primary (hI.behind (.group bound))
  | statement bound =>
    cases bound with
    | zero => exact .refl _
    | succ n =>
      -- Behind a word stands an expression, and behind that a block.
      have hJ := (hI.steady (expression (n + 1))).and (hI.steady (block n))
      have hIJ := (hI.behind (.value n)).and (hI.behind (.block n))
      have hvalue := (h (expression (n + 1))).and_left (J := I (block n))
      have hblock := (h (block n)).and_right (I := I (expression (n + 1)))
      have hbare := (hcalls (.value n)).bareStatement hIJ hJ hvalue (hJ.rule _) hblock (hJ.rule _)
      exact hbare.before _
  | braces bound => exact (hcalls (.body bound)).braces (hI.steady _) (hstays _ _)
  | program bound => exact (hcalls (.main bound)).untilKind (hstays _ _) _ bound
  | nested inner => exact (hcalls (.nested inner)).nested (hI.steady _).deepen

end Production

end TinyCompiler
