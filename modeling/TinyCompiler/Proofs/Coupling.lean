import TinyCompiler.Proofs.Onward
import TinyCompiler.Proofs.Renaming

/-! Two runs of the rules for expressions in step. A coupling relates parsers in a way that every
single step keeps, so that a rule run on both gives the same tree, up to names, or stops on both
for the same reason. Where only the first one is at its limit, the second goes on alone. -/
namespace TinyCompiler

open Grammar

/-- Why a rule stops at the current token. -/
inductive Halt where
  | unexpected
  | undeclared
  | unclosed (expected : Kind)
  | outOfRange
  | tooDeep

namespace Halt

def error (halt : Halt) (p : Parser) : SyntaxError :=
  match halt with
  | unexpected => .unexpected p.peek
  | undeclared => .undeclared p.peek.lexeme p.peek.line
  | unclosed expected => .unclosed expected p.peek
  | outOfRange => .outOfRange p.peek.lexeme p.peek.line
  | tooDeep => .tooDeep p.limit p.peek.line

def Meets (halt : Halt) (p : Parser) : Prop :=
  match halt with
  | unexpected | tooDeep => True
  | undeclared => p.peek.kind = .identifier ∧ p.symbols.contains p.peek.lexeme = false
  | unclosed expected => expected = .closeParen ∨ p.peek.kind = .endOfInput
  | outOfRange => p.peek.kind = .integer ∧ Decimal.int64? p.peek.lexeme = none

variable (halt : Halt) (p : Parser) (d : Nat)

theorem error_set_depth : halt.error { p with depth := d } = halt.error p := by
  cases halt <;> rfl

theorem meets_set_depth : halt.Meets { p with depth := d } ↔ halt.Meets p := by
  cases halt <;> exact Iff.rfl

end Halt

/-- A relation between the parsers of two runs, with a clause for each step that a rule takes. -/
structure Coupling where
  /-- The name in the second run for a name in the first. -/
  name : String → String
  name_injective : Function.Injective name
  /-- The runs are in step. -/
  Pair : Parser → Parser → Prop
  /-- The first run has stopped at its limit, and the second has gone on. -/
  Parted : Parser → Parser → Prop
  kind {p q : Parser} : Pair p q → q.peek.kind = p.peek.kind
  lexeme {p q : Parser} : Pair p q → p.peek.kind ≠ .endOfInput →
    q.peek.lexeme = (p.peek.rename name).lexeme
  secondKind {p q : Parser} : Pair p q → p.peek.kind ≠ .endOfInput →
    q.peekSecond.kind = p.peekSecond.kind
  symbols {p q : Parser} : Pair p q → q.symbols = p.symbols.rename name
  depth {p q : Parser} : Pair p q → q.depth = p.depth
  advance {p q : Parser} : Pair p q → Pair p.advance q.advance
  set_depth {p q : Parser} (d : Nat) :
    Pair p q → Pair { p with depth := d } { q with depth := d }
  set_symbols {p q : Parser} (t : SymbolTable) :
    Pair p q → Pair { p with symbols := t } { q with symbols := t.rename name }
  /-- Either both have a level left or neither has, or the first is at its limit alone. -/
  deepen {p q : Parser} : Pair p q →
    (p.depth < p.limit ↔ q.depth < q.limit) ∨ ¬p.depth < p.limit ∧ Parted p q
  parted_depth {p q : Parser} (d : Nat) : Parted p q → Parted { p with depth := d } q
  parted_ahead {p q q' : Parser} : Parted p q → q.Ahead q' → Parted p q'

namespace Coupling

open Rule

variable {C : Coupling} {α β γ δ : Type} {φ : α → β} {ψ : γ → δ}

/-- What two runs give: the same result and parsers in step, the same reason to stop, or an error at
the limit of the first. -/
inductive Outcome (C : Coupling) (φ : α → β) :
    Except SyntaxError α × Parser → Except SyntaxError β × Parser → Prop where
  | ok {p q : Parser} (a : α) (h : C.Pair p q) : Outcome C φ (.ok a, p) (.ok (φ a), q)
  | halted {p q : Parser} (halt : Halt) (h : C.Pair p q) (hp : halt.Meets p) :
    Outcome C φ (.error (halt.error p), p) (.error (halt.error q), q)
  | parted {p : Parser} {out : Except SyntaxError β × Parser} (h : C.Parted p out.2) :
    Outcome C φ (.error (Halt.tooDeep.error p), p) out

def Couples (C : Coupling) (φ : α → β) (r : Rule α) (s : Rule β) : Prop :=
  ∀ p q, C.Pair p q → C.Outcome φ (r.apply p) (s.apply q)

section Steps

variable {p q : Parser} {r : Rule α} {s : Rule β} {f : α → Rule γ} {g : β → Rule δ}

theorem exists_token (h : C.Pair p q) {k : Kind} {t : TokenOf k} {ts : List Token}
    (hts : p.rest = t.1 :: ts) (hk : k ≠ .endOfInput) :
    ∃ (u : TokenOf k) (us : List Token), q.rest = u.1 :: us ∧
      u.1.lexeme = (t.1.rename C.name).lexeme ∧
        C.Pair { p with rest := ts } { q with rest := us } := by
  have hpeek := Parser.peek_of_rest hts
  have hkind : q.peek.kind = k := by rw [C.kind h, hpeek, t.2]
  obtain ⟨u, us, hus⟩ := Parser.exists_token hkind hk
  have hlexeme := C.lexeme h (by rw [hpeek, t.2]; exact hk)
  rw [hpeek, Parser.peek_of_rest hus] at hlexeme
  have hadvance := C.advance h
  rw [Parser.advance_of_token hts hk, Parser.advance_of_token hus hk] at hadvance
  exact ⟨u, us, hus, hlexeme, hadvance⟩

/-- The second run goes on alone, if only the first one has stopped. -/
theorem Outcome.bind (h : C.Outcome φ (r.apply p) (s.apply q)) (hg : ∀ b, (g b).Ahead)
    (hfg : ∀ a p' q', r.apply p = (.ok a, p') → C.Pair p' q' →
      C.Outcome ψ ((f a).apply p') ((g (φ a)).apply q')) :
    C.Outcome ψ ((r >>= f).apply p) ((s >>= g).apply q) := by
  rw [apply_bind, apply_bind]
  generalize r.apply p = out at h hfg
  generalize s.apply q = out' at h
  cases h with
  | ok a h => exact hfg a _ _ rfl h
  | halted halt h hp => exact .halted halt h hp
  | parted h =>
    obtain ⟨_ | b, q'⟩ := out'
    · exact .parted h
    · exact .parted (C.parted_ahead h (hg b q'))

theorem Outcome.map (h : C.Outcome φ (r.apply p) (s.apply q)) {f : α → γ} {g : β → δ}
    (hfg : ∀ a, g (φ a) = ψ (f a)) : C.Outcome ψ ((f <$> r).apply p) ((g <$> s).apply q) := by
  rw [← bind_pure_comp, ← bind_pure_comp]
  refine h.bind (fun b => (orderly_pure (k := 0) _).ahead) fun a p' q' _ h' => ?_
  simp only [apply_pure, hfg]
  exact .ok (f a) h'

/-- Levels that are open in step are closed in step. -/
theorem Outcome.close {x : Except SyntaxError α} {y : Except SyntaxError β}
    (h : C.Outcome φ (x, p) (y, q)) (d : Parser → Nat)
    (hd : ∀ {p q : Parser}, q.depth = p.depth → d q = d p) :
    C.Outcome φ (x, { p with depth := d p }) (y, { q with depth := d q }) := by
  cases h with
  | ok a h =>
    rw [hd (C.depth h)]
    exact .ok a (C.set_depth _ h)
  | halted halt h hp =>
    rw [hd (C.depth h), ← halt.error_set_depth p (d p), ← halt.error_set_depth q (d p)]
    exact .halted halt (C.set_depth _ h) ((halt.meets_set_depth p (d p)).mpr hp)
  | parted h =>
    have hahead : q.Ahead { q with depth := d q } := List.suffix_rfl
    exact .parted (C.parted_ahead (C.parted_depth (d p) h) hahead)

theorem couples_accept (C : Coupling) (k : Kind) : C.Couples id (accept k) (accept k) := by
  intro p q h
  rw [apply_accept, apply_accept, C.kind h]
  split
  · exact .ok true (C.advance h)
  · exact .ok false h

theorem deeper (h : C.Pair p q) (hd : p.depth < p.limit) : q.depth < q.limit := by
  obtain hiff | ⟨hp, -⟩ := C.deepen h
  · exact hiff.mp hd
  · exact absurd hd hp

/-- The first run is at its limit; the second may go on. -/
theorem Outcome.of_limit (h : C.Pair p q) (hd : ¬p.depth < p.limit)
    {out : Except SyntaxError β × Parser} (hahead : q.Ahead out.2)
    (hout : ¬q.depth < q.limit → out = (.error (Halt.tooDeep.error q), q)) :
    C.Outcome φ (.error (Halt.tooDeep.error p), p) out := by
  obtain hiff | ⟨-, hparted⟩ := C.deepen h
  · rw [hout fun hq => hd (hiff.mpr hq)]
    exact .halted .tooDeep h trivial
  · exact .parted (C.parted_ahead hparted hahead)

theorem Outcome.halts (h : C.Pair p q) (halt : Halt) (hp : halt.Meets p) {e e' : SyntaxError}
    (he : e = halt.error p) (he' : e' = halt.error q) :
    C.Outcome φ (.error e, p) (.error e', q) := by
  rw [he, he']
  exact .halted halt h hp

theorem inside (h : C.Pair p q) {ts us : List Token}
    (hts : C.Pair { p with rest := ts } { q with rest := us }) :
    C.Pair (p.inside ts) (q.inside us) := by
  have hdepth : q.inside us = { q with rest := us, depth := p.depth + 1 } := by
    rw [Parser.inside, C.depth h]
  rw [hdepth]
  exact C.set_depth (p.depth + 1) hts

end Steps

section Nesting

variable {r : Rule α} {s : Rule β}

theorem Couples.nested (h : C.Couples φ r s) (hs : s.Onward) :
    C.Couples φ (nested r) (nested s) := by
  intro p q hpq
  by_cases hd : p.depth < p.limit
  · rw [apply_nested, apply_nested, if_pos hd, if_pos (C.deeper hpq hd)]
    exact (h _ _ (C.inside hpq hpq)).close (·.depth - 1) fun hdepth => by rw [hdepth]
  · rw [apply_nested, if_neg hd]
    refine .of_limit hpq hd (hs.nested q).ahead fun hq => ?_
    rw [apply_nested, if_neg hq]
    rfl

end Nesting

section Expressions

variable {ω : Type} {operator? : Kind → Option ω} {build : ω → Expr → Expr → Expr}
variable {r s : Rule Expr}

theorem rename_build (h : Operators operator? build) (f : String → String) (op : ω)
    (left right : Expr) :
    build op (left.rename f) (right.rename f) = (build op left right).rename f := by
  cases h <;> rfl

theorem Couples.chain (hop : Operators operator? build) (h : C.Couples (Expr.rename C.name) r s)
    (hs : s.Skims) (n : Nat) (left : Expr) :
    C.Couples (Expr.rename C.name) (chain operator? build r n left)
      (chain operator? build s n (left.rename C.name)) := by
  -- Induction on the bound: every operator is met by both runs.
  induction n generalizing left with
  | zero => exact fun p q hpq => .ok left hpq
  | succ n ih =>
    intro p q hpq
    cases hk : operator? p.peek.kind with
    | none =>
      rw [chain_of_none hk, chain_of_none (by rwa [C.kind hpq])]
      exact .ok left hpq
    | some op =>
      have hmark := hop.no_mark p.peek.kind (by rw [hk]; rfl)
      simp only [List.mem_cons, not_or] at hmark
      have hkq : operator? q.peek.kind = some op := by rwa [C.kind hpq]
      have hneq : q.peek.kind ≠ .endOfInput := by rw [C.kind hpq]; exact hmark.1
      obtain ⟨ts, hts⟩ := Parser.exists_rest_of_peek rfl hmark.1
      obtain ⟨us, hus⟩ := Parser.exists_rest_of_peek rfl hneq
      have hnext := C.advance hpq
      rw [Parser.advance_of_rest hts hmark.1, Parser.advance_of_rest hus hneq] at hnext
      rw [chain_of_some hk hmark.1 hts]
      by_cases hd : p.depth < p.limit
      · rw [chain_of_some hkq hneq hus, if_pos hd, if_pos (C.deeper hpq hd)]
        refine (h _ _ (C.inside hpq hnext)).bind (fun b => hop.chain_ahead hs n _)
          fun right p' q' _ h' => ?_
        rw [rename_build hop]
        exact ih _ p' q' h'
      · rw [if_neg hd]
        refine .of_limit hpq hd (hop.chain_ahead hs (n + 1) _ q) fun hq => ?_
        rw [chain_of_some hkq hneq hus, if_neg hq]
        rfl

theorem Couples.tier (hop : Operators operator? build) (h : C.Couples (Expr.rename C.name) r s)
    (hs : s.Skims) (bound : Nat) :
    C.Couples (Expr.rename C.name) (tier bound operator? build r)
      (tier bound operator? build s) := by
  intro p q hpq
  have hchain : C.Outcome (Expr.rename C.name)
      ((r >>= Rule.chain operator? build r bound).apply p)
      ((s >>= Rule.chain operator? build s bound).apply q) :=
    (h p q hpq).bind (fun b => hop.chain_ahead hs bound b)
      fun left p' q' _ h' => Couples.chain hop h hs bound left p' q' h'
  rw [Rule.tier, Rule.tier, apply_bind_of_ok (apply_get p), apply_bind_of_ok (apply_get q),
    apply_thenAlways, apply_thenAlways, C.depth hpq]
  exact hchain.close (fun _ => p.depth) fun _ => rfl

theorem Couples.tiers (h : C.Couples (Expr.rename C.name) r r) (hs : r.Skims) (bound : Nat) :
    C.Couples (Expr.rename C.name) (tiers bound r) (tiers bound r) := by
  have hboth : (Rule.tiers bound r).Skims ∧
      C.Couples (Expr.rename C.name) (Rule.tiers bound r) (Rule.tiers bound r) := by
    refine tiers_induction (P := fun r => r.Skims ∧ C.Couples (Expr.rename C.name) r r) bound ?_
      ⟨hs, h⟩
    intro ω operator? build hop r ⟨hs, h⟩
    exact ⟨hs.tier hop.no_mark, h.tier hop hs bound⟩
  exact hboth.2

theorem Couples.primary (h : C.Couples (Expr.rename C.name) r s) :
    C.Couples (Expr.rename C.name) (primary r) (primary s) := by
  intro p q hpq
  by_cases hk : p.peek.kind ∈ [Kind.identifier, .trueWord, .falseWord, .integer, .openParen]
  · obtain ⟨t, ts, ht⟩ | ⟨t, ts, ht⟩ | ⟨t, ts, ht⟩ | ⟨t, ts, ht⟩ | ⟨t, ts, ht⟩ :=
      exists_primary_token hk <;>
      obtain ⟨u, us, hu, hlexeme, hnext⟩ := C.exists_token hpq ht (by decide)
    · rw [Token.lexeme_rename_of_identifier t.2] at hlexeme
      have hlookup : q.symbols.lookup u.1.lexeme = p.symbols.lookup t.1.lexeme := by
        rw [C.symbols hpq, hlexeme, SymbolTable.lookup_rename C.name_injective]
      rw [primary_of_name ht, primary_of_name hu, hlookup]
      cases hi : p.symbols.lookup t.1.lexeme with
      | none =>
        refine .halts hpq .undeclared ?_ ?_ ?_
        · rw [Halt.Meets, Parser.peek_of_rest ht, SymbolTable.contains, hi]
          exact ⟨t.2, rfl⟩
        · rw [Halt.error, Parser.peek_of_rest ht]
        · rw [Halt.error, Parser.peek_of_rest hu]
      | some i =>
        rw [hlexeme]
        exact .ok (Expr.reference t.1.lexeme i) hnext
    · rw [primary_of_yes ht, primary_of_yes hu]
      exact .ok (Expr.boolean true) hnext
    · rw [primary_of_no ht, primary_of_no hu]
      exact .ok (Expr.boolean false) hnext
    · rw [Token.rename_of_ne (by rw [t.2]; decide)] at hlexeme
      rw [primary_of_numeral ht, primary_of_numeral hu, hlexeme]
      cases hv : Decimal.int64? t.1.lexeme with
      | none =>
        refine .halts hpq .outOfRange ?_ ?_ ?_
        · rw [Halt.Meets, Parser.peek_of_rest ht]
          exact ⟨t.2, hv⟩
        · rw [Halt.error, Parser.peek_of_rest ht]
        · rw [Halt.error, Parser.peek_of_rest hu, hlexeme]
      | some v => exact .ok (Expr.integer v) hnext
    · rw [primary_of_group ht, primary_of_group hu]
      have hinner := h _ _ hnext
      generalize r.apply { p with rest := ts } = out at hinner
      generalize s.apply { q with rest := us } = out' at hinner
      cases hinner with
      | @ok p' q' e h' =>
        by_cases hclose : p'.peek.kind = .closeParen
        · have hclose' : q'.peek.kind = .closeParen := by rwa [C.kind h']
          simp only [hclose, hclose', if_true]
          exact .ok e (C.advance h')
        · have hclose' : q'.peek.kind ≠ .closeParen := by rwa [C.kind h']
          simp only [hclose, hclose', if_false]
          exact .halts h' (.unclosed .closeParen) (.inl rfl) rfl rfl
      | halted halt h' hp => exact .halted halt h' hp
      | parted h' =>
        obtain ⟨_ | e, q'⟩ := out'
        · exact .parted h'
        · simp only
          split
          · exact .parted (C.parted_ahead h' q'.advance_onward.ahead)
          · exact .parted h'
  · rw [primary_of_other hk, primary_of_other (by rwa [C.kind hpq])]
    exact .halted .unexpected hpq trivial

theorem couples_unary (C : Coupling) (bound : Nat) :
    C.Couples (Expr.rename C.name) (unary bound) (unary bound) := by
  -- Induction on the bound: a sign is a token that both runs step past.
  induction bound with
  | zero => exact fun p q hpq => .halted .unexpected hpq trivial
  | succ n ih =>
    intro p q hpq
    by_cases hk : p.peek.kind ∈ [Kind.minus, .bang, .plus]
    · obtain ⟨op, t, ts, ht⟩ | ⟨t, ts, ht⟩ := exists_sign_token hk
      · obtain ⟨u, us, hu, -, hnext⟩ := C.exists_token hpq ht (signKind_ne_endOfInput op)
        have hoperand := ih.nested (unary_skims n).onward _ _ hnext
        rw [unary_of_sign ht, unary_of_sign hu]
        generalize (Rule.nested (unary n)).apply { p with rest := ts } = out at hoperand
        generalize (Rule.nested (unary n)).apply { q with rest := us } = out' at hoperand
        cases hoperand with
        | ok e h' => exact .ok (Expr.unary op e) h'
        | halted halt h' hp => exact .halted halt h' hp
        | parted h' => obtain ⟨_ | e, q'⟩ := out' <;> exact .parted h'
      · obtain ⟨u, us, hu, -, hnext⟩ := C.exists_token hpq ht (by decide)
        rw [unary_of_plus ht, unary_of_plus hu]
        exact ih.nested (unary_skims n).onward _ _ hnext
    · rw [unary_of_other hk, unary_of_other (by rwa [C.kind hpq])]
      exact ((ih.tiers (unary_skims n) n).nested
        (unary_skims n).tiers.onward).primary p q hpq

theorem couples_expression (C : Coupling) (bound : Nat) :
    C.Couples (Expr.rename C.name) (expression bound) (expression bound) :=
  ((C.couples_unary bound).tiers (unary_skims bound) bound).nested
    (unary_skims bound).tiers.onward

end Expressions

end Coupling

end TinyCompiler
