import TinyCompiler.Proofs.Resumption

/-! Where the rules for expressions get stuck. When such a rule fails over the form of its tokens,
what it has read can be completed to a phrase that fits; but once the token is there at which it
stands, it fails, whatever else may follow. -/
namespace TinyCompiler

open Grammar

/-- The errors over the form of the tokens: no rule goes on, or a delimiter is not closed. -/
def SyntaxError.Structural : SyntaxError → Prop
  | unexpected _ | unclosed _ _ => True
  | undeclared _ _ | outOfRange _ _ | tooDeep _ _ => False

/-- Reading is stuck in these tokens, with some of them read: these can go on to a list that fits,
and fail with every list that begins with the next token. -/
structure Stuck (Fits Fails : List Token → Prop) (tokens stop read : List Token) : Prop where
  text : tokens = read ++ stop
  completes : ∃ more, firstKind more .endOfInput ∈ neutral ∧ Fits (read ++ more)
  persists : ∀ t rest more, stop = t :: rest → Fails (read ++ t :: more)

namespace Stuck

variable {F F' R R' : List Token → Prop} {tokens stop read : List Token}

/-- Stuck inside a part of what is being read, with these tokens before the part, and these ones
enough to go on behind it. -/
theorem around (h : Stuck F' R' tokens stop read) (before after : List Token)
    (hafter : firstKind after .endOfInput ∈ neutral)
    (hF : ∀ ts, Resumes tokens (ts ++ after) → F' ts → F (before ++ (ts ++ after)))
    (hR : ∀ ts, firstKind ts .endOfInput = firstKind tokens .endOfInput → R' ts →
      R (before ++ ts)) : Stuck F R (before ++ tokens) stop (before ++ read) := by
  obtain ⟨more, hmore, hfits⟩ := h.completes
  have hneutral : firstKind (more ++ after) .endOfInput ∈ neutral := by
    rw [firstKind_append]
    exact firstKind_mem_neutral more hafter hmore
  have hresumes : Resumes tokens (read ++ more ++ after) := by
    rw [h.text, List.append_assoc]
    exact Resumes.append_left (.inr hneutral) read
  refine ⟨by rw [h.text, List.append_assoc], ⟨more ++ after, hneutral, ?_⟩, ?_⟩
  · simpa only [List.append_assoc] using hF _ hresumes hfits
  · rintro t rest more rfl
    rw [List.append_assoc]
    refine hR _ ?_ (h.persists t rest more rfl)
    rw [h.text, firstKind_append, firstKind_append]
    rfl

theorem behind (h : Stuck F' R' tokens stop read) (before : List Token)
    (hF : ∀ ts, Resumes tokens ts → F' ts → F (before ++ ts))
    (hR : ∀ ts, firstKind ts .endOfInput = firstKind tokens .endOfInput → R' ts →
      R (before ++ ts)) : Stuck F R (before ++ tokens) stop (before ++ read) := by
  refine h.around before [] (by decide) (fun ts hts h => ?_) hR
  rw [List.append_nil] at hts ⊢
  exact hF ts hts h

theorem restrict {G : List Token → Prop} (h : Stuck F R tokens stop read)
    (hG : ∀ us, Resumes stop us → G (read ++ us)) :
    Stuck (fun ts => F ts ∧ G ts) (fun ts => R ts ∧ G ts) tokens stop read := by
  obtain ⟨more, hmore, hfits⟩ := h.completes
  refine ⟨h.text, ⟨more, hmore, hfits, hG more (.inr hmore)⟩, ?_⟩
  rintro t rest more rfl
  exact ⟨h.persists t rest more rfl, hG (t :: more) (.inl rfl)⟩

theorem imp (h : Stuck F' R' tokens stop read) (hF : ∀ ts, F' ts → F ts)
    (hR : ∀ ts, R' ts → R ts) : Stuck F R tokens stop read :=
  h.behind [] (fun ts _ h => hF ts h) fun ts _ h => hR ts h

end Stuck

namespace Rule

variable {α β : Type} {p q : Parser} {e : SyntaxError}

def FailsOn (bound : Nat) (r : Rule α) (p : Parser) (e : SyntaxError) (ts : List Token) : Prop :=
  ts.length < bound → ∀ line, (r.apply (p.onto ts line)).1 = .error e

theorem fst_bind_of_error {r : Rule α} {f : α → Rule β} (h : (r.apply p).1 = .error e) :
    ((r >>= f).apply p).1 = .error e := by
  rw [apply_bind]
  generalize r.apply p = out at h
  obtain ⟨_, _⟩ := out
  cases h
  rfl

theorem fst_map_of_error {r : Rule α} {f : α → β} (h : (r.apply p).1 = .error e) :
    ((f <$> r).apply p).1 = .error e := by
  rw [apply_map, h]
  rfl

/-- One rule under two bounds. Both read the phrases of a level. When the first one fails over the
form of its tokens, it is stuck, and the second one fails in the same way. -/
structure Sticks (l : Level) (bound bound' : Nat) (r r' : Rule Expr) : Prop where
  reads : Reads l bound r
  reads' : Reads l bound' r'
  stuck : ∀ p e q, p.rest.length < bound → p.depth ≤ p.limit → e.Structural →
    r.apply p = (.error e, q) → ∃ read,
      Stuck (fun ts => ∃ P : Phrase l, P.Fits { p with rest := ts } []) (FailsOn bound' r' p e)
        p.rest q.rest read ∧ (read = [] → p.peek.kind ≠ .identifier)

structure SticksInside (l : Level) (bound bound' : Nat) (r r' : Rule Expr) : Prop where
  reads : ReadsInside l bound r
  reads' : ReadsInside l bound' r'
  stuck : ∀ p e q, p.rest.length < bound → e.Structural → r.apply p = (.error e, q) → ∃ read,
    Stuck (fun ts => ∃ P : Phrase l, P.Fits (p.inside ts) []) (FailsOn bound' r' p e)
      p.rest q.rest read ∧ (read = [] → p.peek.kind ≠ .identifier)

section

variable {l : Level} {t : Tier} {bound bound' m n : Nat} {r r' operand operand' : Rule Expr}
variable {left : Expr} {ts : List Token}

theorem Sticks.nested (h : Sticks l bound bound' r r') :
    SticksInside l bound bound' (nested r) (nested r') := by
  refine ⟨h.reads.nested, h.reads'.nested, fun p e q hp hs hr => ?_⟩
  rw [apply_nested] at hr
  by_cases hd : p.depth < p.limit
  · rw [if_pos hd] at hr
    rcases hout : r.apply (p.inside p.rest) with ⟨result, p'⟩
    rw [show ({ p with depth := p.depth + 1 } : Parser) = p.inside p.rest from rfl, hout] at hr
    cases hr
    obtain ⟨read, hstuck, hfresh⟩ := h.stuck (p.inside p.rest) e p' hp hd hs hout
    refine ⟨read, hstuck.imp (fun _ h => h) fun ts hfails hlen line => ?_, hfresh⟩
    rw [apply_nested, if_pos (show (p.onto ts line).depth < (p.onto ts line).limit from hd)]
    exact hfails hlen line
  · rw [if_neg hd] at hr
    cases hr
    exact hs.elim

section Chain

variable {ω : Type} {operator? : Kind → Option ω} {build : ω → Expr → Expr → Expr}

theorem chain_onto {op : ω} (hk : operator? p.peek.kind = some op)
    (hne : p.peek.kind ≠ .endOfInput) (hd : p.depth < p.limit) (ts us : List Token) (line : Nat) :
    (chain operator? build operand (n + 1) left).apply (p.onto (p.peek :: us) line) =
      (operand >>= fun right => chain operator? build operand n (build op left right)).apply
        ((p.inside ts).onto us line) := by
  rw [chain_of_some (p := p.onto (p.peek :: us) line) hk hne rfl]
  exact if_pos hd

theorem chain_sticks (hop : ∀ k, t.node? k = (operator? k).map build)
    (ho : Sticks t.operand bound bound' operand operand') (hn : n ≤ bound) (hm : m ≤ bound')
    (hp : p.rest.length < n) (hd : p.depth ≤ p.limit) (hs : e.Structural)
    (hr : (chain operator? build operand n left).apply p = (.error e, q)) : ∃ read,
      Stuck (fun ts => ∃ L : Links t, L.Fits { p with rest := ts } [])
        (FailsOn m (chain operator? build operand' m left) p e) p.rest q.rest read := by
  -- Induction on the bound of the chain. It is stuck in the right operand of its first operator, or
  -- in the links behind that one.
  induction n generalizing p left m with
  | zero => omega
  | succ n ih =>
    cases hk : operator? p.peek.kind with
    | none =>
      rw [chain_of_none hk] at hr
      cases hr
    | some op =>
      have hnode : t.node? p.peek.kind = some (build op) := by rw [hop, hk]; rfl
      have hne := ne_endOfInput_of_node? hnode
      obtain ⟨ts, hts⟩ := Parser.exists_rest_of_peek rfl hne
      have hlen : ts.length < n := Parser.length_lt_of_token hts hp
      rw [chain_of_some hk hne hts] at hr
      have hlt : p.depth < p.limit := by
        by_contra hd
        rw [if_neg hd] at hr
        cases hr
        exact hs
      rw [if_pos hlt] at hr
      rw [hts]
      obtain hright | ⟨right, p', hright, hrest⟩ := bind_eq_error.mp hr
      · obtain ⟨read, hstuck, -⟩ := ho.stuck (p.inside ts) e q (by simp; omega) hlt hs hright
        refine ⟨_, hstuck.behind [p.peek] ?_ ?_⟩
        · rintro us - ⟨R, hR⟩
          exact ⟨.cons p.peek (build op) hnode R .nil, Links.fits_cons.mpr
            ⟨us, rfl, hR, Links.fits_nil.mpr ⟨rfl, node?_endOfInput t⟩⟩⟩
        · intro us _ hfails hus line
          rw [List.singleton_append, List.length_cons] at hus
          obtain ⟨k, rfl⟩ : ∃ k, m = k + 1 := ⟨m - 1, by omega⟩
          rw [List.singleton_append, chain_onto hk hne hlt ts]
          exact fst_bind_of_error (hfails (by omega) line)
      · obtain ⟨R, rest, hR, rfl, rfl⟩ :=
          (ho.reads (p.inside ts) _ _ (by simp; omega) hlt).mp hright
        have hshort : rest.length < n := Nat.lt_trans hR.length_lt hlen
        obtain ⟨read, hstuck⟩ := ih (p := p.inside rest) (m := m - 1) (by omega) (by omega)
          hshort hlt hrest
        have htext : ts = R.tokens ++ rest := hR.text
        subst htext
        refine ⟨_, hstuck.behind (p.peek :: R.tokens) ?_ ?_⟩
        · rintro us hus ⟨L, hL⟩
          obtain rfl : us = L.tokens ++ [] := hL.text
          refine ⟨.cons p.peek (build op) hnode R L, Links.fits_cons.mpr ⟨_, rfl, ?_, hL⟩⟩
          exact hR.resume hus p.lastLine
        · intro us hus hfails hlen' line
          simp only [List.cons_append, List.length_cons, List.length_append] at hlen'
          have hread := (ho.reads' ((p.inside (R.tokens ++ rest)).onto (R.tokens ++ us) line) _ _
            (by simp; omega) hlt).mpr ⟨R, us, hR.resume (.inl hus) line, rfl, rfl⟩
          obtain ⟨k, rfl⟩ : ∃ k, m = k + 1 := ⟨m - 1, by omega⟩
          rw [List.cons_append, chain_onto hk hne hlt (R.tokens ++ rest), apply_bind_of_ok hread]
          exact hfails (by simp only [Nat.add_sub_cancel]; omega) line

theorem fst_tier (p : Parser) : ((tier bound operator? build operand).apply p).1 =
    ((operand >>= chain operator? build operand bound).apply p).1 := by
  rw [Rule.tier, apply_bind_of_ok (apply_get p), apply_thenAlways]

theorem Sticks.tier (hop : ∀ k, t.node? k = (operator? k).map build)
    (ho : Sticks t.operand bound bound' operand operand') :
    Sticks (.tier t) bound bound' (tier bound operator? build operand)
      (tier bound' operator? build operand') := by
  refine ⟨ho.reads.tier hop, ho.reads'.tier hop, fun p e q hp hd hs hr => ?_⟩
  rw [Rule.tier, apply_bind_of_ok (apply_get p), apply_thenAlways] at hr
  rcases hout : (operand >>= chain operator? build operand bound).apply p with ⟨result, p'⟩
  rw [hout] at hr
  cases hr
  obtain hfirst | ⟨left, p₁, hfirst, hchain⟩ := bind_eq_error.mp hout
  · obtain ⟨read, hstuck, hfresh⟩ := ho.stuck p e p' hp hd hs hfirst
    refine ⟨read, hstuck.imp ?_ ?_, hfresh⟩
    · rintro ts ⟨P, hP⟩
      exact ⟨.chain P .nil, Phrase.fits_chain.mpr
        ⟨hP, Links.fits_nil.mpr ⟨rfl, node?_endOfInput t⟩⟩⟩
    · intro ts hfails hlen line
      rw [fst_tier]
      exact fst_bind_of_error (hfails hlen line)
  · obtain ⟨P, rest, hP, rfl, rfl⟩ := (ho.reads _ _ _ hp hd).mp hfirst
    have hshort : rest.length < bound := Nat.lt_trans hP.length_lt hp
    obtain ⟨read, hstuck⟩ := chain_sticks (p := { p with rest := rest }) hop ho
      (Nat.le_refl _) (Nat.le_refl _) hshort hd hs hchain
    rw [hP.text]
    refine ⟨_, hstuck.behind P.tokens ?_ ?_, ?_⟩
    · rintro ts hts ⟨L, hL⟩
      obtain rfl : ts = L.tokens ++ [] := hL.text
      exact ⟨.chain P L, Phrase.fits_chain.mpr ⟨hP.resume hts p.lastLine, hL⟩⟩
    · intro ts hts hfails hlen line
      have hread := (ho.reads' (p.onto (P.tokens ++ ts) line) _ _ hlen hd).mpr
        ⟨P, ts, hP.resume (.inl hts) line, rfl, rfl⟩
      rw [fst_tier, apply_bind_of_ok hread]
      rw [List.length_append] at hlen
      exact hfails (by omega) line
    · obtain ⟨t, ts, ht, -⟩ := P.exists_starter
      simp [ht]

end Chain

theorem tiers_stick (h : Sticks .unary bound bound' operand operand') :
    Sticks (.tier .disjunction) bound bound' (tiers bound operand) (tiers bound' operand') := by
  have hmul : Sticks (.tier .multiplicative) bound bound'
      (tier bound BinaryOp.multiplicative? .binary _) _ := h.tier (by rintro (_ | _) <;> rfl)
  have hadd : Sticks (.tier .additive) bound bound'
      (tier bound BinaryOp.additive? .binary _) _ := hmul.tier (by rintro (_ | _) <;> rfl)
  have hcmp : Sticks (.tier .comparison) bound bound'
      (tier bound Comparison.ofKind? .comparison _) _ := hadd.tier (by rintro (_ | _) <;> rfl)
  have hand : Sticks (.tier .conjunction) bound bound'
      (tier bound (Connective.tier? .and) .connective _) _ := hcmp.tier (by rintro (_ | _) <;> rfl)
  exact hand.tier (by rintro (_ | _) <;> rfl)

section Primary

variable {expression expression' : Rule Expr}

theorem fst_primary_of_error {t : TokenOf .openParen} (h : p.rest = t.1 :: ts)
    (he : (expression.apply { p with rest := ts }).1 = .error e) :
    ((primary expression).apply p).1 = .error e := by
  rw [primary_of_group h]
  generalize expression.apply { p with rest := ts } = out at he
  obtain ⟨_, _⟩ := out
  cases he
  rfl

theorem primary_of_unclosed {t : TokenOf .openParen} {value : Expr} (h : p.rest = t.1 :: ts)
    (he : expression.apply { p with rest := ts } = (.ok value, q))
    (hq : q.peek.kind ≠ .closeParen) :
    (primary expression).apply p = (.error (.unclosed .closeParen q.peek), q) := by
  rw [primary_of_group h, he]
  exact if_neg hq

theorem group_sticks
    (he : SticksInside (.tier .disjunction) bound bound' expression expression')
    {t : TokenOf .openParen} (hts : p.rest = t.1 :: ts) (hlen : ts.length < bound)
    (hs : e.Structural) (hr : (primary expression).apply p = (.error e, q)) : ∃ read,
      Stuck (fun us => ∃ P : Phrase .primary, P.Fits { p with rest := us } [])
        (FailsOn (bound' + 1) (primary expression') p e) p.rest q.rest (t.1 :: read) := by
  let closing : TokenOf .closeParen := ⟨⟨.closeParen, ")", 1⟩, rfl⟩
  rw [primary_of_group hts] at hr
  rcases hout : expression.apply { p with rest := ts } with ⟨error | value, p'⟩
  · rw [hout] at hr
    cases hr
    obtain ⟨read, hstuck, -⟩ := he.stuck { p with rest := ts } e q hlen hs hout
    rw [hts]
    refine ⟨read, hstuck.around [t.1] [closing.1] (by decide) ?_ ?_⟩
    · rintro us hus ⟨P, hP⟩
      obtain rfl : us = P.tokens ++ [] := hP.text
      refine ⟨.group t P closing, Phrase.fits_group.mpr ⟨_, rfl, ?_⟩⟩
      rw [List.append_nil]
      exact hP.resume (.inr (by decide)) p.lastLine
    · intro us _ hfails hus line
      rw [List.singleton_append, List.length_cons] at hus
      exact fst_primary_of_error (p := p.onto (t.1 :: us) line) rfl (hfails (by omega) line)
  · obtain ⟨P, rest, hP, rfl, rfl⟩ := (he.reads { p with rest := ts } _ _ hlen).mp hout
    have htext : ts = P.tokens ++ rest := hP.text
    subst htext
    rw [hout] at hr
    dsimp only at hr
    split at hr
    · cases hr
    · rename_i hclose
      cases hr
      refine ⟨P.tokens, hts, ⟨[closing.1], by decide, ?_⟩, ?_⟩
      · exact ⟨.group t P closing, Phrase.fits_group.mpr
          ⟨_, rfl, hP.resume (.inr (by decide)) p.lastLine⟩⟩
      · rintro u rest' more hrest hus line
        obtain rfl : rest = u :: rest' := hrest
        have hresumes : Resumes (u :: rest') (u :: more) := .inl rfl
        rw [List.cons_append] at hus ⊢
        have hread := (he.reads' (p.onto (P.tokens ++ u :: more) line) _ _
          (Nat.lt_of_succ_lt_succ hus)).mpr ⟨P, u :: more, hP.resume hresumes line, rfl, rfl⟩
        rw [primary_of_unclosed (p := p.onto (t.1 :: (P.tokens ++ u :: more)) line) rfl hread
          hclose]
        rfl

theorem SticksInside.primary
    (he : SticksInside (.tier .disjunction) bound bound' expression expression') :
    Sticks .primary (bound + 1) (bound' + 1) (primary expression) (primary expression') := by
  refine ⟨he.reads.primary, he.reads'.primary, fun p e q hp hd hs hr => ?_⟩
  by_cases hk : p.peek.kind ∈ [Kind.identifier, .trueWord, .falseWord, .integer, .openParen]
  · obtain ⟨t, ts, ht⟩ | ⟨t, ts, ht⟩ | ⟨t, ts, ht⟩ | ⟨t, ts, ht⟩ | ⟨t, ts, ht⟩ :=
      exists_primary_token hk
    · rw [primary_of_name ht] at hr
      cases hl : p.symbols.lookup t.1.lexeme with
      | none =>
        rw [hl] at hr
        cases hr
        exact hs.elim
      | some i =>
        rw [hl] at hr
        cases hr
    · rw [primary_of_yes ht] at hr
      cases hr
    · rw [primary_of_no ht] at hr
      cases hr
    · rw [primary_of_numeral ht] at hr
      cases hv : Decimal.int64? t.1.lexeme with
      | none =>
        rw [hv] at hr
        cases hr
        exact hs.elim
      | some v =>
        rw [hv] at hr
        cases hr
    · have hlen : ts.length < bound := Parser.length_lt_of_token ht hp
      obtain ⟨read, hstuck⟩ := group_sticks he ht hlen hs hr
      exact ⟨_, hstuck, by simp⟩
  · rw [primary_of_other hk] at hr
    cases hr
    refine ⟨[], ⟨rfl, ⟨lonePrimary.tokens, by decide, _, lonePrimary_fits hd⟩, ?_⟩, ?_⟩
    · intro t rest more hrest hlen line
      rw [Parser.peek_of_rest hrest] at hk ⊢
      rw [List.nil_append, primary_of_other (p := p.onto (t :: more) line) hk]
      rfl
    · intro _ hname
      rw [hname] at hk
      exact hk (by decide)

end Primary

section Unary

theorem fst_unary_of_sign {op : UnaryOp} {t : TokenOf (signKind op)} (h : p.rest = t.1 :: ts)
    (he : ((nested (unary n)).apply { p with rest := ts }).1 = .error e) :
    ((unary (n + 1)).apply p).1 = .error e := by
  rw [unary_of_sign h]
  generalize (nested (unary n)).apply { p with rest := ts } = out at he
  obtain ⟨_, _⟩ := out
  cases he
  rfl

theorem signed_sticks
    (h : SticksInside .unary n (bound' - 1) (nested (unary n)) (nested (unary (bound' - 1))))
    {t : Token} {signed : Phrase .unary → Phrase .unary} (hts : p.rest = t :: ts)
    (hlen : ts.length < n) (hs : e.Structural)
    (hr : (nested (unary n)).apply { p with rest := ts } = (.error e, q))
    (hfits : ∀ us P, P.Fits (p.inside us) [] → (signed P).Fits { p with rest := t :: us } [])
    (hfails : ∀ m us line, ((nested (unary m)).apply (p.onto us line)).1 = .error e →
      ((unary (m + 1)).apply (p.onto (t :: us) line)).1 = .error e) :
    ∃ read, Stuck (fun us => ∃ P : Phrase .unary, P.Fits { p with rest := us } [])
      (FailsOn bound' (unary bound') p e) p.rest q.rest read ∧
        (read = [] → p.peek.kind ≠ .identifier) := by
  obtain ⟨read, hstuck, -⟩ := h.stuck { p with rest := ts } e q hlen hs hr
  rw [hts]
  refine ⟨_, hstuck.behind [t] ?_ ?_, by simp⟩
  · rintro us - ⟨P, hP⟩
    exact ⟨signed P, hfits us P hP⟩
  · intro us _ hinner hus line
    rw [List.singleton_append, List.length_cons] at hus
    obtain ⟨m, rfl⟩ : ∃ m, bound' = m + 1 := ⟨bound' - 1, by omega⟩
    exact hfails m us line (hinner (Nat.lt_of_succ_lt_succ hus) line)

theorem unary_sticks (bound bound' : Nat) :
    Sticks .unary bound bound' (unary bound) (unary bound') := by
  -- Induction on the bound: a sign or a parenthesis is stepped past before the rule recurs.
  induction bound generalizing bound' with
  | zero => exact ⟨unary_reads 0, unary_reads bound', fun p e q hp => absurd hp (Nat.not_lt_zero _)⟩
  | succ n ih =>
    refine ⟨unary_reads (n + 1), unary_reads bound', fun p e q hp hd hs hr => ?_⟩
    by_cases hk : p.peek.kind ∈ [Kind.minus, .bang, .plus]
    · obtain ⟨op, t, ts, hts⟩ | ⟨t, ts, hts⟩ := exists_sign_token hk
      · have hlen : ts.length < n := Parser.length_lt_of_token hts hp
        have hinner : (nested (unary n)).apply { p with rest := ts } = (.error e, q) := by
          rw [unary_of_sign hts] at hr
          split at hr
          · cases hr
          · rename_i h
            rw [h, hr]
        exact signed_sticks (ih (bound' - 1)).nested hts hlen hs hinner
          (fun us P hP => Phrase.fits_sign.mpr ⟨us, rfl, hP⟩)
          fun m us line h => fst_unary_of_sign (p := p.onto (t.1 :: us) line) rfl h
      · have hlen : ts.length < n := Parser.length_lt_of_token hts hp
        rw [unary_of_plus hts] at hr
        refine signed_sticks (ih (bound' - 1)).nested hts hlen hs hr
          (fun us P hP => Phrase.fits_plus.mpr ⟨us, rfl, hP⟩) fun m us line h => ?_
        rw [unary_of_plus (p := p.onto (t.1 :: us) line) rfl]
        exact h
    · rw [unary_of_other hk] at hr
      have hprimary := (tiers_stick (ih (bound' - 1))).nested.primary
      obtain ⟨read, hstuck, hfresh⟩ := hprimary.stuck p e q hp hd hs hr
      refine ⟨read, hstuck.behind [] ?_ ?_, hfresh⟩
      · rintro us - ⟨P, hP⟩
        exact ⟨.bare P, Phrase.fits_bare.mpr hP⟩
      · intro us hus hfails hlen line
        obtain ⟨m, rfl⟩ : ∃ m, bound' = m + 1 := ⟨bound' - 1, by omega⟩
        rw [← Parser.peek_kind] at hus
        have hother : (p.onto us line).peek.kind ∉ [Kind.minus, .bang, .plus] := by
          rwa [Parser.peek_kind, Parser.onto_rest, hus]
        rw [List.nil_append, unary_of_other hother]
        exact hfails hlen line

end Unary

theorem expression_sticks (bound bound' : Nat) :
    SticksInside (.tier .disjunction) bound bound' (expression bound) (expression bound') :=
  (tiers_stick (unary_sticks bound bound')).nested

end

end Rule

end TinyCompiler
