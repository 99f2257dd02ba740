import TinyCompiler.Proofs.Fitting

/-! What the rules for expressions read. A rule succeeds on a parser exactly if a phrase fits its
tokens; it gives the tree of the phrase and leaves everything but the tokens alone. -/
namespace TinyCompiler

open Grammar

namespace Rule

/-- The rule reads the phrases of a level, if fewer tokens are left than the bound. -/
def Reads (l : Level) (bound : Nat) (r : Rule Expr) : Prop :=
  ∀ p e q, p.rest.length < bound → p.depth ≤ p.limit → (r.apply p = (.ok e, q) ↔
    ∃ (P : Phrase l) (rest : List Token),
      P.Fits p rest ∧ e = P.tree p.binding ∧ q = { p with rest := rest })

def ReadsInside (l : Level) (bound : Nat) (r : Rule Expr) : Prop :=
  ∀ p e q, p.rest.length < bound → (r.apply p = (.ok e, q) ↔
    ∃ (P : Phrase l) (rest : List Token),
      P.Fits (p.inside p.rest) rest ∧ e = P.tree p.binding ∧ q = { p with rest := rest })

section

variable {l : Level} {t : Tier} {bound n : Nat} {r operand : Rule Expr}
variable {p q : Parser} {e left : Expr}

theorem Reads.nested (h : Reads l bound r) : ReadsInside l bound (nested r) := by
  intro p e q hp
  rw [nested_eq_ok]
  constructor
  · rintro ⟨hd, p', hr, rfl⟩
    obtain ⟨P, rest, hP, rfl, rfl⟩ := (h (p.inside p.rest) _ _ hp hd).mp hr
    exact ⟨P, rest, hP, rfl, rfl⟩
  · rintro ⟨P, rest, hP, rfl, rfl⟩
    obtain ⟨n, hmem, hle⟩ := P.exists_need (p.depth + 1)
    have hlimit : n ≤ p.limit := hP.room n hmem
    have hd : p.depth < p.limit := by omega
    exact ⟨hd, _, (h (p.inside p.rest) _ _ hp hd).mpr ⟨P, rest, hP, rfl, rfl⟩, rfl⟩

section Chain

variable {ω : Type} {operator? : Kind → Option ω} {build : ω → Expr → Expr → Expr}

theorem chain_of_none (h : operator? p.peek.kind = none) :
    (chain operator? build operand (n + 1) left).apply p = (.ok left, p) := by
  simp [chain, apply_bind, h]

theorem chain_of_some {op : ω} {ts : List Token} (h : operator? p.peek.kind = some op)
    (hne : p.peek.kind ≠ .endOfInput) (hts : p.rest = p.peek :: ts) :
    (chain operator? build operand (n + 1) left).apply p =
      if p.depth < p.limit then
        (operand >>= fun right => chain operator? build operand n (build op left right)).apply
          (p.inside ts)
      else (.error (.tooDeep p.limit p.peek.line), p) := by
  have hadv : (p.inside p.rest).advance = p.inside ts := Parser.advance_of_rest hts hne
  rw [chain, apply_bind_of_ok (apply_peek p)]
  simp only [h]
  rw [apply_bind, apply_deepen]
  by_cases hd : p.depth < p.limit
  · rw [if_pos hd, if_pos hd]
    show (advance >>= _).apply (p.inside p.rest) = _
    rw [apply_bind_of_ok (apply_advance _), hadv]
  · rw [if_neg hd, if_neg hd]

theorem chain_eq_ok (hop : ∀ k, t.node? k = (operator? k).map build)
    (ho : Reads t.operand bound operand) (hn : n ≤ bound) (hp : p.rest.length < n)
    (hd : p.depth ≤ p.limit) :
    (chain operator? build operand n left).apply p = (.ok e, q) ↔
      ∃ (L : Links t) (rest : List Token), L.Fits p rest ∧ e = L.fold p.binding left ∧
        q = { p with rest := rest, depth := p.depth + L.length } := by
  -- Induction on the bound of the chain, which every operator lowers by one.
  induction n generalizing p left with
  | zero => omega
  | succ n ih =>
    cases hk : operator? p.peek.kind with
    | none =>
      have hstop : t.node? p.peek.kind = none := by rw [hop, hk]; rfl
      rw [chain_of_none hk]
      constructor
      · rintro ⟨⟩
        exact ⟨.nil, q.rest, Links.fits_nil.mpr ⟨rfl, hstop⟩, rfl, rfl⟩
      · rintro ⟨L, rest, hL, rfl, rfl⟩
        obtain rfl := hL.eq_nil hstop
        obtain ⟨rfl, -⟩ := Links.fits_nil.mp hL
        rfl
    | some op =>
      have hnode : t.node? p.peek.kind = some (build op) := by rw [hop, hk]; rfl
      have hne := ne_endOfInput_of_node? hnode
      obtain ⟨ts, hts⟩ := Parser.exists_rest_of_peek rfl hne
      have hlen : ts.length < n := Parser.length_lt_of_token hts hp
      rw [chain_of_some hk hne hts]
      constructor
      · intro hr
        have hlt : p.depth < p.limit := by
          by_contra hd
          rw [if_neg hd] at hr
          cases hr
        rw [if_pos hlt] at hr
        obtain ⟨right, p', hright, hchain⟩ := bind_eq_ok.mp hr
        obtain ⟨R, rest, hR, rfl, rfl⟩ := (ho (p.inside ts) _ _ (by simp; omega) hlt).mp hright
        have hshort : rest.length < n := Nat.lt_trans hR.length_lt hlen
        obtain ⟨L, rest', hL, rfl, rfl⟩ := (ih (p := p.inside rest) (by omega) hshort hlt).mp hchain
        have hLt : rest = L.tokens ++ rest' := hL.text
        subst hLt
        refine ⟨.cons p.peek (build op) hnode R L, rest', Links.fits_cons.mpr ⟨ts, hts, hR, hL⟩,
          rfl, ?_⟩
        simp [Links.length, Nat.add_assoc, Nat.add_comm 1]
      · rintro ⟨L, rest, hL, rfl, rfl⟩
        obtain ⟨right, more, rfl, hR, hmore⟩ := hL.eq_cons hts hnode
        obtain ⟨m, hmem, hle⟩ := right.exists_need (p.depth + 1)
        have hlimit : m ≤ p.limit := hR.room m hmem
        have hlt : p.depth < p.limit := by omega
        have hshort : (more.tokens ++ rest).length < n := Nat.lt_trans hR.length_lt hlen
        rw [if_pos hlt]
        refine bind_eq_ok.mpr ⟨_, _, (ho (p.inside ts) _ _ (by simp; omega) hlt).mpr
          ⟨right, _, hR, rfl, rfl⟩, (ih (p := p.inside _) (by omega) hshort hlt).mpr
            ⟨more, rest, hmore, rfl, ?_⟩⟩
        simp [Links.length, Nat.add_assoc, Nat.add_comm 1]

theorem Reads.tier (hop : ∀ k, t.node? k = (operator? k).map build)
    (ho : Reads t.operand bound operand) :
    Reads (.tier t) bound (tier bound operator? build operand) := by
  intro p e q hp hd
  rw [Rule.tier, apply_bind_of_ok (apply_get p), thenAlways_eq_ok]
  simp only [bind_eq_ok]
  constructor
  · rintro ⟨p', ⟨first, p₁, hfirst, hchain⟩, rfl⟩
    obtain ⟨P, rest, hP, rfl, rfl⟩ := (ho _ _ _ hp hd).mp hfirst
    have hshort : rest.length < bound := Nat.lt_trans hP.length_lt hp
    obtain ⟨L, rest', hL, rfl, rfl⟩ :=
      (chain_eq_ok (p := { p with rest := rest }) hop ho (Nat.le_refl _) hshort hd).mp hchain
    have hLt : rest = L.tokens ++ rest' := hL.text
    subst hLt
    exact ⟨.chain P L, rest', Phrase.fits_chain.mpr ⟨hP, hL⟩, rfl, rfl⟩
  · rintro ⟨P, rest, hP, rfl, rfl⟩
    cases P with
    | chain first links =>
      obtain ⟨hfirst, hlinks⟩ := Phrase.fits_chain.mp hP
      have hshort : (links.tokens ++ rest).length < bound := Nat.lt_trans hfirst.length_lt hp
      exact ⟨_, ⟨_, _, (ho _ _ _ hp hd).mpr ⟨first, _, hfirst, rfl, rfl⟩,
        (chain_eq_ok (p := { p with rest := links.tokens ++ rest }) hop ho (Nat.le_refl _)
          hshort hd).mpr ⟨links, rest, hlinks, rfl, rfl⟩⟩, rfl⟩

end Chain

theorem tiers_reads (h : Reads .unary bound operand) :
    Reads (.tier .disjunction) bound (tiers bound operand) := by
  have hmul : Reads (.tier .multiplicative) bound (tier bound BinaryOp.multiplicative? .binary _) :=
    h.tier (by rintro (_ | _) <;> rfl)
  have hadd : Reads (.tier .additive) bound (tier bound BinaryOp.additive? .binary _) :=
    hmul.tier (by rintro (_ | _) <;> rfl)
  have hcmp : Reads (.tier .comparison) bound (tier bound Comparison.ofKind? .comparison _) :=
    hadd.tier (by rintro (_ | _) <;> rfl)
  have hand : Reads (.tier .conjunction) bound (tier bound (Connective.tier? .and) .connective _) :=
    hcmp.tier (by rintro (_ | _) <;> rfl)
  exact hand.tier (by rintro (_ | _) <;> rfl)

section Primary

variable {expression : Rule Expr} {ts : List Token}

theorem primary_of_name {t : TokenOf .identifier} (h : p.rest = t.1 :: ts) :
    (primary expression).apply p = match p.symbols.lookup t.1.lexeme with
      | some i => (.ok (.reference t.1.lexeme i), { p with rest := ts })
      | none => (.error (.undeclared t.1.lexeme t.1.line), p) := by
  rw [primary, apply_bind_of_ok (apply_peek p), Parser.peek_of_rest h]
  simp only [t.2]
  rw [apply_bind_of_ok (apply_get p)]
  cases p.symbols.lookup t.1.lexeme with
  | none => rfl
  | some i =>
    rw [apply_bind_of_ok (apply_advance p), apply_pure, Parser.advance_of_token h (by decide)]

theorem primary_of_yes {t : TokenOf .trueWord} (h : p.rest = t.1 :: ts) :
    (primary expression).apply p = (.ok (.boolean true), { p with rest := ts }) := by
  rw [primary, apply_bind_of_ok (apply_peek p), Parser.peek_of_rest h]
  simp only [t.2]
  rw [apply_bind_of_ok (apply_advance p), apply_pure, Parser.advance_of_token h (by decide)]

theorem primary_of_no {t : TokenOf .falseWord} (h : p.rest = t.1 :: ts) :
    (primary expression).apply p = (.ok (.boolean false), { p with rest := ts }) := by
  rw [primary, apply_bind_of_ok (apply_peek p), Parser.peek_of_rest h]
  simp only [t.2]
  rw [apply_bind_of_ok (apply_advance p), apply_pure, Parser.advance_of_token h (by decide)]

theorem primary_of_numeral {t : TokenOf .integer} (h : p.rest = t.1 :: ts) :
    (primary expression).apply p = match Decimal.int64? t.1.lexeme with
      | some v => (.ok (.integer v), { p with rest := ts })
      | none => (.error (.outOfRange t.1.lexeme t.1.line), p) := by
  rw [primary, apply_bind_of_ok (apply_peek p), Parser.peek_of_rest h]
  simp only [t.2]
  cases Decimal.int64? t.1.lexeme with
  | none => rfl
  | some v =>
    simp only
    rw [apply_bind_of_ok (apply_advance p), apply_pure, Parser.advance_of_token h (by decide)]

theorem primary_of_group {t : TokenOf .openParen} (h : p.rest = t.1 :: ts) :
    (primary expression).apply p = match expression.apply { p with rest := ts } with
      | (.ok e, q) =>
        if q.peek.kind = .closeParen then (.ok e, q.advance)
        else (.error (.unclosed .closeParen q.peek), q)
      | (.error error, q) => (.error error, q) := by
  rw [primary, apply_bind_of_ok (apply_peek p), Parser.peek_of_rest h]
  simp only [t.2]
  rw [apply_bind_of_ok (apply_advance p), Parser.advance_of_token h (by decide), apply_bind]
  rcases expression.apply { p with rest := ts } with ⟨_ | e, q⟩
  · rfl
  · simp only
    rw [apply_bind, apply_accept]
    by_cases hq : q.peek.kind = .closeParen <;> simp [hq, apply_bind]

theorem primary_of_other
    (h : p.peek.kind ∉ [Kind.identifier, .trueWord, .falseWord, .integer, .openParen]) :
    (primary expression).apply p = (.error (.unexpected p.peek), p) := by
  rw [primary, apply_bind_of_ok (apply_peek p)]
  split <;> simp_all

theorem exists_primary_token
    (hk : p.peek.kind ∈ [Kind.identifier, .trueWord, .falseWord, .integer, .openParen]) :
    (∃ (t : TokenOf .identifier) (ts : List Token), p.rest = t.1 :: ts) ∨
      (∃ (t : TokenOf .trueWord) (ts : List Token), p.rest = t.1 :: ts) ∨
      (∃ (t : TokenOf .falseWord) (ts : List Token), p.rest = t.1 :: ts) ∨
      (∃ (t : TokenOf .integer) (ts : List Token), p.rest = t.1 :: ts) ∨
      ∃ (t : TokenOf .openParen) (ts : List Token), p.rest = t.1 :: ts := by
  simp only [List.mem_cons, List.not_mem_nil, or_false] at hk
  obtain hk | hk | hk | hk | hk := hk <;> have htoken := Parser.exists_token hk (by decide)
  · exact .inl htoken
  · exact .inr (.inl htoken)
  · exact .inr (.inr (.inl htoken))
  · exact .inr (.inr (.inr (.inl htoken)))
  · exact .inr (.inr (.inr (.inr htoken)))

/-- A group is read as its parentheses with the expression between them. -/
theorem ReadsInside.group_eq_ok (he : ReadsInside (.tier .disjunction) bound expression)
    {t : TokenOf .openParen} (ht : p.rest = t.1 :: ts) (hp : p.rest.length < bound + 1) :
    (primary expression).apply p = (.ok e, q) ↔
      ∃ (inner : Expression) (closing : TokenOf .closeParen) (rest : List Token),
        (Phrase.group t inner closing).Fits p rest ∧
          e = (Phrase.group t inner closing).tree p.binding ∧ q = { p with rest := rest } := by
  have hlen : ts.length < bound := Parser.length_lt_of_token ht hp
  rw [primary_of_group ht]
  constructor
  · intro h
    split at h
    · rename_i e' p' he'
      obtain ⟨P, rest, hP, rfl, rfl⟩ := (he { p with rest := ts } _ _ hlen).mp he'
      split at h
      · rename_i hclose
        obtain ⟨u, us, hu⟩ := Parser.exists_token hclose (by decide)
        rw [Parser.advance_of_token hu (by decide)] at h
        cases h
        rw [Parser.rest_set] at hu
        subst hu
        exact ⟨P, u, us, Phrase.fits_group.mpr ⟨ts, ht, hP⟩, rfl, rfl⟩
      · cases h
    · cases h
  · rintro ⟨inner, closing, rest, hgroup, rfl, rfl⟩
    obtain ⟨ts', ht', hinner⟩ := Phrase.fits_group.mp hgroup
    obtain rfl : ts = ts' := by simpa [ht] using ht'
    have hexpr := (he { p with rest := ts } _ _ hlen).mpr ⟨inner, _, hinner, rfl, rfl⟩
    have hclose : ({ p with rest := closing.1 :: rest } : Parser).peek.kind = .closeParen :=
      closing.2
    rw [hexpr]
    simp only [hclose, if_true]
    rw [Parser.advance_of_token (p := { p with rest := _ }) rfl (by decide)]
    rfl

theorem ReadsInside.primary (he : ReadsInside (.tier .disjunction) bound expression) :
    Reads .primary (bound + 1) (primary expression) := by
  intro p e q hp hd
  constructor
  · intro h
    by_cases hk : p.peek.kind ∈ [Kind.identifier, .trueWord, .falseWord, .integer, .openParen]
    · obtain ⟨t, ts, ht⟩ | ⟨t, ts, ht⟩ | ⟨t, ts, ht⟩ | ⟨t, ts, ht⟩ | ⟨t, ts, ht⟩ :=
        exists_primary_token hk
      · rw [primary_of_name ht] at h
        cases hl : p.symbols.lookup t.1.lexeme with
        | none => simp [hl] at h
        | some i =>
          obtain ⟨rfl, rfl⟩ : .reference t.1.lexeme i = e ∧ { p with rest := ts } = q := by
            simpa [hl] using h
          refine ⟨.name t, ts, Phrase.fits_name.mpr ⟨ht, ?_, hd⟩, ?_, rfl⟩
          · simp [SymbolTable.contains, hl]
          · simp [Phrase.tree, Parser.binding, hl]
      · rw [primary_of_yes ht] at h
        obtain ⟨rfl, rfl⟩ : .boolean true = e ∧ { p with rest := ts } = q := by simpa using h
        exact ⟨.yes t, ts, Phrase.fits_yes.mpr ⟨ht, hd⟩, rfl, rfl⟩
      · rw [primary_of_no ht] at h
        obtain ⟨rfl, rfl⟩ : .boolean false = e ∧ { p with rest := ts } = q := by simpa using h
        exact ⟨.no t, ts, Phrase.fits_no.mpr ⟨ht, hd⟩, rfl, rfl⟩
      · rw [primary_of_numeral ht] at h
        cases hv : Decimal.int64? t.1.lexeme with
        | none => simp [hv] at h
        | some v =>
          obtain ⟨rfl, rfl⟩ : .integer v = e ∧ { p with rest := ts } = q := by
            simpa [hv] using h
          obtain ⟨hw, rfl⟩ := Decimal.int64?_eq_some.mp hv
          exact ⟨.numeral t, ts, Phrase.fits_numeral.mpr ⟨ht, hw, hd⟩, rfl, rfl⟩
      · obtain ⟨inner, closing, rest, hgroup⟩ := (he.group_eq_ok ht hp).mp h
        exact ⟨.group t inner closing, rest, hgroup⟩
    · rw [primary_of_other hk] at h
      simp at h
  · rintro ⟨P, rest, hP, rfl, rfl⟩
    cases P with
    | numeral t =>
      obtain ⟨ht, hw, -⟩ := Phrase.fits_numeral.mp hP
      rw [primary_of_numeral ht, Decimal.int64?_eq_some.mpr ⟨hw, rfl⟩]
      rfl
    | yes t => exact primary_of_yes (Phrase.fits_yes.mp hP).1
    | no t => exact primary_of_no (Phrase.fits_no.mp hP).1
    | name t =>
      obtain ⟨ht, hb, -⟩ := Phrase.fits_name.mp hP
      obtain ⟨i, hi⟩ := Option.isSome_iff_exists.mp hb
      simp [primary_of_name ht, hi, Phrase.tree, Parser.binding]
    | group opening inner closing =>
      obtain ⟨ts, ht, -⟩ := Phrase.fits_group.mp hP
      exact (he.group_eq_ok ht hp).mpr ⟨inner, closing, rest, hP, rfl, rfl⟩

end Primary

section Unary

variable {ts : List Token}

theorem signKind_ne_endOfInput (op : UnaryOp) : signKind op ≠ .endOfInput := by
  cases op <;> decide

theorem sign_cases {k : Kind} (h : k ∈ [Kind.minus, .bang, .plus]) :
    (∃ op, k = signKind op) ∨ k = .plus := by
  simp only [List.mem_cons, List.not_mem_nil, or_false] at h
  obtain rfl | rfl | rfl := h
  · exact .inl ⟨.neg, rfl⟩
  · exact .inl ⟨.not, rfl⟩
  · exact .inr rfl

theorem exists_sign_token (hk : p.peek.kind ∈ [Kind.minus, .bang, .plus]) :
    (∃ (op : UnaryOp) (t : TokenOf (signKind op)) (ts : List Token), p.rest = t.1 :: ts) ∨
      ∃ (t : TokenOf .plus) (ts : List Token), p.rest = t.1 :: ts := by
  obtain ⟨op, hop⟩ | hplus := sign_cases hk
  · exact .inl ⟨op, Parser.exists_token hop (signKind_ne_endOfInput op)⟩
  · exact .inr (Parser.exists_token hplus (by decide))

theorem unary_of_sign {op : UnaryOp} {t : TokenOf (signKind op)} (h : p.rest = t.1 :: ts) :
    (unary (n + 1)).apply p =
      match (nested (unary n)).apply { p with rest := ts } with
      | (.ok e, q) => (.ok (.unary op e), q)
      | (.error error, q) => (.error error, q) := by
  have hk : UnaryOp.ofKind? t.1.kind = some op := by rw [t.2]; cases op <;> rfl
  rw [unary, apply_bind_of_ok (apply_peek p), Parser.peek_of_rest h]
  simp only [hk]
  rw [apply_bind_of_ok (apply_advance p),
    Parser.advance_of_token h (signKind_ne_endOfInput op), apply_bind]
  rcases (nested (unary n)).apply { p with rest := ts } with ⟨_ | _, _⟩ <;> rfl

theorem unary_of_plus {t : TokenOf .plus} (h : p.rest = t.1 :: ts) :
    (unary (n + 1)).apply p = (nested (unary n)).apply { p with rest := ts } := by
  have haccept : (accept .plus).apply p = (.ok true, { p with rest := ts }) := by
    rw [apply_accept, Parser.peek_of_rest h, if_pos t.2, Parser.advance_of_token h (by decide)]
  rw [unary, apply_bind_of_ok (apply_peek p), Parser.peek_of_rest h]
  simp only [t.2, UnaryOp.ofKind?]
  rw [apply_bind_of_ok haccept]
  rfl

theorem unary_of_other (h : p.peek.kind ∉ [Kind.minus, .bang, .plus]) :
    (unary (n + 1)).apply p = (primary (nested (tiers n (unary n)))).apply p := by
  simp only [List.mem_cons, List.not_mem_nil, or_false, not_or] at h
  have hk : UnaryOp.ofKind? p.peek.kind = none := by
    unfold UnaryOp.ofKind?
    split <;> simp_all
  have haccept : (accept .plus).apply p = (.ok false, p) := by
    rw [apply_accept, if_neg h.2.2]
  rw [unary, apply_bind_of_ok (apply_peek p)]
  simp only [hk]
  rw [apply_bind_of_ok haccept]
  rfl

theorem Phrase.Fits.peek_primary {P : Phrase .primary} {rest : List Token} (h : P.Fits p rest) :
    p.peek.kind ∉ [Kind.minus, .bang, .plus] := by
  cases P with
  | numeral t => rw [Parser.peek_of_rest (Phrase.fits_numeral.mp h).1, t.2]; decide
  | yes t => rw [Parser.peek_of_rest (Phrase.fits_yes.mp h).1, t.2]; decide
  | no t => rw [Parser.peek_of_rest (Phrase.fits_no.mp h).1, t.2]; decide
  | name t => rw [Parser.peek_of_rest (Phrase.fits_name.mp h).1, t.2]; decide
  | group opening inner closing =>
    obtain ⟨ts, ht, -⟩ := Phrase.fits_group.mp h
    rw [Parser.peek_of_rest ht, opening.2]
    decide

theorem unary_reads (bound : Nat) : Reads .unary bound (unary bound) := by
  -- Induction on the bound: a sign or a parenthesis is stepped past before the rule recurs.
  induction bound with
  | zero =>
    intro p e q hp
    omega
  | succ n ih =>
    have hexpr : ReadsInside (.tier .disjunction) n (nested (tiers n (unary n))) :=
      (tiers_reads ih).nested
    intro p e q hp hd
    constructor
    · intro h
      by_cases hk : p.peek.kind ∈ [Kind.minus, .bang, .plus]
      · obtain ⟨op, t, ts, ht⟩ | ⟨t, ts, ht⟩ := exists_sign_token hk
        · have hlen : ts.length < n := Parser.length_lt_of_token ht hp
          rw [unary_of_sign ht] at h
          split at h
          · rename_i e' p' hr
            cases h
            obtain ⟨P, rest, hP, rfl, rfl⟩ := (ih.nested { p with rest := ts } _ _ hlen).mp hr
            exact ⟨.sign op t P, rest, Phrase.fits_sign.mpr ⟨ts, ht, hP⟩, rfl, rfl⟩
          · simp at h
        · have hlen : ts.length < n := Parser.length_lt_of_token ht hp
          rw [unary_of_plus ht] at h
          obtain ⟨P, rest, hP, rfl, rfl⟩ := (ih.nested { p with rest := ts } _ _ hlen).mp h
          exact ⟨.plus t P, rest, Phrase.fits_plus.mpr ⟨ts, ht, hP⟩, rfl, rfl⟩
      · rw [unary_of_other hk] at h
        obtain ⟨P, rest, hP, rfl, rfl⟩ := (hexpr.primary _ _ _ hp hd).mp h
        exact ⟨.bare P, rest, Phrase.fits_bare.mpr hP, rfl, rfl⟩
    · rintro ⟨P, rest, hP, rfl, rfl⟩
      cases P with
      | bare operand =>
        have hop := Phrase.fits_bare.mp hP
        rw [unary_of_other (Phrase.Fits.peek_primary hop)]
        exact (hexpr.primary _ _ _ hp hd).mpr ⟨operand, rest, hop, rfl, rfl⟩
      | sign op t operand =>
        obtain ⟨ts, ht, hop⟩ := Phrase.fits_sign.mp hP
        have hlen : ts.length < n := Parser.length_lt_of_token ht hp
        rw [unary_of_sign ht,
          (ih.nested { p with rest := ts } _ _ hlen).mpr ⟨operand, rest, hop, rfl, rfl⟩]
        rfl
      | plus t operand =>
        obtain ⟨ts, ht, hop⟩ := Phrase.fits_plus.mp hP
        have hlen : ts.length < n := Parser.length_lt_of_token ht hp
        rw [unary_of_plus ht]
        exact (ih.nested { p with rest := ts } _ _ hlen).mpr ⟨operand, rest, hop, rfl, rfl⟩

end Unary

theorem expression_reads (bound : Nat) :
    ReadsInside (.tier .disjunction) bound (expression bound) :=
  (tiers_reads (unary_reads bound)).nested

end

end Rule

end TinyCompiler
