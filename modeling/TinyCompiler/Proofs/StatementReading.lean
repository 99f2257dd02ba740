import TinyCompiler.Proofs.ExpressionReading
import TinyCompiler.Proofs.StatementFitting

/-! What the rules for statements read. A rule succeeds on a parser exactly if a statement fits
its tokens under the names that it has bound; it gives the tree of the statement, and leaves the
table on which that tree has been replayed. -/
namespace TinyCompiler

open Grammar

namespace Rule

variable {p q : Parser} {scope : List String} {ts : List Token} {bound n : Nat}
variable {expression : Rule Expr} {block : Rule (List Stmt)} {r : Rule Stmt}

theorem apply_declare (name : String) (value : Expr) (p : Parser) :
    (declare name value).apply p = (.ok p.symbols.bindings.size,
      { p with symbols := (p.symbols.declare name value).2 }) := by
  simp [declare, apply_bind, apply_map, Except.map, SymbolTable.declare]

theorem apply_assign (name : String) (value : Expr) (line : Nat) (p : Parser) :
    (assign name value line).apply p =
      if p.symbols.contains name then (.ok p.symbols.bindings.size,
        { p with symbols := (p.symbols.declare name value).2 })
      else (.error (.undeclared name line), p) := by
  rw [assign, apply_bind_of_ok (apply_get p), apply_bind]
  by_cases h : p.symbols.contains name = true
  · have hr : (liftExcept (p.symbols.assign name value line) : Rule _).apply p =
        (.ok (p.symbols.declare name value), p) := by
      simp [SymbolTable.assign, h, liftExcept]
    simp [hr, h, SymbolTable.declare, apply_map, Except.map]
  · have hr : (liftExcept (p.symbols.assign name value line) : Rule _).apply p =
        (.error (.undeclared name line), p) := by
      simp [SymbolTable.assign, h, liftExcept]
    simp [hr, h]

theorem bareStatement_of_declaration {t : TokenOf .identifier} {m : TokenOf .colonEqual}
    (h : p.rest = t.1 :: m.1 :: ts) : (bareStatement expression block).apply p =
      (expression >>= fun value => Stmt.declare t.1.lexeme value <$> declare t.1.lexeme value).apply
        { p with rest := ts } := by
  rw [bareStatement, apply_bind_of_ok (apply_peek p), apply_bind_of_ok (apply_get p),
    Parser.peek_of_rest h, Parser.peekSecond_of_rest h]
  simp only [t.2, m.2]
  rw [declaration, apply_bind_of_ok (apply_peek p), apply_bind_of_ok (apply_advance p),
    Parser.peek_of_rest h, Parser.advance_of_token h (by decide),
    apply_bind_of_ok (apply_advance _), Parser.advance_of_token rfl (by decide)]
  rfl

theorem bareStatement_of_assignment {t : TokenOf .identifier} {m : TokenOf .assign}
    (h : p.rest = t.1 :: m.1 :: ts) : (bareStatement expression block).apply p =
      if p.symbols.contains t.1.lexeme then
        (expression >>= fun value =>
          Stmt.assign t.1.lexeme value <$> assign t.1.lexeme value t.1.line).apply
            { p with rest := ts }
      else (.error (.undeclared t.1.lexeme t.1.line), p) := by
  rw [bareStatement, apply_bind_of_ok (apply_peek p), apply_bind_of_ok (apply_get p),
    Parser.peek_of_rest h, Parser.peekSecond_of_rest h]
  simp only [t.2, m.2]
  rw [assignment, apply_bind_of_ok (apply_peek p), apply_bind_of_ok (apply_get p),
    Parser.peek_of_rest h]
  by_cases hc : p.symbols.contains t.1.lexeme = true
  · rw [if_pos hc, if_pos hc, apply_bind_of_ok (apply_advance p),
      Parser.advance_of_token h (by decide), apply_bind_of_ok (apply_advance _),
      Parser.advance_of_token rfl (by decide)]
    rfl
  · rw [if_neg hc, if_neg hc]
    rfl

theorem bareStatement_of_return {t : TokenOf .returnWord} (h : p.rest = t.1 :: ts) :
    (bareStatement expression block).apply p =
      (Stmt.ret <$> expression).apply { p with rest := ts } := by
  rw [bareStatement, apply_bind_of_ok (apply_peek p), apply_bind_of_ok (apply_get p),
    Parser.peek_of_rest h]
  simp only [t.2]
  rw [apply_bind_of_ok (apply_advance p), Parser.advance_of_token h (by decide)]
  rfl

theorem bareStatement_of_if {t : TokenOf .ifWord} (h : p.rest = t.1 :: ts) :
    (bareStatement expression block).apply p =
      (expression >>= fun condition => block >>= fun consequent => accept .elseWord >>= fun more =>
        if more then Stmt.ifElse condition consequent <$> block
        else pure (.ifThen condition consequent)).apply { p with rest := ts } := by
  rw [bareStatement, apply_bind_of_ok (apply_peek p), apply_bind_of_ok (apply_get p),
    Parser.peek_of_rest h]
  simp only [t.2]
  rw [branch, apply_bind_of_ok (apply_advance p), Parser.advance_of_token h (by decide)]
  rfl

theorem bareStatement_of_for {t : TokenOf .forWord} (h : p.rest = t.1 :: ts) :
    (bareStatement expression block).apply p =
      (expression >>= fun condition => Stmt.loop condition <$> block).apply
        { p with rest := ts } := by
  rw [bareStatement, apply_bind_of_ok (apply_peek p), apply_bind_of_ok (apply_get p),
    Parser.peek_of_rest h]
  simp only [t.2]
  rw [loop, apply_bind_of_ok (apply_advance p), Parser.advance_of_token h (by decide)]
  rfl

theorem bareStatement_of_other (hb : ¬StartsBinding [p.peek.kind, p.peekSecond.kind])
    (hk : p.peek.kind ∉ [Kind.returnWord, .ifWord, .forWord]) :
    (bareStatement expression block).apply p = (Stmt.expr <$> expression).apply p := by
  rw [bareStatement, apply_bind_of_ok (apply_peek p), apply_bind_of_ok (apply_get p)]
  simp only [List.mem_cons, List.not_mem_nil, or_false, not_or] at hk
  dsimp only
  split
  · rename_i h₁ h₂
    simp [StartsBinding, h₁, h₂] at hb
  · rename_i h₁ h₂
    simp [StartsBinding, h₁, h₂] at hb
  · rename_i h
    exact absurd h hk.1
  · rename_i h
    exact absurd h hk.2.1
  · rename_i h
    exact absurd h hk.2.2
  · rfl

def ReadsBlock (bound : Nat) (r : Rule (List Stmt)) : Prop :=
  ∀ p scope b q, p.symbols.Tracks scope → p.rest.length < bound → (r.apply p = (.ok b, q) ↔
    ∃ (B : Block) (rest : List Token), B.Fits p scope rest ∧ b = B.trees scope ∧
      q = p.behind b rest)

/-- The rule reads statements with the semicolon behind them. -/
def ReadsStatement (bound : Nat) (r : Rule Stmt) : Prop :=
  ∀ p scope s q, p.symbols.Tracks scope → p.rest.length < bound → (r.apply p = (.ok s, q) ↔
    ∃ (D : Sentence) (semicolon : Option (TokenOf .semicolon)) (rest : List Token),
      D.FitsClosed semicolon p scope rest ∧ s = D.tree scope ∧
        q = p.behind [s] rest)

theorem binding_of_tracks (h : p.symbols.Tracks scope) : p.binding = latest scope := by
  funext x
  rw [Parser.binding, h.latest, latest]

theorem ReadsInside.eq_ok {e : Expr} (he : ReadsInside (.tier .disjunction) bound expression)
    (h : p.symbols.Tracks scope) (hts : ts.length < bound) :
    expression.apply { p with rest := ts } = (.ok e, q) ↔
      ∃ (P : Expression) (rest : List Token), P.Fits (p.inside ts) rest ∧
        e = P.tree (latest scope) ∧ q = { p with rest := rest } := by
  rw [he _ _ _ hts, ← binding_of_tracks h]
  rfl

theorem startsBinding_cons_cons {k₁ k₂ : Kind} {kinds : List Kind} :
    StartsBinding (k₁ :: k₂ :: kinds) ↔
      k₁ = .identifier ∧ (k₂ = .colonEqual ∨ k₂ = .assign) := by
  unfold StartsBinding
  split <;> simp_all

theorem exists_binding_tokens (h : StartsBinding [p.peek.kind, p.peekSecond.kind]) :
    (∃ (t : TokenOf .identifier) (m : TokenOf .colonEqual) (ts : List Token),
        p.rest = t.1 :: m.1 :: ts) ∨
      ∃ (t : TokenOf .identifier) (m : TokenOf .assign) (ts : List Token),
        p.rest = t.1 :: m.1 :: ts := by
  obtain ⟨hfirst, hsecond⟩ := startsBinding_cons_cons.mp h
  obtain ⟨t, ts, ht⟩ := Parser.exists_token hfirst (by decide)
  have hpeek : p.peekSecond = ({ p with rest := ts } : Parser).peek := by
    rw [Parser.peekSecond, ht]
    rfl
  rw [hpeek] at hsecond
  obtain hm | hm := hsecond <;> obtain ⟨m, us, rfl⟩ := Parser.exists_token hm (by decide)
  · exact .inl ⟨t, m, us, ht⟩
  · exact .inr ⟨t, m, us, ht⟩

theorem exists_word_token (hk : p.peek.kind ∈ [Kind.returnWord, .ifWord, .forWord]) :
    (∃ (t : TokenOf .returnWord) (ts : List Token), p.rest = t.1 :: ts) ∨
      (∃ (t : TokenOf .ifWord) (ts : List Token), p.rest = t.1 :: ts) ∨
      ∃ (t : TokenOf .forWord) (ts : List Token), p.rest = t.1 :: ts := by
  simp only [List.mem_cons, List.not_mem_nil, or_false] at hk
  obtain hk | hk | hk := hk <;> have htoken := Parser.exists_token hk (by decide)
  · exact .inl htoken
  · exact .inr (.inl htoken)
  · exact .inr (.inr htoken)

/-- Two tokens decide whether a binding begins; both may belong to the expression. -/
theorem startsBinding_tokens {value : Expression} {rest : List Token}
    (h : p.rest = value.tokens ++ rest) :
    StartsBinding (value.tokens.map Token.kind ++ [firstKind rest .endOfInput]) ↔
      StartsBinding [p.peek.kind, p.peekSecond.kind] := by
  obtain ⟨t, ts, ht, -⟩ := value.exists_starter
  rw [ht] at h ⊢
  rw [Parser.peek_of_rest h]
  cases ts with
  | nil =>
    have hsecond : p.peekSecond.kind = firstKind rest .endOfInput := by
      rw [Parser.peekSecond, h]
      exact Parser.peek_kind { p with rest := rest }
    rw [hsecond]
    rfl
  | cons u us =>
    rw [Parser.peekSecond_of_rest h]
    simp only [List.map_cons, List.cons_append, startsBinding_cons_cons]

section Bare

variable (he : ReadsInside (.tier .disjunction) (bound + 1) expression)
variable (hb : ReadsBlock bound block)
variable (h : p.symbols.Tracks scope) (hp : p.rest.length < bound + 1)
variable {s : Stmt}

include he h hp

theorem declaration_eq_ok {t : TokenOf .identifier} {m : TokenOf .colonEqual}
    (hts : p.rest = t.1 :: m.1 :: ts) :
    (bareStatement expression block).apply p = (.ok s, q) ↔
      ∃ (value : Expression) (rest : List Token),
        (Sentence.declare t m value).Fits p scope rest ∧
          s = (Sentence.declare t m value).tree scope ∧
            q = p.behind [s] rest := by
  have hlen : ts.length < bound := Nat.lt_of_succ_lt (Parser.length_lt_of_token hts hp)
  rw [bareStatement_of_declaration hts, bind_eq_ok]
  simp only [he.eq_ok h (Nat.lt_succ_of_lt hlen), map_eq_ok, apply_declare, Sentence.fits_declare h]
  constructor
  · rintro ⟨e, p', ⟨P, rest, hP, rfl, rfl⟩, i, hi, rfl⟩
    cases hi
    refine ⟨P, rest, ⟨ts, hts, hP⟩, ?_, rfl⟩
    simp [Sentence.tree, h.size]
  · rintro ⟨P, rest, ⟨ts', hts', hP⟩, rfl, rfl⟩
    obtain rfl : ts = ts' := by simpa [hts] using hts'
    refine ⟨_, _, ⟨P, rest, hP, rfl, rfl⟩, _, rfl, ?_⟩
    simp [Sentence.tree, h.size]

theorem assignment_eq_ok {t : TokenOf .identifier} {m : TokenOf .assign}
    (hts : p.rest = t.1 :: m.1 :: ts) :
    (bareStatement expression block).apply p = (.ok s, q) ↔
      ∃ (value : Expression) (rest : List Token),
        (Sentence.assign t m value).Fits p scope rest ∧
          s = (Sentence.assign t m value).tree scope ∧
            q = p.behind [s] rest := by
  have hlen : ts.length < bound := Nat.lt_of_succ_lt (Parser.length_lt_of_token hts hp)
  rw [bareStatement_of_assignment hts]
  by_cases hc : p.symbols.contains t.1.lexeme = true
  · rw [if_pos hc, bind_eq_ok]
    simp only [he.eq_ok h (Nat.lt_succ_of_lt hlen), map_eq_ok, apply_assign, Sentence.fits_assign h]
    constructor
    · rintro ⟨e, p', ⟨P, rest, hP, rfl, rfl⟩, i, hi, rfl⟩
      rw [if_pos hc] at hi
      cases hi
      refine ⟨P, rest, ⟨ts, hts, hc, hP⟩, ?_, rfl⟩
      simp [Sentence.tree, h.size]
    · rintro ⟨P, rest, ⟨ts', hts', -, hP⟩, rfl, rfl⟩
      obtain rfl : ts = ts' := by simpa [hts] using hts'
      refine ⟨_, _, ⟨P, rest, hP, rfl, rfl⟩, _, if_pos hc, ?_⟩
      simp [Sentence.tree, h.size]
  · rw [if_neg hc]
    simp only [Sentence.fits_assign h]
    constructor
    · intro herr
      cases herr
    · rintro ⟨P, rest, ⟨ts', -, hc', -⟩, -, -⟩
      exact absurd hc' hc

theorem return_eq_ok {t : TokenOf .returnWord} (hts : p.rest = t.1 :: ts) :
    (bareStatement expression block).apply p = (.ok s, q) ↔
      ∃ (value : Expression) (rest : List Token), (Sentence.ret t value).Fits p scope rest ∧
        s = (Sentence.ret t value).tree scope ∧
          q = p.behind [s] rest := by
  have hlen : ts.length < bound := Parser.length_lt_of_token hts hp
  rw [bareStatement_of_return hts, map_eq_ok]
  simp only [he.eq_ok h (Nat.lt_succ_of_lt hlen), Sentence.fits_ret h]
  constructor
  · rintro ⟨e, ⟨P, rest, hP, rfl, rfl⟩, rfl⟩
    exact ⟨P, rest, ⟨ts, hts, hP⟩, rfl, rfl⟩
  · rintro ⟨P, rest, ⟨ts', hts', hP⟩, rfl, rfl⟩
    obtain rfl : ts = ts' := by simpa [hts] using hts'
    exact ⟨_, ⟨P, rest, hP, rfl, rfl⟩, rfl⟩

theorem other_eq_ok (hs : ¬StartsBinding [p.peek.kind, p.peekSecond.kind])
    (hk : p.peek.kind ∉ [Kind.returnWord, .ifWord, .forWord]) :
    (bareStatement expression block).apply p = (.ok s, q) ↔
      ∃ (value : Expression) (rest : List Token), value.Fits (p.inside p.rest) rest ∧
        s = (Sentence.expr value).tree scope ∧
          q = p.behind [s] rest := by
  rw [bareStatement_of_other hs hk, map_eq_ok]
  simp only [he.eq_ok h hp]
  constructor
  · rintro ⟨e, ⟨P, rest, hP, rfl, rfl⟩, rfl⟩
    exact ⟨P, rest, hP, rfl, rfl⟩
  · rintro ⟨P, rest, hP, rfl, rfl⟩
    exact ⟨_, ⟨P, rest, hP, rfl, rfl⟩, rfl⟩

include hb

theorem for_eq_ok {t : TokenOf .forWord} (hts : p.rest = t.1 :: ts) :
    (bareStatement expression block).apply p = (.ok s, q) ↔
      ∃ (condition : Expression) (body : Block) (rest : List Token),
        (Sentence.loop t condition body).Fits p scope rest ∧
          s = (Sentence.loop t condition body).tree scope ∧
            q = p.behind [s] rest := by
  have hlen : ts.length < bound := Parser.length_lt_of_token hts hp
  rw [bareStatement_of_for hts, bind_eq_ok]
  simp only [he.eq_ok h (Nat.lt_succ_of_lt hlen), map_eq_ok, Sentence.fits_loop h]
  constructor
  · rintro ⟨c, p', ⟨C, rest, hC, rfl, rfl⟩, b, hbody, rfl⟩
    have hshort : rest.length < bound := Nat.lt_trans hC.length_lt hlen
    obtain ⟨B, rest', hB, rfl, rfl⟩ := (hb { p with rest := rest } scope _ _ h hshort).mp hbody
    have hBt : rest = B.tokens ++ rest' := hB.text
    subst hBt
    exact ⟨C, B, rest', ⟨ts, hts, hC, hB⟩, rfl, rfl⟩
  · rintro ⟨C, B, rest, ⟨ts', hts', hC, hB⟩, rfl, rfl⟩
    obtain rfl : ts = ts' := by simpa [hts] using hts'
    have hshort : (B.tokens ++ rest).length < bound := Nat.lt_trans hC.length_lt hlen
    exact ⟨_, _, ⟨C, _, hC, rfl, rfl⟩, _,
      (hb { p with rest := B.tokens ++ rest } scope _ _ h hshort).mpr ⟨B, rest, hB, rfl, rfl⟩, rfl⟩

theorem if_eq_ok {t : TokenOf .ifWord} (hts : p.rest = t.1 :: ts) :
    (bareStatement expression block).apply p = (.ok s, q) ↔
      (∃ (condition : Expression) (consequent : Block) (rest : List Token),
        (Sentence.ifThen t condition consequent).Fits p scope rest ∧
          s = (Sentence.ifThen t condition consequent).tree scope ∧
            q = p.behind [s] rest) ∨
      (∃ (condition : Expression) (consequent : Block) (elseWord : TokenOf .elseWord)
        (alternate : Block) (rest : List Token),
        (Sentence.ifElse t condition consequent elseWord alternate).Fits p scope rest ∧
          s = (Sentence.ifElse t condition consequent elseWord alternate).tree scope ∧
            q = p.behind [s] rest) := by
  have hlen : ts.length < bound := Parser.length_lt_of_token hts hp
  rw [bareStatement_of_if hts, bind_eq_ok]
  simp only [he.eq_ok h (Nat.lt_succ_of_lt hlen), bind_eq_ok, Sentence.fits_ifThen h,
    Sentence.fits_ifElse h]
  constructor
  · rintro ⟨c, p', ⟨C, rest, hC, rfl, rfl⟩, b, p₁, hconsequent, more, p₂, hmore, hr⟩
    have hshort : rest.length < bound := Nat.lt_trans hC.length_lt hlen
    obtain ⟨B, rest', hB, rfl, rfl⟩ :=
      (hb { p with rest := rest } scope _ _ h hshort).mp hconsequent
    have hBt : rest = B.tokens ++ rest' := hB.text
    subst hBt
    rw [apply_accept, Parser.peek_kind, Parser.behind_rest] at hmore
    by_cases hk : firstKind rest' .endOfInput = .elseWord
    · obtain ⟨w, ws, rfl⟩ : ∃ (w : TokenOf .elseWord) (ws : List Token), rest' = w.1 :: ws :=
        Parser.exists_token (p := { p with rest := rest' }) (by rwa [Parser.peek_kind]) (by decide)
      rw [if_pos hk, Parser.advance_of_token rfl (by decide)] at hmore
      cases hmore
      obtain ⟨a, ha, rfl⟩ := map_eq_ok.mp hr
      have hws : ws.length < bound := by
        have := hB.length_lt
        simp only [List.length_cons] at this
        omega
      obtain ⟨A, rest, hA, rfl, rfl⟩ :=
        (hb _ _ _ _ (Block.tracks_replay h B) hws).mp ha
      have hAt : ws = A.tokens ++ rest := hA.text
      subst hAt
      exact .inr ⟨C, B, w, A, rest, ⟨ts, hts, hC, hB, Block.fits_behind.mp hA⟩, rfl, rfl⟩
    · rw [if_neg hk] at hmore
      cases hmore
      obtain ⟨rfl, rfl⟩ := pure_eq_ok.mp hr
      exact .inl ⟨C, B, rest', ⟨ts, hts, hC, hB, hk⟩, rfl, rfl⟩
  · rintro (⟨C, B, rest, ⟨ts', hts', hC, hB, hk⟩, rfl, rfl⟩ |
      ⟨C, B, w, A, rest, ⟨ts', hts', hC, hB, hA⟩, rfl, rfl⟩)
    · obtain rfl : ts = ts' := by simpa [hts] using hts'
      have hshort : (B.tokens ++ rest).length < bound := Nat.lt_trans hC.length_lt hlen
      refine ⟨_, _, ⟨C, _, hC, rfl, rfl⟩, _, _,
        (hb { p with rest := B.tokens ++ rest } scope _ _ h hshort).mpr ⟨B, rest, hB, rfl, rfl⟩,
        false, _, ?_, rfl⟩
      rw [apply_accept, Parser.peek_kind, Parser.behind_rest, if_neg hk]
      rfl
    · obtain rfl : ts = ts' := by simpa [hts] using hts'
      have hshort : (B.tokens ++ w.1 :: (A.tokens ++ rest)).length < bound :=
        Nat.lt_trans hC.length_lt hlen
      have hws : (A.tokens ++ rest).length < bound := by
        have := hB.length_lt
        simp only [List.length_cons] at this
        omega
      refine ⟨_, _, ⟨C, _, hC, rfl, rfl⟩, _, _,
        (hb { p with rest := B.tokens ++ w.1 :: (A.tokens ++ rest) } scope _ _ h hshort).mpr
          ⟨B, _, hB, rfl, rfl⟩, true, _, ?_,
        map_eq_ok.mpr ⟨_, (hb (p.behind (B.trees scope) (A.tokens ++ rest)) _ _ _
          (Block.tracks_replay h B) hws).mpr ⟨A, rest, Block.fits_behind.mpr hA, rfl, rfl⟩, rfl⟩⟩
      rw [apply_accept, Parser.peek_kind, Parser.behind_rest, firstKind_cons, if_pos w.2,
        Parser.advance_of_token rfl (by decide)]
      rfl

theorem bareStatement_eq_ok : (bareStatement expression block).apply p = (.ok s, q) ↔
    ∃ (D : Sentence) (rest : List Token),
      D.Fits p scope rest ∧ s = D.tree scope ∧ q = p.behind [s] rest := by
  constructor
  · intro hr
    by_cases hs : StartsBinding [p.peek.kind, p.peekSecond.kind]
    · obtain ⟨t, m, ts, hts⟩ | ⟨t, m, ts, hts⟩ := exists_binding_tokens hs
      · obtain ⟨value, rest, hD⟩ := (declaration_eq_ok he h hp hts).mp hr
        exact ⟨.declare t m value, rest, hD⟩
      · obtain ⟨value, rest, hD⟩ := (assignment_eq_ok he h hp hts).mp hr
        exact ⟨.assign t m value, rest, hD⟩
    · by_cases hk : p.peek.kind ∈ [Kind.returnWord, .ifWord, .forWord]
      · obtain ⟨t, ts, hts⟩ | ⟨t, ts, hts⟩ | ⟨t, ts, hts⟩ := exists_word_token hk
        · obtain ⟨value, rest, hD⟩ := (return_eq_ok he h hp hts).mp hr
          exact ⟨.ret t value, rest, hD⟩
        · obtain ⟨C, B, rest, hD⟩ | ⟨C, B, w, A, rest, hD⟩ := (if_eq_ok he hb h hp hts).mp hr
          · exact ⟨.ifThen t C B, rest, hD⟩
          · exact ⟨.ifElse t C B w A, rest, hD⟩
        · obtain ⟨C, B, rest, hD⟩ := (for_eq_ok he hb h hp hts).mp hr
          exact ⟨.loop t C B, rest, hD⟩
      · obtain ⟨value, rest, hv, hD⟩ := (other_eq_ok he h hp hs hk).mp hr
        refine ⟨.expr value, rest, (Sentence.fits_expr h).mpr ⟨hv, ?_⟩, hD⟩
        rwa [startsBinding_tokens hv.text]
  · rintro ⟨D, rest, hD, hr⟩
    cases D with
    | expr value =>
      obtain ⟨hv, hs⟩ := (Sentence.fits_expr h).mp hD
      obtain ⟨t, ts, ht, hmem⟩ := value.exists_starter
      have hts : p.rest = t :: (ts ++ rest) := hv.text.trans (by rw [ht]; rfl)
      have hstart : ∀ k ∈ starters, k ∉ [Kind.returnWord, .ifWord, .forWord] := by decide
      rw [startsBinding_tokens hv.text] at hs
      refine (other_eq_ok he h hp hs ?_).mpr ⟨value, rest, hv, hr⟩
      rw [Parser.peek_of_rest hts]
      exact hstart _ hmem
    | declare t m value =>
      obtain ⟨ts, hts, -⟩ := (Sentence.fits_declare h).mp hD
      exact (declaration_eq_ok he h hp hts).mpr ⟨value, rest, hD, hr⟩
    | assign t m value =>
      obtain ⟨ts, hts, -⟩ := (Sentence.fits_assign h).mp hD
      exact (assignment_eq_ok he h hp hts).mpr ⟨value, rest, hD, hr⟩
    | ret t value =>
      obtain ⟨ts, hts, -⟩ := (Sentence.fits_ret h).mp hD
      exact (return_eq_ok he h hp hts).mpr ⟨value, rest, hD, hr⟩
    | ifThen t C B =>
      obtain ⟨ts, hts, -⟩ := (Sentence.fits_ifThen h).mp hD
      exact (if_eq_ok he hb h hp hts).mpr (.inl ⟨C, B, rest, hD, hr⟩)
    | ifElse t C B w A =>
      obtain ⟨ts, hts, -⟩ := (Sentence.fits_ifElse h).mp hD
      exact (if_eq_ok he hb h hp hts).mpr (.inr ⟨C, B, w, A, rest, hD, hr⟩)
    | loop t C B =>
      obtain ⟨ts, hts, -⟩ := (Sentence.fits_loop h).mp hD
      exact (for_eq_ok he hb h hp hts).mpr ⟨C, B, rest, hD, hr⟩

end Bare

end Rule

end TinyCompiler
