import TinyCompiler.Proofs.StatementReading

/-! What the rules for blocks and for statements in a row read, and with them the rule for
statements, which they call. -/
namespace TinyCompiler

open Grammar

namespace Grammar

variable {p : Parser} {scope : List String} {rest : List Token}

theorem Sentence.FitsClosed.length_lt {D : Sentence} {semicolon : Option (TokenOf .semicolon)}
    (h : D.FitsClosed semicolon p scope rest) : rest.length < p.rest.length := by
  cases semicolon with
  | none => exact h.1.length_lt
  | some mark =>
    have hlen := Sentence.Fits.length_lt h
    rw [List.length_cons] at hlen
    omega

theorem Sentence.FitsClosed.exists_starter {D : Sentence}
    {semicolon : Option (TokenOf .semicolon)} (h : D.FitsClosed semicolon p scope rest) :
    p.peek.kind ∈ starters ++ [.returnWord, .ifWord, .forWord] := by
  obtain ⟨t, ts, ht, hk⟩ := D.exists_starter
  have hfirst : ∃ us, p.rest = t :: us := by
    cases semicolon with
    | none => exact ⟨_, h.1.text.trans (by rw [ht]; rfl)⟩
    | some mark => exact ⟨_, (Sentence.Fits.text h).trans (by rw [ht]; rfl)⟩
  obtain ⟨us, hus⟩ := hfirst
  rwa [Parser.peek_of_rest hus]

theorem Text.Fits.eq_nil {T : Text} (h : T.Fits p scope rest)
    (hk : p.peek.kind ∉ starters ++ [.returnWord, .ifWord, .forWord]) : T = .nil := by
  cases T with
  | nil => rfl
  | cons s semicolon more => exact absurd (Text.fits_cons.mp h).1.exists_starter hk

end Grammar

namespace Rule

variable {p q : Parser} {scope : List String} {bound n : Nat} {close : Kind}
variable {b : List Stmt} {r : Rule Stmt}

theorem untilKind_of_close (h : p.peek.kind = close) :
    (untilKind close r (n + 1)).apply p = (.ok [], p) := by
  rw [untilKind, apply_bind_of_ok (apply_peek p)]
  simp only [h, if_true]
  rfl

theorem untilKind_of_end (h : p.peek.kind ≠ close) (he : p.peek.kind = .endOfInput) :
    (untilKind close r (n + 1)).apply p = (.error (.unclosed close p.peek), p) := by
  rw [untilKind, apply_bind_of_ok (apply_peek p)]
  rw [he] at h
  simp [he, h]

theorem untilKind_of_other (h : p.peek.kind ≠ close) (he : p.peek.kind ≠ .endOfInput) :
    (untilKind close r (n + 1)).apply p =
      (r >>= fun first => List.cons first <$> untilKind close r n).apply p := by
  rw [untilKind, apply_bind_of_ok (apply_peek p)]
  simp only [h, he, if_false]
  rfl

theorem untilKind_eq_ok (hr : ReadsStatement bound r)
    (hclose : close ∉ starters ++ [.returnWord, .ifWord, .forWord])
    (h : p.symbols.Tracks scope) (hn : n ≤ bound) (hp : p.rest.length < n) :
    (untilKind close r n).apply p = (.ok b, q) ↔ ∃ (T : Text) (rest : List Token),
      T.Fits p scope rest ∧ firstKind rest .endOfInput = close ∧ b = T.trees scope ∧
        q = p.behind b rest := by
  -- Induction on the bound of the loop, which every statement lowers by one.
  induction n generalizing p scope b with
  | zero => omega
  | succ n ih =>
    by_cases hk : p.peek.kind = close
    · rw [untilKind_of_close hk]
      constructor
      · rintro ⟨⟩
        exact ⟨.nil, q.rest, Text.fits_nil.mpr rfl, by rw [← hk, Parser.peek_kind], rfl, rfl⟩
      · rintro ⟨T, rest, hT, hrest, rfl, rfl⟩
        obtain rfl := hT.eq_nil (by rwa [hk])
        obtain rfl := Text.fits_nil.mp hT
        rfl
    · have hnil : ∀ rest, Text.nil.Fits p scope rest → firstKind rest .endOfInput ≠ close := by
        intro rest hT
        rwa [← Text.fits_nil.mp hT, ← Parser.peek_kind]
      by_cases he : p.peek.kind = .endOfInput
      · rw [untilKind_of_end hk he]
        constructor
        · rintro ⟨⟩
        · rintro ⟨T, rest, hT, hrest, -, -⟩
          obtain rfl := hT.eq_nil (by rw [he]; decide)
          exact absurd hrest (hnil rest hT)
      · rw [untilKind_of_other hk he, bind_eq_ok]
        simp only [hr p scope _ _ h (by omega), map_eq_ok]
        constructor
        · rintro ⟨first, p', ⟨D, semicolon, rest, hD, rfl, rfl⟩, b, hb, rfl⟩
          have hlen : rest.length < n := by
            have := hD.length_lt
            omega
          obtain ⟨T, rest', hT, hrest, rfl, rfl⟩ := (ih (p := p.behind [D.tree scope] rest)
            (Sentence.tracks_replay h D) (by omega) hlen).mp hb
          have hTt : rest = T.tokens ++ rest' := hT.text
          subst hTt
          exact ⟨.cons D semicolon T, rest',
            Text.fits_cons.mpr ⟨hD, Text.fits_behind.mp hT⟩, hrest, rfl, rfl⟩
        · rintro ⟨T, rest, hT, hrest, rfl, rfl⟩
          cases T with
          | nil => exact absurd hrest (hnil rest hT)
          | cons s semicolon more =>
            obtain ⟨hs, hmore⟩ := Text.fits_cons.mp hT
            have hlen : (more.tokens ++ rest).length < n := by
              have := hs.length_lt
              omega
            exact ⟨_, _, ⟨s, semicolon, _, hs, rfl, rfl⟩, _,
              (ih (p := p.behind [s.tree scope] (more.tokens ++ rest))
                (Sentence.tracks_replay h s) (by omega) hlen).mpr
                ⟨more, rest, Text.fits_behind.mpr hmore, hrest, rfl, rfl⟩, rfl⟩

/-- Statements in braces. A block is the same one level deeper. -/
def braces (bound : Nat) (statement : Rule Stmt) : Rule (List Stmt) := do
  if ← accept .openBrace then
    let statements ← untilKind .closeBrace statement bound
    advance
    return statements
  throw (.unexpected (← peek))

theorem block_eq_nested (bound : Nat) (r : Rule Stmt) : block bound r = nested (braces bound r) :=
  rfl

theorem block_of_deep (h : ¬p.depth < p.limit) :
    (block bound r).apply p = (.error (.tooDeep p.limit p.peek.line), p) := by
  rw [block, apply_nested, if_neg h]

theorem block_of_brace {t : TokenOf .openBrace} {ts : List Token} (h : p.depth < p.limit)
    (hts : p.rest = t.1 :: ts) :
    (block bound r).apply p = match (untilKind .closeBrace r bound).apply (p.inside ts) with
      | (.ok b, q) => (.ok b, { q.advance with depth := q.advance.depth - 1 })
      | (.error e, q) => (.error e, { q with depth := q.depth - 1 }) := by
  have haccept : (accept .openBrace).apply (p.inside p.rest) = (.ok true, p.inside ts) := by
    rw [apply_accept, Parser.peek_of_rest (p := p.inside p.rest) hts, if_pos t.2,
      Parser.advance_of_token (p := p.inside p.rest) hts (by decide)]
    rfl
  rw [block, apply_nested, if_pos h,
    show ({ p with depth := p.depth + 1 } : Parser) = p.inside p.rest from rfl,
    apply_bind_of_ok haccept]
  simp only [if_true]
  rw [apply_bind]
  rcases (untilKind .closeBrace r bound).apply (p.inside ts) with ⟨_ | _, _⟩ <;> rfl

theorem block_of_other (h : p.depth < p.limit) (hk : p.peek.kind ≠ .openBrace) :
    (block bound r).apply p = (.error (.unexpected p.peek), p) := by
  have haccept : (accept .openBrace).apply (p.inside p.rest) = (.ok false, p.inside p.rest) := by
    rw [apply_accept, if_neg (show (p.inside p.rest).peek.kind ≠ .openBrace from hk)]
  rw [block, apply_nested, if_pos h,
    show ({ p with depth := p.depth + 1 } : Parser) = p.inside p.rest from rfl,
    apply_bind_of_ok haccept]
  rfl

theorem block_reads (hr : ReadsStatement bound r) : ReadsBlock bound (block bound r) := by
  intro p scope b q h hp
  constructor
  · intro hblock
    have hd : p.depth < p.limit := by
      by_contra hd
      rw [block_of_deep hd] at hblock
      cases hblock
    have hk : p.peek.kind = .openBrace := by
      by_contra hk
      rw [block_of_other hd hk] at hblock
      cases hblock
    obtain ⟨t, ts, hts⟩ := Parser.exists_token hk (by decide)
    have hlen : ts.length < bound := Parser.length_lt_of_token hts (Nat.lt_succ_of_lt hp)
    rw [block_of_brace hd hts] at hblock
    split at hblock
    · rename_i b' p' hbody
      cases hblock
      obtain ⟨T, rest, hT, hrest, rfl, rfl⟩ :=
        (untilKind_eq_ok (p := p.inside ts) hr (by decide) h (Nat.le_refl _) hlen).mp hbody
      obtain ⟨u, us, rfl⟩ : ∃ (u : TokenOf .closeBrace) (us : List Token), rest = u.1 :: us :=
        Parser.exists_token (p := { p with rest := rest }) (by rwa [Parser.peek_kind])
          (by decide)
      refine ⟨.braces t T u, us, Block.fits_braces.mpr ⟨hd, ts, hts, hT⟩, rfl, ?_⟩
      rw [Parser.advance_of_token rfl (by decide)]
      rfl
    · cases hblock
  · rintro ⟨B, rest, hB, rfl, rfl⟩
    cases B with
    | braces opening body closing =>
      obtain ⟨hd, ts, hts, hT⟩ := Block.fits_braces.mp hB
      have hlen : ts.length < bound := Parser.length_lt_of_token hts (Nat.lt_succ_of_lt hp)
      have hbody := (untilKind_eq_ok (p := p.inside ts) hr (by decide) h (Nat.le_refl _)
        hlen).mpr ⟨body, _, hT, closing.2, rfl, rfl⟩
      rw [block_of_brace hd hts, hbody]
      simp only
      rw [Parser.advance_of_token rfl (by decide)]
      rfl

theorem statement_reads (bound : Nat) : ReadsStatement bound (statement bound) := by
  induction bound with
  | zero =>
    intro p scope s q h hp
    omega
  | succ n ih =>
    intro p scope s q h hp
    rw [statement, bind_eq_ok]
    simp only [bareStatement_eq_ok (expression_reads (n + 1)) (block_reads ih) h hp, bind_eq_ok,
      apply_accept]
    constructor
    · rintro ⟨s', p', ⟨D, rest, hD, rfl, rfl⟩, _, p₁, haccept, hr⟩
      obtain ⟨rfl, rfl⟩ := pure_eq_ok.mp hr
      rw [Parser.peek_kind, Parser.behind_rest] at haccept
      by_cases hk : firstKind rest .endOfInput = .semicolon
      · obtain ⟨t, ts, rfl⟩ : ∃ (t : TokenOf .semicolon) (ts : List Token), rest = t.1 :: ts :=
          Parser.exists_token (p := { p with rest := rest }) (by rwa [Parser.peek_kind])
            (by decide)
        rw [if_pos hk, Parser.advance_of_token rfl (by decide)] at haccept
        cases haccept
        exact ⟨D, some t, ts, hD, rfl, rfl⟩
      · rw [if_neg hk] at haccept
        cases haccept
        exact ⟨D, none, rest, ⟨hD, hk⟩, rfl, rfl⟩
    · rintro ⟨D, semicolon, rest, hD, rfl, rfl⟩
      cases semicolon with
      | none =>
        refine ⟨_, _, ⟨D, rest, hD.1, rfl, rfl⟩, false, _, ?_, rfl⟩
        rw [Parser.peek_kind, Parser.behind_rest, if_neg hD.2]
      | some mark =>
        refine ⟨_, _, ⟨D, _, hD, rfl, rfl⟩, true, _, ?_, rfl⟩
        rw [Parser.peek_kind, Parser.behind_rest, firstKind_cons, if_pos mark.2,
          Parser.advance_of_token rfl (by decide)]
        rfl

end Rule

namespace Parser

variable {p q : Parser} {scope : List String} {s : Stmt} {b : List Stmt}

theorem statement_eq_ok (h : p.symbols.Tracks scope) : p.statement = (.ok s, q) ↔
    ∃ (D : Sentence) (semicolon : Option (TokenOf .semicolon)) (rest : List Token),
      D.FitsClosed semicolon p scope rest ∧ s = D.tree scope ∧ q = p.behind [s] rest :=
  Rule.statement_reads _ p scope s q h (Nat.lt_succ_self _)

theorem statements_eq_ok (h : p.symbols.Tracks scope) : p.statements = (.ok b, q) ↔
    ∃ (T : Text) (rest : List Token), T.Fits p scope rest ∧
      firstKind rest .endOfInput = .endOfInput ∧ b = T.trees scope ∧ q = p.behind b rest :=
  Rule.untilKind_eq_ok (Rule.statement_reads _) (by decide) h (Nat.le_refl _) (Nat.lt_succ_self _)

end Parser

end TinyCompiler
