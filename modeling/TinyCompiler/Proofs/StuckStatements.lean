import TinyCompiler.Proofs.StuckExpressions

/-! Where the rules for statements get stuck: in an expression, before a block, or at the end of the
tokens inside a block. What is missing of the statement is then an expression, some blocks and the
braces that are open. -/
namespace TinyCompiler

open Grammar

theorem Grammar.Phrase.Fits.depth_lt {P : Expression} {p : Parser} {ts rest : List Token}
    (h : P.Fits (p.inside ts) rest) : p.depth < p.limit := by
  obtain ⟨n, hmem, hle⟩ := P.exists_need (p.depth + 1)
  have hroom : n ≤ p.limit := h.room n hmem
  omega

namespace Rule

structure SticksBlock (bound bound' : Nat) (r r' : Rule (List Stmt)) : Prop where
  reads : ReadsBlock bound r
  reads' : ReadsBlock bound' r'
  stuck : ∀ p scope e q, p.symbols.Tracks scope → p.rest.length < bound → e.Structural →
    r.apply p = (.error e, q) → ∃ read,
      Stuck (fun ts => ∃ B : Block, B.Fits { p with rest := ts } scope []) (FailsOn bound' r' p e)
        p.rest q.rest read

/-- A statement is stuck between two parsers, and the rule fails in the same way on all tokens that
go on with the next one. -/
def StuckStatement (scope : List String) (bound : Nat) (r : Rule Stmt) (p q : Parser)
    (e : SyntaxError) : Prop :=
  ∃ read, Stuck (fun ts => ∃ D : Sentence, D.Fits { p with rest := ts } scope [])
    (FailsOn bound r p e) p.rest q.rest read

structure SticksStatement (bound bound' : Nat) (r r' : Rule Stmt) : Prop where
  reads : ReadsStatement bound r
  reads' : ReadsStatement bound' r'
  stuck : ∀ p scope e q, p.symbols.Tracks scope → p.rest.length < bound → e.Structural →
    r.apply p = (.error e, q) → StuckStatement scope bound' r' p q e

variable {p q : Parser} {scope : List String} {ts : List Token} {bound bound' m n : Nat}
variable {e : SyntaxError} {r r' : Rule Stmt} {close : Kind}

theorem untilKind_onto (hk : p.peek.kind ≠ close) (he : p.peek.kind ≠ .endOfInput)
    {us : List Token} (hus : firstKind us .endOfInput = p.peek.kind) (line : Nat) :
    (untilKind close r (n + 1)).apply (p.onto us line) =
      (r >>= fun first => List.cons first <$> untilKind close r n).apply (p.onto us line) := by
  have hpeek : (p.onto us line).peek.kind = p.peek.kind := by
    rw [Parser.peek_kind, Parser.onto_rest, hus]
  exact untilKind_of_other (by rwa [hpeek]) (by rwa [hpeek])

theorem untilKind_sticks (hr : SticksStatement bound bound' r r') (h : p.symbols.Tracks scope)
    (hn : n ≤ bound) (hm : m ≤ bound') (hp : p.rest.length < n) (hs : e.Structural)
    (hb : (untilKind close r n).apply p = (.error e, q)) : ∃ read,
      Stuck (fun ts => ∃ T : Text, T.Fits { p with rest := ts } scope [])
        (FailsOn m (untilKind close r' m) p e) p.rest q.rest read := by
  -- Induction on the bound of the loop. It is stuck at the end of the tokens, in its first
  -- statement, or behind that one.
  induction n generalizing p scope m with
  | zero => omega
  | succ n ih =>
    by_cases hk : p.peek.kind = close
    · rw [untilKind_of_close hk] at hb
      cases hb
    · by_cases he : p.peek.kind = .endOfInput
      · rw [untilKind_of_end hk he] at hb
        cases hb
        refine ⟨[], rfl, ⟨[], by decide, .nil, Text.fits_nil.mpr rfl⟩, ?_⟩
        intro t rest more hrest hlen line
        obtain ⟨k, rfl⟩ : ∃ k, m = k + 1 := ⟨m - 1, by omega⟩
        rw [Parser.peek_of_rest hrest] at hk he ⊢
        rw [List.nil_append, untilKind_of_end (p := q.onto (t :: more) line) hk he]
        rfl
      · rw [untilKind_of_other hk he] at hb
        obtain hfirst | ⟨s, p', hfirst, hrest⟩ := bind_eq_error.mp hb
        · obtain ⟨read, hstuck⟩ := hr.stuck p scope e q h (by omega) hs hfirst
          refine ⟨read, hstuck.behind [] ?_ ?_⟩
          · rintro us - ⟨D, hD⟩
            exact ⟨.cons D none .nil, Text.fits_cons.mpr ⟨⟨hD, by decide⟩, Text.fits_nil.mpr rfl⟩⟩
          · intro us hus hfails hlen line
            rw [← Parser.peek_kind] at hus
            rw [List.nil_append] at hlen ⊢
            obtain ⟨k, rfl⟩ : ∃ k, m = k + 1 := ⟨m - 1, by omega⟩
            rw [untilKind_onto hk he hus]
            exact fst_bind_of_error (hfails (by omega) line)
        · obtain ⟨D, semicolon, rest, hD, rfl, rfl⟩ := (hr.reads p scope _ _ h (by omega)).mp hfirst
          have hlen : rest.length < n := by
            have := hD.length_lt
            omega
          obtain ⟨read, hstuck⟩ := ih (p := p.behind [D.tree scope] rest) (m := m - 1)
            (Sentence.tracks_replay h D) (by omega) (by omega) hlen (map_eq_error.mp hrest)
          have hstart := hD.text
          rw [hstart]
          refine ⟨_, hstuck.behind (D.closedTokens semicolon) ?_ ?_⟩
          · rintro us hus ⟨T, hT⟩
            obtain rfl : us = T.tokens ++ [] := hT.text
            exact ⟨.cons D semicolon T, Text.fits_cons.mpr
              ⟨hD.resume hus p.lastLine, Text.fits_behind.mp hT⟩⟩
          · intro us hus hfails hlen line
            have hfits := hD.resume (.inl hus) line
            have hshort := hfits.length_lt
            rw [Parser.onto_rest] at hshort
            have hread := (hr.reads' (p.onto (D.closedTokens semicolon ++ us) line) scope _ _ h
              (Nat.lt_of_lt_of_le hlen hm)).mpr ⟨D, semicolon, us, hfits, rfl, rfl⟩
            have hfirst : firstKind (D.closedTokens semicolon ++ us) .endOfInput = p.peek.kind := by
              rw [Parser.peek_kind, hstart, firstKind_append, firstKind_append, hus]
              rfl
            obtain ⟨k, rfl⟩ : ∃ k, m = k + 1 := ⟨m - 1, by omega⟩
            rw [untilKind_onto hk he hfirst, apply_bind_of_ok hread]
            exact fst_map_of_error (hfails (by simp only [Nat.add_sub_cancel]; omega) line)

theorem fst_block_of_error {t : TokenOf .openBrace} (hd : p.depth < p.limit)
    (hts : p.rest = t.1 :: ts)
    (h : ((untilKind .closeBrace r bound).apply (p.inside ts)).1 = .error e) :
    ((block bound r).apply p).1 = .error e := by
  rw [block_of_brace hd hts]
  generalize (untilKind .closeBrace r bound).apply (p.inside ts) = out at h
  obtain ⟨_, _⟩ := out
  cases h
  rfl

/-- A brace is missing, or the rule is stuck between braces. -/
theorem block_sticks (hr : SticksStatement bound bound' r r') :
    SticksBlock bound bound' (block bound r) (block bound' r') := by
  let closing : TokenOf .closeBrace := ⟨⟨.closeBrace, "\x7d", 1⟩, rfl⟩
  refine ⟨block_reads hr.reads, block_reads hr.reads', fun p scope e q h hp hs hb => ?_⟩
  by_cases hd : p.depth < p.limit
  · by_cases hk : p.peek.kind = .openBrace
    · obtain ⟨t, ts, hts⟩ := Parser.exists_token hk (by decide)
      have hlen : ts.length < bound := Parser.length_lt_of_token hts (Nat.lt_succ_of_lt hp)
      rw [block_of_brace hd hts] at hb
      split at hb
      · cases hb
      · rename_i p' hbody
        cases hb
        obtain ⟨read, hstuck⟩ := untilKind_sticks (p := p.inside ts) hr h (Nat.le_refl _)
          (Nat.le_refl _) hlen hs hbody
        rw [hts]
        refine ⟨_, hstuck.around [t.1] [closing.1] (by decide) ?_ ?_⟩
        · rintro us hus ⟨T, hT⟩
          obtain rfl : us = T.tokens ++ [] := hT.text
          refine ⟨.braces t T closing, Block.fits_braces.mpr ⟨hd, _, rfl, ?_⟩⟩
          rw [List.append_nil]
          exact hT.resume (.inr (by decide)) p.lastLine
        · intro us _ hfails hus line
          rw [List.singleton_append, List.length_cons] at hus
          exact fst_block_of_error (p := p.onto (t.1 :: us) line) hd rfl
            (hfails (by omega) line)
    · rw [block_of_other hd hk] at hb
      cases hb
      refine ⟨[], rfl, ⟨emptyBlock.tokens, by decide, _, emptyBlock_fits hd⟩, ?_⟩
      intro t rest more hrest _ line
      rw [Parser.peek_of_rest hrest] at hk ⊢
      rw [List.nil_append, block_of_other (p := p.onto (t :: more) line) hd hk]
      rfl
  · rw [block_of_deep hd] at hb
    cases hb
    exact hs.elim

theorem startsBinding_cons_map (k : Kind) (us : List Token) :
    StartsBinding (k :: (us.map Token.kind ++ [.endOfInput])) ↔ k = .identifier ∧
      (firstKind us .endOfInput = .colonEqual ∨ firstKind us .endOfInput = .assign) := by
  cases us <;> exact startsBinding_cons_cons

theorem startsBinding_rest : StartsBinding [p.peek.kind, p.peekSecond.kind] ↔
    StartsBinding (p.rest.map Token.kind ++ [.endOfInput]) := by
  cases hrest : p.rest with
  | nil => simp [StartsBinding, Parser.peek_of_rest_nil hrest]
  | cons t ts =>
    have hsecond : p.peekSecond.kind = firstKind ts .endOfInput := by
      rw [Parser.peekSecond, hrest]
      exact Parser.peek_kind { p with rest := ts }
    rw [Parser.peek_of_rest hrest, hsecond, startsBinding_cons_cons, List.map_cons,
      List.cons_append, startsBinding_cons_map]

/-- No binding begins at what does not begin with a name, and no mark comes in behind a name. -/
theorem not_startsBinding_of_resumes {read stop us : List Token} (hus : Resumes stop us)
    (hfresh : read = [] → firstKind stop .endOfInput ≠ .identifier)
    (h : ¬StartsBinding ((read ++ stop).map Token.kind ++ [.endOfInput])) :
    ¬StartsBinding ((read ++ us).map Token.kind ++ [.endOfInput]) := by
  cases read with
  | nil =>
    have hfirst : firstKind us .endOfInput ≠ .identifier := by
      obtain hsame | hneutral := hus
      · rw [hsame]
        exact hfresh rfl
      · intro hname
        rw [hname] at hneutral
        exact absurd hneutral (by decide)
    cases us with
    | nil => simp [StartsBinding]
    | cons t us =>
      rw [List.nil_append, List.map_cons, List.cons_append, startsBinding_cons_map]
      exact fun hs => hfirst hs.1
  | cons t read =>
    simp only [List.cons_append, List.map_cons, startsBinding_cons_map] at h ⊢
    obtain hsame | hneutral := hus.append_left read
    · rwa [hsame]
    · rintro ⟨-, hmark | hmark⟩ <;> rw [hmark] at hneutral <;> exact absurd hneutral (by decide)

section Bare

variable {expression expression' : Rule Expr} {block block' : Rule (List Stmt)}
variable (he : SticksInside (.tier .disjunction) (bound + 1) (bound' + 1) expression expression')
variable (hb : SticksBlock bound bound' block block')
variable (h : p.symbols.Tracks scope) (hp : p.rest.length < bound + 1) (hs : e.Structural)

include he hp hs

/-- Stuck in an expression behind some words, of which the derivation makes one of the statement,
together with what follows the expression in the shortest way. -/
theorem value_sticks (before after : List Token) (form : Expression → Sentence)
    (hts : p.rest = before ++ ts) (hafter : firstKind after .endOfInput ∈ neutral)
    (hv : expression.apply { p with rest := ts } = (.error e, q))
    (hfits : ∀ P, P.Fits (p.inside (P.tokens ++ after)) after →
      (form P).Fits { p with rest := before ++ (P.tokens ++ after) } scope [])
    (hfails : ∀ us line, (expression'.apply (p.onto us line)).1 = .error e →
      ((bareStatement expression' block').apply (p.onto (before ++ us) line)).1 = .error e) :
    StuckStatement scope (bound' + 1) (bareStatement expression' block') p q e := by
  have hlen : ts.length < bound + 1 := by
    rw [hts, List.length_append] at hp
    omega
  obtain ⟨read, hstuck, -⟩ := he.stuck { p with rest := ts } e q hlen hs hv
  rw [StuckStatement, hts]
  refine ⟨_, hstuck.around before after hafter ?_ ?_⟩
  · rintro us - ⟨P, hP⟩
    obtain rfl : us = P.tokens ++ [] := hP.text
    rw [List.append_nil]
    exact ⟨form P, hfits P (hP.resume (.inr hafter) p.lastLine)⟩
  · intro us _ hinner hus line
    rw [List.length_append] at hus
    exact hfails us line (hinner (by omega) line)

include h

/-- Stuck in an expression that is the statement. Its first two tokens do not become a binding. -/
theorem other_sticks (hb : ¬StartsBinding [p.peek.kind, p.peekSecond.kind])
    (hk : p.peek.kind ∉ [Kind.returnWord, .ifWord, .forWord])
    (hr : (bareStatement expression block).apply p = (.error e, q)) :
    StuckStatement scope (bound' + 1) (bareStatement expression' block') p q e := by
  rw [bareStatement_of_other hb hk, map_eq_error] at hr
  obtain ⟨read, hstuck, hfresh⟩ := he.stuck p e q hp hs hr
  have hbinding : ∀ us, Resumes q.rest us →
      ¬StartsBinding ((read ++ us).map Token.kind ++ [.endOfInput]) := by
    intro us hus
    rw [startsBinding_rest, hstuck.text] at hb
    refine not_startsBinding_of_resumes hus ?_ hb
    rintro rfl hname
    rw [Parser.peek_kind, hstuck.text] at hfresh
    exact hfresh rfl hname
  have hplain := hstuck.restrict
    (G := fun us => ¬StartsBinding (us.map Token.kind ++ [.endOfInput])) hbinding
  refine ⟨read, hplain.behind [] ?_ ?_⟩
  · rintro us - ⟨⟨P, hP⟩, hus⟩
    obtain rfl : us = P.tokens ++ [] := hP.text
    rw [List.append_nil] at hus
    exact ⟨.expr P, (Sentence.fits_expr (p := { p with rest := P.tokens ++ [] }) h).mpr ⟨hP, hus⟩⟩
  · rintro us hfirst ⟨hfails, hus⟩ hlen line
    have hkind : (p.onto us line).peek.kind = p.peek.kind := by
      rw [Parser.peek_kind, Parser.peek_kind, Parser.onto_rest, hfirst]
    have hother : (p.onto us line).peek.kind ∉ [Kind.returnWord, .ifWord, .forWord] := by
      rwa [hkind]
    have hplain : ¬StartsBinding [(p.onto us line).peek.kind, (p.onto us line).peekSecond.kind] :=
      fun hstart => hus (startsBinding_rest.mp hstart)
    rw [List.nil_append, bareStatement_of_other hplain hother]
    exact fst_map_of_error (hfails hlen line)

theorem assignment_sticks {t : TokenOf .identifier} {m : TokenOf .assign}
    (hts : p.rest = t.1 :: m.1 :: ts)
    (hr : (bareStatement expression block).apply p = (.error e, q)) :
    StuckStatement scope (bound' + 1) (bareStatement expression' block') p q e := by
  have hlen : ts.length < bound + 1 := by
    rw [hts, List.length_cons, List.length_cons] at hp
    omega
  rw [bareStatement_of_assignment hts] at hr
  by_cases hc : p.symbols.contains t.1.lexeme = true
  · rw [if_pos hc] at hr
    obtain hv | ⟨value, p', hv, hd⟩ := bind_eq_error.mp hr
    · refine value_sticks he hp hs [t.1, m.1] [] (.assign t m) hts (by decide) hv
        (fun P hP => ?_) fun us line hfails => ?_
      · exact (Sentence.fits_assign
          (p := { p with rest := t.1 :: m.1 :: (P.tokens ++ []) }) h).mpr ⟨_, rfl, hc, hP⟩
      · rw [List.cons_append, List.singleton_append,
          bareStatement_of_assignment (p := p.onto (t.1 :: m.1 :: us) line) rfl,
          if_pos (show (p.onto _ line).symbols.contains t.1.lexeme = true from hc)]
        exact fst_bind_of_error hfails
    · obtain ⟨P, rest, hP, rfl, rfl⟩ := (he.reads.eq_ok h hlen).mp hv
      rw [map_eq_error, apply_assign, if_pos hc] at hd
      cases hd
  · rw [if_neg hc] at hr
    cases hr
    exact hs.elim

theorem declaration_sticks {t : TokenOf .identifier} {m : TokenOf .colonEqual}
    (hts : p.rest = t.1 :: m.1 :: ts)
    (hr : (bareStatement expression block).apply p = (.error e, q)) :
    StuckStatement scope (bound' + 1) (bareStatement expression' block') p q e := by
  rw [bareStatement_of_declaration hts] at hr
  obtain hv | ⟨value, p', -, hd⟩ := bind_eq_error.mp hr
  · refine value_sticks he hp hs [t.1, m.1] [] (.declare t m) hts (by decide) hv
      (fun P hP => ?_) fun us line hfails => ?_
    · exact (Sentence.fits_declare
        (p := { p with rest := t.1 :: m.1 :: (P.tokens ++ []) }) h).mpr ⟨_, rfl, hP⟩
    · rw [List.cons_append, List.singleton_append,
        bareStatement_of_declaration (p := p.onto (t.1 :: m.1 :: us) line) rfl]
      exact fst_bind_of_error hfails
  · rw [map_eq_error, apply_declare] at hd
    cases hd

theorem return_sticks {t : TokenOf .returnWord} (hts : p.rest = t.1 :: ts)
    (hr : (bareStatement expression block).apply p = (.error e, q)) :
    StuckStatement scope (bound' + 1) (bareStatement expression' block') p q e := by
  rw [bareStatement_of_return hts, map_eq_error] at hr
  refine value_sticks he hp hs [t.1] [] (.ret t) hts (by decide) hr (fun P hP => ?_)
    fun us line hfails => ?_
  · exact (Sentence.fits_ret (p := { p with rest := t.1 :: (P.tokens ++ []) }) h).mpr ⟨_, rfl, hP⟩
  · rw [List.singleton_append, bareStatement_of_return (p := p.onto (t.1 :: us) line) rfl]
    exact fst_map_of_error hfails

include hb

theorem body_sticks {t : Token} {C : Expression} {rest : List Token} (form : Block → Sentence)
    (hts : p.rest = t :: (C.tokens ++ rest)) (hC : C.Fits (p.inside (C.tokens ++ rest)) rest)
    (hbody : block.apply { p with rest := rest } = (.error e, q))
    (hfits : ∀ B us, us = B.tokens ++ [] → C.Fits (p.inside (C.tokens ++ us)) us →
      B.Fits { p with rest := us } scope [] →
        (form B).Fits { p with rest := t :: (C.tokens ++ us) } scope [])
    (hfails : ∀ us line, expression'.apply (p.onto (C.tokens ++ us) line) =
        (.ok (C.tree (latest scope)), p.onto us line) →
      (block'.apply (p.onto us line)).1 = .error e →
        ((bareStatement expression' block').apply (p.onto (t :: (C.tokens ++ us)) line)).1 =
          .error e) :
    StuckStatement scope (bound' + 1) (bareStatement expression' block') p q e := by
  have hlen : rest.length < bound := by
    rw [hts, List.length_cons, List.length_append] at hp
    omega
  obtain ⟨read, hstuck⟩ := hb.stuck { p with rest := rest } scope e q h hlen hs hbody
  rw [StuckStatement, hts]
  refine ⟨_, hstuck.behind (t :: C.tokens) ?_ ?_⟩
  · rintro us hus ⟨B, hB⟩
    exact ⟨form B, hfits B us hB.text (hC.resume hus p.lastLine) hB⟩
  · intro us hus hinner hshort line
    rw [List.cons_append] at hshort ⊢
    rw [List.length_cons] at hshort
    have hread := (he.reads'.eq_ok (p := p.onto [] line) h (Nat.lt_of_succ_lt hshort)).mpr
      ⟨C, us, hC.resume (.inl hus) line, rfl, rfl⟩
    rw [List.length_append] at hshort
    exact hfails us line hread (hinner (by omega) line)

theorem loop_sticks {t : TokenOf .forWord} (hts : p.rest = t.1 :: ts)
    (hr : (bareStatement expression block).apply p = (.error e, q)) :
    StuckStatement scope (bound' + 1) (bareStatement expression' block') p q e := by
  have hlen : ts.length < bound + 1 := by
    rw [hts, List.length_cons] at hp
    omega
  rw [bareStatement_of_for hts] at hr
  obtain hc | ⟨c, p₁, hc, hnext⟩ := bind_eq_error.mp hr
  · refine value_sticks he hp hs [t.1] emptyBlock.tokens (fun P => .loop t P emptyBlock) hts
      (by decide) hc (fun P hP => ?_) fun us line hfails => ?_
    · exact (Sentence.fits_loop (p := { p with rest := t.1 :: (P.tokens ++ emptyBlock.tokens) })
        h).mpr ⟨_, rfl, hP, emptyBlock_fits hP.depth_lt⟩
    · rw [List.singleton_append, bareStatement_of_for (p := p.onto (t.1 :: us) line) rfl]
      exact fst_bind_of_error hfails
  · obtain ⟨C, rest, hC, rfl, rfl⟩ := (he.reads.eq_ok h hlen).mp hc
    obtain rfl : ts = C.tokens ++ rest := hC.text
    rw [map_eq_error] at hnext
    refine body_sticks he hb h hp hs (fun B => .loop t C B) hts hC hnext
      (fun B us hus hC hB => ?_) fun us line hread hfails => ?_
    · subst hus
      exact (Sentence.fits_loop (p := { p with rest := t.1 :: (C.tokens ++ (B.tokens ++ [])) })
        h).mpr ⟨_, rfl, hC, hB⟩
    · rw [bareStatement_of_for (p := p.onto (t.1 :: (C.tokens ++ us)) line) rfl]
      refine (congrArg Prod.fst (apply_bind_of_ok hread)).trans ?_
      exact fst_map_of_error hfails

theorem alternate_sticks {t : TokenOf .ifWord} {C : Expression} {B : Block} {w : TokenOf .elseWord}
    {ws : List Token} (hts : p.rest = t.1 :: (C.tokens ++ (B.tokens ++ w.1 :: ws)))
    (hC : C.Fits (p.inside (C.tokens ++ (B.tokens ++ w.1 :: ws))) (B.tokens ++ w.1 :: ws))
    (hB : B.Fits { p with rest := B.tokens ++ w.1 :: ws } scope (w.1 :: ws))
    (hr : block.apply (p.behind (B.trees scope) ws) = (.error e, q)) :
    StuckStatement scope (bound' + 1) (bareStatement expression' block') p q e := by
  have hlen : ws.length < bound := by
    simp only [hts, List.length_cons, List.length_append] at hp
    omega
  obtain ⟨read, hstuck⟩ := hb.stuck (p.behind (B.trees scope) ws) _ e q (Block.tracks_replay h B)
    hlen hs hr
  have hsplit (us : List Token) : t.1 :: (C.tokens ++ (B.tokens ++ w.1 :: us)) =
      t.1 :: (C.tokens ++ (B.tokens ++ [w.1])) ++ us := by simp
  have hresumes (us : List Token) : Resumes (B.tokens ++ w.1 :: ws) (B.tokens ++ w.1 :: us) := by
    have hword : Resumes (w.1 :: ws) (w.1 :: us) := .inl rfl
    exact hword.append_left B.tokens
  rw [StuckStatement, hts, hsplit]
  refine ⟨_, hstuck.behind _ ?_ ?_⟩
  · rintro us - ⟨A, hA⟩
    obtain rfl : us = A.tokens ++ [] := hA.text
    rw [← hsplit]
    exact ⟨.ifElse t C B w A, (Sentence.fits_ifElse
      (p := { p with rest := t.1 :: (C.tokens ++ (B.tokens ++ w.1 :: (A.tokens ++ []))) })
        h).mpr ⟨_, rfl, hC.resume (hresumes _) p.lastLine, hB.resume _ p.lastLine,
          Block.fits_behind.mp hA⟩⟩
  · intro us _ hinner hshort line
    rw [← hsplit] at hshort ⊢
    simp only [List.length_cons, List.length_append] at hshort
    have hcondition := (he.reads'.eq_ok (p := p.onto [] line) h
      (by simp only [List.length_cons, List.length_append]; omega)).mpr
        ⟨C, _, hC.resume (hresumes us) line, rfl, rfl⟩
    let body := p.onto (B.tokens ++ w.1 :: us) line
    have hconsequent := (hb.reads' body scope _ _ h
      (by simp only [body, Parser.onto_rest, List.length_cons, List.length_append]; omega)).mpr
        ⟨B, _, hB.resume _ line, rfl, rfl⟩
    have helse : (accept .elseWord).apply (body.behind (B.trees scope) (w.1 :: us)) =
        (.ok true, (p.behind (B.trees scope) ws).onto us line) := by
      rw [apply_accept, Parser.peek_kind, Parser.behind_rest, firstKind_cons, if_pos w.2,
        Parser.advance_of_token rfl (by decide)]
      rfl
    rw [bareStatement_of_if (p := p.onto (t.1 :: (C.tokens ++ (B.tokens ++ w.1 :: us))) line) rfl]
    refine (congrArg Prod.fst (apply_bind_of_ok hcondition)).trans ?_
    refine (congrArg Prod.fst (apply_bind_of_ok hconsequent)).trans ?_
    rw [apply_bind_of_ok helse, if_pos rfl]
    exact fst_map_of_error (hinner (by omega) line)

theorem if_sticks {t : TokenOf .ifWord} (hts : p.rest = t.1 :: ts)
    (hr : (bareStatement expression block).apply p = (.error e, q)) :
    StuckStatement scope (bound' + 1) (bareStatement expression' block') p q e := by
  have hlen : ts.length < bound := Parser.length_lt_of_token hts hp
  rw [bareStatement_of_if hts] at hr
  obtain hc | ⟨c, p₁, hc, hnext⟩ := bind_eq_error.mp hr
  · refine value_sticks he hp hs [t.1] emptyBlock.tokens (fun P => .ifThen t P emptyBlock) hts
      (by decide) hc (fun P hP => ?_) fun us line hfails => ?_
    · exact (Sentence.fits_ifThen (p := { p with rest := t.1 :: (P.tokens ++ emptyBlock.tokens) })
        h).mpr ⟨_, rfl, hP, emptyBlock_fits hP.depth_lt, by decide⟩
    · rw [List.singleton_append, bareStatement_of_if (p := p.onto (t.1 :: us) line) rfl]
      exact fst_bind_of_error hfails
  obtain ⟨C, rest, hC, rfl, rfl⟩ := (he.reads.eq_ok h (Nat.lt_succ_of_lt hlen)).mp hc
  obtain rfl : ts = C.tokens ++ rest := hC.text
  obtain hbody | ⟨b, p₂, hbody, hbranch⟩ := bind_eq_error.mp hnext
  · refine body_sticks he hb h hp hs (fun B => .ifThen t C B) hts hC hbody
      (fun B us hus hC hB => ?_) fun us line hread hfails => ?_
    · subst hus
      exact (Sentence.fits_ifThen (p := { p with rest := t.1 :: (C.tokens ++ (B.tokens ++ [])) })
        h).mpr ⟨_, rfl, hC, hB, by decide⟩
    · rw [bareStatement_of_if (p := p.onto (t.1 :: (C.tokens ++ us)) line) rfl]
      refine (congrArg Prod.fst (apply_bind_of_ok hread)).trans ?_
      exact fst_bind_of_error hfails
  have hshort : rest.length < bound := by
    rw [List.length_append] at hlen
    omega
  obtain ⟨B, rest, hB, rfl, rfl⟩ := (hb.reads { p with rest := rest } scope _ _ h hshort).mp hbody
  obtain rfl := hB.text
  obtain haccept | ⟨more, p₃, haccept, hlast⟩ := bind_eq_error.mp hbranch
  · exact absurd haccept accept_ne_error
  rw [apply_accept, Parser.peek_kind, Parser.behind_rest] at haccept
  by_cases hk : firstKind rest .endOfInput = .elseWord
  · obtain ⟨w, ws, rfl⟩ : ∃ (w : TokenOf .elseWord) (ws : List Token), rest = w.1 :: ws :=
      Parser.exists_token (p := { p with rest := rest }) (by rwa [Parser.peek_kind]) (by decide)
    rw [if_pos hk, Parser.advance_of_token rfl (by decide)] at haccept
    cases haccept
    rw [if_pos rfl, map_eq_error] at hlast
    exact alternate_sticks he hb h hp hs hts hC hB hlast
  · rw [if_neg hk] at haccept
    cases haccept
    cases hlast

/-- The first two tokens decide which statement it is, also of every way to go on. -/
theorem bareStatement_sticks (hr : (bareStatement expression block).apply p = (.error e, q)) :
    StuckStatement scope (bound' + 1) (bareStatement expression' block') p q e := by
  by_cases hstart : StartsBinding [p.peek.kind, p.peekSecond.kind]
  · obtain ⟨t, m, ts, hts⟩ | ⟨t, m, ts, hts⟩ := exists_binding_tokens hstart
    · exact declaration_sticks he h hp hs hts hr
    · exact assignment_sticks he h hp hs hts hr
  · by_cases hk : p.peek.kind ∈ [Kind.returnWord, .ifWord, .forWord]
    · obtain ⟨t, ts, hts⟩ | ⟨t, ts, hts⟩ | ⟨t, ts, hts⟩ := exists_word_token hk
      · exact return_sticks he h hp hs hts hr
      · exact if_sticks he hb h hp hs hts hr
      · exact loop_sticks he hb h hp hs hts hr
    · exact other_sticks he h hp hs hstart hk hr

end Bare

theorem statement_sticks (bound bound' : Nat) :
    SticksStatement bound bound' (statement bound) (statement bound') := by
  -- Induction on the bound: a block calls the rule behind its brace.
  induction bound generalizing bound' with
  | zero =>
    exact ⟨statement_reads 0, statement_reads bound',
      fun p scope e q h hp => absurd hp (Nat.not_lt_zero _)⟩
  | succ n ih =>
    refine ⟨statement_reads (n + 1), statement_reads bound', fun p scope e q h hp hs hr => ?_⟩
    obtain hbare | ⟨s, p', -, hrest⟩ := bind_eq_error.mp hr
    · obtain ⟨read, hstuck⟩ := bareStatement_sticks (expression_sticks (n + 1) (bound' - 1 + 1))
        (block_sticks (ih (bound' - 1))) h hp hs hbare
      refine ⟨read, hstuck.imp (fun _ hD => hD) fun us hfails hlen line => ?_⟩
      obtain ⟨m, rfl⟩ : ∃ m, bound' = m + 1 := ⟨bound' - 1, by omega⟩
      exact fst_bind_of_error (hfails hlen line)
    · obtain haccept | ⟨_, _, _, hpure⟩ := bind_eq_error.mp hrest
      · exact absurd haccept accept_ne_error
      · cases hpure

end Rule

end TinyCompiler
