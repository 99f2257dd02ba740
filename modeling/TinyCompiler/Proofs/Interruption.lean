import TinyCompiler.Proofs.BlockReading
import TinyCompiler.Proofs.Skimming

/-! How a statement that fails has been read so far. Outside the statements completed inside its
blocks, no token that binds a name is read, but for the last one, if the value behind it cannot
be read. -/
namespace TinyCompiler

open Grammar

namespace Parser

/-- A reading that completes these statements on its way, at the depth of the braces that are
open. -/
inductive Passes : Parser → List Stmt → Parser → Prop where
  | refl (p : Parser) : Passes p [] p
  | skim {p q r : Parser} {done : List Stmt} (h : p.Skims q) (more : Passes q done r) :
      Passes p done r
  | opening {p q : Parser} {done : List Stmt} (t : TokenOf .openBrace) (ts : List Token)
      (h : p.rest = t.1 :: ts) (more : Passes (p.inside ts) done q) : Passes p done q
  | closing {p q : Parser} {done : List Stmt} (t : TokenOf .closeBrace) (ts : List Token)
      (h : p.rest = t.1 :: ts)
      (more : Passes { p with rest := ts, depth := p.depth - 1 } done q) : Passes p done q
  | statement {p q r : Parser} {s : Stmt} {done : List Stmt} (h : p.statement = (.ok s, q))
      (more : Passes q done r) : Passes p (s :: done) r

/-- A reading that ends with no mark, or inside the value that belongs to one. -/
inductive Stops : Parser → Parser → Prop where
  | words {p q : Parser} (h : p.Skims q) : Stops p q
  | value {p q : Parser} (mark : Token) (ts : List Token) (h : p.rest = mark :: ts)
      (hm : mark.kind = .colonEqual ∨ mark.kind = .assign)
      (fails : ∀ e p', { p with rest := ts }.expression ≠ (.ok e, p'))
      (skims : { p with rest := ts }.Skims q) : Stops p q

/-- A reading that stops, and gives back its depth. -/
def Breaks (p q : Parser) : Prop :=
  ∃ (done : List Stmt) (stop last : Parser),
    p.Passes done stop ∧ stop.Stops last ∧ q = { last with depth := p.depth }

variable {p q r : Parser} {done : List Stmt} {scope : List String}

theorem Passes.trans {more : List Stmt} (h : p.Passes done q) (h' : q.Passes more r) :
    p.Passes (done ++ more) r := by
  induction h with
  | refl p => exact h'
  | skim h _ ih => exact .skim h (ih h')
  | opening t ts h _ ih => exact .opening t ts h (ih h')
  | closing t ts h _ ih => exact .closing t ts h (ih h')
  | statement h _ ih => exact .statement h (ih h')

theorem Breaks.of_stops (h : p.Stops q) (hd : q.depth = p.depth) : p.Breaks q :=
  ⟨[], p, q, .refl p, h, by rw [← hd]⟩

theorem Breaks.of_skims (h : p.Skims q) : p.Breaks q := .of_stops (.words h) h.depth

theorem Breaks.refl (p : Parser) : p.Breaks p := .of_skims (.refl p)

theorem Breaks.depth (h : p.Breaks q) : q.depth = p.depth := by
  obtain ⟨_, _, _, _, _, rfl⟩ := h
  rfl

theorem Passes.breaks (h : p.Passes done q) (hd : q.depth = p.depth) (h' : q.Breaks r) :
    p.Breaks r := by
  obtain ⟨more, stop, last, hp, hs, rfl⟩ := h'
  exact ⟨done ++ more, stop, last, h.trans hp, hs, by rw [hd]⟩

theorem Skims.breaks (h : p.Skims q) (h' : q.Breaks r) : p.Breaks r :=
  Passes.breaks (.skim h (.refl q)) h.depth h'

theorem Breaks.opening {t : TokenOf .openBrace} {ts : List Token} (h : p.rest = t.1 :: ts)
    (h' : (p.inside ts).Breaks q) : p.Breaks { q with depth := q.depth - 1 } := by
  have hd : q.depth = p.depth + 1 := h'.depth
  obtain ⟨done, stop, last, hp, hs, rfl⟩ := h'
  exact ⟨done, stop, last, .opening t ts h hp, hs, rfl⟩

end Parser

namespace Rule

variable {p q : Parser} {scope : List String} {ts : List Token} {bound n : Nat} {close : Kind}
variable {b : List Stmt} {s : Stmt} {r : Rule Stmt} {error : SyntaxError}

theorem ReadsStatement.statement_eq_ok (hr : ReadsStatement bound r) (h : p.symbols.Tracks scope)
    (hp : p.rest.length < bound) (hs : r.apply p = (.ok s, q)) : p.statement = (.ok s, q) :=
  (Parser.statement_eq_ok h).mpr ((hr p scope s q h hp).mp hs)

theorem Skims.of_apply {α : Type} {r : Rule α} {result : Except SyntaxError α} (h : r.Skims)
    (hr : r.apply p = (result, q)) : p.Skims q := by
  have hp := h p
  rwa [hr] at hp

def Passes (bound : Nat) (r : Rule (List Stmt)) : Prop :=
  ∀ (p : Parser) scope b q, p.symbols.Tracks scope → p.rest.length < bound →
    r.apply p = (.ok b, q) → p.Passes b q

def Breaks {α : Type} (bound : Nat) (r : Rule α) : Prop :=
  ∀ (p : Parser) scope error q, p.symbols.Tracks scope → p.rest.length < bound →
    r.apply p = (.error error, q) → p.Breaks q

theorem untilKind_passes (hr : ReadsStatement bound r) (h : p.symbols.Tracks scope)
    (hn : n ≤ bound) (hp : p.rest.length < n)
    (hb : (untilKind close r n).apply p = (.ok b, q)) : p.Passes b q := by
  -- Induction on the bound of the loop, which every statement lowers by one.
  induction n generalizing p scope b with
  | zero => omega
  | succ n ih =>
    by_cases hk : p.peek.kind = close
    · rw [untilKind_of_close hk] at hb
      cases hb
      exact .refl _
    · by_cases he : p.peek.kind = .endOfInput
      · rw [untilKind_of_end hk he] at hb
        cases hb
      · rw [untilKind_of_other hk he] at hb
        obtain ⟨s, p', hs, hrest⟩ := bind_eq_ok.mp hb
        obtain ⟨b, hb, rfl⟩ := map_eq_ok.mp hrest
        have hstatement := hr.statement_eq_ok h (by omega) hs
        obtain ⟨D, semicolon, rest, hD, rfl, rfl⟩ := (hr p scope _ _ h (by omega)).mp hs
        have hlen : rest.length < n := by
          have := hD.length_lt
          omega
        exact .statement hstatement (ih (p := p.behind [D.tree scope] rest)
          (Sentence.tracks_replay h D) (by omega) hlen hb)

theorem untilKind_breaks (hr : ReadsStatement bound r) (hbreaks : Breaks bound r)
    (h : p.symbols.Tracks scope) (hn : n ≤ bound) (hp : p.rest.length < n)
    (hb : (untilKind close r n).apply p = (.error error, q)) : p.Breaks q := by
  induction n generalizing p scope with
  | zero => omega
  | succ n ih =>
    by_cases hk : p.peek.kind = close
    · rw [untilKind_of_close hk] at hb
      cases hb
    · by_cases he : p.peek.kind = .endOfInput
      · rw [untilKind_of_end hk he] at hb
        cases hb
        exact .refl _
      · rw [untilKind_of_other hk he] at hb
        obtain hs | ⟨s, p', hs, hrest⟩ := bind_eq_error.mp hb
        · exact hbreaks p scope _ _ h (by omega) hs
        · have hstatement := hr.statement_eq_ok h (by omega) hs
          obtain ⟨D, semicolon, rest, hD, rfl, rfl⟩ := (hr p scope _ _ h (by omega)).mp hs
          have hlen : rest.length < n := by
            have := hD.length_lt
            omega
          have hmore := ih (p := p.behind [D.tree scope] rest) (Sentence.tracks_replay h D)
            (by omega) hlen (map_eq_error.mp hrest)
          exact Parser.Passes.breaks (.statement hstatement (.refl _)) rfl hmore

theorem block_passes (hr : ReadsStatement bound r) : Passes bound (block bound r) := by
  intro p scope b q h hp hb
  have hd : p.depth < p.limit := by
    by_contra hd
    rw [block_of_deep hd] at hb
    cases hb
  have hk : p.peek.kind = .openBrace := by
    by_contra hk
    rw [block_of_other hd hk] at hb
    cases hb
  obtain ⟨t, ts, hts⟩ := Parser.exists_token hk (by decide)
  have hlen : ts.length < bound := Parser.length_lt_of_token hts (Nat.lt_succ_of_lt hp)
  rw [block_of_brace hd hts] at hb
  split at hb
  · rename_i b' p' hbody
    cases hb
    have hinner := untilKind_passes (p := p.inside ts) hr h (Nat.le_refl _) hlen hbody
    obtain ⟨T, rest, -, hrest, -, rfl⟩ :=
      (untilKind_eq_ok (p := p.inside ts) hr (by decide) h (Nat.le_refl _) hlen).mp hbody
    obtain ⟨u, us, rfl⟩ : ∃ (u : TokenOf .closeBrace) (us : List Token), rest = u.1 :: us :=
      Parser.exists_token (p := { p with rest := rest }) (by rwa [Parser.peek_kind]) (by decide)
    rw [Parser.advance_of_token rfl (by decide)]
    have hclosing := hinner.trans (.closing u us rfl (.refl _))
    rw [List.append_nil] at hclosing
    exact .opening t ts hts hclosing
  · cases hb

theorem block_breaks (hr : ReadsStatement bound r) (hbreaks : Breaks bound r) :
    Breaks bound (block bound r) := by
  intro p scope error q h hp hb
  by_cases hd : p.depth < p.limit
  · by_cases hk : p.peek.kind = .openBrace
    · obtain ⟨t, ts, hts⟩ := Parser.exists_token hk (by decide)
      have hlen : ts.length < bound := Parser.length_lt_of_token hts (Nat.lt_succ_of_lt hp)
      rw [block_of_brace hd hts] at hb
      split at hb
      · cases hb
      · rename_i e p' hbody
        cases hb
        exact .opening hts (untilKind_breaks (p := p.inside ts) hr hbreaks h (Nat.le_refl _)
          hlen hbody)
    · rw [block_of_other hd hk] at hb
      cases hb
      exact .refl _
  · rw [block_of_deep hd] at hb
    cases hb
    exact .refl _

section Bare

variable {expression : Rule Expr} {block : Rule (List Stmt)}
variable (he : ReadsInside (.tier .disjunction) (bound + 1) expression)
variable (hs : expression.Skims) (h : p.symbols.Tracks scope) (hp : p.rest.length < bound + 1)

include he hs hp

/-- The value of a binding is not read. -/
theorem value_breaks {t : TokenOf .identifier} {m : Token} (hts : p.rest = t.1 :: m :: ts)
    (hm : m.kind = .colonEqual ∨ m.kind = .assign)
    (hv : expression.apply { p with rest := ts } = (.error error, q)) : p.Breaks q := by
  have hlen : ts.length < bound + 1 := by
    rw [hts, List.length_cons, List.length_cons] at hp
    omega
  have hskims := hs.of_apply hv
  have hfails : ∀ e p', { p with rest := ts }.expression ≠ (.ok e, p') := by
    intro e p' hok
    have hread := (expression_reads _ _ _ _ (Nat.lt_succ_self _)).mp hok
    have hok' := (he { p with rest := ts } _ _ hlen).mpr hread
    rw [hok'] at hv
    cases hv
  have hstop : Parser.Stops { p with rest := m :: ts } q := .value m ts rfl hm hfails hskims
  exact Parser.Skims.breaks (.token hts (by rw [t.2]; decide))
    (.of_stops hstop hskims.depth)

omit he
include h

theorem condition_skims {t : Token} {e : Expr} (hts : p.rest = t :: ts)
    (hc : expression.apply { p with rest := ts } = (.ok e, q)) :
    Parser.Skims { p with rest := ts } q ∧ q.rest.length < bound ∧ q.symbols.Tracks scope := by
  have hskims := hs.of_apply hc
  have hlen := hskims.length_le
  rw [hts, List.length_cons] at hp
  dsimp only at hlen
  exact ⟨hskims, by omega, by rw [hskims.symbols]; exact h⟩

theorem if_breaks (hb : ReadsBlock bound block) (hpasses : Passes bound block)
    (hbreaks : Breaks bound block) {t : TokenOf .ifWord} (hts : p.rest = t.1 :: ts)
    (hr : (bareStatement expression block).apply p = (.error error, q)) : p.Breaks q := by
  have htoken : p.Skims { p with rest := ts } := .token hts (by rw [t.2]; decide)
  rw [bareStatement_of_if hts] at hr
  obtain hc | ⟨e, p₁, hc, hr⟩ := bind_eq_error.mp hr
  · exact .of_skims (htoken.trans (hs.of_apply hc))
  · obtain ⟨hskims, hlen, htracks⟩ := condition_skims hs h hp hts hc
    obtain hconsequent | ⟨b, p₂, hconsequent, hr⟩ := bind_eq_error.mp hr
    · exact (htoken.trans hskims).breaks (hbreaks p₁ scope _ _ htracks hlen hconsequent)
    · have hpass := hpasses p₁ scope _ _ htracks hlen hconsequent
      obtain ⟨B, rest, hB, rfl, rfl⟩ := (hb p₁ scope _ _ htracks hlen).mp hconsequent
      obtain haccept | ⟨more, p₃, haccept, hr⟩ := bind_eq_error.mp hr
      · exact absurd haccept accept_ne_error
      rw [apply_accept, Parser.peek_kind, Parser.behind_rest] at haccept
      by_cases hk : firstKind rest .endOfInput = .elseWord
      · obtain ⟨w, ws, rfl⟩ : ∃ (w : TokenOf .elseWord) (ws : List Token),
            rest = w.1 :: ws :=
          Parser.exists_token (p := { p₁ with rest := rest }) (by rwa [Parser.peek_kind])
            (by decide)
        rw [if_pos hk, Parser.advance_of_token rfl (by decide)] at haccept
        cases haccept
        rw [if_pos rfl, map_eq_error] at hr
        have hws : ws.length < bound := by
          have := hB.length_lt
          simp only [List.length_cons] at this
          omega
        have hword : (p₁.behind (B.trees scope) (w.1 :: ws)).Skims
            (p₁.behind (B.trees scope) ws) := .token rfl (by rw [w.2]; decide)
        have halternate := hbreaks (p₁.behind (B.trees scope) ws) _ _ _
          (Block.tracks_replay htracks B) hws hr
        exact (htoken.trans hskims).breaks (hpass.breaks rfl (hword.breaks halternate))
      · rw [if_neg hk] at haccept
        cases haccept
        cases hr

theorem for_breaks (hbreaks : Breaks bound block) {t : TokenOf .forWord}
    (hts : p.rest = t.1 :: ts)
    (hr : (bareStatement expression block).apply p = (.error error, q)) : p.Breaks q := by
  have htoken : p.Skims { p with rest := ts } := .token hts (by rw [t.2]; decide)
  rw [bareStatement_of_for hts] at hr
  obtain hc | ⟨e, p₁, hc, hr⟩ := bind_eq_error.mp hr
  · exact .of_skims (htoken.trans (hs.of_apply hc))
  · obtain ⟨hskims, hlen, htracks⟩ := condition_skims hs h hp hts hc
    rw [map_eq_error] at hr
    exact (htoken.trans hskims).breaks (hbreaks p₁ scope _ _ htracks hlen hr)

include he

theorem bareStatement_breaks (hb : ReadsBlock bound block)
    (hpasses : Passes bound block) (hbreaks : Breaks bound block)
    (hr : (bareStatement expression block).apply p = (.error error, q)) : p.Breaks q := by
  by_cases hstart : StartsBinding [p.peek.kind, p.peekSecond.kind]
  · obtain ⟨t, m, ts, hts⟩ | ⟨t, m, ts, hts⟩ := exists_binding_tokens hstart
    · rw [bareStatement_of_declaration hts] at hr
      obtain hv | ⟨e, p', -, hd⟩ := bind_eq_error.mp hr
      · exact value_breaks he hs hp hts (.inl m.2) hv
      · rw [map_eq_error, apply_declare] at hd
        cases hd
    · rw [bareStatement_of_assignment hts] at hr
      by_cases hc : p.symbols.contains t.1.lexeme = true
      · rw [if_pos hc] at hr
        obtain hv | ⟨e, p', hv, hd⟩ := bind_eq_error.mp hr
        · exact value_breaks he hs hp hts (.inr m.2) hv
        · have hsymbols : p'.symbols = p.symbols := (hs.of_apply hv).symbols
          rw [map_eq_error, apply_assign, hsymbols, if_pos hc] at hd
          cases hd
      · rw [if_neg hc] at hr
        cases hr
        exact .refl _
  · by_cases hk : p.peek.kind ∈ [Kind.returnWord, .ifWord, .forWord]
    · obtain ⟨t, ts, hts⟩ | ⟨t, ts, hts⟩ | ⟨t, ts, hts⟩ := exists_word_token hk
      · have htoken : p.Skims { p with rest := ts } := .token hts (by rw [t.2]; decide)
        rw [bareStatement_of_return hts, map_eq_error] at hr
        exact .of_skims (htoken.trans (hs.of_apply hr))
      · exact if_breaks hs h hp hb hpasses hbreaks hts hr
      · exact for_breaks hs h hp hbreaks hts hr
    · rw [bareStatement_of_other hstart hk, map_eq_error] at hr
      exact .of_skims (hs.of_apply hr)

end Bare

theorem statement_breaks (bound : Nat) : Breaks bound (statement bound) := by
  induction bound with
  | zero =>
    intro p scope error q h hp
    omega
  | succ n ih =>
    intro p scope error q h hp hr
    obtain hbare | ⟨s, p', -, hrest⟩ := bind_eq_error.mp hr
    · exact bareStatement_breaks (expression_reads (n + 1)) (expression_skims (n + 1)) h hp
        (block_reads (statement_reads n)) (block_passes (statement_reads n))
        (block_breaks (statement_reads n) ih) hbare
    · obtain haccept | ⟨_, _, _, hpure⟩ := bind_eq_error.mp hrest
      · exact absurd haccept accept_ne_error
      · cases hpure

end Rule

namespace Parser

variable {p q : Parser} {done : List Stmt} {scope : List String}

theorem expression_skims (p : Parser) : p.Skims p.expression.2 := Rule.expression_skims _ p

theorem statement_breaks {error : SyntaxError} (h : p.symbols.Tracks scope)
    (hs : p.statement = (.error error, q)) : p.Breaks q :=
  Rule.statement_breaks _ p scope error q h (Nat.lt_succ_self _) hs

end Parser

end TinyCompiler
