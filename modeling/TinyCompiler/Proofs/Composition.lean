import TinyCompiler.Proofs.Progress
import TinyCompiler.Proofs.Resumption

/-! Programs compose at a semicolon. No statement but the last sees what follows the list of
tokens, and a semicolon behind the last one closes it, since no statement has one at its own end. So
the rounds of a program go on with those of the tokens behind it. -/
namespace TinyCompiler

open Grammar

namespace Grammar

variable {p : Parser} {scope : List String} {rest : List Token} {D : Sentence}
variable {semicolon : Option (TokenOf .semicolon)}

/-- A statement that takes all tokens up to a semicolon takes that one too. -/
theorem Sentence.FitsClosed.isSome (h : D.FitsClosed semicolon p scope [])
    (hend : ∀ t, p.rest.getLast? = some t → t.kind = .semicolon) : semicolon.isSome := by
  cases semicolon with
  | some mark => rfl
  | none =>
    obtain ⟨t, ht, hk⟩ := D.exists_last
    rw [hend t (by rw [h.1.text, List.append_nil, ht])] at hk
    exact absurd hk (by decide)

/-- A statement that does not see the end of the tokens does not see what is put behind them. -/
theorem Sentence.FitsClosed.extend (h : D.FitsClosed semicolon p scope rest)
    (hend : ∀ t, p.rest.getLast? = some t → t.kind = .semicolon) (more : List Token) (line : Nat) :
    D.FitsClosed semicolon (p.onto (p.rest ++ more) line) scope (rest ++ more) := by
  rw [h.text, List.append_assoc]
  cases rest with
  | cons t ts =>
    have hsame : Resumes (t :: ts) (t :: ts ++ more) := .inl rfl
    exact h.resume hsame line
  | nil =>
    obtain ⟨mark, rfl⟩ := Option.isSome_iff_exists.mp (h.isSome hend)
    have hmark : Resumes [mark.1] (mark.1 :: more) := .inl rfl
    have hfits := Sentence.Fits.resume h hmark line
    simpa [Sentence.closedTokens, Sentence.FitsClosed] using hfits

end Grammar

namespace Parser

variable {p q : Parser} {close : Kind} {done done' : List Stmt}
variable {out : Except SyntaxError Unit × Parser}

theorem Rounds.onward (h : Rounds close p done out) : p.Onward out.2 := by
  induction h with
  | closed | unclosed => exact .refl _
  | failed _ _ hs => exact .of_statement hs
  | round _ _ hs _ ih => exact (Onward.of_statement hs).trans ih

/-- A statement in front of a semicolon, or of other statements, is read as without what is put
behind them. -/
theorem statement_extend {scope : List String} {s : Stmt} (h : p.symbols.Tracks scope)
    (hs : p.statement = (.ok s, q)) (hend : ∀ t, p.rest.getLast? = some t → t.kind = .semicolon)
    (more : List Token) (line : Nat) :
    (p.onto (p.rest ++ more) line).statement = (.ok s, q.onto (q.rest ++ more) line) := by
  obtain ⟨D, semicolon, rest, hD, rfl, rfl⟩ := (statement_eq_ok h).mp hs
  exact (statement_eq_ok (p := p.onto (p.rest ++ more) line) h).mpr
    ⟨D, semicolon, rest ++ more, hD.extend hend more line, rfl, rfl⟩

theorem Rounds.append (h : Rounds .endOfInput p done (.ok (), q))
    (hreal : ∀ t ∈ p.rest, t.kind ≠ .endOfInput)
    (hend : ∀ t, p.rest.getLast? = some t → t.kind = .semicolon)
    (htracks : ∃ scope, p.symbols.Tracks scope) {more : List Token} {line : Nat}
    (hmore : Rounds .endOfInput (q.onto more line) done' out) :
    Rounds .endOfInput (p.onto (p.rest ++ more) line) (done ++ done') out := by
  generalize hok : ((.ok (), q) : Except SyntaxError Unit × Parser) = ok at h
  -- Induction on the rounds: behind the last of them the parser stands at what has been put there.
  induction h with
  | closed hk =>
    cases hok
    rwa [(rest_eq_nil_iff hreal).mpr hk]
  | unclosed | failed => cases hok
  | @round p q₁ s done ok hk he hs _ ih =>
    obtain ⟨scope, hscope⟩ := htracks
    have hstatement := statement_extend hscope hs hend more line
    obtain ⟨read, hread⟩ : q₁.rest <:+ p.rest := (Onward.of_statement hs).rest
    have htracks₁ := exists_tracks_call hscope .statement
    rw [call, hs] at htracks₁
    obtain ⟨ts, hts⟩ := exists_rest_of_peek rfl he
    have hpeek : (p.onto (p.rest ++ more) line).peek = p.peek := by
      have hrest : (p.onto (p.rest ++ more) line).rest = p.peek :: (ts ++ more) := by
        rw [onto_rest, hts]
        rfl
      exact peek_of_rest hrest
    refine .round (by rwa [hpeek]) (by rwa [hpeek]) hstatement (ih ?_ ?_ htracks₁ hok)
    · exact fun t ht => hreal t (by rw [← hread]; exact List.mem_append_right _ ht)
    · intro t ht
      refine hend t ?_
      rw [← hread, List.getLast?_append, ht]
      rfl

theorem program_of_rest_nil (h : p.rest = []) : p.program = .ok ⟨[], p.symbols⟩ :=
  Rounds.program (.closed (peek_of_rest_nil h))

theorem exists_rounds_of_program {program : Program} (h : p.program = .ok program) :
    ∃ q, Rounds .endOfInput p program.statements (.ok (), q) ∧ q.symbols = program.symbols := by
  obtain ⟨done, ⟨result, q⟩, hrounds, -⟩ := exists_rounds .endOfInput p
  have hprogram := hrounds.program
  rw [h] at hprogram
  cases result with
  | error e => cases hprogram
  | ok =>
    cases hprogram
    exact ⟨q, hrounds, rfl⟩

theorem Onward.onto_eq {tokens : List Token} {limit : Nat} (h : (start tokens limit).Onward q)
    (more : List Token) :
    q.onto more (endLine more) = { start more limit with symbols := q.symbols } := by
  obtain ⟨rest, lastLine, limit', depth, symbols⟩ := q
  obtain rfl : limit' = limit := h.limit
  obtain rfl : depth = 0 := h.depth
  rfl

theorem start_append (tokens : List Token) {more : List Token} (h : more ≠ []) (limit : Nat) :
    start (tokens ++ more) limit = (start tokens limit).onto (tokens ++ more) (endLine more) := by
  have hline : endLine (tokens ++ more) = endLine more := by
    rw [endLine, endLine, List.getLast?_append, List.getLast?_eq_some_getLast h]
    rfl
  rw [← hline]
  rfl

end Parser

/-- Programs compose at a semicolon. Where a list of tokens that is empty or ends in a semicolon
makes a program, the list with more tokens behind it makes what these make for a parser that starts
with the table of that program: the statements of both in a row, with the table at the end, or the
same error. -/
theorem parse_append {tokens : List Token} {limit : Nat} {program : Program}
    (hreal : ∀ t ∈ tokens, t.kind ≠ .endOfInput)
    (hend : tokens = [] ∨ ∃ t, tokens.getLast? = some t ∧ t.kind = .semicolon)
    (h : parse tokens limit = .ok program) (more : List Token) :
    parse (tokens ++ more) limit =
      ({ Parser.start more limit with symbols := program.symbols }.program).map
        fun next : Program => ⟨program.statements ++ next.statements, next.symbols⟩ := by
  obtain ⟨q, hrounds, hsymbols⟩ := Parser.exists_rounds_of_program h
  rw [← hsymbols]
  have hlast : ∀ t, tokens.getLast? = some t → t.kind = .semicolon := by
    rintro t ht
    obtain rfl | ⟨u, hu, hk⟩ := hend
    · cases ht
    · rwa [← Option.some.inj (hu.symm.trans ht)]
  by_cases hmore : more = []
  · -- The two parsers end on different lines, but there is no error to tell them.
    subst hmore
    rw [Parser.program_of_rest_nil rfl, List.append_nil, h, hsymbols]
    simp [Except.map]
  · obtain ⟨done, out, hnext, -⟩ := Parser.exists_rounds .endOfInput
      { Parser.start more limit with symbols := q.symbols }
    have hboth := hrounds.append hreal hlast ⟨[], SymbolTable.tracks_empty⟩
      ((hrounds.onward.onto_eq more).symm ▸ hnext)
    rw [parse, Parser.start_append tokens hmore, hnext.program]
    refine hboth.program.trans ?_
    rcases out with ⟨_ | _, _⟩ <;> rfl

/-- Behind `x := 1;` the name can be used and bound again, and another one cannot be used. -/
theorem exists_programs_behind_declaration : ∃ tokens program,
    tokens = [⟨.identifier, "x", 1⟩, ⟨.colonEqual, ":=", 1⟩, ⟨.integer, "1", 1⟩,
      ⟨.semicolon, ";", 1⟩] ∧
    program = ⟨[.declare "x" (.integer 1) 0], ⟨#[⟨"x", .integer 1⟩], [("x", 0)]⟩⟩ ∧
    (∀ t ∈ tokens, t.kind ≠ .endOfInput) ∧
    (tokens = [] ∨ ∃ t, tokens.getLast? = some t ∧ t.kind = .semicolon) ∧
    parse tokens 1 = .ok program ∧
    parse (tokens ++ [⟨.identifier, "x", 2⟩, ⟨.assign, "=", 2⟩, ⟨.identifier, "x", 2⟩]) 1 =
      .ok ⟨[.declare "x" (.integer 1) 0, .assign "x" (.reference "x" 0) 1],
        ⟨#[⟨"x", .integer 1⟩, ⟨"x", .reference "x" 0⟩], [("x", 1)]⟩⟩ ∧
    parse (tokens ++ [⟨.identifier, "y", 2⟩]) 1 = .error (.undeclared "y" 2) := by
  let tokens : List Token := [⟨.identifier, "x", 1⟩, ⟨.colonEqual, ":=", 1⟩, ⟨.integer, "1", 1⟩,
    ⟨.semicolon, ";", 1⟩]
  have hreal : ∀ t ∈ tokens, t.kind ≠ .endOfInput := by decide
  have hend : tokens = [] ∨ ∃ t, tokens.getLast? = some t ∧ t.kind = .semicolon :=
    .inr ⟨⟨.semicolon, ";", 1⟩, rfl, rfl⟩
  have hparse : parse tokens 1 =
      .ok ⟨[.declare "x" (.integer 1) 0], ⟨#[⟨"x", .integer 1⟩], [("x", 0)]⟩⟩ := by
    decide +kernel
  refine ⟨tokens, _, rfl, rfl, hreal, hend, hparse, ?_, ?_⟩
  · rw [parse_append hreal hend hparse]
    decide +kernel
  · rw [parse_append hreal hend hparse]
    decide +kernel

end TinyCompiler
