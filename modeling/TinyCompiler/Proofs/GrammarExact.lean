import TinyCompiler.Proofs.BlockReading

/-! The parser accepts its grammar and builds its trees. A list of tokens parses to some
statements exactly if it has a greedy derivation with that tree, in which every name used has
been bound before, every numeral is the word of a 64-bit integer, and every primary and every
block has room. -/
namespace TinyCompiler

open Grammar

variable {tokens : List Token} {limit : Nat} {program : Program}

/-- A parse ends at the end of the list, or at an end marker inside it. -/
theorem exists_fits_of_parse (h : parse tokens limit = .ok program) :
    ∃ (T : Text) (rest : List Token), T.Fits (.start tokens limit) [] rest ∧
      firstKind rest .endOfInput = .endOfInput ∧
        program = ⟨T.trees [], Stmt.replayAll .empty (T.trees [])⟩ := by
  rw [parse, Parser.program] at h
  rcases hs : (Parser.start tokens limit).statements with ⟨_ | b, q⟩
  · simp [hs, Except.map] at h
  · obtain ⟨T, rest, hT, hrest, rfl, rfl⟩ :=
      (Parser.statements_eq_ok (p := .start tokens limit) SymbolTable.tracks_empty).mp hs
    simp only [hs, Except.map, Except.ok.injEq] at h
    exact ⟨T, rest, hT, hrest, h.symm⟩

theorem parse_of_fits {T : Text} (h : T.Fits (.start tokens limit) [] []) :
    parse tokens limit = .ok ⟨T.trees [], Stmt.replayAll .empty (T.trees [])⟩ := by
  have hs := (Parser.statements_eq_ok (p := .start tokens limit) SymbolTable.tracks_empty).mpr
    ⟨T, [], h, rfl, rfl, rfl⟩
  rw [parse, Parser.program, hs]
  rfl

/-- Exactly the greedy derivations parse, each to its own tree. -/
theorem parse_iff_derivation (tokens : List Token) (limit : Nat) (statements : List Stmt)
    (h : ∀ t ∈ tokens, t.kind ≠ .endOfInput) :
    (∃ symbols, parse tokens limit = .ok ⟨statements, symbols⟩) ↔
      ∃ T : Text, T.tokens = tokens ∧ T.Greedy .endOfInput ∧ T.trees [] = statements ∧
        Mention.Declared T.mentions ∧ (∀ s ∈ T.numerals, Decimal.IsWord s) ∧
          ∀ n ∈ T.needs 0, n ≤ limit := by
  constructor
  · rintro ⟨symbols, hp⟩
    obtain ⟨T, rest, ⟨ht, hg, hw, hc, hn⟩, hrest, he⟩ := exists_fits_of_parse hp
    have htokens : tokens = T.tokens ++ rest := ht
    cases he
    cases rest with
    | nil =>
      rw [List.append_nil] at htokens
      exact ⟨T, htokens.symm, hg, rfl, Mention.covered_nil_iff.mp hc, hw, hn⟩
    | cons t ts => exact absurd hrest (h t (by simp [htokens]))
  · rintro ⟨T, rfl, hg, rfl, hc, hw, hn⟩
    refine ⟨_, parse_of_fits ?_⟩
    exact ⟨by simp [Parser.start], hg, hw, Mention.covered_nil_iff.mpr hc, hn⟩

/-- For the tokens of `x := 1; x`. -/
theorem exists_derivation_of_declaration :
    ∃ T : Text,
      T.tokens = [⟨.identifier, "x", 1⟩, ⟨.colonEqual, ":=", 1⟩, ⟨.integer, "1", 1⟩,
        ⟨.semicolon, ";", 1⟩, ⟨.identifier, "x", 1⟩] ∧ T.Greedy .endOfInput ∧
      T.trees [] = [.declare "x" (.integer 1) 0, .expr (.reference "x" 0)] ∧
      Mention.Declared T.mentions ∧ (∀ s ∈ T.numerals, Decimal.IsWord s) ∧
        ∀ n ∈ T.needs 0, n ≤ 1 :=
  (parse_iff_derivation _ 1 _ (by decide)).mp
    ⟨(SymbolTable.empty.declare "x" (.integer 1)).2, by decide +kernel⟩

end TinyCompiler
