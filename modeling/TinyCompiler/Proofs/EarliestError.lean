import TinyCompiler.Proofs.LimitCuts
import TinyCompiler.Proofs.StuckStatements

/-! Errors over the form of a program stand at the earliest token. What stands before that token is
the beginning of a program, and what ends with it is not. -/
namespace TinyCompiler

open Grammar

variable {tokens : List Token} {limit : Nat} {e : SyntaxError} {q : Parser}

theorem parse_eq_error : parse tokens limit = .error e ↔
    (Parser.start tokens limit).statements.1 = .error e := by
  rw [parse, Parser.program]
  rcases (Parser.start tokens limit).statements with ⟨_ | _, _⟩ <;> simp [Except.map]

theorem Parser.exists_onto_start (tokens tokens' : List Token) (limit : Nat) :
    ∃ line, Parser.start tokens' limit = (Parser.start tokens limit).onto tokens' line := ⟨_, rfl⟩

theorem parse_stuck_of_length (hs : e.Structural)
    (h : (Parser.start tokens limit).statements = (.error e, q)) (n : Nat) : ∃ read,
      Stuck (fun ts => ∃ T : Text, T.Fits (.start ts limit) [] [])
        (fun ts => ts.length = n → parse ts limit = .error e) tokens q.rest read := by
  obtain ⟨read, hstuck⟩ := Rule.untilKind_sticks (p := .start tokens limit)
    (Rule.statement_sticks (tokens.length + 1) (n + 1)) SymbolTable.tracks_empty
    (Nat.le_refl _) (Nat.le_refl _) (Nat.lt_succ_self _) hs h
  refine ⟨read, hstuck.imp ?_ ?_⟩
  · rintro ts ⟨T, hT⟩
    obtain rfl : ts = T.tokens ++ [] := hT.text
    obtain ⟨line, hline⟩ := Parser.exists_onto_start tokens (T.tokens ++ []) limit
    rw [hline]
    exact ⟨T, hT.resume (.inl rfl) line⟩
  · rintro ts hfails rfl
    obtain ⟨line, hline⟩ := Parser.exists_onto_start tokens ts limit
    rw [parse_eq_error, hline]
    exact hfails (Nat.lt_succ_self _) line

/-- A parse that fails over the form of its tokens is stuck. -/
theorem parse_stuck (hs : e.Structural)
    (h : (Parser.start tokens limit).statements = (.error e, q)) : ∃ read,
      Stuck (fun ts => ∃ T : Text, T.Fits (.start ts limit) [] [])
        (fun ts => parse ts limit = .error e) tokens q.rest read := by
  obtain ⟨read, hstuck⟩ := parse_stuck_of_length hs h 0
  refine ⟨read, hstuck.text, hstuck.completes, fun t rest more hrest => ?_⟩
  obtain ⟨read', hstuck'⟩ := parse_stuck_of_length hs h (read ++ t :: more).length
  obtain rfl : read' = read := List.append_cancel_right (hstuck'.text.symm.trans hstuck.text)
  exact hstuck'.persists t rest more hrest rfl

/-- No limit on nesting makes up for the form of the tokens. -/
theorem parse_ne_ok_of_structural (hs : e.Structural) (h : parse tokens limit = .error e)
    (limit' : Nat) (program : Program) : parse tokens limit' ≠ .ok program := by
  intro hok
  obtain hle | hle := Nat.le_total limit limit'
  · obtain ⟨hsame, -⟩ | ⟨hcut, -⟩ := parse_same_or_cut tokens hle
    · rw [hsame, h] at hok
      cases hok
    · rw [h] at hcut
      cases hcut
      exact hs
  · obtain ⟨hsame, -⟩ | ⟨hcut, -⟩ := parse_same_or_cut tokens hle
    · rw [← hsame, h] at hok
      cases hok
    · rw [hcut] at hok
      cases hok

/-- The token at which a parse stops over the form of its tokens is the first one that no program
has there: the tokens before it go on to a program under the same limit, and no program begins with
them and that token, under any limit. -/
theorem error_at_earliest_token (tokens : List Token) (limit : Nat) (e : SyntaxError)
    (hs : e.Structural) (h : parse tokens limit = .error e) :
    let stop := (Parser.start tokens limit).statements.2
    let i := tokens.length - stop.rest.length
    tokens = tokens.take i ++ stop.rest ∧
      (∃ more program, parse (tokens.take i ++ more) limit = .ok program) ∧
      (stop.peek.kind ≠ .endOfInput → ∀ longer, tokens.take (i + 1) <+: longer →
        ∀ limit' program, parse longer limit' ≠ .ok program) := by
  intro stop i
  obtain ⟨read, hstuck⟩ := parse_stuck hs (q := stop) (Prod.ext (parse_eq_error.mp h) rfl)
  have hi : i = read.length := by
    have hlen := congrArg List.length hstuck.text
    rw [List.length_append] at hlen
    omega
  have htake : tokens.take i = read := by rw [hi, hstuck.text, List.take_left]
  refine ⟨?_, ?_, fun hend longer hlonger limit' program => ?_⟩
  · rw [htake]
    exact hstuck.text
  · obtain ⟨more, -, T, hT⟩ := hstuck.completes
    rw [htake]
    exact ⟨more, _, parse_of_fits hT⟩
  · obtain ⟨rest, hrest⟩ := Parser.exists_rest_of_peek rfl hend
    have hnext : tokens.take (i + 1) = read ++ [stop.peek] := by
      rw [hi, hstuck.text, hrest, List.append_cons]
      exact List.take_left' (by simp)
    obtain ⟨more, rfl⟩ := hlonger
    rw [hnext, List.append_assoc, List.singleton_append]
    exact parse_ne_ok_of_structural hs (hstuck.persists _ _ more hrest) limit' program

/-- In `( 1 }` the error stands at the brace: the tokens before it go on to a program, and no
program begins with all three. -/
theorem exists_earliest_at_brace : ∃ (tokens : List Token) (e : SyntaxError),
    tokens = [⟨.openParen, "(", 1⟩, ⟨.integer, "1", 1⟩, ⟨.closeBrace, "\x7d", 1⟩] ∧
      e.Structural ∧ parse tokens 2 = .error e ∧
      tokens.length - (Parser.start tokens 2).statements.2.rest.length = 2 ∧
      (∃ more program, parse (tokens.take 2 ++ more) 2 = .ok program) ∧
      ∀ longer, tokens.take 3 <+: longer → ∀ limit program, parse longer limit ≠ .ok program := by
  let tokens : List Token := [⟨.openParen, "(", 1⟩, ⟨.integer, "1", 1⟩, ⟨.closeBrace, "\x7d", 1⟩]
  let e : SyntaxError := .unclosed .closeParen ⟨.closeBrace, "\x7d", 1⟩
  have hs : e.Structural := trivial
  have h : parse tokens 2 = .error e := by decide +kernel
  have hplace : tokens.length - (Parser.start tokens 2).statements.2.rest.length = 2 := by
    decide +kernel
  obtain ⟨-, hmore, hnone⟩ := error_at_earliest_token tokens 2 e hs h
  rw [hplace] at hmore hnone
  exact ⟨tokens, e, rfl, hs, h, hplace, hmore, hnone (by decide +kernel)⟩

end TinyCompiler
