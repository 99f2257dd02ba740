import TinyCompiler.Proofs.CoupledStatements

/-! The limit on nesting only cuts off. A parse under a higher limit takes the same steps, as far
as the lower one lets it get, and a limit above the number of tokens is never met. -/
namespace TinyCompiler

variable {d d' : Nat}

theorem Parser.advance_set_limit (p : Parser) (limit : Nat) :
    { p with limit := limit }.advance = { p.advance with limit := limit } := by
  by_cases h : p.peek.kind = .endOfInput
  · have h' : { p with limit := limit }.peek.kind = .endOfInput := h
    rw [advance, advance, if_pos h, if_pos h']
  · have h' : { p with limit := limit }.peek.kind ≠ .endOfInput := h
    rw [advance, advance, if_neg h, if_neg h']

/-- The same parser under two limits, as long as the lower one does not stop it. -/
def Coupling.limits (h : d ≤ d') : Coupling where
  name := id
  name_injective := Function.injective_id
  Pair p q := p.limit = d ∧ q = { p with limit := d' }
  Parted p q := p.limit = d ∧ q.rest <:+ p.rest
  kind := by
    rintro p _ ⟨-, rfl⟩
    rfl
  lexeme := by
    rintro p _ ⟨-, rfl⟩ -
    rw [Token.rename_id]
    rfl
  secondKind := by
    rintro p _ ⟨-, rfl⟩ -
    rfl
  symbols := by
    rintro p _ ⟨-, rfl⟩
    rw [SymbolTable.rename_id]
  depth := by
    rintro p _ ⟨-, rfl⟩
    rfl
  advance := by
    rintro p _ ⟨hp, rfl⟩
    exact ⟨by rw [p.advance_onward.limit, hp], p.advance_set_limit d'⟩
  set_depth := by
    rintro p _ e ⟨hp, rfl⟩
    exact ⟨hp, rfl⟩
  set_symbols := by
    rintro p _ t ⟨hp, rfl⟩
    rw [SymbolTable.rename_id]
    exact ⟨hp, rfl⟩
  deepen := by
    rintro p _ ⟨rfl, rfl⟩
    by_cases hd : p.depth < p.limit
    · exact .inl ⟨fun _ => Nat.lt_of_lt_of_le hd h, fun _ => hd⟩
    · exact .inr ⟨hd, rfl, List.suffix_rfl⟩
  parted_depth _ h := h
  parted_ahead h hahead := ⟨h.1, hahead.trans h.2⟩

/-- No other error depends on the limit. -/
theorem Halt.error_set_limit (halt : Halt) (p : Parser) (h : ¬(halt.error p).Deep) (limit : Nat) :
    halt.error { p with limit := limit } = halt.error p := by
  cases halt with
  | tooDeep => exact absurd trivial h
  | unexpected | undeclared | unclosed | outOfRange => rfl

/-- The lower limit makes no difference, or it cuts off no later than the higher one. -/
theorem parse_same_or_cut (tokens : List Token) (h : d ≤ d') :
    (parse tokens d' = parse tokens d ∧ ∀ e, parse tokens d = .error e → ¬e.Deep) ∨
      parse tokens d =
          .error (.tooDeep d (Parser.start tokens d).statements.2.peek.line) ∧
        (Parser.start tokens d').statements.2.rest <:+
          (Parser.start tokens d).statements.2.rest := by
  have hstart : (Coupling.limits h).Pair (.start tokens d) (.start tokens d') := ⟨rfl, rfl⟩
  obtain ⟨program, hok, hok'⟩ | ⟨halt, ⟨hlimit, hq⟩, -, herror, herror'⟩ |
    ⟨⟨hlimit, hrest⟩, herror⟩ := (Coupling.limits h).parse_cases hstart rfl
  · rw [show (Coupling.limits h).name = id from rfl, program.rename_id] at hok'
    refine .inl ⟨hok'.trans hok.symm, fun e he => ?_⟩
    rw [hok] at he
    cases he
  · rw [hq] at herror'
    by_cases hdeep : (halt.error (Parser.start tokens d).statements.2).Deep
    · cases halt with
      | tooDeep =>
        -- Both are at their limits, and at the same token.
        rw [hq]
        refine .inr ⟨?_, List.suffix_rfl⟩
        rw [herror, Halt.error, hlimit]
      | unexpected | undeclared | unclosed | outOfRange => exact hdeep.elim
    · rw [halt.error_set_limit _ hdeep] at herror'
      refine .inl ⟨herror'.trans herror.symm, fun e he => ?_⟩
      cases herror.symm.trans he
      exact hdeep
  · refine .inr ⟨?_, hrest⟩
    rw [herror, Halt.error, hlimit]

/-- A higher limit changes nothing where the lower one does not cut off, and cuts off no earlier
where it does. A limit above the number of tokens never cuts off. -/
theorem limit_only_cuts (tokens : List Token) (h : d ≤ d') :
    ((∀ limit line, parse tokens d ≠ .error (.tooDeep limit line)) →
        parse tokens d' = parse tokens d) ∧
      (∀ limit line, parse tokens d' = .error (.tooDeep limit line) →
        parse tokens d =
            .error (.tooDeep d (Parser.start tokens d).statements.2.peek.line) ∧
          (Parser.start tokens d').statements.2.rest <:+
            (Parser.start tokens d).statements.2.rest) ∧
      (tokens.length < d → ∀ limit line, parse tokens d ≠ .error (.tooDeep limit line)) := by
  refine ⟨fun hne => ?_, fun limit line hcut => ?_, fun hlen limit line hcut => ?_⟩
  · obtain ⟨hsame, -⟩ | ⟨hcut, -⟩ := parse_same_or_cut tokens h
    · exact hsame
    · exact absurd hcut (hne _ _)
  · obtain ⟨hsame, hdeep⟩ | hcut' := parse_same_or_cut tokens h
    · exact absurd trivial (hdeep _ (hsame.symm.trans hcut))
    · exact hcut'
  · have hroom : (Parser.start tokens d).Room 1 := by
      simp only [Parser.Room, Parser.start]
      omega
    have hfails := Parser.neverDeep_statements hroom
    rw [parse, Parser.program] at hcut
    generalize (Parser.start tokens d).statements = out at hcut hfails
    obtain ⟨_ | b, q⟩ := out <;> cases hcut
    exact hfails _ rfl trivial

/-- Two levels of parentheses around a numeral need a limit of three. The limits one and two cut
them off, one token apart. -/
theorem exists_cuts_of_parentheses : ∃ tokens,
    (parse tokens 7 = parse tokens 3 ∧
        parse tokens 3 = .ok ⟨[.expr (.integer 1)], .empty⟩) ∧
      (parse tokens 2 = .error (.tooDeep 2 1) ∧ parse tokens 1 = .error (.tooDeep 1 1) ∧
        (Parser.start tokens 2).statements.2.rest <:+
          (Parser.start tokens 1).statements.2.rest) ∧
      tokens.length < 7 ∧ ∀ limit line, parse tokens 7 ≠ .error (.tooDeep limit line) := by
  let tokens : List Token := [⟨.openParen, "(", 1⟩, ⟨.openParen, "(", 1⟩, ⟨.integer, "1", 1⟩,
    ⟨.closeParen, ")", 1⟩, ⟨.closeParen, ")", 1⟩, .endOfInput 1]
  have hthree : parse tokens 3 = .ok ⟨[.expr (.integer 1)], .empty⟩ := by decide +kernel
  have htwo : parse tokens 2 = .error (.tooDeep 2 1) := by decide +kernel
  have hone : parse tokens 1 = .error (.tooDeep 1 1) := by decide +kernel
  obtain ⟨hsame, -, -⟩ := limit_only_cuts tokens (show 3 ≤ 7 by decide)
  obtain ⟨-, hcut, -⟩ := limit_only_cuts tokens (show 1 ≤ 2 by decide)
  obtain ⟨-, -, hnever⟩ := limit_only_cuts tokens (Nat.le_refl 7)
  refine ⟨tokens, ⟨hsame ?_, hthree⟩, ⟨htwo, hone, (hcut 2 1 htwo).2⟩, by decide,
    hnever (by decide)⟩
  rw [hthree]
  rintro limit line ⟨⟩

end TinyCompiler
