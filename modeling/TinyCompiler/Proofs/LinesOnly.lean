import TinyCompiler.Proofs.CoupledStatements
import TinyCompiler.Proofs.Layout
import TinyCompiler.Proofs.LoweringSucceeds

/-! Lines are for diagnostics only. Tokens that differ in nothing but their lines give the same
program, or an error at the same token, so the layout of a source makes no other difference. -/
namespace TinyCompiler

def SyntaxError.onLine (line : Nat) : SyntaxError → SyntaxError
  | unexpected found => unexpected { found with line := line }
  | undeclared name _ => undeclared name line
  | unclosed expected found => unclosed expected { found with line := line }
  | outOfRange numeral _ => outOfRange numeral line
  | tooDeep limit _ => tooDeep limit line

variable {tokens tokens' : List Token}

/-- Two parsers at the token number `i` of their lists. -/
structure Parser.Abreast (tokens tokens' : List Token) (i : Nat) (p q : Parser) : Prop where
  inside : i < tokens.length
  rest : p.rest = tokens.drop i
  rest' : q.rest = tokens'.drop i
  limit : q.limit = p.limit
  depth : q.depth = p.depth
  symbols : q.symbols = p.symbols

namespace Parser.Abreast

variable {p q : Parser} {i : Nat}

theorem peek_eq (h : p.Abreast tokens tokens' i q) :
    p.peek = tokens[i]?.getD (.endOfInput p.lastLine) := by
  rw [peek, h.rest, List.head?_drop]

theorem peek_eq' (h : p.Abreast tokens tokens' i q) :
    q.peek = tokens'[i]?.getD (.endOfInput q.lastLine) := by
  rw [peek, h.rest', List.head?_drop]

theorem peek_of_getElem? (h : p.Abreast tokens tokens' i q) {t : Token}
    (ht : tokens[i]? = some t) : p.peek = t := by
  rw [h.peek_eq, ht, Option.getD_some]

theorem peek_of_getElem?' (h : p.Abreast tokens tokens' i q) {u : Token}
    (hu : tokens'[i]? = some u) : q.peek = u := by
  rw [h.peek_eq', hu, Option.getD_some]

section Marks

variable (hmarks : tokens'.map Token.mark = tokens.map Token.mark)

include hmarks

theorem mark_getD (i line line' : Nat) :
    (tokens'[i]?.getD (.endOfInput line')).mark = (tokens[i]?.getD (.endOfInput line)).mark := by
  have hi := congrArg (·[i]?) hmarks
  simp only [List.getElem?_map] at hi
  cases ht : tokens[i]? <;> cases hu : tokens'[i]? <;> simp_all [Token.mark, Token.endOfInput]

theorem mark_peek (h : p.Abreast tokens tokens' i q) : q.peek.mark = p.peek.mark := by
  rw [h.peek_eq, h.peek_eq']
  exact mark_getD hmarks i _ _

theorem mark_peekSecond (h : p.Abreast tokens tokens' i q) :
    q.peekSecond.mark = p.peekSecond.mark := by
  rw [peekSecond, peekSecond, h.rest, h.rest', List.tail_drop, List.tail_drop, List.head?_drop,
    List.head?_drop]
  exact mark_getD hmarks (i + 1) _ _

theorem kind_peek (h : p.Abreast tokens tokens' i q) : q.peek.kind = p.peek.kind :=
  congrArg Prod.fst (h.mark_peek hmarks)

/-- An error is raised at the current token. -/
theorem error_eq (h : p.Abreast tokens tokens' i q) (halt : Halt) :
    halt.error q = (halt.error p).onLine q.peek.line := by
  have hkind := h.kind_peek hmarks
  have hlexeme : q.peek.lexeme = p.peek.lexeme := congrArg Prod.snd (h.mark_peek hmarks)
  have htoken : q.peek = ⟨p.peek.kind, p.peek.lexeme, q.peek.line⟩ := by rw [← hkind, ← hlexeme]
  cases halt with
  | unexpected => exact congrArg SyntaxError.unexpected htoken
  | unclosed expected => exact congrArg (SyntaxError.unclosed expected) htoken
  | undeclared | outOfRange => rw [Halt.error, Halt.error, SyntaxError.onLine, hlexeme]
  | tooDeep => rw [Halt.error, Halt.error, SyntaxError.onLine, h.limit]

/-- The last token is an end marker, which neither parser steps past. -/
theorem advance (h : p.Abreast tokens tokens' i q)
    (hlast : ∃ ts line, tokens = ts ++ [.endOfInput line]) :
    ∃ j, p.advance.Abreast tokens tokens' j q.advance := by
  by_cases hk : p.peek.kind = .endOfInput
  · refine ⟨i, ?_⟩
    rwa [Parser.advance, Parser.advance, if_pos hk, if_pos (by rwa [h.kind_peek hmarks])]
  · rw [Parser.advance, Parser.advance, if_neg hk, if_neg (by rwa [h.kind_peek hmarks])]
    refine ⟨i + 1, ?_, ?_, ?_, h.limit, h.depth, h.symbols⟩
    · -- At the last place the current token would be the end marker.
      obtain ⟨ts, line, rfl⟩ := hlast
      have hi := h.inside
      by_contra hout
      obtain rfl : i = ts.length := by
        simp only [List.length_append, List.length_singleton] at hi hout
        omega
      rw [h.peek_of_getElem? List.getElem?_concat_length] at hk
      exact hk rfl
    · rw [h.rest, List.tail_drop]
    · rw [h.rest', List.tail_drop]

end Marks

end Parser.Abreast

/-- Two parsers at the same place of lists that differ in nothing but the lines. -/
def Coupling.lines (hmarks : tokens'.map Token.mark = tokens.map Token.mark)
    (hlast : ∃ ts line, tokens = ts ++ [.endOfInput line]) : Coupling where
  name := id
  name_injective := Function.injective_id
  Pair p q := ∃ i, p.Abreast tokens tokens' i q
  Parted _ _ := False
  kind := fun ⟨_, h⟩ => h.kind_peek hmarks
  lexeme := fun ⟨_, h⟩ _ => by
    rw [Token.rename_id]
    exact congrArg Prod.snd (h.mark_peek hmarks)
  secondKind := fun ⟨_, h⟩ _ => congrArg Prod.fst (h.mark_peekSecond hmarks)
  symbols := fun ⟨_, h⟩ => by rw [SymbolTable.rename_id, h.symbols]
  depth := fun ⟨_, h⟩ => h.depth
  advance := fun ⟨_, h⟩ => h.advance hmarks hlast
  set_depth _ := fun ⟨i, h⟩ => ⟨i, { h with depth := rfl }⟩
  set_symbols t := fun ⟨i, h⟩ => ⟨i, { h with symbols := by rw [SymbolTable.rename_id] }⟩
  deepen := fun ⟨_, h⟩ => .inl (by rw [h.depth, h.limit])
  parted_depth _ h := h
  parted_ahead h _ := h

theorem Halt.line_error (halt : Halt) (p : Parser) : (halt.error p).line = p.peek.line := by
  cases halt <;> rfl

/-- The second list is read as the first is, and where that fails, at the same token. -/
theorem parse_of_marks (hmarks : tokens'.map Token.mark = tokens.map Token.mark)
    (hlast : ∃ ts line, tokens = ts ++ [.endOfInput line]) (limit : Nat) :
    (∀ program, parse tokens limit = .ok program → parse tokens' limit = .ok program) ∧
      ∀ e, parse tokens limit = .error e → ∃ i t u,
        (Parser.start tokens limit).statements.2.rest = tokens.drop i ∧ tokens[i]? = some t ∧
          tokens'[i]? = some u ∧ e.line = t.line ∧
            parse tokens' limit = .error (e.onLine u.line) := by
  have hlen : tokens'.length = tokens.length := by simpa using congrArg List.length hmarks
  have hpos : 0 < tokens.length := by
    obtain ⟨ts, line, rfl⟩ := hlast
    simp
  have hstart : (Coupling.lines hmarks hlast).Pair (.start tokens limit) (.start tokens' limit) :=
    ⟨0, hpos, rfl, rfl, rfl, rfl, rfl⟩
  obtain ⟨program, hok, hok'⟩ | ⟨halt, ⟨i, h⟩, -, herror, herror'⟩ | ⟨hparted, -⟩ :=
    (Coupling.lines hmarks hlast).parse_cases hstart hlen
  · rw [show (Coupling.lines hmarks hlast).name = id from rfl, program.rename_id] at hok'
    refine ⟨fun other ho => ?_, fun e he => ?_⟩
    · rwa [← ho, hok]
    · cases hok.symm.trans he
  · refine ⟨fun program ho => (by cases herror.symm.trans ho), fun e he => ?_⟩
    cases herror.symm.trans he
    have ht := List.getElem?_eq_getElem h.inside
    have hu := List.getElem?_eq_getElem (hlen.symm ▸ h.inside : i < tokens'.length)
    refine ⟨i, _, _, h.rest, ht, hu, ?_, ?_⟩
    · rw [halt.line_error, h.peek_of_getElem? ht]
    · rw [herror', h.error_eq hmarks, h.peek_of_getElem?' hu]
  · exact hparted.elim

/-- A source in another layout has the same tokens, but for their lines. It makes the same program
and the same assembly, or it fails at the same token, with an error that has the line on which
that token stands now. -/
theorem layout_never_matters {source source' : String}
    (h : tokenize (Utf8.encode source) = .ok tokens)
    (hlaid : Laid (tokens.dropLast.map fun t => Utf8.encode t.lexeme) (Utf8.encode source')) :
    ∃ tokens', tokenize (Utf8.encode source') = .ok tokens' ∧
      tokens'.map Token.mark = tokens.map Token.mark ∧ ∀ limit,
        (∀ program, parseSource source limit = .ok program →
          parseSource source' limit = .ok program ∧ ∀ entry, ∃ text,
            compile source limit entry = .ok text ∧ compile source' limit entry = .ok text) ∧
          ∀ d, parseSource source limit = .error d → ∃ e i t u, d = .grammar e ∧
            (Parser.start tokens limit).statements.2.rest = tokens.drop i ∧
              tokens[i]? = some t ∧ tokens'[i]? = some u ∧ e.line = t.line ∧
                parseSource source' limit = .error (.grammar (e.onLine u.line)) := by
  obtain ⟨tokens', h', hmarks⟩ := tokenize_laid h hlaid
  obtain ⟨ts, line, hts, -⟩ := exists_spelled_of_tokenize h
  refine ⟨tokens', h', hmarks, fun limit => ?_⟩
  obtain ⟨hok, herror⟩ := parse_of_marks hmarks ⟨ts, line, hts⟩ limit
  have hsource : parseSource source limit = (parse tokens limit).mapError .grammar := by
    rw [parseSource, h]
    rfl
  have hsource' : parseSource source' limit = (parse tokens' limit).mapError .grammar := by
    rw [parseSource, h']
    rfl
  refine ⟨fun program hp => ?_, fun d hd => ?_⟩
  · obtain ⟨us, hus, hparse⟩ := parseSource_eq_ok.mp hp
    cases h.symm.trans hus
    have hp' := parseSource_eq_ok.mpr ⟨tokens', h', hok program hparse⟩
    refine ⟨hp', fun entry => ?_⟩
    obtain ⟨text, htext, hcompile⟩ := exists_compile_of_parseSource hp entry
    exact ⟨text, hcompile, compile_eq_ok.mpr ⟨program, hp', htext⟩⟩
  · rw [hsource] at hd
    cases hparse : parse tokens limit with
    | ok program =>
      rw [hparse] at hd
      cases hd
    | error e =>
      rw [hparse] at hd
      cases hd
      obtain ⟨i, t, u, hrest, ht, hu, hline, hparse'⟩ := herror e hparse
      refine ⟨e, i, t, u, rfl, hrest, ht, hu, hline, ?_⟩
      rw [hsource', hparse']
      rfl

/-- A declaration without a blank in it, and the same with comments all around. -/
theorem exists_laid_of_declaration : ∃ source source' tokens program text,
    source = "x:=1" ∧ source' = "// one\n\tx\n:= // two\n1 // three" ∧
      tokenize (Utf8.encode source) = .ok tokens ∧
      Laid (tokens.dropLast.map fun t => Utf8.encode t.lexeme) (Utf8.encode source') ∧
      program = ⟨[.declare "x" (.integer 1) 0], ⟨#[⟨"x", .integer 1⟩], [("x", 0)]⟩⟩ ∧
      parseSource source' 1 = .ok program ∧
      compile source 1 "main" = .ok text ∧ compile source' 1 "main" = .ok text := by
  have hend : Laid [] (Utf8.encode " // three") := by
    have htext : Utf8.encode " // three" =
        [' '.toUInt8] ++ (Segment.ascii ['/', '/'] ++ Utf8.encode " three") := by decide +kernel
    rw [htext]
    exact .comment (.blank (by decide) .nil) (by decide +kernel)
  have hone : Laid [Utf8.encode "1"] (Utf8.encode " // two\n1 // three") := by
    have htext : Utf8.encode " // two\n1 // three" =
        ' '.toUInt8 :: (Segment.ascii ['/', '/'] ++ Utf8.encode " two" ++ Segment.newline :: []) ++
          (Utf8.encode "1" ++ Utf8.encode " // three") := by decide +kernel
    rw [htext]
    exact .lexeme (.blank (by decide) (.comment (by decide +kernel) .nil)) (by decide +kernel) hend
  have hsign : Laid [Utf8.encode ":=", Utf8.encode "1"]
      (Utf8.encode "\n:= // two\n1 // three") := by
    have htext : Utf8.encode "\n:= // two\n1 // three" =
        [Segment.newline] ++ (Utf8.encode ":=" ++ Utf8.encode " // two\n1 // three") := by
      decide +kernel
    rw [htext]
    exact .lexeme (.blank (by decide) .nil) (by decide +kernel) hone
  have hlaid : Laid [Utf8.encode "x", Utf8.encode ":=", Utf8.encode "1"]
      (Utf8.encode "// one\n\tx\n:= // two\n1 // three") := by
    have htext : Utf8.encode "// one\n\tx\n:= // two\n1 // three" =
        Segment.ascii ['/', '/'] ++ Utf8.encode " one" ++ Segment.newline :: ['\t'.toUInt8] ++
          (Utf8.encode "x" ++ Utf8.encode "\n:= // two\n1 // three") := by decide +kernel
    rw [htext]
    exact .lexeme (.comment (by decide +kernel) (.blank (by decide) .nil)) (by decide +kernel) hsign
  have htokens : tokenize (Utf8.encode "x:=1") = .ok [⟨.identifier, "x", 1⟩,
      ⟨.colonEqual, ":=", 1⟩, ⟨.integer, "1", 1⟩, .endOfInput 1] := by decide +kernel
  have hparse : parseSource "x:=1" 1 =
      .ok ⟨[.declare "x" (.integer 1) 0], ⟨#[⟨"x", .integer 1⟩], [("x", 0)]⟩⟩ := by decide +kernel
  obtain ⟨_, -, -, hsame⟩ := layout_never_matters htokens hlaid
  obtain ⟨hparse', hcompile⟩ := (hsame 1).1 _ hparse
  obtain ⟨text, htext, htext'⟩ := hcompile "main"
  exact ⟨_, _, _, _, text, rfl, rfl, htokens, hlaid, rfl, hparse', htext, htext'⟩

end TinyCompiler
