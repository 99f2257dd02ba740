import TinyCompiler.CommandLine.Response
import TinyCompiler.Proofs.Linking

/-! Lowering never fails on what the parser gives. The table that a parser has built links every
tree read on the way to it, also behind statements that failed. -/
namespace TinyCompiler

variable {scope : List String}

namespace Parser

variable {p q : Parser}

/-- The statement that a call gives, if it gives one; an expression is a statement too. -/
def given (p : Parser) : Call → List Stmt
  | .expression => (p.expression.1.map Stmt.expr).toOption.toList
  | .statement => p.statement.1.toOption.toList

def returned (p : Parser) : List Call → List Stmt
  | [] => []
  | c :: calls => p.given c ++ (p.call c).returned calls

theorem Passes.extends_symbols {done : List Stmt} (h : p.symbols.Tracks scope)
    (hp : p.Passes done q) : p.symbols.Extends q.symbols := by
  rw [(hp.traced h).2.1]
  exact Stmt.extends_replayAll _ _

/-- A call only appends, and the table behind it links what it gives. -/
theorem linked_of_call (h : p.symbols.Tracks scope) (c : Call) :
    p.symbols.Extends (p.call c).symbols ∧
      ∀ s ∈ p.given c, s.Linked (p.call c).symbols := by
  cases c with
  | expression =>
    rw [call, given, p.expression_skims.symbols]
    refine ⟨.refl _, fun s hs => ?_⟩
    rcases he : p.expression with ⟨error | e, q⟩
    · simp [he, Except.map, Except.toOption] at hs
    · obtain rfl : s = .expr e := by simpa [he, Except.map, Except.toOption] using hs
      exact e.linked_of_resolved h (resolved_of_expression he)
  | statement =>
    rw [call, given]
    rcases hs : p.statement with ⟨error | s, q⟩
    · obtain ⟨done, stop, last, hpasses, hstops, rfl⟩ := statement_breaks h hs
      have hgrows := hpasses.extends_symbols h
      rw [← hstops.symbols] at hgrows
      exact ⟨hgrows, by simp [Except.toOption]⟩
    · obtain ⟨htraced, hreplay, -⟩ := traced_of_statement h hs
      have hlinked := Stmt.linked_of_traced h s htraced
      rw [← hreplay] at hlinked
      refine ⟨?_, by simpa [Except.toOption] using hlinked⟩
      rw [hreplay]
      exact Stmt.extends_replay _ s

theorem linked_of_run (calls : List Call) (h : ∃ scope, p.symbols.Tracks scope) :
    p.symbols.Extends (p.run calls).symbols ∧
      ∀ s ∈ p.returned calls, s.Linked (p.run calls).symbols := by
  induction calls generalizing p with
  | nil => exact ⟨.refl _, by simp [returned]⟩
  | cons c calls ih =>
    obtain ⟨scope, h⟩ := h
    obtain ⟨hgrows, hgiven⟩ := linked_of_call h c
    obtain ⟨hmore, hreturned⟩ := ih (exists_tracks_call h c)
    refine ⟨hgrows.trans hmore, fun s hs => ?_⟩
    obtain hs | hs := List.mem_append.mp hs
    · exact (hgiven s hs).mono hmore
    · exact hreturned s hs

theorem linked_of_program (h : p.symbols.Tracks scope) {program : Program}
    (hp : p.program = .ok program) : p.symbols.Extends program.symbols ∧
      Stmt.LinkedAll program.symbols program.statements := by
  rw [Parser.program] at hp
  rcases hs : p.statements with ⟨error | b, q⟩
  · simp [hs, Except.map] at hp
  · obtain ⟨T, rest, hT, -, rfl, rfl⟩ := (statements_eq_ok h).mp hs
    simp only [hs, Except.map, Except.ok.injEq] at hp
    cases hp
    exact ⟨Stmt.extends_replayAll _ _,
      Stmt.linkedAll_of_traced h _ (Grammar.Text.traced_trees h T hT.covered)⟩

/-- Behind any calls, failed ones included, a program can be made of all that they gave. -/
theorem linked_of_session (h : p.symbols.Tracks scope) (calls : List Call) {program : Program}
    (hp : (p.run calls).program = .ok program) {statements : List Stmt}
    (hs : ∀ s ∈ statements, s ∈ p.returned calls ∨ s ∈ program.statements) :
    Stmt.LinkedAll program.symbols statements := by
  obtain ⟨_, hrun⟩ := exists_tracks_run calls ⟨scope, h⟩
  obtain ⟨hgrows, hprogram⟩ := linked_of_program hrun hp
  rw [Stmt.linkedAll_iff] at hprogram ⊢
  intro s hmem
  obtain hreturned | hrest := hs s hmem
  · exact ((linked_of_run calls ⟨scope, h⟩).2 s hreturned).mono hgrows
  · exact hprogram s hrest

end Parser

variable {source : String} {limit : Nat}

theorem parseSource_eq_ok {program : Program} : parseSource source limit = .ok program ↔
    ∃ tokens, tokenize (Utf8.encode source) = .ok tokens ∧ parse tokens limit = .ok program := by
  rw [parseSource]
  cases tokenize (Utf8.encode source) with
  | error e => simp [bind, Except.bind, Except.mapError]
  | ok tokens =>
    cases hparse : parse tokens limit <;> simp [hparse, bind, Except.bind, Except.mapError]

theorem compile_eq_ok {entry text : String} : compile source limit entry = .ok text ↔
    ∃ program, parseSource source limit = .ok program ∧ program.assembly entry = .ok text := by
  rw [compile]
  cases parseSource source limit with
  | error d => simp [bind, Except.bind]
  | ok program =>
    cases htext : program.assembly entry <;> simp [htext, bind, Except.bind, Except.mapError]

theorem source_error_of_parseSource {d : Diagnostic} (h : parseSource source limit = .error d) :
    (∃ e, d = .lexical e) ∨ ∃ e, d = .grammar e := by
  rw [parseSource] at h
  cases htokens : tokenize (Utf8.encode source) with
  | error e =>
    simp only [htokens, bind, Except.bind, Except.mapError, Except.error.injEq] at h
    exact .inl ⟨e, h.symm⟩
  | ok tokens =>
    cases hparse : parse tokens limit with
    | error e =>
      simp only [htokens, hparse, bind, Except.bind, Except.mapError, Except.error.injEq] at h
      exact .inr ⟨e, h.symm⟩
    | ok program => simp [htokens, hparse, bind, Except.bind, Except.mapError] at h

theorem exists_assembly_of_parse {tokens : List Token} {program : Program}
    (h : parse tokens limit = .ok program) (entry : String) :
    ∃ text, program.assembly entry = .ok text := by
  rw [Program.exists_assembly_iff]
  exact (Parser.linked_of_program SymbolTable.tracks_empty h).2

theorem exists_assembly_of_parseSource {program : Program}
    (h : parseSource source limit = .ok program) (entry : String) :
    ∃ text, program.assembly entry = .ok text := by
  obtain ⟨tokens, -, hparse⟩ := parseSource_eq_ok.mp h
  exact exists_assembly_of_parse hparse entry

theorem exists_compile_of_parseSource {program : Program}
    (h : parseSource source limit = .ok program) (entry : String) :
    ∃ text, program.assembly entry = .ok text ∧ compile source limit entry = .ok text := by
  obtain ⟨text, htext⟩ := exists_assembly_of_parseSource h entry
  exact ⟨text, htext, compile_eq_ok.mpr ⟨program, h, htext⟩⟩

theorem parseSource_eq_error_of_compile {entry : String} {d : Diagnostic}
    (h : compile source limit entry = .error d) : parseSource source limit = .error d := by
  cases hparse : parseSource source limit with
  | error e => simpa [compile, hparse, bind, Except.bind] using h
  | ok program =>
    obtain ⟨text, -, htext⟩ := exists_compile_of_parseSource hparse entry
    simp [h] at htext

namespace CommandLine.Response

theorem statusOf_eq_of_parseSource {d : Diagnostic} (h : parseSource source limit = .error d) :
    statusOf d = 65 := by
  obtain ⟨e, rfl⟩ | ⟨e, rfl⟩ := source_error_of_parseSource h <;> rfl

theorem status_ofResult_cases {result : Except Diagnostic String}
    (h : ∀ d, result = .error d → statusOf d = 65) :
    (ofResult result).status = 0 ∨ (ofResult result).status = 65 := by
  cases result with
  | error d => exact .inr (h d rfl)
  | ok stdout => exact .inl rfl

theorem status_ofSource_cases (command : Command) (source : String) (limit : Nat) :
    (ofSource command source limit).status = 0 ∨ (ofSource command source limit).status = 65 := by
  cases command with
  | tokenize =>
    simp only [ofSource, tokenize]
    split
    · exact .inl rfl
    · exact .inr rfl
  | parse json =>
    refine status_ofResult_cases fun d hd => ?_
    cases hparse : parseSource source limit with
    | error e =>
      simp only [hparse, Except.map, Except.error.injEq] at hd
      rw [← hd]
      exact statusOf_eq_of_parseSource hparse
    | ok program => simp [hparse, Except.map] at hd
  | compile entry =>
    exact status_ofResult_cases fun d hd =>
      statusOf_eq_of_parseSource (parseSource_eq_error_of_compile hd)

end CommandLine.Response

open CommandLine

/-- What parses compiles. -/
theorem compile_of_parse :
    (∀ source limit entry,
      (∀ program, parseSource source limit = .ok program →
        ∃ text, program.assembly entry = .ok text ∧ compile source limit entry = .ok text) ∧
      ∀ d, compile source limit entry = .error d →
        parseSource source limit = .error d ∧ ((∃ e, d = .lexical e) ∨ ∃ e, d = .grammar e)) ∧
    (∀ file request, (Response.ofRequest file request).status ≠ 70) ∧
    ∀ tokens limit calls program,
      ((Parser.start tokens limit).run calls).program = .ok program →
        ∀ statements, (∀ s ∈ statements,
          s ∈ (Parser.start tokens limit).returned calls ∨ s ∈ program.statements) →
            ∀ entry, ∃ text, (Program.mk statements program.symbols).assembly entry = .ok text := by
  refine ⟨fun source limit entry => ⟨fun program h => ?_, fun d h => ?_⟩, fun file request => ?_,
    fun tokens limit calls program hp statements hs entry => ?_⟩
  · exact exists_compile_of_parseSource h entry
  · have hparse := parseSource_eq_error_of_compile h
    exact ⟨hparse, source_error_of_parseSource hparse⟩
  · have hsource (command : Command) (source : String) (limit : Nat) :
        (Response.ofSource command source limit).status ≠ 70 := by
      have := Response.status_ofSource_cases command source limit
      omega
    rcases request with _ | _ | i
    · simp [Response.ofRequest, Response.badUsage]
    · simp [Response.ofRequest, Response.version]
    · simp only [Response.ofRequest, Response.ofInvocation]
      split
      · split
        · exact hsource _ _ _
        · simp [Response.unreadable, Response.statusOf]
      · exact hsource _ _ _
  · rw [Program.exists_assembly_iff]
    exact Parser.linked_of_session SymbolTable.tracks_empty calls hp hs

/-- For the calls on `x := 1; if x { y := 2; if y y = 3`: the second one fails where a brace is
missing, with `y` bound, and the rest is read as an assignment. -/
theorem exists_assembly_behind_failure :
    ∃ text, (Program.mk
      [.assign "y" (.integer 3) 2, .declare "x" (.integer 1) 0, .assign "y" (.integer 3) 2]
      ⟨#[⟨"x", .integer 1⟩, ⟨"y", .integer 2⟩, ⟨"y", .integer 3⟩], [("x", 0), ("y", 2)]⟩).assembly
        "main" = .ok text :=
  compile_of_parse.2.2
    [⟨.identifier, "x", 1⟩, ⟨.colonEqual, ":=", 1⟩, ⟨.integer, "1", 1⟩, ⟨.semicolon, ";", 1⟩,
      ⟨.ifWord, "if", 1⟩, ⟨.identifier, "x", 1⟩, ⟨.openBrace, "\x7b", 1⟩,
      ⟨.identifier, "y", 1⟩, ⟨.colonEqual, ":=", 1⟩, ⟨.integer, "2", 1⟩, ⟨.semicolon, ";", 1⟩,
      ⟨.ifWord, "if", 1⟩, ⟨.identifier, "y", 1⟩,
      ⟨.identifier, "y", 1⟩, ⟨.assign, "=", 1⟩, ⟨.integer, "3", 1⟩]
    2 [.statement, .statement]
    ⟨[.assign "y" (.integer 3) 2],
      ⟨#[⟨"x", .integer 1⟩, ⟨"y", .integer 2⟩, ⟨"y", .integer 3⟩], [("x", 0), ("y", 2)]⟩⟩
    (by decide +kernel) _ (by decide +kernel) "main"

end TinyCompiler
