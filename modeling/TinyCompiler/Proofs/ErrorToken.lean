import TinyCompiler.Proofs.CoupledStatements
import TinyCompiler.Proofs.Session

/-! Errors describe the token they stop at. A call that fails leaves its parser at the token that
its error is about, and what the error says is so of that token, of the table as it is then, and
of the limit. -/
namespace TinyCompiler

/-- What an error says of the token `t`, of the table of names and of the limit on nesting. -/
def SyntaxError.Describes (e : SyntaxError) (t : Token) (table : SymbolTable) (limit : Nat) :
    Prop :=
  match e with
  | unexpected found => found = t
  | undeclared name line =>
    t.kind = .identifier ∧ name = t.lexeme ∧ line = t.line ∧ table.lookup name = none
  | unclosed expected found => found = t ∧ (expected = .closeBrace → t.kind = .endOfInput)
  | outOfRange numeral line =>
    t.kind = .integer ∧ numeral = t.lexeme ∧ line = t.line ∧ Decimal.int64? numeral = none
  | tooDeep bound line => bound = limit ∧ line = t.line

/-- A parser that stops describes its current token. -/
theorem Halt.describes {halt : Halt} {p : Parser} (h : halt.Meets p) :
    (halt.error p).Describes p.peek p.symbols p.limit := by
  cases halt with
  | unexpected => rfl
  | undeclared =>
    obtain ⟨hkind, hname⟩ := h
    rw [SymbolTable.contains, Option.isSome_eq_false_iff, Option.isNone_iff_eq_none] at hname
    exact ⟨hkind, rfl, rfl, hname⟩
  | unclosed expected =>
    refine ⟨rfl, fun hbrace => ?_⟩
    obtain hparen | hend := h
    · rw [hparen] at hbrace
      cases hbrace
    · exact hend
  | outOfRange => exact ⟨h.1, rfl, rfl, h.2⟩
  | tooDeep => exact ⟨rfl, rfl⟩

def Coupling.same : Coupling where
  name := id
  name_injective := Function.injective_id
  Pair p q := q = p
  Parted _ _ := False
  kind h := by rw [h]
  lexeme h _ := by
    rw [h, Token.rename_id]
    rfl
  secondKind h _ := by rw [h]
  symbols h := by rw [h, SymbolTable.rename_id]
  depth h := by rw [h]
  advance h := by rw [h]
  set_depth _ h := by rw [h]
  set_symbols _ h := by rw [h, SymbolTable.rename_id]
  deepen h := .inl (by rw [h])
  parted_depth _ h := h
  parted_ahead h _ := h

namespace Coupling

variable {α : Type} {φ : α → α} {e : SyntaxError} {p q : Parser}

theorem Outcome.describes {out : Except SyntaxError α × Parser}
    (h : same.Outcome φ (.error e, q) out) : e.Describes q.peek q.symbols q.limit := by
  cases h with
  | halted halt _ hmeets => exact halt.describes hmeets
  | parted hparted => exact hparted.elim

/-- A rule that fails stops at its current token. -/
theorem Couples.describes {r : Rule α} (h : same.Couples φ r r) (hr : r.apply p = (.error e, q)) :
    e.Describes q.peek q.symbols q.limit := by
  have hout := h p p rfl
  rw [hr] at hout
  exact hout.describes

end Coupling

namespace Parser

def Fails (p : Parser) (e : SyntaxError) : Call → Prop
  | .expression => p.expression.1 = .error e
  | .statement => p.statement.1 = .error e

theorem describes_of_fails {p : Parser} {c : Call} {e : SyntaxError} (h : p.Fails e c) :
    e.Describes (p.call c).peek (p.call c).symbols (p.call c).limit := by
  cases c with
  | expression => exact (Coupling.same.couples_expression _).describes (Prod.ext h rfl)
  | statement => exact (Coupling.same.couples_statement _).describes (Prod.ext h rfl)

theorem run_append (p : Parser) (calls more : List Call) :
    p.run (calls ++ more) = (p.run calls).run more :=
  List.foldl_append

/-- Behind any calls, failed ones included, a call that fails stops at a token of the list, or at
the end marker behind it, and its error describes that token. -/
theorem error_describes_token (tokens : List Token) (limit : Nat) (calls : List Call) (c : Call)
    (e : SyntaxError) (h : ((start tokens limit).run calls).Fails e c) :
    let q := (start tokens limit).run (calls ++ [c])
    let i := tokens.length - q.rest.length
    q.rest = tokens.drop i ∧
      e.Describes (tokens[i]?.getD (.endOfInput (endLine tokens))) q.symbols limit := by
  intro q i
  have hcall : q = ((start tokens limit).run calls).call c := run_append _ calls [c]
  have hplaced : q = placed tokens limit i q.symbols := run_eq_placed tokens limit _
  have hdescribes := describes_of_fails h
  rw [← hcall] at hdescribes
  refine ⟨congrArg Parser.rest hplaced, ?_⟩
  have hpeek : q.peek = tokens[i]?.getD (.endOfInput (endLine tokens)) := by
    rw [hplaced, peek_placed]
  have hlimit : q.limit = limit := congrArg Parser.limit hplaced
  rwa [hpeek, hlimit] at hdescribes

/-- In `if 1 { x := 2` with a name behind its end marker, an expression fails at once, and the
statement then asks for its brace at the marker. -/
theorem exists_error_at_marker : ∃ (tokens : List Token) (e : SyntaxError),
    tokens = [⟨.ifWord, "if", 1⟩, ⟨.integer, "1", 1⟩, ⟨.openBrace, "\x7b", 1⟩,
      ⟨.identifier, "x", 2⟩, ⟨.colonEqual, ":=", 2⟩, ⟨.integer, "2", 2⟩, .endOfInput 3,
      ⟨.identifier, "y", 4⟩] ∧
    e = .unclosed .closeBrace (.endOfInput 3) ∧
    ((start tokens 2).run [.expression]).Fails e .statement ∧
    let q := (start tokens 2).run [.expression, .statement]
    q.rest = tokens.drop 6 ∧ e.Describes (.endOfInput 3) q.symbols 2 := by
  let tokens : List Token := [⟨.ifWord, "if", 1⟩, ⟨.integer, "1", 1⟩, ⟨.openBrace, "\x7b", 1⟩,
    ⟨.identifier, "x", 2⟩, ⟨.colonEqual, ":=", 2⟩, ⟨.integer, "2", 2⟩, .endOfInput 3,
    ⟨.identifier, "y", 4⟩]
  let e : SyntaxError := .unclosed .closeBrace (.endOfInput 3)
  have hfails : ((start tokens 2).run [.expression]).Fails e .statement := by
    show ((start tokens 2).run [.expression]).statement.1 = .error e
    decide +kernel
  have hplace :
      tokens.length - ((start tokens 2).run [.expression, .statement]).rest.length = 6 := by
    decide +kernel
  have hdescribes := error_describes_token tokens 2 [.expression] .statement e hfails
  simp only [List.cons_append, List.nil_append, hplace] at hdescribes
  exact ⟨tokens, e, rfl, rfl, hfails, hdescribes⟩

end Parser

end TinyCompiler
