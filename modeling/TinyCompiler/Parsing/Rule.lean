import TinyCompiler.SymbolTable

/-! Grammar rules. A rule reads tokens from the front of a parser, may bind names, and
either gives a result or fails; the parser it leaves is there in both cases. Depth counts
the levels of nesting that are open. -/
namespace TinyCompiler

/-- Where a parse stands: the tokens left, the line of the last token of the whole list, the
bound on nesting with the depth reached, and the names bound so far. -/
structure Parser where
  rest : List Token
  lastLine : Nat
  limit : Nat
  depth : Nat
  symbols : SymbolTable
  deriving DecidableEq

namespace Parser

def start (tokens : List Token) (limit : Nat) : Parser :=
  ⟨tokens, (tokens.getLast?.map Token.line).getD 1, limit, 0, .empty⟩

/-- The current token. Behind the list stands an end marker on the line of its last token. -/
def peek (p : Parser) : Token := p.rest.head?.getD (.endOfInput p.lastLine)

def peekSecond (p : Parser) : Token := p.rest.tail.head?.getD (.endOfInput p.lastLine)

/-- Steps past the current token, unless it is an end marker. -/
def advance (p : Parser) : Parser :=
  if p.peek.kind = .endOfInput then p else { p with rest := p.rest.tail }

end Parser

abbrev Rule (α : Type) := ExceptT SyntaxError (StateM Parser) α

namespace Rule

variable {α β : Type}

/-- What a rule gives on a parser, and the parser it leaves. -/
def apply (r : Rule α) (p : Parser) : Except SyntaxError α × Parser := r.run.run p

def peek : Rule Token := return (← get).peek

def advance : Rule Unit := modify Parser.advance

/-- Steps past a token of the given kind, if there is one. -/
def accept (kind : Kind) : Rule Bool := do
  if (← peek).kind = kind then
    advance
    return true
  return false

/-- Runs a rule and then mends the parser, also when the rule fails. -/
def thenAlways (r : Rule α) (f : Parser → Parser) : Rule α :=
  ExceptT.mk fun p => let (result, q) := r.apply p; (result, f q)

/-- Opens one more level, within the limit. -/
def deepen : Rule Unit := do
  let p ← get
  if p.depth < p.limit then set { p with depth := p.depth + 1 }
  else throw (.tooDeep p.limit p.peek.line)

def nested (r : Rule α) : Rule α := do
  deepen
  r.thenAlways fun p => { p with depth := p.depth - 1 }

theorem apply_bind (r : Rule α) (f : α → Rule β) (p : Parser) :
    (r >>= f).apply p = match r.apply p with
      | (.ok a, q) => (f a).apply q
      | (.error e, q) => (.error e, q) := by
  simp only [apply, ExceptT.run_bind, StateT.run_bind]
  rcases (ExceptT.run r).run p with ⟨_ | _, _⟩ <;> rfl

@[simp] theorem apply_pure (a : α) (p : Parser) : (pure a : Rule α).apply p = (.ok a, p) := rfl

theorem apply_map (f : α → β) (r : Rule α) (p : Parser) :
    (f <$> r).apply p = ((r.apply p).1.map f, (r.apply p).2) := by
  rw [← bind_pure_comp, apply_bind]
  rcases r.apply p with ⟨_ | _, _⟩ <;> rfl

@[simp] theorem apply_throw (e : SyntaxError) (p : Parser) :
    (throw e : Rule α).apply p = (.error e, p) := rfl

@[simp] theorem apply_get (p : Parser) : (get : Rule Parser).apply p = (.ok p, p) := rfl

@[simp] theorem apply_set (p q : Parser) : (set q : Rule PUnit).apply p = (.ok ⟨⟩, q) := rfl

@[simp] theorem apply_peek (p : Parser) : peek.apply p = (.ok p.peek, p) := rfl

@[simp] theorem apply_advance (p : Parser) : advance.apply p = (.ok (), p.advance) := rfl

@[simp] theorem apply_thenAlways (r : Rule α) (f : Parser → Parser) (p : Parser) :
    (r.thenAlways f).apply p = ((r.apply p).1, f (r.apply p).2) := rfl

theorem apply_accept (kind : Kind) (p : Parser) :
    (accept kind).apply p =
      if p.peek.kind = kind then (.ok true, p.advance) else (.ok false, p) := by
  by_cases h : p.peek.kind = kind <;> simp [accept, apply_bind, apply_map, Except.map, h]

theorem apply_deepen (p : Parser) :
    deepen.apply p = if p.depth < p.limit then (.ok (), { p with depth := p.depth + 1 })
      else (.error (.tooDeep p.limit p.peek.line), p) := by
  by_cases h : p.depth < p.limit <;> simp [deepen, apply_bind, h]

theorem apply_nested (r : Rule α) (p : Parser) :
    (nested r).apply p =
      if p.depth < p.limit then
        let (result, q) := r.apply { p with depth := p.depth + 1 }
        (result, { q with depth := q.depth - 1 })
      else (.error (.tooDeep p.limit p.peek.line), p) := by
  by_cases h : p.depth < p.limit <;> simp [nested, apply_bind, apply_deepen, h]

end Rule

end TinyCompiler
