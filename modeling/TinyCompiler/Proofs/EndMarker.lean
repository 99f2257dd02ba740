import TinyCompiler.Proofs.Bounds
import TinyCompiler.Proofs.CoupledStatements

/-! The end marker is implied and final. Every production is coupled with itself on a parser that
has more tokens behind an end marker, and does not read them. A list of tokens without a marker is
read as if one stood behind it. -/
namespace TinyCompiler

open Grammar

namespace Coupling

open Rule

variable {C : Coupling}

theorem couples_ofTier (C : Coupling) (bound : Nat) (t : Tier) :
    C.Couples (Expr.rename C.name) (ofTier bound t) (ofTier bound t) := by
  have hmul := (C.couples_unary bound).tier .multiplicative (unary_skims bound) bound
  have hadd := hmul.tier .additive (ofTier_skims bound .multiplicative) bound
  have hcmp := hadd.tier .comparison (ofTier_skims bound .additive) bound
  have hand := hcmp.tier (.connective .and) (ofTier_skims bound .comparison) bound
  cases t with
  | multiplicative => exact hmul
  | additive => exact hadd
  | comparison => exact hcmp
  | conjunction => exact hand
  | disjunction => exact hand.tier (.connective .or) (ofTier_skims bound .conjunction) bound

end Coupling

def Production.renameTree (f : String → String) : (π : Production) → π.Tree → π.Tree
  | tier _ _ | unary _ | primary _ => Expr.rename f
  | statement _ => Stmt.rename f
  | braces _ | program _ => Stmt.renameAll f
  | nested inner => inner.renameTree f

/-- In step, every production gives the same. -/
theorem Coupling.couples_rule (C : Coupling) (π : Production) :
    C.Couples (π.renameTree C.name) π.rule π.rule := by
  induction π with
  | tier t bound => exact C.couples_ofTier bound t
  | unary bound => exact C.couples_unary bound
  | primary bound => exact (C.couples_expression bound).primary
  | statement bound => exact C.couples_statement bound
  | braces bound => exact (C.couples_statement bound).braces (Rule.statement_orderly bound) bound
  | program bound =>
    exact (C.couples_statement bound).untilKind (Rule.statement_orderly bound) .endOfInput bound
  | nested inner ih => exact ih.nested inner.onward

namespace Parser

variable {behind : List Token} {p q : Parser}

theorem rest_eq_nil_iff (h : ∀ t ∈ p.rest, t.kind ≠ .endOfInput) :
    p.rest = [] ↔ p.peek.kind = .endOfInput := by
  constructor
  · exact peek_of_rest_nil
  · intro hk
    cases hr : p.rest with
    | nil => rfl
    | cons t ts =>
      rw [peek_of_rest hr] at hk
      exact absurd hk (h t (by rw [hr]; exact List.mem_cons_self))

/-- The tokens of the second parser are those of the first, none of them an end marker, and more
behind them. -/
structure Followed (behind : List Token) (p q : Parser) : Prop where
  real : ∀ t ∈ p.rest, t.kind ≠ .endOfInput
  rest : q.rest = p.rest ++ behind
  limit : q.limit = p.limit
  depth : q.depth = p.depth
  symbols : q.symbols = p.symbols

namespace Followed

theorem kind (h : p.Followed behind q) (hb : firstKind behind .endOfInput = .endOfInput) :
    q.peek.kind = p.peek.kind := by
  rw [peek_kind, peek_kind, h.rest, firstKind_append, hb]

theorem peek_of_ne (h : p.Followed behind q) (hk : p.peek.kind ≠ .endOfInput) :
    q.peek = p.peek := by
  obtain ⟨ts, hts⟩ := exists_rest_of_peek rfl hk
  have hrest := h.rest
  rw [hts] at hrest
  exact peek_of_rest hrest

theorem secondKind (h : p.Followed behind q) (hb : firstKind behind .endOfInput = .endOfInput)
    (hk : p.peek.kind ≠ .endOfInput) : q.peekSecond.kind = p.peekSecond.kind := by
  obtain ⟨ts, hts⟩ := exists_rest_of_peek rfl hk
  have hrest := h.rest
  rw [hts, List.cons_append] at hrest
  have hsecond (r : Parser) {t : Token} {us : List Token} (hr : r.rest = t :: us) :
      r.peekSecond.kind = firstKind us .endOfInput := by
    rw [peekSecond, hr]
    exact peek_kind { r with rest := us }
  rw [hsecond q hrest, hsecond p hts, firstKind_append, hb]

theorem advance (h : p.Followed behind q) (hb : firstKind behind .endOfInput = .endOfInput) :
    p.advance.Followed behind q.advance := by
  by_cases hk : p.peek.kind = .endOfInput
  · rwa [Parser.advance, Parser.advance, if_pos hk, if_pos (by rwa [h.kind hb])]
  · obtain ⟨ts, hts⟩ := exists_rest_of_peek rfl hk
    have hreal := h.real
    have hrest := h.rest
    rw [hts] at hreal hrest
    rw [advance_of_rest hts hk, advance_of_rest hrest hk]
    exact ⟨fun t ht => hreal t (List.mem_cons_of_mem _ ht), rfl, h.limit, h.depth, h.symbols⟩

/-- With the marker that the first parser makes up, the second sees the same token. -/
theorem peek_eq {more : List Token} (h : p.Followed (.endOfInput p.lastLine :: more) q) :
    q.peek = p.peek := by
  by_cases hk : p.peek.kind = .endOfInput
  · have hrest := h.rest
    have hnil := (rest_eq_nil_iff h.real).mpr hk
    rw [hnil] at hrest
    rw [peek_of_rest hrest, Parser.peek, hnil]
    rfl
  · exact h.peek_of_ne hk

end Followed

end Parser

/-- The same parser without and with more tokens behind an end marker. -/
def Coupling.marker {behind : List Token} (hb : firstKind behind .endOfInput = .endOfInput) :
    Coupling where
  name := id
  name_injective := Function.injective_id
  Pair := Parser.Followed behind
  Parted _ _ := False
  kind h := h.kind hb
  lexeme h hk := by rw [Token.rename_id, h.peek_of_ne hk]; rfl
  secondKind h hk := h.secondKind hb hk
  symbols h := by rw [SymbolTable.rename_id, h.symbols]
  depth h := h.depth
  advance h := h.advance hb
  set_depth _ h := { h with depth := rfl }
  set_symbols t h := { h with symbols := by rw [SymbolTable.rename_id] }
  deepen h := .inl (by rw [h.depth, h.limit])
  parted_depth _ h := h
  parted_ahead h _ := h

theorem Halt.error_congr (halt : Halt) {p q : Parser} (hpeek : q.peek = p.peek)
    (hlimit : q.limit = p.limit) : halt.error q = halt.error p := by
  cases halt <;> simp only [Halt.error, hpeek, hlimit]

section Outcomes

variable {α β : Type} {φ : α → β} {behind : List Token}

theorem Coupling.Outcome.followed {hb : firstKind behind .endOfInput = .endOfInput}
    {out : Except SyntaxError α × Parser} {out' : Except SyntaxError β × Parser}
    (h : (Coupling.marker hb).Outcome φ out out') : out.2.Followed behind out'.2 := by
  cases h with
  | ok a h => exact h
  | halted halt h _ => exact h
  | parted h => exact h.elim

/-- The result is the same, if the marker is the one that would be made up. -/
theorem Coupling.Outcome.result_eq {φ : α → α} {line : Nat} {more : List Token}
    {hb : firstKind (.endOfInput line :: more) .endOfInput = .endOfInput}
    {out out' : Except SyntaxError α × Parser} (h : (Coupling.marker hb).Outcome φ out out')
    (hφ : ∀ a, φ a = a) (hline : out.2.lastLine = line) : out'.1 = out.1 := by
  subst hline
  cases h with
  | ok a h => rw [hφ]
  | halted halt h _ => rw [halt.error_congr h.peek_eq h.limit]
  | parted h => exact h.elim

end Outcomes

/-- Every list of tokens can be cut in front of its first end marker. -/
theorem exists_cut (tokens : List Token) : ∃ real behind, tokens = real ++ behind ∧
    (∀ t ∈ real, t.kind ≠ .endOfInput) ∧ firstKind behind .endOfInput = .endOfInput := by
  induction tokens with
  | nil => exact ⟨[], [], rfl, by simp, rfl⟩
  | cons t ts ih =>
    by_cases hk : t.kind = .endOfInput
    · exact ⟨[], t :: ts, rfl, by simp, hk⟩
    · obtain ⟨real, behind, rfl, hreal, hb⟩ := ih
      exact ⟨t :: real, behind, rfl, List.forall_mem_cons.mpr ⟨hk, hreal⟩, hb⟩

/-- No production steps past an end marker, whether it gives a result or fails. -/
theorem Production.exists_read (π : Production) (p : Parser) : ∃ read,
    p.rest = read ++ (π.rule.apply p).2.rest ∧ ∀ t ∈ read, t.kind ≠ .endOfInput := by
  obtain ⟨real, behind, hrest, hreal, hb⟩ := exists_cut p.rest
  have hcut : { p with rest := real }.Followed behind p := ⟨hreal, hrest, rfl, rfl, rfl⟩
  have hafter := ((Coupling.marker hb).couples_rule π _ _ hcut).followed
  obtain ⟨read, hread⟩ := (π.onward { p with rest := real }).rest
  refine ⟨read, ?_, fun t ht => hreal t ?_⟩
  · rw [hafter.rest, ← List.append_assoc, hread, hrest]
  · have hmem := List.mem_append_left (π.rule.apply { p with rest := real }).2.rest ht
    rwa [hread] at hmem

namespace Parser

variable {p q : Parser} {more : List Token}

theorem onward_statements (p : Parser) : p.Onward p.statements.2 :=
  ((Rule.statement_orderly _).untilKind .endOfInput _).onward p

namespace Followed

theorem call (h : p.Followed (.endOfInput p.lastLine :: more) q) (c : Call) :
    q.reply c = p.reply c ∧ (p.call c).Followed (.endOfInput p.lastLine :: more) (q.call c) := by
  have hlen : p.rest.length < q.rest.length + 1 := by
    rw [h.rest, List.length_append]
    omega
  cases c with
  | expression =>
    have hout := (Coupling.marker rfl).couples_expression (q.rest.length + 1) p q h
    rw [expression_of_bound hlen] at hout
    exact ⟨congrArg Reply.expression
      (hout.result_eq Expr.rename_id (p.onward_call .expression).lastLine), hout.followed⟩
  | statement =>
    have hout := (Coupling.marker rfl).couples_statement (q.rest.length + 1) p q h
    rw [statement_of_bound hlen] at hout
    exact ⟨congrArg Reply.statement
      (hout.result_eq Stmt.rename_id (p.onward_call .statement).lastLine), hout.followed⟩

theorem program (h : p.Followed (.endOfInput p.lastLine :: more) q) : q.program = p.program := by
  have hlen : p.rest.length < q.rest.length + 1 := by
    rw [h.rest, List.length_append]
    omega
  have hout := ((Coupling.marker rfl).couples_statement (q.rest.length + 1)).untilKind
    (Rule.statement_orderly _) .endOfInput (q.rest.length + 1) p q h
  rw [statements_of_bounds hlen hlen] at hout
  have hresult := hout.result_eq Stmt.renameAll_id p.onward_statements.lastLine
  have hsymbols := hout.followed.symbols
  rw [Parser.program, Parser.program]
  -- With the same bound, `q` gives what `q.statements` is.
  change q.statements.1 = p.statements.1 at hresult
  change q.statements.2.symbols = p.statements.2.symbols at hsymbols
  simp only [hresult, hsymbols]

theorem session (h : p.Followed (.endOfInput p.lastLine :: more) q) (calls : List Call) :
    q.replies calls = p.replies calls ∧ (q.run calls).program = (p.run calls).program := by
  induction calls generalizing p q with
  | nil => exact ⟨rfl, h.program⟩
  | cons c calls ih =>
    obtain ⟨hreply, hcall⟩ := h.call c
    rw [← (p.onward_call c).lastLine] at hcall
    obtain ⟨hreplies, hprogram⟩ := ih hcall
    refine ⟨?_, hprogram⟩
    rw [replies, replies, hreply, hcall.symbols, hreplies]

end Followed

/-- The end marker is implied and final. A list of tokens without one, the same with a marker on
its last line, and the same with that marker and anything behind it cannot be told apart: whatever
the calls, failed ones included, all give the same replies, leave the same tables, and make the
same program in the end. -/
theorem end_marker_final {tokens : List Token} (h : ∀ t ∈ tokens, t.kind ≠ .endOfInput)
    (more : List Token) (limit : Nat) (calls : List Call) :
    ∀ marked ∈ [tokens ++ [.endOfInput (endLine tokens)],
        tokens ++ .endOfInput (endLine tokens) :: more],
      (start marked limit).replies calls = (start tokens limit).replies calls ∧
        ((start marked limit).run calls).program = ((start tokens limit).run calls).program := by
  have hall (more : List Token) : (start tokens limit).Followed
      (.endOfInput (endLine tokens) :: more)
      (start (tokens ++ .endOfInput (endLine tokens) :: more) limit) :=
    ⟨h, rfl, rfl, rfl, rfl⟩
  intro marked hmarked
  simp only [List.mem_cons, List.not_mem_nil, or_false] at hmarked
  obtain rfl | rfl := hmarked
  · exact (hall []).session calls
  · exact (hall more).session calls

/-- A declaration, and a name behind the marker that would be read otherwise. -/
theorem exists_marked_declaration : ∃ tokens more, (∀ t ∈ tokens, t.kind ≠ .endOfInput) ∧
    tokens = [⟨.identifier, "x", 1⟩, ⟨.colonEqual, ":=", 2⟩, ⟨.integer, "1", 2⟩] ∧
    more = [⟨.identifier, "x", 3⟩] ∧
    ∀ marked ∈ [tokens ++ [.endOfInput 2], tokens ++ .endOfInput 2 :: more],
      (start marked 1).replies [.statement, .expression] =
          [(.statement (.ok (.declare "x" (.integer 1) 0)),
              ⟨#[⟨"x", .integer 1⟩], [("x", 0)]⟩),
            (.expression (.error (.unexpected (.endOfInput 2))),
              ⟨#[⟨"x", .integer 1⟩], [("x", 0)]⟩)] ∧
        ((start marked 1).run [.statement, .expression]).program =
          .ok ⟨[], ⟨#[⟨"x", .integer 1⟩], [("x", 0)]⟩⟩ := by
  let tokens : List Token :=
    [⟨.identifier, "x", 1⟩, ⟨.colonEqual, ":=", 2⟩, ⟨.integer, "1", 2⟩]
  have hreal : ∀ t ∈ tokens, t.kind ≠ .endOfInput := by decide
  refine ⟨tokens, [⟨.identifier, "x", 3⟩], hreal, rfl, rfl, fun marked hmarked => ?_⟩
  obtain ⟨hreplies, hprogram⟩ :=
    end_marker_final hreal [⟨.identifier, "x", 3⟩] 1 [.statement, .expression] marked hmarked
  rw [hreplies, hprogram]
  exact ⟨by decide +kernel, by decide +kernel⟩

end Parser

end TinyCompiler
