import TinyCompiler.Proofs.Coupling

/-! Two runs of the rules for statements in step, and with them two parses. -/
namespace TinyCompiler

open Grammar

namespace Coupling

open Rule

variable {C : Coupling} {p q : Parser} {value : Rule Expr} {body : Rule (List Stmt)}

theorem declared (h : C.Pair p q) (name : String) (e : Expr) :
    C.Pair { p with symbols := (p.symbols.declare name e).2 }
      { q with symbols := (q.symbols.declare (C.name name) (e.rename C.name)).2 } := by
  rw [C.symbols h, SymbolTable.declare_rename C.name_injective]
  exact C.set_symbols _ h

theorem bindings_size (h : C.Pair p q) :
    q.symbols.bindings.size = p.symbols.bindings.size := by
  rw [C.symbols h, SymbolTable.rename, Array.size_map]

theorem couples_declare (name : String) (e : Expr) :
    C.Couples id (declare name e) (declare (C.name name) (e.rename C.name)) := by
  intro p q h
  rw [apply_declare, apply_declare, C.bindings_size h]
  exact .ok _ (C.declared h name e)

theorem contains_rename (h : C.Pair p q) (name : String) :
    q.symbols.contains (C.name name) = p.symbols.contains name := by
  rw [C.symbols h, SymbolTable.contains_rename C.name_injective]

/-- The name is declared when its value has been read, since it was before. -/
theorem Outcome.assign (h : C.Pair p q) {name : String} (hname : p.symbols.contains name = true)
    (e : Expr) (line line' : Nat) :
    C.Outcome id ((Rule.assign name e line).apply p)
      ((Rule.assign (C.name name) (e.rename C.name) line').apply q) := by
  rw [apply_assign, apply_assign, C.contains_rename h, hname, if_pos rfl, if_pos rfl,
    C.bindings_size h]
  exact .ok _ (C.declared h name e)

section Forms

variable {ts : List Token}

theorem Outcome.declaration {t : TokenOf .identifier} {m : TokenOf .colonEqual}
    (h : C.Couples (Expr.rename C.name) value value) (hpq : C.Pair p q)
    (hts : p.rest = t.1 :: m.1 :: ts) :
    C.Outcome (Stmt.rename C.name) ((bareStatement value body).apply p)
      ((bareStatement value body).apply q) := by
  obtain ⟨u, us, hus, hlexeme, hmark⟩ := C.exists_token hpq hts (by decide)
  obtain ⟨n, vs, rfl, -, hnext⟩ := C.exists_token hmark rfl (by decide)
  rw [Token.lexeme_rename_of_identifier t.2] at hlexeme
  rw [bareStatement_of_declaration hts, bareStatement_of_declaration hus, hlexeme]
  refine (h _ _ hnext).bind (fun e => ((orderly_declare (k := 1) _ e).map _).ahead)
    fun e p' q' _ h' => ?_
  exact (C.couples_declare t.1.lexeme e p' q' h').map fun _ => rfl

theorem Outcome.assignment {t : TokenOf .identifier} {m : TokenOf .assign}
    (h : C.Couples (Expr.rename C.name) value value) (hs : value.Skims) (hpq : C.Pair p q)
    (hts : p.rest = t.1 :: m.1 :: ts) :
    C.Outcome (Stmt.rename C.name) ((bareStatement value body).apply p)
      ((bareStatement value body).apply q) := by
  obtain ⟨u, us, hus, hlexeme, hmark⟩ := C.exists_token hpq hts (by decide)
  obtain ⟨n, vs, rfl, -, hnext⟩ := C.exists_token hmark rfl (by decide)
  rw [Token.lexeme_rename_of_identifier t.2] at hlexeme
  rw [bareStatement_of_assignment hts, bareStatement_of_assignment hus, hlexeme,
    C.contains_rename hpq]
  by_cases hname : p.symbols.contains t.1.lexeme = true
  · rw [if_pos hname, if_pos hname]
    refine (h _ _ hnext).bind (fun e => ((orderly_assign (k := 1) _ e _).map _).ahead)
      fun e p' q' hvalue h' => ?_
    have hsame : p'.symbols = p.symbols := by
      have hread := (hs { p with rest := ts }).symbols
      rwa [hvalue] at hread
    exact (Outcome.assign h' (by rwa [hsame]) e t.1.line u.1.line).map fun _ => rfl
  · rw [if_neg hname, if_neg hname]
    refine .halts hpq .undeclared ?_ ?_ ?_
    · rw [Halt.Meets, Parser.peek_of_rest hts]
      exact ⟨t.2, by simpa using hname⟩
    · rw [Halt.error, Parser.peek_of_rest hts]
    · rw [Halt.error, Parser.peek_of_rest hus, hlexeme]

theorem Outcome.branch {t : TokenOf .ifWord} (h : C.Couples (Expr.rename C.name) value value)
    (hb : C.Couples (Stmt.renameAll C.name) body body) (hbody : body.Orderly 1) (hpq : C.Pair p q)
    (hts : p.rest = t.1 :: ts) :
    C.Outcome (Stmt.rename C.name) ((bareStatement value body).apply p)
      ((bareStatement value body).apply q) := by
  obtain ⟨u, us, hus, -, hnext⟩ := C.exists_token hpq hts (by decide)
  rw [bareStatement_of_if hts, bareStatement_of_if hus]
  refine (h _ _ hnext).bind (fun e => (hbody.alternatives e).ahead) fun e p₁ q₁ _ h₁ => ?_
  refine (hb p₁ q₁ h₁).bind (fun b => (hbody.alternative _ b).ahead) fun b p₂ q₂ _ h₂ => ?_
  refine (C.couples_accept .elseWord p₂ q₂ h₂).bind (fun more => ?_) fun more p₃ q₃ _ h₃ => ?_
  · split
    · exact (hbody.map _).ahead
    · exact (orderly_pure (k := 1) _).ahead
  · cases more with
    | true => exact (hb p₃ q₃ h₃).map fun _ => rfl
    | false => exact .ok (Stmt.ifThen e b) h₃

theorem Outcome.loop {t : TokenOf .forWord} (h : C.Couples (Expr.rename C.name) value value)
    (hb : C.Couples (Stmt.renameAll C.name) body body) (hbody : body.Orderly 1) (hpq : C.Pair p q)
    (hts : p.rest = t.1 :: ts) :
    C.Outcome (Stmt.rename C.name) ((bareStatement value body).apply p)
      ((bareStatement value body).apply q) := by
  obtain ⟨u, us, hus, -, hnext⟩ := C.exists_token hpq hts (by decide)
  rw [bareStatement_of_for hts, bareStatement_of_for hus]
  refine (h _ _ hnext).bind (fun e => (hbody.map _).ahead) fun e p' q' _ h' => ?_
  exact (hb p' q' h').map fun _ => rfl

theorem startsBinding_iff (h : C.Pair p q) :
    StartsBinding [q.peek.kind, q.peekSecond.kind] ↔
      StartsBinding [p.peek.kind, p.peekSecond.kind] := by
  rw [startsBinding_cons_cons, startsBinding_cons_cons, C.kind h]
  refine and_congr_right fun hname => ?_
  rw [C.secondKind h (by rw [hname]; decide)]

/-- Two tokens decide the form in both runs. -/
theorem Couples.bareStatement (h : C.Couples (Expr.rename C.name) value value) (hs : value.Skims)
    (hb : C.Couples (Stmt.renameAll C.name) body body) (hbody : body.Orderly 1) :
    C.Couples (Stmt.rename C.name) (bareStatement value body) (bareStatement value body) := by
  intro p q hpq
  by_cases hbinding : StartsBinding [p.peek.kind, p.peekSecond.kind]
  · obtain ⟨t, m, ts, hts⟩ | ⟨t, m, ts, hts⟩ := exists_binding_tokens hbinding
    · exact .declaration h hpq hts
    · exact .assignment h hs hpq hts
  by_cases hword : p.peek.kind ∈ [Kind.returnWord, .ifWord, .forWord]
  · obtain ⟨t, ts, ht⟩ | ⟨t, ts, ht⟩ | ⟨t, ts, ht⟩ := exists_word_token hword
    · obtain ⟨u, us, hus, -, hnext⟩ := C.exists_token hpq ht (by decide)
      rw [bareStatement_of_return ht, bareStatement_of_return hus]
      exact (h _ _ hnext).map fun _ => rfl
    · exact .branch h hb hbody hpq ht
    · exact .loop h hb hbody hpq ht
  · rw [bareStatement_of_other hbinding hword,
      bareStatement_of_other (by rwa [C.startsBinding_iff hpq]) (by rwa [C.kind hpq])]
    exact (h p q hpq).map fun _ => rfl

end Forms

section Rows

variable {r : Rule Stmt}

theorem Couples.untilKind (h : C.Couples (Stmt.rename C.name) r r) (hr : r.Orderly 1) (close : Kind)
    (n : Nat) : C.Couples (Stmt.renameAll C.name) (untilKind close r n)
      (untilKind close r n) := by
  -- Induction on the bound of the row, which is the same in both runs.
  induction n with
  | zero => exact fun p q hpq => .ok [] hpq
  | succ n ih =>
    intro p q hpq
    by_cases hk : p.peek.kind = close
    · rw [untilKind_of_close hk, untilKind_of_close (by rwa [C.kind hpq])]
      exact .ok [] hpq
    · by_cases he : p.peek.kind = .endOfInput
      · rw [untilKind_of_end hk he,
          untilKind_of_end (by rwa [C.kind hpq]) (by rwa [C.kind hpq])]
        exact .halted (.unclosed close) hpq (.inr he)
      · rw [untilKind_of_other hk he,
          untilKind_of_other (by rwa [C.kind hpq]) (by rwa [C.kind hpq])]
        refine (h p q hpq).bind (fun s => ((hr.untilKind close n).map _).ahead)
          fun s p' q' _ h' => ?_
        exact (ih p' q' h').map fun _ => rfl

theorem Couples.braces (h : C.Couples (Stmt.rename C.name) r r) (hr : r.Orderly 1)
    (bound : Nat) : C.Couples (Stmt.renameAll C.name) (braces bound r) (braces bound r) := by
  intro p q hpq
  refine (C.couples_accept .openBrace p q hpq).bind (fun opened => ?_) fun opened p₁ q₁ _ h₁ => ?_
  · split
    · exact ((hr.untilKind _ _).bind fun _ => orderly_advance.bind fun _ => orderly_pure _).ahead
    · exact (orderly_peek.bind fun _ => orderly_throw (k := 1) id).ahead
  · cases opened with
    | true =>
      exact (h.untilKind hr .closeBrace bound p₁ q₁ h₁).bind
        (fun b => (orderly_advance.bind fun _ => orderly_pure (k := 1) b).ahead)
          fun b p₂ q₂ _ h₂ => .ok b (C.advance h₂)
    | false => exact .halted .unexpected h₁ trivial

theorem Couples.block (h : C.Couples (Stmt.rename C.name) r r) (hr : r.Orderly 1) (bound : Nat) :
    C.Couples (Stmt.renameAll C.name) (block bound r) (block bound r) := by
  rw [block_eq_nested]
  exact (h.braces hr bound).nested (hr.braces bound).onward

theorem couples_statement (C : Coupling) (bound : Nat) :
    C.Couples (Stmt.rename C.name) (statement bound) (statement bound) := by
  induction bound with
  | zero => exact fun p q hpq => .halted .unexpected hpq trivial
  | succ n ih =>
    intro p q hpq
    have hbody := (statement_orderly n).block n
    refine ((C.couples_expression (n + 1)).bareStatement (expression_skims (n + 1))
      (ih.block (statement_orderly n) n) hbody p q hpq).bind
        (fun s => ((orderly_accept (k := 1) _).bind fun _ => orderly_pure s).ahead)
          fun s p' q' _ h' => ?_
    exact (C.couples_accept .semicolon p' q' h').bind (fun _ => (orderly_pure (k := 1) _).ahead)
      fun _ p'' q'' _ h'' => .ok s h''

end Rows

theorem couples_statements (h : C.Pair p q) (hlen : q.rest.length = p.rest.length) :
    C.Outcome (Stmt.renameAll C.name) p.statements q.statements := by
  rw [Parser.statements, Parser.statements, hlen]
  exact (C.couples_statement _).untilKind (statement_orderly _) .endOfInput _ p q h

/-- Two parses that start in step give the same program up to names, or stop in step, or the first
one stops at its limit. -/
theorem parse_cases {tokens tokens' : List Token} {d d' : Nat}
    (h : C.Pair (.start tokens d) (.start tokens' d')) (hlen : tokens'.length = tokens.length) :
    let p := (Parser.start tokens d).statements.2
    let q := (Parser.start tokens' d').statements.2
    (∃ program, parse tokens d = .ok program ∧
        parse tokens' d' = .ok (program.rename C.name)) ∨
      (∃ halt : Halt, C.Pair p q ∧ halt.Meets p ∧ parse tokens d = .error (halt.error p) ∧
        parse tokens' d' = .error (halt.error q)) ∨
      C.Parted p q ∧ parse tokens d = .error (Halt.tooDeep.error p) := by
  have hout := C.couples_statements h hlen
  rw [parse, parse, Parser.program, Parser.program]
  generalize (Parser.start tokens d).statements = out at hout
  generalize (Parser.start tokens' d').statements = out' at hout
  cases hout with
  | ok b hpair =>
    refine .inl ⟨_, rfl, ?_⟩
    simp [Except.map, Program.rename, C.symbols hpair]
  | halted halt hpair hp => exact .inr (.inl ⟨halt, hpair, hp, rfl, rfl⟩)
  | parted hparted => exact .inr (.inr ⟨hparted, rfl⟩)

end Coupling

end TinyCompiler
