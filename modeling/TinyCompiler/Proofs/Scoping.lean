import TinyCompiler.Proofs.GrammarExact
import TinyCompiler.Proofs.Interruption

/-! Scoping. The tree and the table of names tell the same story: walking what the parser gives in
the order of the source, every reference carries the binding that is its name's at that point,
and every declaration and assignment the index of the entry that it appends. -/
namespace TinyCompiler

open Grammar

/-- References carry the bindings that the table gives. -/
def Expr.Resolved (t : SymbolTable) : Expr → Prop
  | integer _ | boolean _ => True
  | reference name index => t.lookup name = some index
  | unary _ operand => operand.Resolved t
  | binary _ left right | comparison _ left right | connective _ left right =>
    left.Resolved t ∧ right.Resolved t

/-- The index is that of a new entry, which holds the name and the value. -/
def SymbolTable.Appends (t : SymbolTable) (name : String) (value : Expr) (index : Nat) : Prop :=
  index = t.bindings.size ∧ (t.declare name value).2.resolve index = some ⟨name, value⟩

theorem SymbolTable.appends (t : SymbolTable) (name : String) (value : Expr) :
    t.Appends name value t.bindings.size := by
  refine ⟨rfl, ?_⟩
  simp [SymbolTable.declare, SymbolTable.resolve]

namespace Stmt

mutual

/-- The statement and the table agree all along the walk from the table on. -/
def Traced (t : SymbolTable) : Stmt → Prop
  | expr value | ret value => value.Resolved t
  | declare name value index => value.Resolved t ∧ t.Appends name value index
  | assign name value index =>
    value.Resolved t ∧ t.contains name = true ∧ t.Appends name value index
  | ifThen condition consequent => condition.Resolved t ∧ TracedAll t consequent
  | ifElse condition consequent alternate =>
    condition.Resolved t ∧ TracedAll t consequent ∧ TracedAll (replayAll t consequent) alternate
  | loop condition body => condition.Resolved t ∧ TracedAll t body

def TracedAll (t : SymbolTable) : List Stmt → Prop
  | [] => True
  | s :: rest => s.Traced t ∧ TracedAll (s.replay t) rest

end

mutual

def bindings : Stmt → List Binding
  | expr _ | ret _ => []
  | declare name value _ | assign name value _ => [⟨name, value⟩]
  | ifThen _ consequent => bindingsAll consequent
  | ifElse _ consequent alternate => bindingsAll consequent ++ bindingsAll alternate
  | loop _ body => bindingsAll body

def bindingsAll : List Stmt → List Binding
  | [] => []
  | s :: rest => s.bindings ++ bindingsAll rest

end

mutual

theorem bindings_replay (t : SymbolTable) : (s : Stmt) →
    (s.replay t).bindings.toList = t.bindings.toList ++ s.bindings
  | expr _ | ret _ => by simp [replay, bindings]
  | declare _ _ _ | assign _ _ _ => by simp [replay, bindings, SymbolTable.declare]
  | ifThen _ consequent => bindings_replayAll t consequent
  | ifElse _ consequent alternate => by
    rw [replay, bindings, bindings_replayAll _ alternate, bindings_replayAll t consequent,
      List.append_assoc]
  | loop _ body => bindings_replayAll t body

theorem bindings_replayAll (t : SymbolTable) : (b : List Stmt) →
    (replayAll t b).bindings.toList = t.bindings.toList ++ bindingsAll b
  | [] => by simp [replayAll, bindingsAll]
  | s :: rest => by
    rw [replayAll, bindingsAll, bindings_replayAll _ rest, bindings_replay t s, List.append_assoc]

end

end Stmt

namespace Grammar

variable {t : SymbolTable} {scope : List String}

theorem Tier.resolved_node {k : Tier} {kind : Kind} {node : Expr → Expr → Expr}
    (h : k.node? kind = some node) (left right : Expr) :
    (node left right).Resolved t ↔ left.Resolved t ∧ right.Resolved t := by
  unfold Tier.node? at h
  split at h <;> cases h <;> exact Iff.rfl

mutual

theorem Phrase.resolved_tree {binding : String → Nat} : {l : Level} → (P : Phrase l) →
    (∀ x ∈ P.names, t.lookup x = some (binding x)) → (P.tree binding).Resolved t
  | _, .numeral _, _ | _, .yes _, _ | _, .no _, _ => trivial
  | _, .name token, h => h token.1.lexeme List.mem_cons_self
  | _, .group _ inner _, h => Phrase.resolved_tree inner h
  | _, .bare operand, h => Phrase.resolved_tree operand h
  | _, .sign _ _ operand, h => Phrase.resolved_tree operand h
  | _, .plus _ operand, h => Phrase.resolved_tree operand h
  | _, .chain first links, h => by
    have hboth := List.forall_mem_append.mp h
    exact Links.resolved_fold links hboth.2 _ (Phrase.resolved_tree first hboth.1)

theorem Links.resolved_fold {binding : String → Nat} : {k : Tier} → (L : Links k) →
    (∀ x ∈ L.names, t.lookup x = some (binding x)) → ∀ left : Expr, left.Resolved t →
      (L.fold binding left).Resolved t
  | _, .nil, _, _, hl => hl
  | _, .cons _ _ hnode right rest, h, left, hl => by
    have hboth := List.forall_mem_append.mp h
    have hright := Phrase.resolved_tree right hboth.1
    exact Links.resolved_fold rest hboth.2 _ ((Tier.resolved_node hnode left _).mpr ⟨hl, hright⟩)

end

theorem Phrase.resolved_of_covered (h : t.Tracks scope) {l : Level} {P : Phrase l}
    (hc : ∀ x ∈ P.names, x ∈ scope) : (P.tree (latest scope)).Resolved t := by
  refine P.resolved_tree fun x hx => ?_
  obtain ⟨i, hi⟩ := Option.isSome_iff_exists.mp (latest?_isSome.mpr (hc x hx))
  rw [h.latest, latest, hi]
  rfl

theorem Phrase.resolved_of_covered_uses (h : t.Tracks scope) {l : Level} {P : Phrase l}
    {more : List Mention} (hc : Mention.Covered scope (P.uses ++ more)) :
    (P.tree (latest scope)).Resolved t ∧ Mention.Covered scope more := by
  rw [Mention.covered_append, P.bound_uses, List.append_nil, Phrase.uses,
    Mention.covered_uses] at hc
  exact ⟨Phrase.resolved_of_covered h hc.1, hc.2⟩

mutual

theorem Sentence.traced_tree {t : SymbolTable} {scope : List String} (h : t.Tracks scope) :
    (D : Sentence) → Mention.Covered scope D.mentions → (D.tree scope).Traced t
  | .expr value, hc => Phrase.resolved_of_covered h (Mention.covered_uses.mp hc)
  | .ret _ value, hc => Phrase.resolved_of_covered h (Mention.covered_uses.mp hc)
  | .declare target _ value, hc => by
    have hvalue := (Phrase.resolved_of_covered_uses h hc).1
    refine ⟨hvalue, ?_⟩
    rw [← h.size]
    exact t.appends _ _
  | .assign target _ value, hc => by
    have hvalue := (Phrase.resolved_of_covered_uses h hc.2).1
    refine ⟨hvalue, (h.contains _).mpr hc.1, ?_⟩
    rw [← h.size]
    exact t.appends _ _
  | .ifThen _ condition consequent, hc => by
    obtain ⟨hcondition, hbody⟩ := Phrase.resolved_of_covered_uses h hc
    exact ⟨hcondition, Block.traced_trees h consequent hbody⟩
  | .ifElse _ condition consequent _ alternate, hc => by
    obtain ⟨hcondition, hbodies⟩ := Phrase.resolved_of_covered_uses h hc
    obtain ⟨hconsequent, halternate⟩ := Mention.covered_append.mp hbodies
    exact ⟨hcondition, Block.traced_trees h consequent hconsequent,
      Block.traced_trees (Block.tracks_replay h consequent) alternate halternate⟩
  | .loop _ condition body, hc => by
    obtain ⟨hcondition, hbody⟩ := Phrase.resolved_of_covered_uses h hc
    exact ⟨hcondition, Block.traced_trees h body hbody⟩

theorem Block.traced_trees {t : SymbolTable} {scope : List String} (h : t.Tracks scope) :
    (B : Block) → Mention.Covered scope B.mentions → Stmt.TracedAll t (B.trees scope)
  | .braces _ body _, hc => Text.traced_trees h body hc

theorem Text.traced_trees {t : SymbolTable} {scope : List String} (h : t.Tracks scope) :
    (T : Text) → Mention.Covered scope T.mentions → Stmt.TracedAll t (T.trees scope)
  | .nil, _ => trivial
  | .cons s _ rest, hc => by
    obtain ⟨hs, hrest⟩ := Mention.covered_append.mp hc
    exact ⟨Sentence.traced_tree h s hs, Text.traced_trees (Sentence.tracks_replay h s) rest hrest⟩

end

end Grammar

namespace Parser

variable {p q : Parser} {scope : List String} {done : List Stmt}

theorem resolved_of_expression {e : Expr} (h : p.expression = (.ok e, q)) :
    e.Resolved p.symbols := by
  obtain ⟨P, rest, hP, rfl, -⟩ := (Rule.expression_reads _ p e q (Nat.lt_succ_self _)).mp h
  refine P.resolved_tree fun x hx => ?_
  obtain ⟨i, hi⟩ := Option.isSome_iff_exists.mp (hP.bound x hx)
  have hlookup : p.symbols.lookup x = some i := hi
  rw [Parser.binding, hlookup]
  rfl

theorem traced_of_statement {s : Stmt} (h : p.symbols.Tracks scope)
    (hs : p.statement = (.ok s, q)) : s.Traced p.symbols ∧ q.symbols = s.replay p.symbols ∧
      ∃ scope', q.symbols.Tracks scope' := by
  obtain ⟨D, semicolon, rest, hD, rfl, rfl⟩ := (statement_eq_ok h).mp hs
  have hcovered : Mention.Covered scope D.mentions := by
    cases semicolon with
    | none => exact hD.1.covered
    | some mark => exact Sentence.Fits.covered hD
  exact ⟨Sentence.traced_tree h D hcovered, rfl, _, Sentence.tracks_replay h D⟩

theorem Passes.traced (h : p.symbols.Tracks scope) (hp : p.Passes done q) :
    Stmt.TracedAll p.symbols done ∧ q.symbols = Stmt.replayAll p.symbols done ∧
      ∃ scope', q.symbols.Tracks scope' := by
  -- Induction on the reading: skimmed tokens and braces leave the table alone.
  induction hp generalizing scope with
  | refl p => exact ⟨trivial, rfl, scope, h⟩
  | skim hskims _ ih =>
    rw [← hskims.symbols] at h ⊢
    exact ih h
  | opening t ts hts _ ih => exact ih h
  | closing t ts hts _ ih => exact ih h
  | statement hs _ ih =>
    obtain ⟨hs, hreplay, scope', h'⟩ := traced_of_statement h hs
    obtain ⟨hmore, hrest, hscope⟩ := ih h'
    rw [hreplay] at hmore hrest
    exact ⟨⟨hs, hmore⟩, hrest, hscope⟩

theorem Stops.symbols (h : p.Stops q) : q.symbols = p.symbols := by
  cases h with
  | words h => exact h.symbols
  | value mark ts h hm hfails hskims => exact hskims.symbols

inductive Call where
  | expression | statement

/-- The parser behind a call, whether it gave a tree or failed. -/
def call (p : Parser) : Call → Parser
  | .expression => p.expression.2
  | .statement => p.statement.2

def run (p : Parser) (calls : List Call) : Parser := calls.foldl call p

theorem exists_tracks_call (h : p.symbols.Tracks scope) (c : Call) :
    ∃ scope', (p.call c).symbols.Tracks scope' := by
  cases c with
  | expression =>
    rw [call, p.expression_skims.symbols]
    exact ⟨scope, h⟩
  | statement =>
    rw [call]
    rcases hs : p.statement with ⟨error | s, q⟩
    · obtain ⟨done, stop, last, hpasses, hstops, rfl⟩ := statement_breaks h hs
      obtain ⟨-, -, scope', hscope⟩ := hpasses.traced h
      rw [← hstops.symbols] at hscope
      exact ⟨scope', hscope⟩
    · exact (traced_of_statement h hs).2.2

theorem exists_tracks_run (calls : List Call) (h : ∃ scope, p.symbols.Tracks scope) :
    ∃ scope, (p.run calls).symbols.Tracks scope := by
  induction calls generalizing p with
  | nil => exact h
  | cons c calls ih =>
    obtain ⟨scope, h⟩ := h
    exact ih (exists_tracks_call h c)

end Parser

theorem traced_of_parse {tokens : List Token} {limit : Nat} {program : Program}
    (h : parse tokens limit = .ok program) :
    Stmt.TracedAll .empty program.statements ∧
      program.symbols = Stmt.replayAll .empty program.statements := by
  obtain ⟨T, rest, hT, -, rfl⟩ := exists_fits_of_parse h
  exact ⟨Text.traced_trees SymbolTable.tracks_empty T hT.covered, rfl⟩

/-- Behind any calls, failed ones included. -/
theorem scoping_of_calls (tokens : List Token) (limit : Nat) (calls : List Parser.Call) :
    let p := (Parser.start tokens limit).run calls
    (p.expression.2.symbols = p.symbols ∧ ∀ e, p.expression.1 = .ok e → e.Resolved p.symbols) ∧
    (∀ s, p.statement.1 = .ok s →
      s.Traced p.symbols ∧ p.statement.2.symbols = s.replay p.symbols) ∧
    (∀ error, p.statement.1 = .error error →
      ∃ (done : List Stmt) (stop last : Parser), p.Passes done stop ∧ stop.Stops last ∧
        p.statement.2 = { last with depth := p.depth } ∧ Stmt.TracedAll p.symbols done ∧
          p.statement.2.symbols = Stmt.replayAll p.symbols done ∧
            p.statement.2.symbols.bindings.toList =
              p.symbols.bindings.toList ++ Stmt.bindingsAll done) ∧
    ∀ program, parse tokens limit = .ok program →
      Stmt.TracedAll .empty program.statements ∧
        program.symbols = Stmt.replayAll .empty program.statements := by
  intro p
  obtain ⟨scope, h⟩ : ∃ scope, p.symbols.Tracks scope :=
    Parser.exists_tracks_run calls ⟨[], SymbolTable.tracks_empty⟩
  refine ⟨⟨p.expression_skims.symbols, fun e he => ?_⟩, fun s hs => ?_, fun error hs => ?_,
    fun program hp => traced_of_parse hp⟩
  · exact Parser.resolved_of_expression (Prod.ext he rfl)
  · obtain ⟨htraced, hreplay, -⟩ := Parser.traced_of_statement h (Prod.ext hs rfl)
    exact ⟨htraced, hreplay⟩
  · obtain ⟨done, stop, last, hpasses, hstops, hq⟩ :=
      Parser.statement_breaks h (Prod.ext hs rfl)
    obtain ⟨htraced, hreplay, -⟩ := hpasses.traced h
    have hsymbols : p.statement.2.symbols = Stmt.replayAll p.symbols done :=
      (congrArg Parser.symbols hq).trans (hstops.symbols.trans hreplay)
    refine ⟨done, stop, last, hpasses, hstops, hq, htraced, hsymbols, ?_⟩
    rw [hsymbols, Stmt.bindings_replayAll]

end TinyCompiler
