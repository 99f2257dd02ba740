import TinyCompiler.Proofs.LoweringSucceeds
import TinyCompiler.Proofs.PrintedExpression

/-! Parsing inverts printing. Printed statements have a derivation in which every statement has its
semicolon, its tokens are scanned back from the text, and no more levels are open at once than
there are tokens. -/
namespace TinyCompiler

namespace Grammar

variable {scope : List String}

structure Sentence.Prints (D : Sentence) (scope : List String) (s : Stmt) : Prop where
  words : D.tokens.map Token.lexeme = s.words
  written : ∀ t ∈ D.tokens, t.Written
  tree : D.tree scope = s
  greedy : D.Greedy .semicolon
  numerals : ∀ w ∈ D.numerals, Decimal.IsWord w
  covered : Mention.Covered scope D.mentions

structure Text.Prints (T : Text) (scope : List String) (b : List Stmt) : Prop where
  words : T.tokens.map Token.lexeme = Stmt.wordsAll b
  written : ∀ t ∈ T.tokens, t.Written
  trees : T.trees scope = b
  greedy : ∀ next, T.Greedy next
  numerals : ∀ w ∈ T.numerals, Decimal.IsWord w
  covered : Mention.Covered scope T.mentions

mutual

theorem Phrase.no_mark : {l : Level} → (P : Phrase l) →
    ∀ t ∈ P.tokens, t.kind ≠ .colonEqual ∧ t.kind ≠ .assign
  | _, .numeral t | _, .yes t | _, .no t | _, .name t => by
    simp [Phrase.tokens, t.2]
  | _, .group opening inner closing => by
    simp only [Phrase.tokens, List.forall_mem_cons, List.forall_mem_append, opening.2,
      closing.2]
    exact ⟨by decide, inner.no_mark, by simp⟩
  | _, .bare operand => operand.no_mark
  | _, .sign op t operand => by
    simp only [Phrase.tokens, List.forall_mem_cons, t.2]
    exact ⟨by cases op <;> decide, operand.no_mark⟩
  | _, .plus t operand => by
    simp only [Phrase.tokens, List.forall_mem_cons, t.2]
    exact ⟨by decide, operand.no_mark⟩
  | _, .chain first links => List.forall_mem_append.mpr ⟨first.no_mark, links.no_mark⟩

theorem Links.no_mark : {t : Tier} → (L : Links t) →
    ∀ t ∈ L.tokens, t.kind ≠ .colonEqual ∧ t.kind ≠ .assign
  | _, .nil => by simp [Links.tokens]
  | t, .cons op _ h right rest => by
    have hop : op.kind ≠ .colonEqual ∧ op.kind ≠ .assign := by
      constructor <;> intro hk <;> rw [hk] at h <;> cases t <;> cases h
    exact List.forall_mem_cons.mpr ⟨hop, List.forall_mem_append.mpr ⟨right.no_mark, rest.no_mark⟩⟩

end

/-- The first two tokens of an expression begin no binding. -/
theorem Phrase.not_startsBinding {l : Level} (P : Phrase l) {next : Kind}
    (h : next ≠ .colonEqual ∧ next ≠ .assign) :
    ¬StartsBinding (P.tokens.map Token.kind ++ [next]) := by
  obtain ⟨t, ts, ht, -⟩ := P.exists_starter
  have hmarks := P.no_mark
  rw [ht] at hmarks ⊢
  cases ts with
  | nil =>
    intro hs
    obtain ⟨-, hk⟩ := Rule.startsBinding_cons_cons.mp hs
    exact hk.elim h.1 h.2
  | cons u us =>
    intro hs
    obtain ⟨-, hk⟩ := Rule.startsBinding_cons_cons.mp hs
    have hu := hmarks u (by simp)
    exact hk.elim hu.1 hu.2

variable {e : Expr} {P : Expression}

theorem Phrase.Prints.greedy_before (h : P.Prints scope e e.words) {next : Kind}
    (hnext : next = .semicolon ∨ next = .openBrace) : P.Greedy next :=
  h.greedy fun t _ => by obtain rfl | rfl := hnext <;> cases t <;> rfl

theorem Phrase.Prints.covered (h : P.Prints scope e e.words) : Mention.Covered scope P.uses :=
  Mention.covered_uses.mpr h.names

theorem Phrase.Prints.covered_append (h : P.Prints scope e e.words) {more : List Mention}
    (hmore : Mention.Covered scope more) : Mention.Covered scope (P.uses ++ more) := by
  rw [Mention.covered_append, P.bound_uses, List.append_nil]
  exact ⟨h.covered, hmore⟩

namespace Phrase.Prints

variable {name : String}

theorem expr (h : P.Prints scope e e.words) : (Sentence.expr P).Prints scope (.expr e) := by
  refine ⟨h.words, h.written, congrArg _ h.tree, ⟨h.greedy_before (.inl rfl), ?_⟩, h.numerals,
    h.covered⟩
  exact P.not_startsBinding (by decide)

theorem ret (h : P.Prints scope e e.words) :
    (Sentence.ret (word _ "return") P).Prints scope (.ret e) := by
  have hword : (word .returnWord "return").1.Written := .fixed (by decide) (by decide)
  exact ⟨congrArg _ h.words, List.forall_mem_cons.mpr ⟨hword, h.written⟩, congrArg _ h.tree,
    h.greedy_before (.inl rfl), h.numerals, h.covered⟩

theorem declare (h : P.Prints scope e e.words) (hname : IsName name) :
    (Sentence.declare (word _ name) (word _ ":=") P).Prints scope
      (.declare name e scope.length) := by
  have htarget : (word .identifier name).1.Written := ⟨rfl, .identifier hname.1 hname.2⟩
  have hmark : (word .colonEqual ":=").1.Written := .fixed (by decide) (by decide)
  refine ⟨?_, ?_, ?_, h.greedy_before (.inl rfl), h.numerals, h.covered_append trivial⟩
  · rw [Stmt.words, ← h.words]
    rfl
  · exact List.forall_mem_cons.mpr ⟨htarget, List.forall_mem_cons.mpr ⟨hmark, h.written⟩⟩
  · rw [Sentence.tree, h.tree]
    rfl

theorem assign (h : P.Prints scope e e.words) (hname : IsName name) (hmem : name ∈ scope) :
    (Sentence.assign (word _ name) (word _ "=") P).Prints scope
      (.assign name e scope.length) := by
  have htarget : (word .identifier name).1.Written := ⟨rfl, .identifier hname.1 hname.2⟩
  have hmark : (word .assign "=").1.Written := .fixed (by decide) (by decide)
  refine ⟨?_, ?_, ?_, h.greedy_before (.inl rfl), h.numerals, hmem, h.covered_append trivial⟩
  · rw [Stmt.words, ← h.words]
    rfl
  · exact List.forall_mem_cons.mpr ⟨htarget, List.forall_mem_cons.mpr ⟨hmark, h.written⟩⟩
  · rw [Sentence.tree, h.tree]
    rfl

end Phrase.Prints

def Text.braced (T : Text) : Block := .braces (word _ "\x7b") T (word _ "\x7d")

theorem Text.Prints.words_braced {T : Text} {b : List Stmt} (h : T.Prints scope b) :
    T.braced.tokens.map Token.lexeme = Stmt.braced (Stmt.wordsAll b) := by
  rw [← h.words, Stmt.braced, Text.braced, Block.tokens, List.map_cons, List.map_append]
  rfl

theorem Text.Prints.written_braced {T : Text} {b : List Stmt} (h : T.Prints scope b) :
    ∀ t ∈ T.braced.tokens, t.Written := by
  have hopening : (word .openBrace "\x7b").1.Written := .fixed (by decide) (by decide)
  have hclosing : (word .closeBrace "\x7d").1.Written := .fixed (by decide) (by decide)
  exact List.forall_mem_cons.mpr ⟨hopening, List.forall_mem_append.mpr
    ⟨h.written, List.forall_mem_singleton.mpr hclosing⟩⟩

namespace Phrase.Prints

variable {T A : Text} {b a : List Stmt}

theorem ifThen (h : P.Prints scope e e.words) (hT : T.Prints scope b) :
    (Sentence.ifThen (word _ "if") P T.braced).Prints scope (.ifThen e b) := by
  have hword : (word .ifWord "if").1.Written := .fixed (by decide) (by decide)
  refine ⟨?_, ?_, ?_, ⟨h.greedy_before (.inr rfl), hT.greedy _, by decide⟩, ?_,
    h.covered_append hT.covered⟩
  · rw [Stmt.words, ← h.words, ← hT.words_braced, ← List.map_append]
    rfl
  · exact List.forall_mem_cons.mpr
      ⟨hword, List.forall_mem_append.mpr ⟨h.written, hT.written_braced⟩⟩
  · rw [Sentence.tree, h.tree]
    exact congrArg _ hT.trees
  · exact List.forall_mem_append.mpr ⟨h.numerals, hT.numerals⟩

theorem ifElse (h : P.Prints scope e e.words) (hT : T.Prints scope b)
    (hA : A.Prints (scope ++ Mention.bound T.mentions) a) :
    (Sentence.ifElse (word _ "if") P T.braced (word _ "else") A.braced).Prints scope
      (.ifElse e b a) := by
  have hif : (word .ifWord "if").1.Written := .fixed (by decide) (by decide)
  have helse : (word .elseWord "else").1.Written := .fixed (by decide) (by decide)
  refine ⟨?_, ?_, ?_, ⟨h.greedy_before (.inr rfl), hT.greedy _, hA.greedy _⟩, ?_,
    h.covered_append (Mention.covered_append.mpr ⟨hT.covered, hA.covered⟩)⟩
  · rw [Stmt.words, ← h.words, ← hT.words_braced, ← hA.words_braced, Sentence.tokens,
      List.map_cons, List.map_append, List.map_append]
    rfl
  · exact List.forall_mem_cons.mpr ⟨hif, List.forall_mem_append.mpr ⟨h.written,
      List.forall_mem_append.mpr ⟨hT.written_braced,
        List.forall_mem_cons.mpr ⟨helse, hA.written_braced⟩⟩⟩⟩
  · rw [Sentence.tree, h.tree]
    exact congrArg₂ _ hT.trees hA.trees
  · exact List.forall_mem_append.mpr
      ⟨h.numerals, List.forall_mem_append.mpr ⟨hT.numerals, hA.numerals⟩⟩

theorem loop (h : P.Prints scope e e.words) (hT : T.Prints scope b) :
    (Sentence.loop (word _ "for") P T.braced).Prints scope (.loop e b) := by
  have hword : (word .forWord "for").1.Written := .fixed (by decide) (by decide)
  refine ⟨?_, ?_, ?_, ⟨h.greedy_before (.inr rfl), hT.greedy _⟩, ?_,
    h.covered_append hT.covered⟩
  · rw [Stmt.words, ← h.words, ← hT.words_braced, ← List.map_append]
    rfl
  · exact List.forall_mem_cons.mpr
      ⟨hword, List.forall_mem_append.mpr ⟨h.written, hT.written_braced⟩⟩
  · rw [Sentence.tree, h.tree]
    exact congrArg _ hT.trees
  · exact List.forall_mem_append.mpr ⟨h.numerals, hT.numerals⟩

end Phrase.Prints

theorem Sentence.Prints.cons {D : Sentence} {T : Text} {s : Stmt} {b : List Stmt}
    (h : D.Prints scope s) (hT : T.Prints (scope ++ Mention.bound D.mentions) b) :
    (Text.cons D (some (word _ ";")) T).Prints scope (s :: b) := by
  have hsemicolon : (word .semicolon ";").1.Written := .fixed (by decide) (by decide)
  refine ⟨?_, ?_, ?_, fun next => ⟨h.greedy, hT.greedy next⟩, ?_, ?_⟩
  · rw [Stmt.wordsAll, ← h.words, ← hT.words, Text.tokens, List.map_append]
    rfl
  · exact List.forall_mem_append.mpr ⟨h.written, List.forall_mem_cons.mpr ⟨hsemicolon, hT.written⟩⟩
  · rw [Text.trees, h.tree, hT.trees]
  · exact List.forall_mem_append.mpr ⟨h.numerals, hT.numerals⟩
  · exact Mention.covered_append.mpr ⟨h.covered, hT.covered⟩

mutual

theorem Phrase.needs_lt : {l : Level} → (P : Phrase l) → (around : Nat) →
    ∀ n ∈ P.needs around, n < around + P.tokens.length
  | _, .numeral _, _ | _, .yes _, _ | _, .no _, _ | _, .name _, _ => by
    simp [Phrase.needs, Phrase.tokens]
  | _, .group _ inner _, around => by
    have hinner := inner.needs_lt (around + 1)
    simp only [Phrase.needs, List.forall_mem_cons, Phrase.tokens, List.length_cons,
      List.length_append]
    exact ⟨by omega, fun n hn => by have := hinner n hn; omega⟩
  | _, .bare operand, around => operand.needs_lt around
  | _, .sign _ _ operand, around | _, .plus _ operand, around => fun n hn => by
    have := operand.needs_lt (around + 1) n hn
    simp only [Phrase.tokens, List.length_cons]
    omega
  | _, .chain first links, around => fun n hn => by
    simp only [Phrase.tokens, List.length_append]
    obtain hn | hn := List.mem_append.mp hn
    · have := first.needs_lt around n hn
      omega
    · have := links.needs_lt around n hn
      omega

theorem Links.needs_lt : {t : Tier} → (L : Links t) → (around : Nat) →
    ∀ n ∈ L.needs around, n < around + L.tokens.length
  | _, .nil, _ => by simp [Links.needs]
  | _, .cons _ _ _ right rest, around => fun n hn => by
    simp only [Links.tokens, List.length_cons, List.length_append]
    obtain hn | hn := List.mem_append.mp hn
    · have := right.needs_lt (around + 1) n hn
      omega
    · have := rest.needs_lt (around + 1) n hn
      omega

end

mutual

theorem Sentence.needs_le : (D : Sentence) → (blocks : Nat) →
    ∀ n ∈ D.needs blocks, n ≤ blocks + D.tokens.length
  | .expr value, blocks => fun n hn => by
    have := value.needs_lt (blocks + 1) n hn
    simp only [Sentence.tokens]
    omega
  | .declare _ _ value, blocks | .assign _ _ value, blocks | .ret _ value, blocks => fun n hn => by
    have := value.needs_lt (blocks + 1) n hn
    simp only [Sentence.tokens, List.length_cons]
    omega
  | .ifThen _ condition body, blocks | .loop _ condition body, blocks => fun n hn => by
    simp only [Sentence.tokens, List.length_cons, List.length_append]
    obtain hn | hn := List.mem_append.mp hn
    · have := condition.needs_lt (blocks + 1) n hn
      omega
    · have := body.needs_le blocks n hn
      omega
  | .ifElse _ condition consequent _ alternate, blocks => fun n hn => by
    simp only [Sentence.tokens, List.length_cons, List.length_append]
    obtain hn | hn := List.mem_append.mp hn
    · have := condition.needs_lt (blocks + 1) n hn
      omega
    · obtain hn | hn := List.mem_append.mp hn
      · have := consequent.needs_le blocks n hn
        omega
      · have := alternate.needs_le blocks n hn
        omega

theorem Block.needs_le : (B : Block) → (blocks : Nat) →
    ∀ n ∈ B.needs blocks, n ≤ blocks + B.tokens.length
  | .braces _ body _, blocks => by
    have hbody := body.needs_le (blocks + 1)
    simp only [Block.needs, List.forall_mem_cons, Block.tokens, List.length_cons,
      List.length_append]
    exact ⟨by omega, fun n hn => by have := hbody n hn; omega⟩

theorem Text.needs_le : (T : Text) → (blocks : Nat) →
    ∀ n ∈ T.needs blocks, n ≤ blocks + T.tokens.length
  | .nil, _ => by simp [Text.needs]
  | .cons s _ rest, blocks => fun n hn => by
    simp only [Text.tokens, List.length_append]
    obtain hn | hn := List.mem_append.mp hn
    · have := s.needs_le blocks n hn
      omega
    · have := rest.needs_le blocks n hn
      omega

end

end Grammar

open Grammar

theorem Expr.exists_prints {t : SymbolTable} {scope : List String} (h : t.Tracks scope) {e : Expr}
    (hp : e.Printable) (hr : e.Resolved t) : ∃ P : Expression, P.Prints scope e e.words :=
  (e.derives h hp hr).looser (.tier .disjunction) (Level.looseness_le _)

namespace Stmt

mutual

theorem exists_prints {t : SymbolTable} {scope : List String} (h : t.Tracks scope) :
    (s : Stmt) → s.Printable → s.Traced t → ∃ D : Sentence, D.Prints scope s
  | expr value, hp, hs => by
    obtain ⟨P, hP⟩ := value.exists_prints h hp hs
    exact ⟨_, hP.expr⟩
  | ret value, hp, hs => by
    obtain ⟨P, hP⟩ := value.exists_prints h hp hs
    exact ⟨_, hP.ret⟩
  | declare name value index, ⟨hname, hp⟩, ⟨hs, hindex, _⟩ => by
    obtain ⟨P, hP⟩ := value.exists_prints h hp hs
    rw [hindex, h.size]
    exact ⟨_, hP.declare hname⟩
  | assign name value index, ⟨hname, hp⟩, ⟨hs, hbound, hindex, _⟩ => by
    obtain ⟨P, hP⟩ := value.exists_prints h hp hs
    rw [hindex, h.size]
    exact ⟨_, hP.assign hname ((h.contains name).mp hbound)⟩
  | ifThen condition consequent, ⟨hp, hp'⟩, ⟨hs, hs'⟩ => by
    obtain ⟨P, hP⟩ := condition.exists_prints h hp hs
    obtain ⟨T, hT⟩ := exists_prints_all h consequent hp' hs'
    exact ⟨_, hP.ifThen hT⟩
  | ifElse condition consequent alternate, ⟨hp, hp', hp''⟩, ⟨hs, hs', hs''⟩ => by
    obtain ⟨P, hP⟩ := condition.exists_prints h hp hs
    obtain ⟨T, hT⟩ := exists_prints_all h consequent hp' hs'
    have htracks := Text.tracks_replay h T
    rw [hT.trees] at htracks
    obtain ⟨A, hA⟩ := exists_prints_all htracks alternate hp'' hs''
    exact ⟨_, hP.ifElse hT hA⟩
  | loop condition body, ⟨hp, hp'⟩, ⟨hs, hs'⟩ => by
    obtain ⟨P, hP⟩ := condition.exists_prints h hp hs
    obtain ⟨T, hT⟩ := exists_prints_all h body hp' hs'
    exact ⟨_, hP.loop hT⟩

theorem exists_prints_all {t : SymbolTable} {scope : List String} (h : t.Tracks scope) :
    (b : List Stmt) → PrintableAll b → TracedAll t b → ∃ T : Text, T.Prints scope b
  | [], _, _ => ⟨.nil, rfl, by simp [Text.tokens], rfl, fun _ => trivial, by simp [Text.numerals],
      trivial⟩
  | s :: rest, ⟨hp, hp'⟩, ⟨hs, hs'⟩ => by
    obtain ⟨D, hD⟩ := exists_prints h s hp hs
    have htracks := Sentence.tracks_replay h D
    rw [hD.tree] at htracks
    obtain ⟨T, hT⟩ := exists_prints_all htracks rest hp' hs'
    exact ⟨_, hD.cons hT⟩

end

end Stmt

/-- The end marker that scanning gives ends the statements as the end of the list does. -/
theorem parse_of_prints {T : Text} {b : List Stmt} (h : T.Prints [] b) {limit : Nat}
    (hlimit : T.tokens.length ≤ limit) :
    parse (T.tokens ++ [.endOfInput 1]) limit = .ok ⟨b, Stmt.replayAll .empty b⟩ := by
  have hfits : T.Fits (.start (T.tokens ++ [.endOfInput 1]) limit) [] [.endOfInput 1] := by
    refine ⟨rfl, h.greedy _, h.numerals, h.covered, fun n hn => ?_⟩
    have hneed := T.needs_le 0 n hn
    rw [Nat.zero_add] at hneed
    exact hneed.trans hlimit
  have hs := (Parser.statements_eq_ok SymbolTable.tracks_empty).mpr ⟨T, _, hfits, rfl, rfl, rfl⟩
  rw [parse, Parser.program, hs, h.trees]
  rfl

/-- Printed statements are parsed back, with the table on which they have been replayed. -/
theorem parseSource_render (b : List Stmt) (hp : Stmt.PrintableAll b)
    (ht : Stmt.TracedAll .empty b) (limit : Nat) (hlimit : (Stmt.wordsAll b).length ≤ limit) :
    parseSource (Stmt.render b) limit = .ok ⟨b, Stmt.replayAll .empty b⟩ := by
  obtain ⟨T, hT⟩ := Stmt.exists_prints_all SymbolTable.tracks_empty b hp ht
  have htext : Token.spaced T.tokens = Stmt.render b := by
    rw [Stmt.render, ← hT.words]
    rfl
  rw [← hT.words, List.length_map] at hlimit
  rw [parseSource_eq_ok, ← htext]
  exact ⟨_, tokenize_spaced hT.written, parse_of_prints hT hlimit⟩

/-- For operands that need their parentheses at every tier, and some that do without. -/
theorem exists_parse_of_render : ∃ b,
    Stmt.render b = "x := 2 - ( 3 - 1 ) ; if - x * ( 2 + x ) < x || ! true \x7b x = x ; \x7d " ++
      "else \x7b return ( x == 4 || false ) && true ; \x7d ;" ∧
      parseSource (Stmt.render b) 50 = .ok ⟨b, Stmt.replayAll .empty b⟩ := by
  have hname : IsName "x" :=
    ⟨⟨by decide, by simp⟩, show ¬∃ entry ∈ Kind.keywords, _ by decide⟩
  refine ⟨[.declare "x" (.binary .sub (.integer 2) (.binary .sub (.integer 3) (.integer 1))) 0,
    .ifElse (.connective .or
        (.comparison .lt (.binary .mul (.unary .neg (.reference "x" 0))
          (.binary .add (.integer 2) (.reference "x" 0))) (.reference "x" 0))
        (.unary .not (.boolean true)))
      [.assign "x" (.reference "x" 0) 1]
      [.ret (.connective .and
        (.connective .or (.comparison .eq (.reference "x" 1) (.integer 4)) (.boolean false))
        (.boolean true))]], by decide +kernel, parseSource_render _ ?_ ?_ 50 (by decide)⟩
  · simp [Stmt.PrintableAll, Stmt.Printable, Expr.Printable, hname]
  · simp only [Stmt.TracedAll, Stmt.Traced, Expr.Resolved, SymbolTable.Appends]
    decide

end TinyCompiler
