import TinyCompiler.Proofs.Fitting
import TinyCompiler.Proofs.Replay

/-! Statements at the front of the tokens that a parser has left, under a scope: the names that
the parser has bound. -/
namespace TinyCompiler

def Parser.behind (p : Parser) (statements : List Stmt) (rest : List Token) : Parser :=
  { p with rest := rest, symbols := Stmt.replayAll p.symbols statements }

@[simp] theorem Parser.behind_rest (p : Parser) (statements : List Stmt) (rest : List Token) :
    (p.behind statements rest).rest = rest := rfl

namespace Grammar

theorem Sentence.exists_starter (D : Sentence) :
    ∃ t ts, D.tokens = t :: ts ∧ t.kind ∈ starters ++ [.returnWord, .ifWord, .forWord] := by
  cases D with
  | expr value =>
    obtain ⟨t, ts, ht, hk⟩ := value.exists_starter
    exact ⟨t, ts, ht, List.mem_append_left _ hk⟩
  | declare target _ _ => exact ⟨target.1, _, rfl, by rw [target.2]; decide⟩
  | assign target _ _ => exact ⟨target.1, _, rfl, by rw [target.2]; decide⟩
  | ret word _ => exact ⟨word.1, _, rfl, by rw [word.2]; decide⟩
  | ifThen word _ _ => exact ⟨word.1, _, rfl, by rw [word.2]; decide⟩
  | ifElse word _ _ _ _ => exact ⟨word.1, _, rfl, by rw [word.2]; decide⟩
  | loop word _ _ => exact ⟨word.1, _, rfl, by rw [word.2]; decide⟩

theorem Block.exists_last (B : Block) :
    ∃ t, B.tokens.getLast? = some t ∧ t.kind = .closeBrace := by
  cases B with
  | braces opening body closing =>
    exact ⟨closing.1, by rw [Block.tokens, ← List.cons_append, List.getLast?_concat], closing.2⟩

theorem Sentence.exists_last (D : Sentence) :
    ∃ t, D.tokens.getLast? = some t ∧ t.kind ∈ .closeBrace :: enders := by
  have hvalue (value : Expression) (before : List Token) :
      ∃ t, (before ++ value.tokens).getLast? = some t ∧ t.kind ∈ .closeBrace :: enders := by
    obtain ⟨t, ht, hk⟩ := value.exists_last
    exact ⟨t, by rw [List.getLast?_append, ht]; rfl, List.mem_cons_of_mem _ hk⟩
  have hblock (body : Block) (before : List Token) :
      ∃ t, (before ++ body.tokens).getLast? = some t ∧ t.kind ∈ .closeBrace :: enders := by
    obtain ⟨t, ht, hk⟩ := body.exists_last
    exact ⟨t, by rw [List.getLast?_append, ht]; rfl, by rw [hk]; exact List.mem_cons_self⟩
  cases D with
  | expr value => exact hvalue value []
  | declare target mark value => exact hvalue value [target.1, mark.1]
  | assign target mark value => exact hvalue value [target.1, mark.1]
  | ret word value => exact hvalue value [word.1]
  | ifThen word condition consequent => exact hblock consequent (word.1 :: condition.tokens)
  | ifElse word condition consequent elseWord alternate =>
    have h := hblock alternate (word.1 :: (condition.tokens ++ (consequent.tokens ++ [elseWord.1])))
    simpa [Sentence.tokens] using h
  | loop word condition body => exact hblock body (word.1 :: condition.tokens)

structure Sentence.Fits (D : Sentence) (p : Parser) (scope : List String) (rest : List Token) :
    Prop where
  text : p.rest = D.tokens ++ rest
  greedy : D.Greedy (firstKind rest .endOfInput)
  words : ∀ s ∈ D.numerals, Decimal.IsWord s
  covered : Mention.Covered scope D.mentions
  room : ∀ n ∈ D.needs p.depth, n ≤ p.limit

structure Block.Fits (B : Block) (p : Parser) (scope : List String) (rest : List Token) :
    Prop where
  text : p.rest = B.tokens ++ rest
  greedy : B.Greedy
  words : ∀ s ∈ B.numerals, Decimal.IsWord s
  covered : Mention.Covered scope B.mentions
  room : ∀ n ∈ B.needs p.depth, n ≤ p.limit

structure Text.Fits (T : Text) (p : Parser) (scope : List String) (rest : List Token) :
    Prop where
  text : p.rest = T.tokens ++ rest
  greedy : T.Greedy (firstKind rest .endOfInput)
  words : ∀ s ∈ T.numerals, Decimal.IsWord s
  covered : Mention.Covered scope T.mentions
  room : ∀ n ∈ T.needs p.depth, n ≤ p.limit

/-- A statement fits together with the semicolon behind it, if there is one. -/
def Sentence.FitsClosed (D : Sentence) (semicolon : Option (TokenOf .semicolon)) (p : Parser)
    (scope : List String) (rest : List Token) : Prop :=
  match semicolon with
  | none => D.Fits p scope rest ∧ firstKind rest .endOfInput ≠ .semicolon
  | some mark => D.Fits p scope (mark.1 :: rest)

variable {p : Parser} {scope : List String} {rest : List Token}

theorem Block.Fits.length_lt {B : Block} (h : B.Fits p scope rest) :
    rest.length < p.rest.length := by
  cases B with
  | braces opening body closing =>
    rw [h.text]
    simp only [Block.tokens, List.length_append, List.length_cons, List.length_nil]
    omega

theorem Sentence.Fits.length_lt {D : Sentence} (h : D.Fits p scope rest) :
    rest.length < p.rest.length := by
  obtain ⟨t, ts, ht, -⟩ := D.exists_starter
  rw [h.text, ht]
  simp only [List.length_append, List.length_cons]
  omega

/-- The table of a parser plays no part in what fits its tokens. -/
theorem Block.fits_behind {B : Block} {statements : List Stmt} {ts : List Token} :
    B.Fits (p.behind statements ts) scope rest ↔ B.Fits { p with rest := ts } scope rest :=
  ⟨fun h => ⟨h.text, h.greedy, h.words, h.covered, h.room⟩,
    fun h => ⟨h.text, h.greedy, h.words, h.covered, h.room⟩⟩

theorem Text.fits_behind {T : Text} {statements : List Stmt} {ts : List Token} :
    T.Fits (p.behind statements ts) scope rest ↔ T.Fits { p with rest := ts } scope rest :=
  ⟨fun h => ⟨h.text, h.greedy, h.words, h.covered, h.room⟩,
    fun h => ⟨h.text, h.greedy, h.words, h.covered, h.room⟩⟩

theorem Phrase.covered_uses {l : Level} {P : Phrase l} (h : p.symbols.Tracks scope) :
    Mention.Covered scope P.uses ↔ ∀ x ∈ P.names, p.symbols.contains x = true := by
  rw [Phrase.uses, Mention.covered_uses]
  simp only [h.contains]

theorem Phrase.covered_uses_append {l : Level} {P : Phrase l} {mentions : List Mention}
    (h : p.symbols.Tracks scope) : Mention.Covered scope (P.uses ++ mentions) ↔
      (∀ x ∈ P.names, p.symbols.contains x = true) ∧ Mention.Covered scope mentions := by
  rw [Mention.covered_append, P.bound_uses, List.append_nil, Phrase.covered_uses h]

theorem Sentence.fits_expr (h : p.symbols.Tracks scope) {value : Expression} :
    (Sentence.expr value).Fits p scope rest ↔ value.Fits (p.inside p.rest) rest ∧
      ¬StartsBinding (value.tokens.map Token.kind ++ [firstKind rest .endOfInput]) := by
  constructor
  · rintro ⟨ht, ⟨hg, hs⟩, hw, hc, hn⟩
    exact ⟨⟨ht, hg, hw, (Phrase.covered_uses h).mp hc, hn⟩, hs⟩
  · rintro ⟨⟨ht, hg, hw, hb, hn⟩, hs⟩
    exact ⟨ht, ⟨hg, hs⟩, hw, (Phrase.covered_uses h).mpr hb, hn⟩

theorem Sentence.fits_declare (h : p.symbols.Tracks scope) {target : TokenOf .identifier}
    {mark : TokenOf .colonEqual} {value : Expression} :
    (Sentence.declare target mark value).Fits p scope rest ↔
      ∃ ts, p.rest = target.1 :: mark.1 :: ts ∧ value.Fits (p.inside ts) rest := by
  constructor
  · rintro ⟨ht, hg, hw, hc, hn⟩
    exact ⟨_, ht, rfl, hg, hw, ((Phrase.covered_uses_append h).mp hc).1, hn⟩
  · rintro ⟨ts, ht, hr, hg, hw, hb, hn⟩
    rw [Parser.inside_rest] at hr
    refine ⟨by simp [ht, hr, Sentence.tokens], hg, hw, ?_, hn⟩
    exact (Phrase.covered_uses_append h).mpr ⟨hb, trivial⟩

theorem Sentence.fits_assign (h : p.symbols.Tracks scope) {target : TokenOf .identifier}
    {mark : TokenOf .assign} {value : Expression} :
    (Sentence.assign target mark value).Fits p scope rest ↔
      ∃ ts, p.rest = target.1 :: mark.1 :: ts ∧ p.symbols.contains target.1.lexeme = true ∧
        value.Fits (p.inside ts) rest := by
  rw [h.contains]
  constructor
  · rintro ⟨ht, hg, hw, ⟨htarget, hc⟩, hn⟩
    exact ⟨_, ht, htarget, rfl, hg, hw, ((Phrase.covered_uses_append h).mp hc).1, hn⟩
  · rintro ⟨ts, ht, htarget, hr, hg, hw, hb, hn⟩
    rw [Parser.inside_rest] at hr
    refine ⟨by simp [ht, hr, Sentence.tokens], hg, hw, ⟨htarget, ?_⟩, hn⟩
    exact (Phrase.covered_uses_append h).mpr ⟨hb, trivial⟩

theorem Sentence.fits_ret (h : p.symbols.Tracks scope) {word : TokenOf .returnWord}
    {value : Expression} : (Sentence.ret word value).Fits p scope rest ↔
      ∃ ts, p.rest = word.1 :: ts ∧ value.Fits (p.inside ts) rest := by
  constructor
  · rintro ⟨ht, hg, hw, hc, hn⟩
    exact ⟨_, ht, rfl, hg, hw, (Phrase.covered_uses h).mp hc, hn⟩
  · rintro ⟨ts, ht, hr, hg, hw, hb, hn⟩
    rw [Parser.inside_rest] at hr
    exact ⟨by simp [ht, hr, Sentence.tokens], hg, hw, (Phrase.covered_uses h).mpr hb, hn⟩

theorem Block.firstKind_tokens (B : Block) (ts : List Token) (k : Kind) :
    firstKind (B.tokens ++ ts) k = .openBrace := by
  cases B with
  | braces opening body closing => exact opening.2

theorem Phrase.fits_condition (h : p.symbols.Tracks scope) {ts : List Token}
    {condition : Expression} {B : Block} : condition.Fits (p.inside ts) (B.tokens ++ rest) ↔
      ts = condition.tokens ++ (B.tokens ++ rest) ∧ condition.Greedy .openBrace ∧
        (∀ s ∈ condition.numerals, Decimal.IsWord s) ∧ Mention.Covered scope condition.uses ∧
          ∀ n ∈ condition.needs (p.depth + 1), n ≤ p.limit := by
  rw [Phrase.covered_uses h]
  constructor
  · rintro ⟨ht, hg, hw, hb, hn⟩
    rw [B.firstKind_tokens] at hg
    exact ⟨ht, hg, hw, hb, hn⟩
  · rintro ⟨ht, hg, hw, hb, hn⟩
    refine ⟨ht, ?_, hw, hb, hn⟩
    rw [B.firstKind_tokens]
    exact hg

theorem Sentence.fits_ifThen (h : p.symbols.Tracks scope) {word : TokenOf .ifWord}
    {condition : Expression} {consequent : Block} :
    (Sentence.ifThen word condition consequent).Fits p scope rest ↔ ∃ ts, p.rest = word.1 :: ts ∧
      condition.Fits (p.inside ts) (consequent.tokens ++ rest) ∧
        consequent.Fits { p with rest := consequent.tokens ++ rest } scope rest ∧
          firstKind rest .endOfInput ≠ .elseWord := by
  simp only [Phrase.fits_condition h]
  constructor
  · rintro ⟨ht, ⟨hg, hgb, he⟩, hw, hc, hn⟩
    simp only [Sentence.tokens, Sentence.numerals, Sentence.mentions, Sentence.needs,
      List.forall_mem_append, Mention.covered_append, Phrase.bound_uses, List.append_nil]
      at ht hw hc hn
    exact ⟨_, ht, ⟨by simp, hg, hw.1, hc.1, hn.1⟩, ⟨rfl, hgb, hw.2, hc.2, hn.2⟩, he⟩
  · rintro ⟨ts, ht, ⟨rfl, hg, hw, hc, hn⟩, ⟨-, hgb, hwb, hcb, hnb⟩, he⟩
    refine ⟨by simp [ht, Sentence.tokens], ⟨hg, hgb, he⟩,
      List.forall_mem_append.mpr ⟨hw, hwb⟩, Mention.covered_append.mpr ⟨hc, ?_⟩,
      List.forall_mem_append.mpr ⟨hn, hnb⟩⟩
    rwa [Phrase.bound_uses, List.append_nil]

theorem Sentence.fits_loop (h : p.symbols.Tracks scope) {word : TokenOf .forWord}
    {condition : Expression} {body : Block} :
    (Sentence.loop word condition body).Fits p scope rest ↔ ∃ ts, p.rest = word.1 :: ts ∧
      condition.Fits (p.inside ts) (body.tokens ++ rest) ∧
        body.Fits { p with rest := body.tokens ++ rest } scope rest := by
  simp only [Phrase.fits_condition h]
  constructor
  · rintro ⟨ht, ⟨hg, hgb⟩, hw, hc, hn⟩
    simp only [Sentence.tokens, Sentence.numerals, Sentence.mentions, Sentence.needs,
      List.forall_mem_append, Mention.covered_append, Phrase.bound_uses, List.append_nil]
      at ht hw hc hn
    exact ⟨_, ht, ⟨by simp, hg, hw.1, hc.1, hn.1⟩, ⟨rfl, hgb, hw.2, hc.2, hn.2⟩⟩
  · rintro ⟨ts, ht, ⟨rfl, hg, hw, hc, hn⟩, ⟨-, hgb, hwb, hcb, hnb⟩⟩
    refine ⟨by simp [ht, Sentence.tokens], ⟨hg, hgb⟩,
      List.forall_mem_append.mpr ⟨hw, hwb⟩, Mention.covered_append.mpr ⟨hc, ?_⟩,
      List.forall_mem_append.mpr ⟨hn, hnb⟩⟩
    rwa [Phrase.bound_uses, List.append_nil]

theorem Sentence.fits_ifElse (h : p.symbols.Tracks scope) {word : TokenOf .ifWord}
    {condition : Expression} {consequent alternate : Block} {elseWord : TokenOf .elseWord} :
    (Sentence.ifElse word condition consequent elseWord alternate).Fits p scope rest ↔
      ∃ ts, p.rest = word.1 :: ts ∧
        condition.Fits (p.inside ts)
          (consequent.tokens ++ elseWord.1 :: (alternate.tokens ++ rest)) ∧
        consequent.Fits
          { p with rest := consequent.tokens ++ elseWord.1 :: (alternate.tokens ++ rest) } scope
          (elseWord.1 :: (alternate.tokens ++ rest)) ∧
        alternate.Fits { p with rest := alternate.tokens ++ rest }
          (scope ++ Mention.bound consequent.mentions) rest := by
  simp only [Phrase.fits_condition h]
  constructor
  · rintro ⟨ht, ⟨hg, hgb, hga⟩, hw, hc, hn⟩
    simp only [Sentence.tokens, Sentence.numerals, Sentence.mentions, Sentence.needs,
      List.forall_mem_append, Mention.covered_append, Phrase.bound_uses, List.append_nil]
      at ht hw hc hn
    exact ⟨_, ht, ⟨by simp, hg, hw.1, hc.1, hn.1⟩, ⟨rfl, hgb, hw.2.1, hc.2.1, hn.2.1⟩,
      ⟨rfl, hga, hw.2.2, hc.2.2, hn.2.2⟩⟩
  · rintro ⟨ts, ht, ⟨rfl, hg, hw, hc, hn⟩, ⟨-, hgb, hwb, hcb, hnb⟩, ⟨-, hga, hwa, hca, hna⟩⟩
    refine ⟨by simp [ht, Sentence.tokens], ⟨hg, hgb, hga⟩,
      List.forall_mem_append.mpr ⟨hw, List.forall_mem_append.mpr ⟨hwb, hwa⟩⟩,
      Mention.covered_append.mpr ⟨hc, Mention.covered_append.mpr ⟨?_, ?_⟩⟩,
      List.forall_mem_append.mpr ⟨hn, List.forall_mem_append.mpr ⟨hnb, hna⟩⟩⟩
    · rwa [Phrase.bound_uses, List.append_nil]
    · rwa [Phrase.bound_uses, List.append_nil]

theorem Block.fits_braces {opening : TokenOf .openBrace} {body : Text}
    {closing : TokenOf .closeBrace} :
    (Block.braces opening body closing).Fits p scope rest ↔ p.depth < p.limit ∧
      ∃ ts, p.rest = opening.1 :: ts ∧ body.Fits (p.inside ts) scope (closing.1 :: rest) := by
  constructor
  · rintro ⟨ht, hg, hw, hc, hn⟩
    simp only [Block.tokens, Block.needs, List.forall_mem_cons] at ht hn
    refine ⟨hn.1, _, by simpa using ht, rfl, ?_, hw, hc, hn.2⟩
    rw [firstKind_cons, closing.2]
    exact hg
  · rintro ⟨hd, ts, ht, hr, hg, hw, hc, hn⟩
    rw [Parser.inside_rest] at hr
    rw [firstKind_cons, closing.2] at hg
    exact ⟨by simp [ht, hr, Block.tokens], hg, hw, hc, List.forall_mem_cons.mpr ⟨hd, hn⟩⟩

theorem Text.fits_nil : Text.nil.Fits p scope rest ↔ p.rest = rest :=
  ⟨fun h => h.text, fun h => ⟨h, trivial, by simp [Text.numerals], trivial, by simp [Text.needs]⟩⟩

theorem Text.fits_cons {s : Sentence} {semicolon : Option (TokenOf .semicolon)} {more : Text} :
    (Text.cons s semicolon more).Fits p scope rest ↔
      s.FitsClosed semicolon p scope (more.tokens ++ rest) ∧
        more.Fits { p with rest := more.tokens ++ rest } (scope ++ Mention.bound s.mentions)
          rest := by
  constructor
  · rintro ⟨ht, hg, hw, hc, hn⟩
    simp only [Text.tokens, Text.numerals, Text.mentions, Text.needs, List.forall_mem_append,
      Mention.covered_append] at ht hw hc hn
    cases semicolon with
    | none =>
      obtain ⟨hgs, hne, hgm⟩ := hg
      rw [← firstKind_append] at hgs hne
      exact ⟨⟨⟨by simpa using ht, hgs, hw.1, hc.1, hn.1⟩, hne⟩, ⟨rfl, hgm, hw.2, hc.2, hn.2⟩⟩
    | some mark =>
      obtain ⟨hgs, hgm⟩ := hg
      refine ⟨⟨by simpa using ht, ?_, hw.1, hc.1, hn.1⟩, ⟨rfl, hgm, hw.2, hc.2, hn.2⟩⟩
      rwa [firstKind_cons, mark.2]
  · rintro ⟨hs, ⟨-, hgm, hwm, hcm, hnm⟩⟩
    cases semicolon with
    | none =>
      obtain ⟨⟨ht, hg, hw, hc, hn⟩, hne⟩ := hs
      rw [firstKind_append] at hg hne
      exact ⟨by simp [ht, Text.tokens], ⟨hg, hne, hgm⟩, List.forall_mem_append.mpr ⟨hw, hwm⟩,
        Mention.covered_append.mpr ⟨hc, hcm⟩, List.forall_mem_append.mpr ⟨hn, hnm⟩⟩
    | some mark =>
      obtain ⟨ht, hg, hw, hc, hn⟩ := hs
      rw [firstKind_cons, mark.2] at hg
      exact ⟨by simp [ht, Text.tokens], ⟨hg, hgm⟩, List.forall_mem_append.mpr ⟨hw, hwm⟩,
        Mention.covered_append.mpr ⟨hc, hcm⟩, List.forall_mem_append.mpr ⟨hn, hnm⟩⟩

end Grammar

end TinyCompiler
