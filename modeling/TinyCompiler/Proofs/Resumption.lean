import TinyCompiler.Proofs.BlockReading
import TinyCompiler.Proofs.NestingLimit

/-! What has been read can go on in other ways. Whatever fits before a list of tokens fits before
every other list that begins with the same kind, or with a kind that no rule takes to what stands
before it; and the smallest phrase and the smallest block fit wherever one may stand. -/
namespace TinyCompiler

open Grammar

namespace Grammar

/-- Kinds before which everything may end: no operators, no marks, no `else`, no semicolon. -/
def neutral : List Kind := [.trueWord, .closeParen, .openBrace, .closeBrace, .endOfInput]

/-- The second list may stand in the place of the first. -/
def Resumes (ts ts' : List Token) : Prop :=
  firstKind ts' .endOfInput = firstKind ts .endOfInput ∨ firstKind ts' .endOfInput ∈ neutral

theorem Resumes.append_left {ts ts' : List Token} (h : Resumes ts ts') (before : List Token) :
    Resumes (before ++ ts) (before ++ ts') := by
  cases before with
  | nil => exact h
  | cons t before => exact .inl rfl

variable {k k' : Kind}

theorem node?_neutral (t : Tier) (hk : k ∈ neutral) : t.node? k = none := by
  simp only [neutral, List.mem_cons, List.not_mem_nil, or_false] at hk
  obtain rfl | rfl | rfl | rfl | rfl := hk <;> cases t <;> rfl

theorem firstKind_mem_neutral (tokens : List Token) (hk : k ∈ neutral)
    (h : firstKind tokens .endOfInput ∈ neutral) : firstKind tokens k ∈ neutral := by
  cases tokens with
  | nil => exact hk
  | cons t ts => exact h

mutual

theorem Phrase.Greedy.neutral (hk : k' ∈ neutral) :
    {l : Level} → (P : Phrase l) → P.Greedy k → P.Greedy k'
  | _, .numeral _, _ | _, .yes _, _ | _, .no _, _ | _, .name _, _ => trivial
  | _, .group _ _ _, h => h
  | _, .bare operand, h => Phrase.Greedy.neutral hk operand h
  | _, .sign _ _ operand, h => Phrase.Greedy.neutral hk operand h
  | _, .plus _ operand, h => Phrase.Greedy.neutral hk operand h
  | _, .chain first .nil, h => by
    rw [Phrase.Greedy] at h ⊢
    exact ⟨Phrase.Greedy.neutral hk first h.1, node?_neutral _ hk⟩
  | _, .chain first (.cons op node hop right rest), h => by
    rw [Phrase.Greedy] at h ⊢
    exact ⟨h.1, Links.Greedy.neutral hk (.cons op node hop right rest) h.2⟩

theorem Links.Greedy.neutral (hk : k' ∈ neutral) :
    {t : Tier} → (L : Links t) → L.Greedy k → L.Greedy k'
  | _, .nil, _ => node?_neutral _ hk
  | _, .cons _ _ _ right .nil, h => by
    rw [Links.Greedy] at h ⊢
    exact ⟨Phrase.Greedy.neutral hk right h.1, node?_neutral _ hk⟩
  | _, .cons _ _ _ right (.cons op node hop next rest), h => by
    rw [Links.Greedy] at h ⊢
    exact ⟨h.1, Links.Greedy.neutral hk (.cons op node hop next rest) h.2⟩

end

theorem not_startsBinding_neutral {kinds : List Kind} (hk : k' ∈ neutral)
    (h : ¬StartsBinding (kinds ++ [k])) : ¬StartsBinding (kinds ++ [k']) := by
  match kinds with
  | [] => simp [StartsBinding]
  | [first] =>
    rw [List.cons_append, List.nil_append, Rule.startsBinding_cons_cons]
    rintro ⟨-, rfl | rfl⟩ <;> exact absurd hk (by decide)
  | first :: second :: kinds =>
    simp only [List.cons_append, Rule.startsBinding_cons_cons] at h ⊢
    exact h

theorem Sentence.Greedy.neutral (hk : k' ∈ neutral) {D : Sentence} (h : D.Greedy k) :
    D.Greedy k' := by
  cases D with
  | expr value => exact ⟨h.1.neutral hk value, not_startsBinding_neutral hk h.2⟩
  | declare target mark value => exact Phrase.Greedy.neutral hk value h
  | assign target mark value => exact Phrase.Greedy.neutral hk value h
  | ret word value => exact Phrase.Greedy.neutral hk value h
  | ifThen word condition consequent =>
    refine ⟨h.1, h.2.1, ?_⟩
    rintro rfl
    exact absurd hk (by decide)
  | ifElse word condition consequent elseWord alternate => exact h
  | loop word condition body => exact h

theorem ne_semicolon_of_neutral (hk : k ∈ neutral) : k ≠ .semicolon := by
  rintro rfl
  exact absurd hk (by decide)

theorem Text.Greedy.neutral (hk : k' ∈ neutral) : (T : Text) → T.Greedy k → T.Greedy k'
  | .nil, _ => trivial
  | .cons _ none .nil, ⟨hs, _, _⟩ => ⟨hs.neutral hk, ne_semicolon_of_neutral hk, trivial⟩
  | .cons _ (some _) .nil, ⟨hs, _⟩ => ⟨hs, trivial⟩
  | .cons _ none (.cons s semicolon rest), ⟨hs, hne, hrest⟩ => by
    obtain ⟨t, ts, ht, -⟩ := s.exists_starter
    simp only [Text.tokens, ht, List.cons_append, firstKind_cons] at hs hne
    have hmore := Text.Greedy.neutral hk (.cons s semicolon rest) hrest
    refine ⟨?_, ?_, hmore⟩ <;> simpa only [Text.tokens, ht, List.cons_append, firstKind_cons]
  | .cons _ (some _) (.cons s semicolon rest), ⟨hs, hrest⟩ =>
    ⟨hs, Text.Greedy.neutral hk (.cons s semicolon rest) hrest⟩

end Grammar

namespace Parser

def onto (p : Parser) (ts : List Token) (line : Nat) : Parser :=
  { p with rest := ts, lastLine := line }

@[simp] theorem onto_rest (p : Parser) (ts : List Token) (line : Nat) :
    (p.onto ts line).rest = ts := rfl

end Parser

namespace Grammar

variable {p : Parser} {scope : List String} {rest rest' : List Token}

theorem Phrase.Fits.resume {l : Level} {P : Phrase l} (h : P.Fits p rest)
    (hr : Resumes rest rest') (line : Nat) : P.Fits (p.onto (P.tokens ++ rest') line) rest' := by
  refine ⟨rfl, ?_, h.words, h.bound, h.room⟩
  obtain hsame | hneutral := hr
  · rw [hsame]
    exact h.greedy
  · exact Phrase.Greedy.neutral hneutral P h.greedy

theorem Sentence.Fits.resume {D : Sentence} (h : D.Fits p scope rest) (hr : Resumes rest rest')
    (line : Nat) : D.Fits (p.onto (D.tokens ++ rest') line) scope rest' := by
  refine ⟨rfl, ?_, h.words, h.covered, h.room⟩
  obtain hsame | hneutral := hr
  · rw [hsame]
    exact h.greedy
  · exact h.greedy.neutral hneutral

theorem Block.Fits.resume {B : Block} (h : B.Fits p scope rest) (rest' : List Token)
    (line : Nat) : B.Fits (p.onto (B.tokens ++ rest') line) scope rest' :=
  ⟨rfl, h.greedy, h.words, h.covered, h.room⟩

theorem Text.Fits.resume {T : Text} (h : T.Fits p scope rest) (hr : Resumes rest rest')
    (line : Nat) : T.Fits (p.onto (T.tokens ++ rest') line) scope rest' := by
  refine ⟨rfl, ?_, h.words, h.covered, h.room⟩
  obtain hsame | hneutral := hr
  · rw [hsame]
    exact h.greedy
  · exact Text.Greedy.neutral hneutral T h.greedy

def Sentence.closedTokens (D : Sentence) (semicolon : Option (TokenOf .semicolon)) : List Token :=
  D.tokens ++ (semicolon.map Subtype.val).toList

theorem Sentence.FitsClosed.text {D : Sentence} {semicolon : Option (TokenOf .semicolon)}
    (h : D.FitsClosed semicolon p scope rest) : p.rest = D.closedTokens semicolon ++ rest := by
  cases semicolon with
  | none => simpa [Sentence.closedTokens] using h.1.text
  | some mark => simpa [Sentence.closedTokens] using Sentence.Fits.text h

theorem Sentence.FitsClosed.resume {D : Sentence} {semicolon : Option (TokenOf .semicolon)}
    (h : D.FitsClosed semicolon p scope rest) (hr : Resumes rest rest') (line : Nat) :
    D.FitsClosed semicolon (p.onto (D.closedTokens semicolon ++ rest') line) scope rest' := by
  cases semicolon with
  | none =>
    refine ⟨by simpa [Sentence.closedTokens] using h.1.resume hr line, ?_⟩
    obtain hsame | hneutral := hr
    · rw [hsame]
      exact h.2
    · exact ne_semicolon_of_neutral hneutral
  | some mark =>
    have hmark : Resumes (mark.1 :: rest) (mark.1 :: rest') := .inl rfl
    have hfits := Sentence.Fits.resume h hmark line
    rwa [show D.tokens ++ mark.1 :: rest' = D.closedTokens (some mark) ++ rest' by
      simp [Sentence.closedTokens]] at hfits

theorem lonePrimary_fits (h : p.depth ≤ p.limit) :
    lonePrimary.Fits { p with rest := lonePrimary.tokens } [] :=
  Phrase.fits_yes.mpr ⟨rfl, h⟩

def emptyBlock : Block :=
  .braces ⟨⟨.openBrace, "\x7b", 1⟩, rfl⟩ .nil ⟨⟨.closeBrace, "\x7d", 1⟩, rfl⟩

theorem emptyBlock_fits (h : p.depth < p.limit) :
    emptyBlock.Fits { p with rest := emptyBlock.tokens } scope [] :=
  Block.fits_braces.mpr ⟨h, _, rfl, Text.fits_nil.mpr rfl⟩

end Grammar

end TinyCompiler
