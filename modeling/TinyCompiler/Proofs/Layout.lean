import TinyCompiler.Proofs.SpacedTokens

/-! Layout: blanks and comments around lexemes. However the lexemes of a text are laid out anew,
they are scanned back, as long as each of them has a blank behind it or ends the text. -/
namespace TinyCompiler

open Segment

inductive Fill : List UInt8 → Prop where
  | nil : Fill []
  | blank {b : UInt8} {w : List UInt8} (h : isBlank b = true) (more : Fill w) : Fill (b :: w)
  | comment {c w : List UInt8} (h : newline ∉ c) (more : Fill w) :
    Fill (ascii ['/', '/'] ++ c ++ newline :: w)

/-- Lexemes written in order, with fill before each and behind the last. What stands behind a lexeme
starts with a blank, if anything does. Only at the very end a comment may lack its newline. -/
inductive Laid : List (List UInt8) → List UInt8 → Prop where
  | fill {w : List UInt8} (h : Fill w) : Laid [] w
  | comment {w c : List UInt8} (h : Fill w) (hc : newline ∉ c) :
    Laid [] (w ++ (ascii ['/', '/'] ++ c))
  | lexeme {w lexeme rest : List UInt8} {lexemes : List (List UInt8)} (h : Fill w)
    (hrest : ∀ b ∈ rest.head?, isBlank b = true) (more : Laid lexemes rest) :
    Laid (lexeme :: lexemes) (w ++ (lexeme ++ rest))

def Token.mark (t : Token) : Kind × String := (t.kind, t.lexeme)

theorem mapM_id_eq_ok {ε α : Type} {items : List (Except ε α)} {as : List α} :
    items.mapM id = .ok as ↔ items = as.map .ok := by
  induction items generalizing as with
  | nil => simp [pure, Except.pure, eq_comm]
  | cons item items ih =>
    rw [List.mapM_cons]
    cases item with
    | error e => cases as <;> simp [bind, Except.bind]
    | ok a =>
      cases hmore : items.mapM id with
      | error e => cases as <;> simp [bind, Except.bind, ← ih, hmore]
      | ok others => cases as <;> simp [bind, Except.bind, pure, Except.pure, ← ih, hmore]

theorem tokenize_eq_ok {text : List UInt8} {tokens : List Token} :
    tokenize text = .ok tokens ↔ scan text = tokens.map .ok :=
  mapM_id_eq_ok

/-- The items of such a text are its lexemes, as they are spelled, and the end marker. -/
theorem Segmented.exists_spelled {text before : List UInt8} {pieces : List Piece}
    {tokens : List Token} (h : Segmented text pieces)
    (hitems : Piece.items before pieces = tokens.map .ok) :
    ∃ ts line, tokens = ts ++ [.endOfInput line] ∧
      ∀ t ∈ ts, Segment.Spells (Utf8.encode t.lexeme) t.kind := by
  induction h generalizing before tokens with
  | nil =>
    obtain ⟨t, rfl, ht⟩ := List.map_eq_singleton_iff.mp hitems.symm
    cases ht
    exact ⟨[], _, rfl, by simp⟩
  | @cons w rest shape pieces hcuts _ ih =>
    rw [Piece.items] at hitems
    cases shape with
    | blank | comment => exact ih hitems
    | stray =>
      obtain ⟨b, rfl, -⟩ := hcuts.of_stray
      cases tokens <;> cases hitems
    | token kind =>
      cases tokens with
      | nil => cases hitems
      | cons t tokens =>
        obtain ⟨ht, hmore⟩ := List.cons.inj hitems
        obtain ⟨ts, line, rfl, hts⟩ := ih hmore
        cases ht
        cases hcuts with
        | token _ hk _ =>
          refine ⟨_ :: ts, line, rfl, List.forall_mem_cons.mpr ⟨?_, hts⟩⟩
          change Segment.Spells (Utf8.encode (String.ofList (w.map Char.ofUInt8))) kind
          rwa [Utf8.encode_ascii fun b hb => hk.isLexeme.lt hb]

theorem exists_spelled_of_tokenize {text : List UInt8} {tokens : List Token}
    (h : tokenize text = .ok tokens) : ∃ ts line, tokens = ts ++ [.endOfInput line] ∧
      ∀ t ∈ ts, Segment.Spells (Utf8.encode t.lexeme) t.kind := by
  obtain ⟨pieces, hpieces⟩ := Segmented.exists_pieces text
  rw [tokenize_eq_ok, scan_eq_items hpieces] at h
  exact hpieces.exists_spelled h

/-- Behind any bytes the text is scanned to tokens with these marks, and the end marker. -/
def ScansTo (text : List UInt8) (marks : List (Kind × String)) : Prop :=
  ∃ pieces, Segmented text pieces ∧ ∀ before, ∃ ts line,
    Piece.items before pieces = (ts ++ [.endOfInput line]).map .ok ∧ ts.map Token.mark = marks

namespace ScansTo

variable {w rest : List UInt8} {shape : Shape} {marks : List (Kind × String)}

theorem nil : ScansTo [] [] := ⟨[], .nil, fun before => ⟨[], 1 + before.count newline, rfl, rfl⟩⟩

theorem layout (h : Cuts w rest shape) (hshape : shape = .blank ∨ shape = .comment)
    (more : ScansTo rest marks) : ScansTo (w ++ rest) marks := by
  obtain ⟨pieces, hpieces, hitems⟩ := more
  refine ⟨_, .cons h hpieces, fun before => ?_⟩
  obtain ⟨ts, line, hts, hmarks⟩ := hitems (before ++ w)
  refine ⟨ts, line, ?_, hmarks⟩
  rw [← hts]
  obtain rfl | rfl := hshape <;> rfl

theorem token {t : Token} (h : Cuts (Utf8.encode t.lexeme) rest (.token t.kind))
    (ht : Segment.Spells (Utf8.encode t.lexeme) t.kind) (more : ScansTo rest marks) :
    ScansTo (Utf8.encode t.lexeme ++ rest) (t.mark :: marks) := by
  obtain ⟨pieces, hpieces, hitems⟩ := more
  have hlexeme : t.piece.lexeme = t.lexeme :=
    Utf8.encode_injective (Utf8.encode_ascii fun b hb => ht.isLexeme.lt hb)
  refine ⟨t.piece :: pieces, .cons h hpieces, fun before => ?_⟩
  obtain ⟨ts, line, hts, rfl⟩ := hitems (before ++ Utf8.encode t.lexeme)
  refine ⟨⟨t.kind, t.piece.lexeme, 1 + before.count newline⟩ :: ts, line, ?_, ?_⟩
  · rw [List.cons_append, List.map_cons, ← hts]
    rfl
  · rw [List.map_cons, Token.mark, hlexeme]
    rfl

theorem comment {c : List UInt8} (hc : newline ∉ c) (hrest : rest = [] ∨ rest.head? = some newline)
    (more : ScansTo rest marks) : ScansTo (ascii ['/', '/'] ++ c ++ rest) marks := by
  refine layout (.comment (List.prefix_append _ c) ?_ hrest) (.inr rfl) more
  rw [List.mem_append, not_or]
  exact ⟨by decide, hc⟩

theorem blank {b : UInt8} (h : isBlank b = true) (more : ScansTo rest marks) :
    ScansTo (b :: rest) marks :=
  layout (.blank h) (.inl rfl) more

theorem fill (h : Fill w) (more : ScansTo rest marks) : ScansTo (w ++ rest) marks := by
  induction h with
  | nil => exact more
  | blank h _ ih => exact blank h ih
  | @comment c w h _ ih =>
    rw [List.append_assoc, List.cons_append]
    exact comment h (.inr rfl) (blank (by decide) ih)

end ScansTo

theorem Laid.scansTo {lexemes : List (List UInt8)} {text : List UInt8} (h : Laid lexemes text)
    {ts : List Token} (hts : ts.map (fun t => Utf8.encode t.lexeme) = lexemes)
    (hspells : ∀ t ∈ ts, Segment.Spells (Utf8.encode t.lexeme) t.kind) :
    ScansTo text (ts.map Token.mark) := by
  -- Induction on the layout, from its end.
  induction h generalizing ts with
  | @fill w h =>
    obtain rfl := List.map_eq_nil_iff.mp hts
    rw [← List.append_nil w]
    exact .fill h .nil
  | @comment w c h hc =>
    obtain rfl := List.map_eq_nil_iff.mp hts
    rw [← List.append_nil (_ ++ c)]
    exact .fill h (.comment hc (.inl rfl) .nil)
  | lexeme h hrest _ ih =>
    obtain ⟨t, ts, rfl, rfl, hmore⟩ := List.map_eq_cons_iff.mp hts
    obtain ⟨ht, hspells⟩ := List.forall_mem_cons.mp hspells
    exact .fill h (.token (ht.cuts hrest) ht (ih hmore hspells))

/-- The lexemes of a text in another layout are the same tokens, but for their lines. -/
theorem tokenize_laid {text text' : List UInt8} {tokens : List Token}
    (h : tokenize text = .ok tokens)
    (hlaid : Laid (tokens.dropLast.map fun t => Utf8.encode t.lexeme) text') :
    ∃ tokens', tokenize text' = .ok tokens' ∧
      tokens'.map Token.mark = tokens.map Token.mark := by
  obtain ⟨ts, line, rfl, hspells⟩ := exists_spelled_of_tokenize h
  rw [List.dropLast_concat] at hlaid
  obtain ⟨pieces, hpieces, hitems⟩ := hlaid.scansTo rfl hspells
  obtain ⟨us, line', hus, hmarks⟩ := hitems []
  refine ⟨us ++ [.endOfInput line'], ?_, ?_⟩
  · rw [tokenize_eq_ok, scan_eq_items hpieces, hus]
  · rw [List.map_append, List.map_append, hmarks]
    rfl

end TinyCompiler
