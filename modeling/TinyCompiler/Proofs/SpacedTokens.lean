import TinyCompiler.Proofs.MaximalMunch

/-! Lexemes with a blank between any two. Scanning gives them back one by one, since no lexeme goes
on behind a blank. -/
namespace TinyCompiler

open Segment

namespace Segment

variable {w rest : List UInt8} {kind : Kind}

theorem operators_no_comment : ∀ entry ∈ Kind.operators,
    ¬ascii ['/', '/'] <+: ascii entry.1 := by decide

theorem IsLexeme.no_comment (h : IsLexeme w) : ¬ascii ['/', '/'] <+: w := by
  rintro ⟨more, rfl⟩
  obtain ⟨entry, hentry, he⟩ := h.isOperator (by decide) (by decide)
  exact operators_no_comment entry hentry ⟨more, he.symm⟩

theorem Spells.cuts (h : Spells w kind) (hrest : ∀ b ∈ rest.head?, isBlank b = true) :
    Cuts w rest (.token kind) := by
  -- A start of the text that is longer than the lexeme has the blank in it.
  have hshort (v : List UInt8) (hv : v <+: w ++ rest) (hblank : ∀ b ∈ v, ¬isBlank b = true) :
      v <+: w := by
    obtain hv' | ⟨more, rfl⟩ := List.prefix_or_prefix_of_prefix hv (List.prefix_append w rest)
    · exact hv'
    · obtain ⟨after, rfl⟩ := (List.prefix_append_right_inj w).mp hv
      cases more with
      | nil => simp
      | cons b more => exact absurd (hrest b rfl) (hblank b (by simp))
  refine .token ⟨List.prefix_append w rest, h.isLexeme, fun v hv hlexeme => ?_⟩ h fun hslashes => ?_
  · exact (hshort v hv fun b hb => hlexeme.not_isBlank hb).length_le
  · exact h.isLexeme.no_comment (hshort _ hslashes fun b hb => not_isBlank_of_slashes hb)

end Segment

theorem Utf8.encode_append (s t : String) : encode (s ++ t) = encode s ++ encode t := by
  simp [encode]

theorem Utf8.encode_injective : Function.Injective encode := by
  intro s t h
  rw [← String.toByteArray_inj, ← String.utf8Encode_toList, ← String.utf8Encode_toList]
  exact congrArg List.toByteArray h

namespace Token

/-- The token is one that is scanned on the first line. -/
structure Written (t : Token) : Prop where
  line : t.line = 1
  spells : Segment.Spells (Utf8.encode t.lexeme) t.kind

def piece (t : Token) : Piece := ⟨.token t.kind, Utf8.encode t.lexeme⟩

def pieces : List Token → List Piece
  | [] => []
  | [t] => [t.piece]
  | t :: next :: ts => t.piece :: ⟨.blank, [' '.toUInt8]⟩ :: pieces (next :: ts)

def spaced (ts : List Token) : String := " ".intercalate (ts.map lexeme)

theorem encode_spaced_cons_cons (t next : Token) (ts : List Token) :
    Utf8.encode (spaced (t :: next :: ts)) =
      Utf8.encode t.lexeme ++ ' '.toUInt8 :: Utf8.encode (spaced (next :: ts)) := by
  have hblank : Utf8.encode " " = [' '.toUInt8] := by decide
  have htext : spaced (t :: next :: ts) = t.lexeme ++ " " ++ spaced (next :: ts) := by
    simp [spaced]
  rw [htext, Utf8.encode_append, Utf8.encode_append, hblank, List.append_assoc,
    List.singleton_append]

theorem segmented_pieces : (ts : List Token) → (∀ t ∈ ts, t.Written) →
    Segmented (Utf8.encode (spaced ts)) (pieces ts)
  | [], _ => .nil
  | [t], h => by
    have ht := (h t List.mem_cons_self).spells
    have hcuts : Cuts (Utf8.encode t.lexeme) [] (.token t.kind) := ht.cuts (by simp)
    have htext : Utf8.encode (spaced [t]) = Utf8.encode t.lexeme ++ [] := by simp [spaced]
    rw [htext]
    exact .cons hcuts .nil
  | t :: next :: ts, h => by
    obtain ⟨ht, hmore⟩ := List.forall_mem_cons.mp h
    rw [encode_spaced_cons_cons]
    refine .cons (ht.spells.cuts fun b hb => ?_) ?_
    · cases hb
      decide
    · exact .cons (.blank (by decide)) (segmented_pieces (next :: ts) hmore)

variable {t : Token}

theorem Written.item? (h : t.Written) : t.piece.item? 1 = some (.ok t) := by
  have hlexeme : t.piece.lexeme = t.lexeme :=
    Utf8.encode_injective (Utf8.encode_ascii fun b hb => h.spells.isLexeme.lt hb)
  have hitem : t.piece.item? 1 = some (.ok ⟨t.kind, t.piece.lexeme, 1⟩) := rfl
  rw [hitem, hlexeme, ← h.line]

theorem Written.count_newline (h : t.Written) : t.piece.bytes.count newline = 0 :=
  List.count_eq_zero.mpr fun hline => h.spells.isLexeme.not_isBlank hline (by decide)

/-- No newline has been passed, so every token stands on the first line. -/
theorem items_pieces {before : List UInt8} (hb : before.count newline = 0) :
    (ts : List Token) → (∀ t ∈ ts, t.Written) →
      Piece.items before (pieces ts) = (ts ++ [endOfInput 1]).map Except.ok
  | [], _ => by
    rw [pieces, Piece.items, hb]
    rfl
  | [t], h => by
    have ht := h t List.mem_cons_self
    rw [pieces, Piece.items, hb, Piece.items, List.count_append, hb, ht.count_newline, ht.item?]
    rfl
  | t :: next :: ts, h => by
    obtain ⟨ht, hmore⟩ := List.forall_mem_cons.mp h
    have hcount : (before ++ t.piece.bytes).count newline = 0 := by
      rw [List.count_append, hb, ht.count_newline]
    have hblank : (before ++ t.piece.bytes ++ [' '.toUInt8]).count newline = 0 := by
      rw [List.count_append, hcount]
      decide
    rw [pieces, Piece.items, hb, ht.item?, Piece.items, items_pieces hblank (next :: ts) hmore]
    rfl

end Token

theorem tokenize_spaced {ts : List Token} (h : ∀ t ∈ ts, t.Written) :
    tokenize (Utf8.encode (Token.spaced ts)) = .ok (ts ++ [.endOfInput 1]) := by
  have hok (ts : List Token) : ts.mapM Except.ok = (pure (ts.map id) : Except LexicalError _) :=
    List.mapM_pure
  rw [tokenize, scan_eq_items (Token.segmented_pieces ts h), Token.items_pieces rfl ts h,
    List.mapM_map]
  exact (hok _).trans (by rw [List.map_id]; rfl)

end TinyCompiler
