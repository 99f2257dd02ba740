import TinyCompiler.Proofs.MaximalMunch

/-! Scanning line by line. A newline ends the segments before it as the end of the text does, so
that a text is scanned as what stands before the newline and what stands behind it, on lines
further down. -/
namespace TinyCompiler

open Segment

namespace Segment

variable {text v w rest : List UInt8} {shape : Shape}

/-- What has no newline in it does not reach over one. -/
theorem starts_before_newline (h : v <+: text ++ newline :: rest) (hv : newline ∉ v) :
    v <+: text := by
  obtain hshort | ⟨more, rfl⟩ := List.prefix_or_prefix_of_prefix h (List.prefix_append text _)
  · exact hshort
  · have hmore : more <+: newline :: rest := (List.prefix_append_right_inj text).mp h
    cases more with
    | nil => simp
    | cons b more =>
      obtain rfl : b = newline := (List.cons_prefix_cons.mp hmore).1
      exact absurd (List.mem_append_right text List.mem_cons_self) hv

theorem Longest.before_newline (h : Longest text w) (rest : List UInt8) :
    Longest (text ++ newline :: rest) w := by
  refine ⟨h.starts.trans (List.prefix_append text _), h.lexeme, fun v hv hlexeme => ?_⟩
  have hline : newline ∉ v := fun hmem => hlexeme.not_isBlank hmem (by decide)
  exact h.longest v (starts_before_newline hv hline) hlexeme

/-- A segment at the end of a text or inside it is one in front of a newline as well. -/
theorem Cuts.before_newline (h : Cuts w rest shape) (more : List UInt8) :
    Cuts w (rest ++ newline :: more) shape := by
  cases h with
  | blank h => exact .blank h
  | comment h hline hend =>
    refine .comment h hline (.inr ?_)
    obtain rfl | hhead := hend
    · rfl
    · rw [List.head?_append, hhead, Option.some_or]
  | token hw hkind hno =>
    have htext : w ++ (rest ++ newline :: more) = w ++ rest ++ newline :: more :=
      (List.append_assoc w rest _).symm
    refine .token (htext ▸ hw.before_newline more) hkind fun hslashes => hno ?_
    rw [htext] at hslashes
    exact starts_before_newline hslashes (by decide)
  | loneColon h =>
    refine .loneColon ?_
    cases rest with
    | nil =>
      have hne : newline ≠ '='.toUInt8 := by decide
      exact fun hequals => hne (Option.some.inj hequals)
    | cons b rest => exact h
  | stray hblank hno => exact .stray hblank hno

end Segment

theorem Segmented.append_newline {text more : List UInt8} {pieces others : List Piece}
    (h : Segmented text pieces) (hmore : Segmented more others) :
    Segmented (text ++ newline :: more) (pieces ++ ⟨.blank, [newline]⟩ :: others) := by
  induction h with
  | nil => exact .cons (.blank (by decide)) hmore
  | cons hcuts _ ih =>
    rw [List.append_assoc]
    exact .cons (hcuts.before_newline more) ih

def LexicalError.below (lines : Nat) : LexicalError → LexicalError
  | loneColon line => loneColon (line + lines)
  | strayByte byte line => strayByte byte (line + lines)

def Item.below (lines : Nat) : Item → Item
  | .ok t => .ok { t with line := t.line + lines }
  | .error e => .error (e.below lines)

theorem LexicalError.ofByte_below (byte : UInt8) (line lines : Nat) :
    ofByte byte (line + lines) = (ofByte byte line).below lines := by
  unfold ofByte
  split <;> rfl

namespace Piece

theorem item?_below (p : Piece) (line lines : Nat) :
    p.item? (line + lines) = (p.item? line).map (Item.below lines) := by
  obtain ⟨shape, bytes⟩ := p
  cases shape with
  | blank | comment | token => rfl
  | stray =>
    cases bytes with
    | nil => rfl
    | cons b bytes => exact congrArg (some ∘ Except.error) (LexicalError.ofByte_below b line lines)

theorem items_below (above before : List UInt8) (pieces : List Piece) :
    items (above ++ before) pieces =
      (items before pieces).map (Item.below (above.count newline)) := by
  induction pieces generalizing before with
  | nil =>
    rw [items, items, List.count_append, Nat.add_comm (above.count newline), ← Nat.add_assoc]
    rfl
  | cons p more ih =>
    rw [items, items, List.map_append, ← ih, List.append_assoc, List.count_append,
      Nat.add_comm (above.count newline), ← Nat.add_assoc, item?_below]
    cases p.item? (1 + before.count newline) <;> rfl

/-- The items of pieces, without the end marker behind them. -/
def found (before : List UInt8) : List Piece → List Item
  | [] => []
  | p :: more => (p.item? (1 + before.count newline)).toList ++ found (before ++ p.bytes) more

/-- There is no end marker in front of more pieces. -/
theorem items_append (before : List UInt8) (pieces others : List Piece) :
    items before (pieces ++ others) =
      found before pieces ++ items (before ++ pieces.flatMap bytes) others := by
  induction pieces generalizing before with
  | nil =>
    rw [List.flatMap_nil, List.append_nil]
    rfl
  | cons p more ih =>
    rw [List.cons_append, items, found, ih, List.flatMap_cons, List.append_assoc,
      List.append_assoc]

end Piece

/-- The calls of a scanner give the items of its text, and then nothing. -/
theorem Scanner.answer_start (text : List UInt8) (n : Nat) :
    answer n (.start text) = (scan text)[n]? := by
  obtain ⟨pieces, h⟩ := Segmented.exists_pieces text
  rw [scan_eq_items h]
  exact answer_eq h [] n

/-- A text with a newline in it is scanned as the text before it, all but the end marker, and the
text behind it, on lines further down. Call by call, tokens, lexical errors and the end marker come
in this order. -/
theorem scan_append_newline (above text : List UInt8) : ∃ items,
    scan above = items ++ [.ok (.endOfInput (1 + above.count newline))] ∧
      scan (above ++ newline :: text) =
        items ++ (scan text).map (Item.below (1 + above.count newline)) ∧
      ∀ n, Scanner.answer n (.start (above ++ newline :: text)) =
        (items ++ (scan text).map (Item.below (1 + above.count newline)))[n]? := by
  obtain ⟨pieces, h⟩ := Segmented.exists_pieces above
  obtain ⟨others, hothers⟩ := Segmented.exists_pieces text
  have hcount : (above ++ [newline]).count newline = 1 + above.count newline := by
    rw [List.count_append, List.count_singleton_self, Nat.add_comm]
  have habove : scan above =
      Piece.found [] pieces ++ [.ok (.endOfInput (1 + above.count newline))] := by
    have hitems := Piece.items_append [] pieces []
    rw [List.append_nil, List.nil_append, h.flatMap_bytes] at hitems
    rw [scan_eq_items h, hitems]
    rfl
  have hscan : scan (above ++ newline :: text) =
      Piece.found [] pieces ++ (scan text).map (Item.below (1 + above.count newline)) := by
    rw [scan_eq_items (h.append_newline hothers), Piece.items_append, List.nil_append,
      h.flatMap_bytes, scan_eq_items hothers, ← hcount, ← Piece.items_below, List.append_nil]
    rfl
  refine ⟨Piece.found [] pieces, habove, hscan, fun n => ?_⟩
  rw [Scanner.answer_start, hscan]

end TinyCompiler
