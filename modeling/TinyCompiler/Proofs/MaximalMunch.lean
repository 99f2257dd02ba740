import TinyCompiler.Proofs.Lexeme
import TinyCompiler.Text.Utf8
import TinyCompiler.Token.Stream

/-! The scanner cuts a text into segments and loses none of it. What it gives, call by call, are the
tokens and the bytes in error among them, each with the line that its segment stands on. -/
namespace TinyCompiler

open Segment

structure Piece where
  shape : Shape
  bytes : List UInt8

namespace Piece

def lexeme (p : Piece) : String := String.ofList (p.bytes.map Char.ofUInt8)

def item? (p : Piece) (line : Nat) : Option Item :=
  match p.shape, p.bytes with
  | .token kind, _ => some (.ok ⟨kind, p.lexeme, line⟩)
  | .stray, b :: _ => some (.error (.ofByte b line))
  | _, _ => none

/-- The items of pieces behind the bytes `before`, with the end marker behind the last piece. A line
is one more than the newlines before it. -/
def items (before : List UInt8) : List Piece → List Item
  | [] => [.ok (.endOfInput (1 + before.count newline))]
  | p :: more => (p.item? (1 + before.count newline)).toList ++ items (before ++ p.bytes) more

end Piece

/-- A text cut into its segments, each of them judged with the text behind it. -/
inductive Segmented : List UInt8 → List Piece → Prop where
  | nil : Segmented [] []
  | cons {w rest : List UInt8} {shape : Shape} {pieces : List Piece} (h : Cuts w rest shape)
    (more : Segmented rest pieces) : Segmented (w ++ rest) (⟨shape, w⟩ :: pieces)

namespace Segmented

variable {text : List UInt8} {pieces other : List Piece}

theorem flatMap_bytes (h : Segmented text pieces) : pieces.flatMap Piece.bytes = text := by
  induction h with
  | nil => rfl
  | cons h _ ih => rw [List.flatMap_cons, ih]

theorem unique (h : Segmented text pieces) (h' : Segmented text other) : other = pieces := by
  induction h generalizing other with
  | nil =>
    generalize he : ([] : List UInt8) = text at h'
    cases h' with
    | nil => rfl
    | cons hcuts _ => exact absurd (List.append_eq_nil_iff.mp he.symm).1 hcuts.ne_nil
  | @cons w rest shape pieces h _ ih =>
    generalize he : w ++ rest = text at h'
    cases h' with
    | nil => exact absurd (List.append_eq_nil_iff.mp he).1 h.ne_nil
    | @cons w' rest' shape' pieces' hcuts more =>
      obtain ⟨rfl, rfl⟩ := h.unique hcuts he
      obtain rfl := List.append_cancel_left he
      rw [ih more]

theorem exists_pieces (text : List UInt8) : ∃ pieces, Segmented text pieces := by
  induction hn : text.length using Nat.strong_induction_on generalizing text with
  | _ n ih =>
    cases text with
    | nil => exact ⟨[], .nil⟩
    | cons b rest =>
      obtain ⟨w, more, he, -, hcuts⟩ := first_cuts b rest
      have hlength : more.length < n := by
        have hw := List.length_pos_iff.mpr hcuts.ne_nil
        rw [← hn, he, List.length_append]
        omega
      obtain ⟨pieces, hpieces⟩ := ih more.length hlength more rfl
      rw [he]
      exact ⟨_, .cons hcuts hpieces⟩

end Segmented

theorem Utf8.encode_ascii {bytes : List UInt8} (h : ∀ b ∈ bytes, b < 128) :
    encode (String.ofList (bytes.map Char.ofUInt8)) = bytes := by
  have hbyte (b : UInt8) (hb : b < 128) : String.utf8EncodeChar (Char.ofUInt8 b) = [b] := by
    have hb' : b.toNat ≤ 127 := Nat.lt_succ_iff.mp (UInt8.lt_iff_toNat_lt.mp hb)
    have hcode : (Char.ofUInt8 b).toNat = b.toNat := UInt8.toNat_toUInt32 b
    simp [String.utf8EncodeChar, hcode, hb']
  rw [encode, String.toList_ofList, List.flatMap_map]
  induction bytes with
  | nil => rfl
  | cons b bytes ih =>
    obtain ⟨hb, hbytes⟩ := List.forall_mem_cons.mp h
    rw [List.flatMap_cons, hbyte b hb, ih hbytes]
    rfl

namespace Scanner

def call (s : Scanner) : Option Item × Scanner :=
  match s.next? with
  | some (item, t) => (some item, t)
  | none => (none, s)

/-- What the call number `n` gives, counted from zero. -/
def answer : Nat → Scanner → Option Item
  | 0, s => s.call.1
  | n + 1, s => answer n s.call.2

variable {s t : Scanner} {item : Item} {n : Nat}

theorem call_of_next? (h : s.next? = some (item, t)) : s.call = (some item, t) := by
  rw [call, h]

/-- After the end marker there is nothing, however often one asks. -/
theorem answer_of_none (h : s.next? = none) : answer n s = none := by
  have hcall : s.call = (none, s) := by rw [call, h]
  induction n with
  | zero => rw [answer, hcall]
  | succ n ih => rw [answer, hcall, ih]

theorem answer_congr (h : s.next? = t.next?) : answer n s = answer n t := by
  cases hs : s.next? with
  | none => rw [answer_of_none hs, answer_of_none (h ▸ hs)]
  | some out =>
    have hcall : s.call = t.call := by
      rw [call_of_next? hs, call_of_next? (h ▸ hs)]
    cases n with
    | zero => rw [answer, answer, hcall]
    | succ n => rw [answer, answer, hcall]

variable {w rest : List UInt8} {shape : Shape} {line : Nat} {ended : Bool}

theorem next?_of_layout (h : Cuts w rest shape) (hs : shape = .blank ∨ shape = .comment) :
    next? ⟨w ++ rest, line, ended⟩ = next? ⟨rest, line + w.count newline, ended⟩ := by
  obtain ⟨b, v, rfl⟩ := List.exists_cons_of_ne_nil h.ne_nil
  have hfirst : first b (v ++ rest) = ⟨shape, (b :: v).length⟩ := h.first_eq rfl
  have hskip : skip line (b :: v ++ rest) = skip (line + (b :: v).count newline) rest := by
    rw [List.cons_append, skip, hfirst, ← List.cons_append, List.take_left, List.drop_left]
    obtain rfl | rfl := hs <;> rfl
  rw [next?, hskip, next?]

theorem next?_of_item (h : Cuts w rest shape) (hitem : (Piece.mk shape w).item? line = some item) :
    next? ⟨w ++ rest, line, ended⟩ = some (item, ⟨rest, line, ended⟩) := by
  obtain ⟨b, v, rfl⟩ := List.exists_cons_of_ne_nil h.ne_nil
  have hfirst : first b (v ++ rest) = ⟨shape, (b :: v).length⟩ := h.first_eq rfl
  have hlayout : (first b (v ++ rest)).isLayout = false := by
    rw [hfirst]
    cases shape with
    | blank | comment => cases hitem
    | token | stray => rfl
  have hskip : skip line (b :: v ++ rest) = (line, b :: v ++ rest) := by
    rw [List.cons_append, skip, hlayout]
    rfl
  rw [next?, hskip]
  simp only [List.cons_append, hfirst]
  rw [← List.cons_append, List.take_left, List.drop_left]
  cases shape with
  | blank | comment => cases hitem
  | token | stray =>
    cases hitem
    rfl

theorem item?_cases (h : Cuts w rest shape) (line : Nat) :
    (shape = .blank ∨ shape = .comment) ∧ (Piece.mk shape w).item? line = none ∨
      w.count newline = 0 ∧ ∃ item, (Piece.mk shape w).item? line = some item := by
  cases shape with
  | blank => exact .inl ⟨.inl rfl, rfl⟩
  | comment => exact .inl ⟨.inr rfl, rfl⟩
  | token kind =>
    cases h with
    | token hw _ _ =>
      refine .inr ⟨List.count_eq_zero.mpr fun hline => ?_, _, rfl⟩
      exact hw.lexeme.not_isBlank hline (by decide)
  | stray =>
    obtain ⟨b, rfl, hblank, -⟩ := h.of_stray
    refine .inr ⟨List.count_eq_zero.mpr fun hline => ?_, _, rfl⟩
    obtain rfl := List.mem_singleton.mp hline
    exact absurd hblank (by decide)

variable {text before : List UInt8} {pieces : List Piece}

theorem next?_nil : next? ⟨[], line, ended⟩ =
    if ended then none else some (.ok (.endOfInput line), ⟨[], line, true⟩) := by
  rw [next?, skip]

theorem answer_eq (h : Segmented text pieces) (before : List UInt8) (n : Nat) :
    answer n ⟨text, 1 + before.count newline, false⟩ = (Piece.items before pieces)[n]? := by
  -- Induction on the pieces: the line of the scanner counts the newlines behind it.
  induction h generalizing before n with
  | nil =>
    have hcall : call ⟨[], 1 + before.count newline, false⟩ =
        (some (.ok (.endOfInput (1 + before.count newline))),
          ⟨[], 1 + before.count newline, true⟩) :=
      call_of_next? next?_nil
    cases n with
    | zero =>
      rw [answer, hcall]
      rfl
    | succ n =>
      rw [answer, hcall, answer_of_none next?_nil]
      rfl
  | @cons w rest shape pieces h _ ih =>
    have ih := ih (before ++ w)
    rw [List.count_append, ← Nat.add_assoc] at ih
    rw [Piece.items]
    obtain ⟨hlayout, hitem⟩ | ⟨hcount, item, hitem⟩ :=
      item?_cases h (1 + before.count newline)
    · rw [answer_congr (next?_of_layout h hlayout), ih, hitem]
      rfl
    · have hcall : call ⟨w ++ rest, 1 + before.count newline, false⟩ =
          (some item, ⟨rest, 1 + before.count newline, false⟩) :=
        call_of_next? (next?_of_item h hitem)
      rw [hcount, Nat.add_zero] at ih
      rw [hitem]
      cases n with
      | zero =>
        rw [answer, hcall]
        rfl
      | succ n =>
        rw [answer, hcall, ih]
        rfl

theorem getElem?_take (n : Nat) (s : Scanner) (i : Nat) :
    (s.take n)[i]? = if i < n then answer i s else none := by
  induction n generalizing s i with
  | zero => simp [take]
  | succ n ih =>
    rw [take]
    cases hs : s.next? with
    | none => simp [answer_of_none hs]
    | some out =>
      obtain ⟨item, t⟩ := out
      cases i with
      | zero => simp [answer, call_of_next? hs]
      | succ i => simp [answer, call_of_next? hs, ih]

end Scanner

variable {text : List UInt8} {pieces : List Piece}

theorem Segmented.length_items_le (h : Segmented text pieces) (before : List UInt8) :
    (Piece.items before pieces).length ≤ text.length + 1 := by
  induction h generalizing before with
  | nil => exact Nat.le_refl 1
  | @cons w rest shape pieces h _ ih =>
    have hw := List.length_pos_iff.mpr h.ne_nil
    have hmore := ih (before ++ w)
    have hitem : ((Piece.mk shape w).item? (1 + before.count newline)).toList.length ≤ 1 :=
      Option.length_toList_le
    rw [Piece.items, List.length_append, List.length_append]
    change _ + (Piece.items (before ++ w) pieces).length ≤ _
    omega

theorem scan_eq_items (h : Segmented text pieces) : scan text = Piece.items [] pieces := by
  refine List.ext_getElem? fun i => ?_
  have hitems : Scanner.answer i (.start text) = (Piece.items [] pieces)[i]? :=
    Scanner.answer_eq h [] i
  rw [scan, Scanner.items, Scanner.getElem?_take, hitems]
  split
  next => rfl
  next hi =>
    exact (List.getElem?_eq_none ((h.length_items_le []).trans (Nat.le_of_not_lt hi))).symm

theorem Segmented.token_of_mem (h : Segmented text pieces) {kind : Kind} {w : List UInt8}
    (hmem : ⟨.token kind, w⟩ ∈ pieces) : Segment.Spells w kind := by
  induction h with
  | nil => cases hmem
  | cons h _ ih =>
    obtain he | hmem := List.mem_cons.mp hmem
    · cases he
      cases h with
      | token _ hk _ => exact hk
    · exact ih hmem

/-- A text has one segmentation, and the calls of its scanner give the items of that, the end marker
behind them, and then nothing. Tokens have the bytes of their segment, which are ASCII. -/
theorem maximal_munch (text : List UInt8) : ∃ pieces,
    Segmented text pieces ∧ (∀ other, Segmented text other → other = pieces) ∧
      pieces.flatMap Piece.bytes = text ∧
      (∀ n, Scanner.answer n (.start text) = (Piece.items [] pieces)[n]?) ∧
      scan text = Piece.items [] pieces ∧
      ∀ piece ∈ pieces, ∀ kind, piece.shape = .token kind → Segment.Spells piece.bytes kind ∧
        (∀ b ∈ piece.bytes, b < 128) ∧ Utf8.encode piece.lexeme = piece.bytes := by
  obtain ⟨pieces, h⟩ := Segmented.exists_pieces text
  refine ⟨pieces, h, fun other => h.unique, h.flatMap_bytes, Scanner.answer_eq h [],
    scan_eq_items h, fun piece hmem kind hkind => ?_⟩
  obtain ⟨shape, w⟩ := piece
  obtain rfl : shape = .token kind := hkind
  have hspells := h.token_of_mem hmem
  have hascii : ∀ b ∈ w, b < 128 := fun b hb => hspells.isLexeme.lt hb
  exact ⟨hspells, hascii, Utf8.encode_ascii hascii⟩

end TinyCompiler
