import Mathlib.Data.List.TakeWhile
import TinyCompiler.Token.Segment

/-! The first segment of a text, told without its scanner: a blank, a comment, the longest lexeme
that the text begins with, or a byte that begins nothing. A text has exactly one, and it is the
one that is scanned. -/
namespace TinyCompiler.Segment

def ascii (spelling : List Char) : List UInt8 := spelling.map Char.toUInt8

def IsNumeral (w : List UInt8) : Prop := w ≠ [] ∧ ∀ b ∈ w, isDigit b = true

def IsWord : List UInt8 → Prop
  | [] => False
  | b :: rest => isLetter b = true ∧ ∀ c ∈ rest, isWordByte c = true

def IsKeyword (w : List UInt8) : Prop := ∃ entry ∈ Kind.keywords, ascii entry.1 = w

def IsOperator (w : List UInt8) : Prop := ∃ entry ∈ Kind.operators, ascii entry.1 = w

def IsLexeme (w : List UInt8) : Prop := IsNumeral w ∨ IsWord w ∨ IsOperator w

/-- The kind of a lexeme. A word is an identifier unless it is a keyword. -/
inductive Spells : List UInt8 → Kind → Prop where
  | numeral {w : List UInt8} (h : IsNumeral w) : Spells w .integer
  | identifier {w : List UInt8} (h : IsWord w) (hk : ¬IsKeyword w) : Spells w .identifier
  | keyword {spelling : List Char} {kind : Kind} (h : (spelling, kind) ∈ Kind.keywords) :
    Spells (ascii spelling) kind
  | operator {spelling : List Char} {kind : Kind} (h : (spelling, kind) ∈ Kind.operators) :
    Spells (ascii spelling) kind

structure Longest (text w : List UInt8) : Prop where
  starts : w <+: text
  lexeme : IsLexeme w
  longest : ∀ v, v <+: text → IsLexeme v → v.length ≤ w.length

/-- The bytes `w` are a segment of this shape, given the text behind them. -/
inductive Cuts : List UInt8 → List UInt8 → Shape → Prop where
  | blank {b : UInt8} {rest : List UInt8} (h : isBlank b = true) : Cuts [b] rest .blank
  /-- Up to the next newline, or to the end of the text. -/
  | comment {w rest : List UInt8} (h : ascii ['/', '/'] <+: w) (hline : newline ∉ w)
    (hend : rest = [] ∨ rest.head? = some newline) : Cuts w rest .comment
  | token {w rest : List UInt8} {kind : Kind} (h : Longest (w ++ rest) w) (hkind : Spells w kind)
    (hno : ¬ascii ['/', '/'] <+: w ++ rest) : Cuts w rest (.token kind)
  | loneColon {rest : List UInt8} (h : rest.head? ≠ some '='.toUInt8) :
    Cuts (ascii [':']) rest .stray
  /-- A byte that is no blank and begins no lexeme. -/
  | stray {b : UInt8} {rest : List UInt8} (h : isBlank b = false)
    (hno : ∀ w, ¬IsLexeme (b :: w)) : Cuts [b] rest .stray

theorem isBlank_iff {b : UInt8} : isBlank b = true ↔
    b.toNat = 32 ∨ b.toNat = 9 ∨ b.toNat = 13 ∨ b.toNat = 10 := by
  simp [isBlank, newline, Char.toUInt8, ← UInt8.toNat_inj, or_assoc]

theorem isDigit_iff {b : UInt8} : isDigit b = true ↔ 48 ≤ b.toNat ∧ b.toNat ≤ 57 := by
  simp [isDigit, Char.toUInt8, UInt8.le_iff_toNat_le]

theorem isLetter_iff {b : UInt8} : isLetter b = true ↔
    (97 ≤ b.toNat ∧ b.toNat ≤ 122) ∨ (65 ≤ b.toNat ∧ b.toNat ≤ 90) ∨ b.toNat = 95 := by
  simp [isLetter, Char.toUInt8, UInt8.le_iff_toNat_le, ← UInt8.toNat_inj, or_assoc]

theorem not_isDigit_of_isLetter {b : UInt8} (h : isLetter b = true) : ¬isDigit b = true := by
  rw [isLetter_iff] at h
  rw [isDigit_iff]
  omega

theorem not_isBlank_of_isWordByte {b : UInt8} (h : isWordByte b = true) : ¬isBlank b = true := by
  rw [isWordByte, Bool.or_eq_true, isLetter_iff, isDigit_iff] at h
  rw [isBlank_iff]
  omega

theorem operators_bytes : ∀ entry ∈ Kind.operators, (ascii entry.1).all (fun b =>
    !isDigit b && !isLetter b && !isBlank b && decide (b < 128)) = true := by decide

theorem keywords_bytes : ∀ entry ∈ Kind.keywords, (ascii entry.1).all isLetter = true := by decide

theorem IsOperator.ne_nil {w : List UInt8} (h : IsOperator w) : w ≠ [] := by
  have hpos : ∀ entry ∈ Kind.operators, ascii entry.1 ≠ [] := by decide
  obtain ⟨entry, hentry, rfl⟩ := h
  exact hpos entry hentry

theorem IsOperator.bytes {w : List UInt8} (h : IsOperator w) {b : UInt8} (hb : b ∈ w) :
    isDigit b = false ∧ isLetter b = false ∧ isBlank b = false ∧ b < 128 := by
  obtain ⟨entry, hentry, rfl⟩ := h
  have hall := List.all_eq_true.mp (operators_bytes entry hentry) b hb
  simpa [and_assoc] using hall

theorem IsWord.bytes {w : List UInt8} (h : IsWord w) {b : UInt8} (hb : b ∈ w) :
    isWordByte b = true := by
  cases w with
  | nil => exact h.elim
  | cons c rest =>
    obtain rfl | hb := List.mem_cons.mp hb
    · simp [isWordByte, h.1]
    · exact h.2 b hb

theorem IsNumeral.bytes {w : List UInt8} (h : IsNumeral w) {b : UInt8} (hb : b ∈ w) :
    isWordByte b = true := by
  simp [isWordByte, h.2 b hb]

namespace IsLexeme

variable {w rest : List UInt8} {b : UInt8}

theorem ne_nil (h : IsLexeme w) : w ≠ [] := by
  obtain h | h | h := h
  · exact h.1
  · rintro rfl
    exact h
  · exact h.ne_nil

theorem not_isBlank (h : IsLexeme w) (hb : b ∈ w) : ¬isBlank b = true := by
  obtain h | h | h := h
  · exact not_isBlank_of_isWordByte (h.bytes hb)
  · exact not_isBlank_of_isWordByte (h.bytes hb)
  · simp [(h.bytes hb).2.2.1]

theorem lt (h : IsLexeme w) (hb : b ∈ w) : b < 128 := by
  have hword (hb : isWordByte b = true) : b < 128 := by
    rw [isWordByte, Bool.or_eq_true, isLetter_iff, isDigit_iff] at hb
    rw [UInt8.lt_iff_toNat_lt]
    change b.toNat < 128
    omega
  obtain h | h | h := h
  · exact hword (h.bytes hb)
  · exact hword (h.bytes hb)
  · exact (h.bytes hb).2.2.2

theorem isNumeral (h : IsLexeme (b :: rest)) (hb : isDigit b = true) : IsNumeral (b :: rest) := by
  obtain h | h | h := h
  · exact h
  · exact absurd hb (not_isDigit_of_isLetter h.1)
  · simp [(h.bytes List.mem_cons_self).1] at hb

theorem isWord (h : IsLexeme (b :: rest)) (hb : isLetter b = true) : IsWord (b :: rest) := by
  obtain h | h | h := h
  · exact absurd (h.2 b List.mem_cons_self) (not_isDigit_of_isLetter hb)
  · exact h
  · simp [(h.bytes List.mem_cons_self).2.1] at hb

theorem isOperator (h : IsLexeme (b :: rest)) (hd : ¬isDigit b = true) (hl : ¬isLetter b = true) :
    IsOperator (b :: rest) := by
  obtain h | h | h := h
  · exact absurd (h.2 b List.mem_cons_self) hd
  · exact absurd h.1 hl
  · exact h

end IsLexeme

theorem IsKeyword.isWord {w : List UInt8} (h : IsKeyword w) : IsWord w := by
  have hpos : ∀ entry ∈ Kind.keywords, ascii entry.1 ≠ [] := by decide
  obtain ⟨entry, hentry, rfl⟩ := h
  have hbytes := List.all_eq_true.mp (keywords_bytes entry hentry)
  cases he : ascii entry.1 with
  | nil => exact hpos entry hentry he
  | cons b rest =>
    rw [he] at hbytes
    refine ⟨hbytes b List.mem_cons_self, fun c hc => ?_⟩
    simp [isWordByte, hbytes c (List.mem_cons_of_mem b hc)]

theorem IsNumeral.not_isWord {w : List UInt8} (h : IsNumeral w) : ¬IsWord w := by
  intro hw
  cases w with
  | nil => exact hw
  | cons b rest => exact not_isDigit_of_isLetter hw.1 (h.2 b List.mem_cons_self)

theorem IsOperator.not_isWordByte {w : List UInt8} (h : IsOperator w) {b : UInt8} (hb : b ∈ w) :
    ¬isWordByte b = true := by
  simp [isWordByte, h.bytes hb]

theorem IsOperator.not_isNumeral {w : List UInt8} (h : IsOperator w) : ¬IsNumeral w := by
  intro hw
  obtain ⟨b, hb⟩ := List.exists_mem_of_ne_nil w hw.1
  exact h.not_isWordByte hb (hw.bytes hb)

theorem IsOperator.not_isWord {w : List UInt8} (h : IsOperator w) : ¬IsWord w := by
  intro hw
  obtain ⟨b, hb⟩ := List.exists_mem_of_ne_nil w h.ne_nil
  exact h.not_isWordByte hb (hw.bytes hb)

theorem spells_iff {w : List UInt8} {kind : Kind} : Spells w kind ↔
    IsNumeral w ∧ kind = .integer ∨ IsWord w ∧ ¬IsKeyword w ∧ kind = .identifier ∨
      (∃ entry ∈ Kind.keywords, ascii entry.1 = w ∧ entry.2 = kind) ∨
        ∃ entry ∈ Kind.operators, ascii entry.1 = w ∧ entry.2 = kind := by
  constructor
  · intro h
    cases h with
    | numeral h => exact .inl ⟨h, rfl⟩
    | identifier h hk => exact .inr (.inl ⟨h, hk, rfl⟩)
    | keyword h => exact .inr (.inr (.inl ⟨_, h, rfl, rfl⟩))
    | operator h => exact .inr (.inr (.inr ⟨_, h, rfl, rfl⟩))
  · rintro (⟨h, rfl⟩ | ⟨h, hk, rfl⟩ | ⟨entry, h, rfl, rfl⟩ | ⟨entry, h, rfl, rfl⟩)
    · exact .numeral h
    · exact .identifier h hk
    · exact .keyword h
    · exact .operator h

namespace Spells

variable {w : List UInt8} {kind kind' : Kind}

theorem isLexeme (h : Spells w kind) : IsLexeme w := by
  cases h with
  | numeral h => exact .inl h
  | identifier h hk => exact .inr (.inl h)
  | keyword h => exact .inr (.inl (IsKeyword.isWord ⟨_, h, rfl⟩))
  | operator h => exact .inr (.inr ⟨_, h, rfl⟩)

theorem eq_integer (h : Spells w kind) (hw : IsNumeral w) : kind = .integer := by
  obtain ⟨-, rfl⟩ | ⟨hword, -⟩ | ⟨entry, hentry, rfl, -⟩ | ⟨entry, hentry, rfl, -⟩ :=
    spells_iff.mp h
  · rfl
  · exact absurd hword hw.not_isWord
  · exact absurd (IsKeyword.isWord ⟨entry, hentry, rfl⟩) hw.not_isWord
  · exact absurd hw (IsOperator.not_isNumeral ⟨entry, hentry, rfl⟩)

theorem eq_identifier (h : Spells w kind) (hw : IsWord w) (hk : ¬IsKeyword w) :
    kind = .identifier := by
  obtain ⟨hnumeral, -⟩ | ⟨-, -, rfl⟩ | ⟨entry, hentry, rfl, -⟩ | ⟨entry, hentry, rfl, -⟩ :=
    spells_iff.mp h
  · exact absurd hw hnumeral.not_isWord
  · rfl
  · exact absurd ⟨entry, hentry, rfl⟩ hk
  · exact absurd hw (IsOperator.not_isWord ⟨entry, hentry, rfl⟩)

theorem eq_keyword {entry : List Char × Kind} (h : Spells (ascii entry.1) kind)
    (hentry : entry ∈ Kind.keywords) : kind = entry.2 := by
  have hkinds : ∀ other ∈ Kind.keywords, ∀ entry ∈ Kind.keywords,
      ascii other.1 = ascii entry.1 → other.2 = entry.2 := by decide
  have hk : IsKeyword (ascii entry.1) := ⟨entry, hentry, rfl⟩
  obtain ⟨hnumeral, -⟩ | ⟨-, hno, -⟩ | ⟨other, hother, he, rfl⟩ | ⟨other, hother, he, -⟩ :=
    spells_iff.mp h
  · exact absurd hk.isWord hnumeral.not_isWord
  · exact absurd hk hno
  · exact hkinds other hother entry hentry he
  · exact absurd hk.isWord (IsOperator.not_isWord ⟨other, hother, he⟩)

theorem eq_operator {entry : List Char × Kind} (h : Spells (ascii entry.1) kind)
    (hentry : entry ∈ Kind.operators) : kind = entry.2 := by
  have hkinds : ∀ other ∈ Kind.operators, ∀ entry ∈ Kind.operators,
      ascii other.1 = ascii entry.1 → other.2 = entry.2 := by decide
  have ho : IsOperator (ascii entry.1) := ⟨entry, hentry, rfl⟩
  obtain ⟨hnumeral, -⟩ | ⟨hword, -⟩ | ⟨other, hother, he, -⟩ | ⟨other, hother, he, rfl⟩ :=
    spells_iff.mp h
  · exact absurd hnumeral ho.not_isNumeral
  · exact absurd hword ho.not_isWord
  · exact absurd (IsKeyword.isWord ⟨other, hother, he⟩) ho.not_isWord
  · exact hkinds other hother entry hentry he

theorem unique (h : Spells w kind) (h' : Spells w kind') : kind = kind' := by
  cases h with
  | numeral hw => exact (h'.eq_integer hw).symm
  | identifier hw hk => exact (h'.eq_identifier hw hk).symm
  | keyword hentry => exact (h'.eq_keyword hentry).symm
  | operator hentry => exact (h'.eq_operator hentry).symm

end Spells

theorem prefix_takeWhile {α : Type} {p : α → Bool} {v text : List α} (h : v <+: text)
    (hv : ∀ a ∈ v, p a = true) : v <+: text.takeWhile p := by
  obtain ⟨rest, rfl⟩ := h
  rw [List.takeWhile_append_of_pos hv]
  exact List.prefix_append v _

theorem startsWith_iff {spelling : List Char} {text : List UInt8} :
    startsWith spelling text = true ↔ ascii spelling <+: text := by
  rw [startsWith, List.isPrefixOf_iff_prefix, ascii]

variable {b : UInt8} {rest : List UInt8}

theorem longest_takeWhile {p : UInt8 → Bool} (hw : IsLexeme ((b :: rest).takeWhile p))
    (hp : ∀ v, IsLexeme (b :: v) → ∀ c ∈ b :: v, p c = true) :
    Longest (b :: rest) ((b :: rest).takeWhile p) := by
  refine ⟨List.takeWhile_prefix p, hw, fun v hv hlexeme => ?_⟩
  obtain ⟨c, v, rfl⟩ := List.exists_cons_of_ne_nil hlexeme.ne_nil
  obtain rfl : c = b := (List.cons_prefix_cons.mp hv).1
  exact (prefix_takeWhile hv (hp v hlexeme)).length_le

theorem longest_numeral (hb : isDigit b = true) :
    Longest (b :: rest) (b :: rest.takeWhile isDigit) := by
  have hw : (b :: rest).takeWhile isDigit = b :: rest.takeWhile isDigit := by simp [hb]
  rw [← hw]
  refine longest_takeWhile (.inl ⟨by simp [hb], fun c hc => List.mem_takeWhile_imp hc⟩)
    fun v hv => (hv.isNumeral hb).2

theorem longest_word (hb : isLetter b = true) :
    Longest (b :: rest) (b :: rest.takeWhile isWordByte) := by
  have hword : isWordByte b = true := by simp [isWordByte, hb]
  have hw : (b :: rest).takeWhile isWordByte = b :: rest.takeWhile isWordByte := by simp [hword]
  rw [← hw]
  refine longest_takeWhile ?_ fun v hv c hc => (hv.isWord hb).bytes hc
  rw [hw]
  exact .inr (.inl ⟨hb, fun c hc => List.mem_takeWhile_imp hc⟩)

theorem operators_sorted :
    Kind.operators.Pairwise fun first later => later.1.length ≤ first.1.length := by decide

theorem longest_operator {entry : List Char × Kind} (hd : ¬isDigit b = true)
    (hl : ¬isLetter b = true)
    (h : Kind.operators.find? (fun entry => startsWith entry.1 (b :: rest)) = some entry) :
    Longest (b :: rest) (ascii entry.1) := by
  obtain ⟨hstarts, before, after, htable, hbefore⟩ := List.find?_eq_some_iff_append.mp h
  refine ⟨startsWith_iff.mp hstarts, .inr (.inr ⟨entry, List.mem_of_find?_eq_some h, rfl⟩),
    fun v hv hlexeme => ?_⟩
  obtain ⟨c, v, rfl⟩ := List.exists_cons_of_ne_nil hlexeme.ne_nil
  obtain rfl : c = b := (List.cons_prefix_cons.mp hv).1
  obtain ⟨other, hother, he⟩ := hlexeme.isOperator hd hl
  rw [← he] at hv ⊢
  have hsorted := operators_sorted
  rw [htable] at hother hsorted
  have hnot : other ∉ before := fun hmem => by
    have := hbefore other hmem
    simp [startsWith_iff.mpr hv] at this
  have hlater : other = entry ∨ other ∈ after := by simpa [hnot] using hother
  simp only [ascii, List.length_map]
  obtain rfl | hlater := hlater
  · exact Nat.le_refl _
  · exact (List.pairwise_cons.mp (List.pairwise_append.mp hsorted).2.1).1 other hlater

theorem spells_word {w : List UInt8} (h : IsWord w) :
    Spells w ((keyword? w).getD .identifier) := by
  rw [keyword?]
  cases hfound : Kind.keywords.find? (fun entry => entry.1.map Char.toUInt8 == w) with
  | none =>
    refine .identifier h ?_
    rintro ⟨entry, hentry, he⟩
    have := List.find?_eq_none.mp hfound entry hentry
    exact this (beq_iff_eq.mpr he)
  | some entry =>
    have hword := List.find?_some hfound
    obtain rfl : ascii entry.1 = w := beq_iff_eq.mp hword
    exact .keyword (List.mem_of_find?_eq_some hfound)

theorem not_isBlank_of_slashes {b : UInt8} (h : b ∈ ascii ['/', '/']) : ¬isBlank b = true := by
  have hall : (ascii ['/', '/']).all (!isBlank ·) = true := by decide
  simpa using List.all_eq_true.mp hall b h

theorem cuts_comment {text : List UInt8} (h : ascii ['/', '/'] <+: text) :
    Cuts (text.takeWhile (· != newline)) (text.dropWhile (· != newline)) .comment := by
  have hstarts : ∀ b ∈ ascii ['/', '/'], (b != newline) = true := fun b hb =>
    bne_iff_ne.mpr fun he => not_isBlank_of_slashes hb (by rw [he]; decide)
  refine .comment (prefix_takeWhile h hstarts) (fun hmem => ?_) ?_
  · simpa using List.mem_takeWhile_imp hmem
  · have hstop := List.head?_dropWhile_not (· != newline) text
    cases hrest : text.dropWhile (· != newline) with
    | nil => exact .inl rfl
    | cons c more =>
      rw [hrest] at hstop
      exact .inr (by simpa using hstop)

/-- Every operator of two bytes but `:=` begins with an operator of one byte. -/
theorem operators_first : ∀ entry ∈ Kind.operators, (ascii entry.1).head? = some ':'.toUInt8 ∨
    ∃ other ∈ Kind.operators, ascii other.1 = (ascii entry.1).take 1 := by decide

theorem cuts_stray (hblank : ¬isBlank b = true) (hd : ¬isDigit b = true) (hl : ¬isLetter b = true)
    (hnone : Kind.operators.find? (fun entry => startsWith entry.1 (b :: rest)) = none) :
    Cuts [b] rest .stray := by
  have hno (entry : List Char × Kind) (h : entry ∈ Kind.operators) :
      ¬ascii entry.1 <+: b :: rest := fun hstarts =>
    List.find?_eq_none.mp hnone entry h (startsWith_iff.mpr hstarts)
  by_cases hb : b = ':'.toUInt8
  · subst hb
    refine .loneColon fun hequals => ?_
    obtain ⟨more, rfl⟩ := List.head?_eq_some_iff.mp hequals
    exact hno ([':', '='], .colonEqual) (by decide) ⟨more, rfl⟩
  · refine .stray (by simpa using hblank) fun w hw => ?_
    obtain ⟨entry, hentry, he⟩ := hw.isOperator hd hl
    have hfirst := operators_first entry hentry
    rw [he] at hfirst
    obtain hcolon | ⟨other, hother, ho⟩ := hfirst
    · exact hb (Option.some.inj hcolon)
    · exact hno other hother (by rw [ho]; exact ⟨rest, rfl⟩)

/-- The scanned segment of a text, told by its bytes and by the text behind them. -/
theorem first_cuts (b : UInt8) (rest : List UInt8) : ∃ w more, b :: rest = w ++ more ∧
    (first b rest).width = w.length ∧ Cuts w more (first b rest).shape := by
  unfold first
  split
  next hblank => exact ⟨[b], rest, rfl, rfl, .blank hblank⟩
  next hblank =>
    split
    next hslashes =>
      exact ⟨_, _, List.takeWhile_append_dropWhile.symm, rfl,
        cuts_comment (startsWith_iff.mp hslashes)⟩
    next hslashes =>
      rw [startsWith_iff] at hslashes
      have token {w : List UInt8} {kind : Kind} (hw : Longest (b :: rest) w)
          (hk : Spells w kind) : ∃ more, b :: rest = w ++ more ∧ Cuts w more (.token kind) := by
        obtain ⟨more, hmore⟩ := hw.starts
        rw [← hmore] at hw hslashes
        exact ⟨more, hmore.symm, .token hw hk hslashes⟩
      split
      next hdigit =>
        have hw : Longest (b :: rest) _ := longest_numeral hdigit
        obtain ⟨more, hmore, hcuts⟩ := token hw (.numeral (hw.lexeme.isNumeral hdigit))
        exact ⟨_, more, hmore, by simp, hcuts⟩
      next hdigit =>
        split
        next hletter =>
          have hw : Longest (b :: rest) _ := longest_word hletter
          obtain ⟨more, hmore, hcuts⟩ := token hw (spells_word (hw.lexeme.isWord hletter))
          exact ⟨_, more, hmore, rfl, hcuts⟩
        next hletter =>
          unfold ofOperator
          split
          next spelling kind hfound =>
            obtain ⟨more, hmore, hcuts⟩ := token (longest_operator hdigit hletter hfound)
              (.operator (List.mem_of_find?_eq_some hfound))
            exact ⟨_, more, hmore, by simp [ascii], hcuts⟩
          next hnone => exact ⟨[b], rest, rfl, rfl, cuts_stray hblank hdigit hletter hnone⟩

theorem Longest.unique {text v w : List UInt8} (hv : Longest text v) (hw : Longest text w) :
    v = w := by
  have hlength : v.length = w.length :=
    Nat.le_antisymm (hw.longest v hv.starts hv.lexeme) (hv.longest w hw.starts hw.lexeme)
  exact (List.prefix_of_prefix_length_le hv.starts hw.starts hlength.le).eq_of_length hlength

theorem Longest.exists_cons {w : List UInt8} (h : Longest (b :: rest) w) : ∃ v, w = b :: v := by
  obtain ⟨c, v, rfl⟩ := List.exists_cons_of_ne_nil h.lexeme.ne_nil
  obtain rfl : c = b := (List.cons_prefix_cons.mp h.starts).1
  exact ⟨v, rfl⟩

theorem IsLexeme.eq_of_colon {v : List UInt8} (h : IsLexeme (':'.toUInt8 :: v)) :
    v = ['='.toUInt8] := by
  have htable : ∀ entry ∈ Kind.operators, (ascii entry.1).head? = some ':'.toUInt8 →
      (ascii entry.1).tail = ['='.toUInt8] := by decide
  obtain ⟨entry, hentry, he⟩ := h.isOperator (by decide) (by decide)
  have htail := htable entry hentry
  rw [he] at htail
  exact htail rfl

namespace Cuts

variable {w more : List UInt8} {shape : Shape}

/-- A byte in error is no blank, and the text has no lexeme in front. -/
theorem of_stray (h : Cuts w more .stray) : ∃ b, w = [b] ∧ isBlank b = false ∧
    ∀ v, v <+: b :: more → ¬IsLexeme v := by
  cases h with
  | loneColon hequals =>
    refine ⟨':'.toUInt8, rfl, by decide, fun v hv hlexeme => ?_⟩
    obtain ⟨c, v, rfl⟩ := List.exists_cons_of_ne_nil hlexeme.ne_nil
    obtain ⟨rfl, htail⟩ := List.cons_prefix_cons.mp hv
    obtain rfl := hlexeme.eq_of_colon
    obtain ⟨after, rfl⟩ := htail
    exact hequals rfl
  | stray hblank hno =>
    refine ⟨_, rfl, hblank, fun v hv hlexeme => ?_⟩
    obtain ⟨c, v, rfl⟩ := List.exists_cons_of_ne_nil hlexeme.ne_nil
    obtain ⟨rfl, -⟩ := List.cons_prefix_cons.mp hv
    exact hno v hlexeme

theorem first_eq_of_stray (hblank : isBlank b = false)
    (hno : ∀ v, v <+: b :: rest → ¬IsLexeme v) : first b rest = ⟨.stray, 1⟩ := by
  have hslashes : ¬startsWith ['/', '/'] (b :: rest) = true := fun h => by
    obtain ⟨more, hmore⟩ := startsWith_iff.mp h
    exact hno (ascii ['/']) ⟨'/'.toUInt8 :: more, hmore⟩
      (.inr (.inr ⟨(['/'], .slash), by decide, rfl⟩))
  have hd : ¬isDigit b = true := fun h =>
    hno [b] ⟨rest, rfl⟩ (.inl ⟨List.cons_ne_nil b [], by simpa using h⟩)
  have hl : ¬isLetter b = true := fun h => hno [b] ⟨rest, rfl⟩ (.inr (.inl ⟨h, by simp⟩))
  have hnone : Kind.operators.find? (fun entry => startsWith entry.1 (b :: rest)) = none :=
    List.find?_eq_none.mpr fun entry hentry h =>
      hno _ (startsWith_iff.mp h) (.inr (.inr ⟨entry, hentry, rfl⟩))
  simp [first, hblank, hslashes, hd, hl, ofOperator, hnone]

theorem first_eq_of_token {kind : Kind} (hw : Longest (b :: rest) w) (hk : Spells w kind)
    (hno : ¬ascii ['/', '/'] <+: b :: rest) : first b rest = ⟨.token kind, w.length⟩ := by
  obtain ⟨v, more, he, hwidth, hcuts⟩ := first_cuts b rest
  generalize first b rest = segment at hwidth hcuts
  obtain ⟨shape, width⟩ := segment
  obtain rfl : width = v.length := hwidth
  cases shape with
  | blank =>
    cases hcuts with
    | blank hblank =>
      cases he
      obtain ⟨v, rfl⟩ := hw.exists_cons
      exact absurd hblank (hw.lexeme.not_isBlank List.mem_cons_self)
  | comment =>
    cases hcuts with
    | comment hslashes =>
      rw [he] at hno
      exact absurd (hslashes.trans (List.prefix_append v more)) hno
  | token kind' =>
    cases hcuts with
    | token hv hk' =>
      rw [← he] at hv
      obtain rfl := hv.unique hw
      rw [hk'.unique hk]
  | stray =>
    obtain ⟨c, rfl, -, hnone⟩ := hcuts.of_stray
    cases he
    exact absurd hw.lexeme (hnone w hw.starts)

/-- A text has one first segment, the scanned one. -/
theorem first_eq (h : Cuts w more shape) (he : w ++ more = b :: rest) :
    first b rest = ⟨shape, w.length⟩ := by
  cases shape with
  | blank =>
    cases h with
    | blank hblank =>
      cases he
      simp [first, hblank]
  | comment =>
    cases h with
    | comment hslashes hline hend =>
      have hstarts : ascii ['/', '/'] <+: b :: rest := by
        rw [← he]
        exact hslashes.trans (List.prefix_append w more)
      obtain rfl : '/'.toUInt8 = b := (List.cons_prefix_cons.mp hstarts).1
      have hw : ∀ c ∈ w, (c != newline) = true := fun c hc =>
        bne_iff_ne.mpr (ne_of_mem_of_not_mem hc hline)
      have hmore : more.takeWhile (· != newline) = [] := by
        obtain rfl | hhead := hend
        · rfl
        · obtain ⟨after, rfl⟩ := List.head?_eq_some_iff.mp hhead
          simp
      have hwidth : ('/'.toUInt8 :: rest).takeWhile (· != newline) = w := by
        rw [← he, List.takeWhile_append_of_pos hw, hmore, List.append_nil]
      rw [first, if_neg (by decide), if_pos (startsWith_iff.mpr hstarts), hwidth]
  | token kind =>
    cases h with
    | token hw hk hno =>
      rw [he] at hw hno
      exact first_eq_of_token hw hk hno
  | stray =>
    obtain ⟨c, rfl, hblank, hno⟩ := h.of_stray
    cases he
    exact first_eq_of_stray hblank hno

theorem ne_nil (h : Cuts w more shape) : w ≠ [] := by
  cases h with
  | comment hslashes => exact fun hw => by simp [hw, ascii] at hslashes
  | token hw => exact hw.lexeme.ne_nil
  | blank | loneColon | stray => exact List.cons_ne_nil _ _

theorem unique {w' more' : List UInt8} {shape' : Shape} (h : Cuts w more shape)
    (h' : Cuts w' more' shape') (he : w ++ more = w' ++ more') : w = w' ∧ shape = shape' := by
  obtain ⟨b, rest, hw⟩ := List.exists_cons_of_ne_nil h.ne_nil
  have hfirst : first b (rest ++ more) = ⟨shape, w.length⟩ := h.first_eq (by rw [hw]; rfl)
  have hfirst' : first b (rest ++ more) = ⟨shape', w'.length⟩ :=
    h'.first_eq (by rw [← he, hw]; rfl)
  rw [hfirst, Segment.mk.injEq] at hfirst'
  exact ⟨(List.append_inj he hfirst'.2).1, hfirst'.1⟩

end Cuts

end TinyCompiler.Segment
