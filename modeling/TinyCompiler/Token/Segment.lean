import TinyCompiler.Token.Basic

/-! Segments of a source text. A non-empty text starts with exactly one segment: a blank
byte, a comment, a token, or a stray byte that starts nothing. `Segment.first` gives its
shape and its width; a token takes as many bytes as it can. -/
namespace TinyCompiler

inductive Segment.Shape where
  | blank
  | comment
  | token (kind : Kind)
  | stray
  deriving DecidableEq

structure Segment where
  shape : Segment.Shape
  width : Nat
  deriving DecidableEq

namespace Segment

/-- Blanks and comments separate tokens and are not read further. -/
def isLayout (s : Segment) : Bool := s.shape = .blank || s.shape = .comment

def newline : UInt8 := '\n'.toUInt8

def isBlank (b : UInt8) : Bool :=
  b == ' '.toUInt8 || b == '\t'.toUInt8 || b == '\r'.toUInt8 || b == newline

def isDigit (b : UInt8) : Bool := '0'.toUInt8 ≤ b && b ≤ '9'.toUInt8

def isLetter (b : UInt8) : Bool :=
  ('a'.toUInt8 ≤ b && b ≤ 'z'.toUInt8) || ('A'.toUInt8 ≤ b && b ≤ 'Z'.toUInt8) ||
    b == '_'.toUInt8

def isWordByte (b : UInt8) : Bool := isLetter b || isDigit b

def startsWith (spelling : List Char) (text : List UInt8) : Bool :=
  (spelling.map Char.toUInt8).isPrefixOf text

def keyword? (word : List UInt8) : Option Kind :=
  (Kind.keywords.find? (fun entry => entry.1.map Char.toUInt8 == word)).map Prod.snd

def ofWord (word : List UInt8) : Segment :=
  ⟨.token ((keyword? word).getD .identifier), word.length⟩

/-- The longest operator at the start of a text, or a stray byte. -/
def ofOperator (text : List UInt8) : Segment :=
  match Kind.operators.find? (fun entry => startsWith entry.1 text) with
  | some (spelling, kind) => ⟨.token kind, spelling.length⟩
  | none => ⟨.stray, 1⟩

/-- The first segment of the text `b :: rest`. A comment ends before its newline. -/
def first (b : UInt8) (rest : List UInt8) : Segment :=
  if isBlank b then ⟨.blank, 1⟩
  else if startsWith ['/', '/'] (b :: rest) then
    ⟨.comment, ((b :: rest).takeWhile (· != newline)).length⟩
  else if isDigit b then ⟨.token .integer, (rest.takeWhile isDigit).length + 1⟩
  else if isLetter b then ofWord (b :: rest.takeWhile isWordByte)
  else ofOperator (b :: rest)

theorem operators_width_pos : ∀ entry ∈ Kind.operators, 0 < entry.1.length := by decide

theorem ofOperator_width_pos (text : List UInt8) : 0 < (ofOperator text).width := by
  unfold ofOperator
  split
  · rename_i spelling kind h
    exact operators_width_pos _ (List.mem_of_find?_eq_some h)
  · exact Nat.one_pos

theorem newline_of_slashes {b : UInt8} {rest : List UInt8}
    (h : startsWith ['/', '/'] (b :: rest) = true) : (b != newline) = true := by
  simp only [startsWith, List.map_cons, List.isPrefixOf, Bool.and_eq_true, beq_iff_eq] at h
  obtain ⟨rfl, _⟩ := h
  decide

theorem first_width_pos (b : UInt8) (rest : List UInt8) : 0 < (first b rest).width := by
  unfold first
  split
  · exact Nat.one_pos
  · split
    · rename_i h
      simp [newline_of_slashes h]
    · split
      · exact Nat.succ_pos _
      · split
        · simp [ofWord]
        · exact ofOperator_width_pos _

end Segment

end TinyCompiler
