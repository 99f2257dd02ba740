import TinyCompiler.Token.Basic
import TinyCompiler.Token.Segment

/-! The token stream of a source text. A scanner is the text not yet read and the line it
starts on; `next?` skips blanks and comments and gives the next item. A lexical error is an
item like any other: the stream goes on behind it. The last item is the end marker. -/
namespace TinyCompiler

/-- A byte that starts no token, with its line. -/
inductive LexicalError where
  | loneColon (line : Nat)
  | strayByte (byte : UInt8) (line : Nat)
  deriving DecidableEq

namespace LexicalError

def line : LexicalError → Nat
  | loneColon line | strayByte _ line => line

/-- A stray byte is shown as the character with its code. -/
def reason : LexicalError → String
  | loneColon _ => "Expected '=' after ':'"
  | strayByte byte _ => "Unexpected character: " ++ String.singleton (Char.ofUInt8 byte)

def ofByte (byte : UInt8) (line : Nat) : LexicalError :=
  if byte = ':'.toUInt8 then loneColon line else strayByte byte line

end LexicalError

abbrev Item := Except LexicalError Token

/-- A text not yet read, the line it starts on, and whether the end marker has been given. -/
structure Scanner where
  rest : List UInt8
  line : Nat
  ended : Bool
  deriving DecidableEq

namespace Scanner

def start (text : List UInt8) : Scanner := ⟨text, 1, false⟩

/-- The text behind the blanks and comments in front of it, with the line it stands on. -/
def skip (line : Nat) : List UInt8 → Nat × List UInt8
  | [] => (line, [])
  | b :: bs =>
    let segment := Segment.first b bs
    if segment.isLayout then
      skip (line + ((b :: bs).take segment.width).count Segment.newline)
        ((b :: bs).drop segment.width)
    else (line, b :: bs)
termination_by text => text.length
decreasing_by
  have := Segment.first_width_pos b bs
  simp
  omega

def itemOf (shape : Segment.Shape) (b : UInt8) (bytes : List UInt8) (line : Nat) : Item :=
  match shape with
  | .token kind => .ok ⟨kind, String.ofList (bytes.map Char.ofUInt8), line⟩
  | _ => .error (.ofByte b line)

/-- The next item and the scanner behind it; nothing after the end marker. -/
def next? (s : Scanner) : Option (Item × Scanner) :=
  match skip s.line s.rest with
  | (line, []) => if s.ended then none else some (.ok (.endOfInput line), ⟨[], line, true⟩)
  | (line, b :: bs) =>
    let segment := Segment.first b bs
    some (itemOf segment.shape b ((b :: bs).take segment.width) line,
      ⟨(b :: bs).drop segment.width, line, s.ended⟩)

def take : Nat → Scanner → List Item
  | 0, _ => []
  | n + 1, s =>
    match s.next? with
    | none => []
    | some (item, t) => item :: take n t

/-- No more items than this are left: one for each byte, and the end marker. -/
def remaining (s : Scanner) : Nat := s.rest.length + if s.ended then 0 else 1

def items (s : Scanner) : List Item := s.take s.remaining

end Scanner

/-- The items of a text: tokens and lexical errors in order, then the end marker. -/
def scan (text : List UInt8) : List Item := (Scanner.start text).items

def tokenize (text : List UInt8) : Except LexicalError (List Token) := (scan text).mapM id

end TinyCompiler
