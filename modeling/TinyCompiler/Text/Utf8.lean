/-! UTF-8. A text is encoded character by character. Decoding reads one byte at a time and
stops at the first byte that no encoded text can go on with. -/
namespace TinyCompiler.Utf8

def encode (s : String) : List UInt8 := s.toList.flatMap String.utf8EncodeChar

/-- Where bytes stop being a text: `index` bytes before it are one. -/
inductive Fault where
  /-- The `length` bytes from `index` on are right so far, and the next byte is not. -/
  | invalid (index length : Nat)
  /-- The bytes end in the middle of a character. -/
  | incomplete (index : Nat)
  deriving DecidableEq

def Fault.message : Fault → String
  | invalid index length =>
    "invalid utf-8 sequence of " ++ length.repr ++ " bytes from index " ++ index.repr
  | incomplete index => "incomplete utf-8 byte sequence from index " ++ index.repr

/-- A character that has begun: its bits so far, the bytes seen and the bytes missing, and
the bounds of the next byte. -/
structure Pending where
  bits : Nat
  seen : Nat
  missing : Nat
  low : UInt8
  high : UInt8

/-- What a leading byte of a longer character begins. The bounds of the second byte leave out
encodings that are too long, surrogates, and codes above the last character. -/
def lead? (b : UInt8) : Option Pending :=
  if 0xc2 ≤ b && b ≤ 0xdf then some ⟨b.toNat - 0xc0, 1, 1, 0x80, 0xbf⟩
  else if b == 0xe0 then some ⟨0, 1, 2, 0xa0, 0xbf⟩
  else if b == 0xed then some ⟨0xd, 1, 2, 0x80, 0x9f⟩
  else if 0xe1 ≤ b && b ≤ 0xef then some ⟨b.toNat - 0xe0, 1, 2, 0x80, 0xbf⟩
  else if b == 0xf0 then some ⟨0, 1, 3, 0x90, 0xbf⟩
  else if 0xf1 ≤ b && b ≤ 0xf3 then some ⟨b.toNat - 0xf0, 1, 3, 0x80, 0xbf⟩
  else if b == 0xf4 then some ⟨4, 1, 3, 0x80, 0x8f⟩
  else none

namespace Pending

def extend (p : Pending) (b : UInt8) : Nat := p.bits * 64 + b.toNat % 64

def push (p : Pending) (b : UInt8) : Pending :=
  ⟨p.extend b, p.seen + 1, p.missing - 1, 0x80, 0xbf⟩

end Pending

/-- The characters of bytes that go on behind `index` bytes and a character that has begun. -/
def decodeFrom (index : Nat) : Option Pending → List UInt8 → Except Fault (List Char)
  | none, [] => .ok []
  | some _, [] => .error (.incomplete index)
  | none, b :: rest =>
    if b < 0x80 then (decodeFrom (index + 1) none rest).map (Char.ofUInt8 b :: ·)
    else match lead? b with
      | some p => decodeFrom index (some p) rest
      | none => .error (.invalid index 1)
  | some p, b :: rest =>
    if p.low ≤ b && b ≤ p.high then
      if p.missing = 1 then
        (decodeFrom (index + p.seen + 1) none rest).map (Char.ofNat (p.extend b) :: ·)
      else decodeFrom index (some (p.push b)) rest
    else .error (.invalid index p.seen)

def decode (bytes : List UInt8) : Except Fault String :=
  (decodeFrom 0 none bytes).map String.ofList

end TinyCompiler.Utf8
