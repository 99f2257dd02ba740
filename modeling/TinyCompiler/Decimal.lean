/-! Decimal numerals: a run of ASCII digits is read by its place values, and a sign is
allowed where the type admits one. A numeral outside the type's range reads as nothing. -/
namespace TinyCompiler.Decimal

def digit (c : Char) : Nat := c.toNat - '0'.toNat

/-- The number written by a non-empty run of digits. -/
def ofDigits? (cs : List Char) : Option Nat :=
  if cs ≠ [] ∧ cs.all Char.isDigit then some (cs.foldl (fun n c => 10 * n + digit c) 0) else none

/-- An integer with at most one sign in front. -/
def signed? : List Char → Option Int
  | '-' :: ds => (ofDigits? ds).map fun n => -(n : Int)
  | '+' :: ds => (ofDigits? ds).map Int.ofNat
  | ds => (ofDigits? ds).map Int.ofNat

/-- A number with at most a plus sign in front. -/
def unsigned? : List Char → Option Nat
  | '+' :: ds => ofDigits? ds
  | ds => ofDigits? ds

def int64? (s : String) : Option Int64 :=
  (signed? s.toList).bind fun n =>
    if Int64.minValue.toInt ≤ n ∧ n ≤ Int64.maxValue.toInt then some (Int64.ofInt n) else none

def nat64? (s : String) : Option Nat :=
  (unsigned? s.toList).bind fun n => if n < UInt64.size then some n else none

/-- The numeral of an integer: a minus sign if it is negative, then no needless digit. -/
def ofInt : Int → String
  | .ofNat n => n.repr
  | .negSucc n => "-" ++ (n + 1).repr

end TinyCompiler.Decimal
