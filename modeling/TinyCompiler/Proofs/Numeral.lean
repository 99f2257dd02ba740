import Mathlib.Data.Nat.Digits.Defs
import TinyCompiler.Decimal

/-! What a numeral writes: a run of decimal digits, read by its place values, with at most one
sign in front. Reading a numeral as a signed word gives that value whenever it fits. -/
namespace TinyCompiler.Decimal

/-- The digits of a numeral, and whether a minus sign stands in front of them. -/
def unsign : List Char → Bool × List Char
  | '-' :: ds => (true, ds)
  | '+' :: ds => (false, ds)
  | ds => (false, ds)

def placeValue (ds : List Char) : Nat := Nat.ofDigits 10 (ds.reverse.map digit)

def value (s : String) : Int :=
  match unsign s.toList with
  | (true, ds) => -(placeValue ds : Int)
  | (false, ds) => placeValue ds

def IsNumeral (s : String) : Prop :=
  (unsign s.toList).2 ≠ [] ∧ ∀ c ∈ (unsign s.toList).2, c.isDigit = true

def IsWord (s : String) : Prop :=
  IsNumeral s ∧ -(2 ^ 63) ≤ value s ∧ value s < 2 ^ 63

theorem foldl_digit (ds : List Char) (n : Nat) :
    ds.foldl (fun n c => 10 * n + digit c) n = n * 10 ^ ds.length + placeValue ds := by
  induction ds generalizing n with
  | nil => simp [placeValue]
  | cons c ds ih =>
    have hc : placeValue (c :: ds) = placeValue ds + 10 ^ ds.length * digit c := by
      simp [placeValue, Nat.ofDigits_append]
    rw [List.foldl_cons, ih, hc, List.length_cons, pow_succ]
    ring

theorem ofDigits?_eq_some {ds : List Char} {n : Nat} :
    ofDigits? ds = some n ↔ (ds ≠ [] ∧ ∀ c ∈ ds, c.isDigit = true) ∧ placeValue ds = n := by
  have hv := foldl_digit ds 0
  rw [Nat.zero_mul, Nat.zero_add] at hv
  simp only [ofDigits?, hv, List.all_eq_true]
  split <;> simp_all

theorem signed?_eq_some {s : String} {n : Int} :
    signed? s.toList = some n ↔ IsNumeral s ∧ value s = n := by
  unfold IsNumeral value
  fun_cases unsign s.toList with
  | case1 ds =>
    rw [signed?]
    simp [Option.bind_eq_some_iff, ofDigits?_eq_some, and_assoc]
  | case2 ds =>
    rw [signed?]
    simp [Option.map_eq_some_iff, ofDigits?_eq_some, and_assoc]
  | case3 ds hminus hplus =>
    rw [signed?]
    · simp [Option.map_eq_some_iff, ofDigits?_eq_some, and_assoc]
    · exact hminus
    · exact hplus

/-- A numeral is read as the word that it writes, and everything else as nothing. -/
theorem int64?_eq_some {s : String} {v : Int64} :
    int64? s = some v ↔ IsWord s ∧ v = Int64.ofInt (value s) := by
  have hmin : Int64.minValue.toInt = -(2 ^ 63) := by decide
  have hmax : Int64.maxValue.toInt = 2 ^ 63 - 1 := by decide
  simp only [int64?, IsWord, Option.bind_eq_some_iff, signed?_eq_some, hmin, hmax]
  constructor
  · rintro ⟨n, ⟨hs, rfl⟩, h⟩
    split at h
    · rename_i hr
      exact ⟨⟨hs, hr.1, by omega⟩, by simpa using h.symm⟩
    · simp at h
  · rintro ⟨⟨hs, hlo, hhi⟩, rfl⟩
    refine ⟨value s, ⟨hs, rfl⟩, ?_⟩
    rw [if_pos ⟨hlo, by omega⟩]

theorem ofDigits?_toDigits (n : Nat) : ofDigits? (Nat.toDigits 10 n) = some n := by
  have hdigits : ∀ c ∈ Nat.toDigits 10 n, c.isDigit = true := fun c hc =>
    Nat.isDigit_of_mem_toDigits (by decide) (by decide) hc
  have hvalue := Nat.ofDigitChars_ten_toDigits (n := n)
  rw [Nat.ofDigitChars_eq_foldl] at hvalue
  rw [ofDigits?, if_pos ⟨Nat.toDigits_ne_nil, List.all_eq_true.mpr hdigits⟩]
  exact congrArg some hvalue

theorem toList_ofInt_natCast (n : Nat) : (ofInt n).toList = Nat.toDigits 10 n := by
  show (n.repr).toList = _
  rw [Nat.toList_repr]

theorem toList_ofInt_neg (n : Nat) :
    (ofInt (-((n + 1 : Nat) : Int))).toList = '-' :: Nat.toDigits 10 (n + 1) := by
  rw [show -((n + 1 : Nat) : Int) = .negSucc n from rfl, ofInt, String.toList_append,
    Nat.toList_repr]
  rfl

theorem signed?_toDigits (n : Nat) : signed? (Nat.toDigits 10 n) = some (n : Int) := by
  have hsign : ∀ c ds, c.isDigit = false → Nat.toDigits 10 n ≠ c :: ds := by
    intro c ds hc h
    have hdigit := Nat.isDigit_of_mem_toDigits (b := 10) (n := n) (c := c) (by decide) (by decide)
      (by simp [h])
    rw [hdigit] at hc
    cases hc
  rw [signed?, ofDigits?_toDigits]
  · rfl
  · exact fun ds h => hsign '-' ds (by decide) h
  · exact fun ds h => hsign '+' ds (by decide) h

theorem signed?_ofInt (n : Int) : signed? (ofInt n).toList = some n := by
  cases n with
  | ofNat n => exact (congrArg signed? (toList_ofInt_natCast n)).trans (signed?_toDigits n)
  | negSucc n =>
    rw [show Int.negSucc n = -((n + 1 : Nat) : Int) from rfl, toList_ofInt_neg, signed?,
      ofDigits?_toDigits]
    rfl

theorem mem_ofInt {c : Char} {n : Int} (h : c ∈ (ofInt n).toList) : c = '-' ∨ c.isDigit = true := by
  cases n with
  | ofNat n =>
    have hc : c ∈ Nat.toDigits 10 n := toList_ofInt_natCast n ▸ h
    exact .inr (Nat.isDigit_of_mem_toDigits (by decide) (by decide) hc)
  | negSucc n =>
    rw [show Int.negSucc n = -((n + 1 : Nat) : Int) from rfl, toList_ofInt_neg] at h
    exact (List.mem_cons.mp h).imp id fun hc =>
      Nat.isDigit_of_mem_toDigits (by decide) (by decide) hc

end TinyCompiler.Decimal
