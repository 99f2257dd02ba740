import Mathlib.Algebra.Group.Nat.Defs
import TinyCompiler.Assembly.Lowering
import TinyCompiler.Proofs.Interpreter
import TinyCompiler.Proofs.Machine

/-! What the machine computes with words, compared with the operators of programs: its flags
decide comparisons, its bytes hold truth values, and its division of a pair is the division of a
word. -/
namespace TinyCompiler

open Machine

variable (a b : Int64)

theorem toInt_sub_cases : (a - b).toInt = a.toInt - b.toInt ∨
    (a - b).toInt = a.toInt - b.toInt + 2 ^ 64 ∨ (a - b).toInt = a.toInt - b.toInt - 2 ^ 64 := by
  have ha := a.toInt_lt
  have ha' := a.le_toInt
  have hb := b.toInt_lt
  have hb' := b.le_toInt
  rw [Int64.toInt_sub, Int.bmod_def]
  split <;> omega

namespace Machine.Flags

theorem zero_compare : (compare a b).zero = decide (a = b) := by
  simp only [compare, Int64.sub_eq_iff_eq_add, Int64.zero_add]

/-- The sign of a difference is wrong exactly where it overflows. -/
theorem sign_bne_overflow : ((compare a b).sign != (compare a b).overflow) = decide (a < b) := by
  have h := toInt_sub_cases a b
  have ha := a.toInt_lt
  have ha' := a.le_toInt
  have hb := b.toInt_lt
  have hb' := b.le_toInt
  have hd := (a - b).toInt_lt
  have hd' := (a - b).le_toInt
  rw [Bool.eq_iff_iff]
  simp only [compare, bne_iff_ne, ne_eq, decide_eq_decide, decide_eq_true_eq,
    Int64.lt_iff_toInt_lt, Int64.toInt_zero]
  omega

theorem sign_beq_overflow : ((compare a b).sign == (compare a b).overflow) = decide (b ≤ a) := by
  have h := congrArg (fun c => !c) (sign_bne_overflow a b)
  simpa only [bne, Bool.not_not, ← decide_not, Int64.not_lt] using h

theorem holds_compare (op : Comparison) :
    (compare a b).holds op.condition = op.holds a b := by
  have hzero := zero_compare a b
  have hsign := sign_bne_overflow a b
  have hsign' := sign_beq_overflow a b
  cases op with
  | eq => exact hzero
  | ne => simp [Comparison.condition, holds, Comparison.holds, hzero]
  | lt => exact hsign
  | ge => exact hsign'
  | le =>
    simp only [Comparison.condition, holds, Comparison.holds, hzero, hsign,
      Int64.le_iff_lt_or_eq, Bool.decide_or, Bool.or_comm]
  | gt =>
    simp only [Comparison.condition, holds, Comparison.holds, hzero, hsign',
      Int64.lt_iff_le_and_ne, Bool.decide_and, decide_not, Bool.and_comm, eq_comm]

end Machine.Flags

/-- A byte set to a truth value and widened, whatever stood around it. -/
theorem setByte_widen (w : Int64) (c : Bool) :
    (w &&& ~~~255 ||| if c then 1 else 0) &&& 255 = Expr.truth c := by
  have hdistrib : (w &&& ~~~255 ||| if c then 1 else 0) &&& 255 =
      (w &&& ~~~255 &&& 255) ||| ((if c then 1 else 0) &&& 255) :=
    Int64.toBitVec_inj.mp BitVec.and_or_distrib_right
  have hrest : (~~~255 &&& 255 : Int64) = 0 := rfl
  have hbyte : (if c then 1 else 0 : Int64) &&& 255 = Expr.truth c := by
    cases c <;> rfl
  rw [hdistrib, Int64.and_assoc, hrest, Int64.and_zero, Int64.zero_or, hbyte]

theorem count_and : b &&& 255 &&& 63 = b &&& 63 := Int64.and_assoc b 255 63

theorem ofInt_tdiv : Int64.ofInt (a.toInt.tdiv b.toInt) = a / b := by
  rw [← Int64.toInt_inj, Int64.toInt_div, Int64.toInt_ofInt]

theorem ofInt_tmod : Int64.ofInt (a.toInt.tmod b.toInt) = a % b := by
  rw [← Int64.toInt_mod, Int64.ofInt_toInt]

theorem toInt_pair :
    (if a < 0 then (-1 : Int64) else 0).toInt * 2 ^ 64 + a.toUInt64.toNat = a.toInt := by
  have h : a.toInt = if 2 * a.toUInt64.toNat < 2 ^ 64 then (a.toUInt64.toNat : Int)
      else a.toUInt64.toNat - (2 ^ 64 : Nat) :=
    BitVec.toInt_eq_toNat_cond a.toBitVec
  have hlt := a.toUInt64.toNat_lt
  by_cases hneg : a < 0
  · have hneg' := Int64.lt_iff_toInt_lt.mp hneg
    rw [Int64.toInt_zero] at hneg'
    have hhigh : (-1 : Int64).toInt = -1 := rfl
    rw [if_pos hneg, hhigh]
    split at h <;> omega
  · have hneg' := Int64.le_iff_toInt_le.mp (Int64.not_lt.mp hneg)
    rw [Int64.toInt_zero] at hneg'
    rw [if_neg hneg, Int64.toInt_zero]
    split at h <;> omega

/-- Only the least word, divided by -1, has a quotient that is no word. -/
theorem quotient_range :
    (a.toInt.tdiv b.toInt < -(2 ^ 63) ∨ 2 ^ 63 ≤ a.toInt.tdiv b.toInt) ↔
      a = Int64.minValue ∧ b = -1 := by
  have hmin : Int64.minValue.toInt = -(2 ^ 63) := rfl
  have hone : (-1 : Int64).toInt = -1 := rfl
  rw [← Int64.toInt_inj, ← Int64.toInt_inj, hmin, hone]
  have ha := a.toInt_lt
  have ha' := a.le_toInt
  generalize a.toInt = x at ha ha' ⊢
  generalize b.toInt = y
  have habs : (x.tdiv y).natAbs = x.natAbs / y.natAbs := Int.natAbs_tdiv x y
  by_cases hneg : y = -1
  · rw [hneg, Int.tdiv_neg, Int.tdiv_one]
    omega
  · by_cases hsmall : y.natAbs < 2
    · have hy : y = 0 ∨ y = 1 := by omega
      obtain rfl | rfl := hy
      · rw [Int.tdiv_zero]
        omega
      · rw [Int.tdiv_one]
        omega
    · have hle : x.natAbs / y.natAbs ≤ x.natAbs / 2 :=
        Nat.div_le_div_left (by omega) (by decide)
      omega

/-- The machine divides a widened word as programs divide words. -/
theorem divide_pair (s : State) (hrax : s.registers .rax = .word a)
    (hrdx : s.registers .rdx = .word (if a < 0 then -1 else 0)) :
    divide s b = if b = 0 ∨ (a = Int64.minValue ∧ b = -1) then .fault
      else .running ((({ s with flags := none }.set .rax (.word (a / b))).set .rdx
        (.word (a % b))).next) := by
  rw [divide, hrdx, hrax]
  simp only [toInt_pair, quotient_range, ofInt_tdiv, ofInt_tmod]

end TinyCompiler
