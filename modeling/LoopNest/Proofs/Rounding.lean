import LoopNest.Word
import Mathlib.Data.Rat.Floor

/-! A quotient that is rounded up is the least integer whose product with the divisor reaches the
dividend, one that is rounded down is the greatest whose product does not exceed it. The latter is
the floor of the rational quotient. -/

namespace LoopNest

namespace Word

variable {a b q : Int}

theorem ceilDiv_eq_ok_iff : ceilDiv a b = .ok q ↔
    b ≠ 0 ∧ Fits (-((-a).fdiv b)) ∧ -((-a).fdiv b) = q := by
  unfold ceilDiv
  split <;> simp_all [narrow_eq_ok_iff]

theorem ceilDiv_le_iff (h : ceilDiv a b = .ok q) (positive : 0 < b) (x : Int) :
    q ≤ x ↔ a ≤ b * x := by
  obtain ⟨-, -, rfl⟩ := ceilDiv_eq_ok_iff.mp h
  have reaches : -x ≤ -a / b ↔ -x * b ≤ -a := Int.le_ediv_iff_mul_le positive
  rw [Int.neg_mul, Int.mul_comm x b] at reaches
  rw [Int.fdiv_eq_ediv_of_nonneg _ positive.le]
  omega

theorem le_floorDiv_iff (h : floorDiv a b = .ok q) (positive : 0 < b) (x : Int) :
    x ≤ q ↔ b * x ≤ a := by
  obtain ⟨-, -, rfl⟩ := floorDiv_eq_ok_iff.mp h
  rw [Int.fdiv_eq_ediv_of_nonneg _ positive.le, Int.le_ediv_iff_mul_le positive, Int.mul_comm]

end Word

theorem floor_div {a b : Int} (positive : 0 < b) : ⌊(a : ℚ) / b⌋ = a.fdiv b := by
  lift b to Nat using positive.le
  rw [Int.fdiv_eq_ediv_of_nonneg _ positive.le, ← Rat.floor_intCast_div_natCast]
  norm_cast

/-- A dividend below zero is lowered before the quotient is rounded toward zero. -/
theorem tdiv_lowered {a b : Int} (negative : a < 0) (positive : 0 < b) :
    (a - b + 1).tdiv b = a.fdiv b := by
  have whole := Int.mul_ediv_add_emod a b
  have lower := Int.emod_nonneg a positive.ne'
  have upper := Int.emod_lt_of_pos a positive
  have split : -(a - b + 1) = (b - 1 - a % b) + b * -(a / b) := by
    rw [Int.mul_neg]
    omega
  have quotient : -(a - b + 1) / b = -(a / b) := by
    rw [split, Int.add_mul_ediv_left _ _ positive.ne',
      Int.ediv_eq_zero_of_lt (by omega) (by omega), Int.zero_add]
  rw [Int.fdiv_eq_ediv_of_nonneg _ positive.le, ← Int.neg_neg (a - b + 1), Int.neg_tdiv,
    Int.tdiv_eq_ediv_of_nonneg (by omega), quotient, Int.neg_neg]

end LoopNest
