import Mathlib.Algebra.Order.Floor.Ring
import Mathlib.Data.Int.Log
import Mathlib.Data.Rat.Floor

/-!
The arithmetic of `double`, on the rational numbers that they stand for.

A result is computed exactly and then rounded, to the nearest number of 53
bits and to an even one of two that are equally near. There is no infinity:
the numbers are taken to be small enough.
-/

namespace Double

/-- The power of two that the doubles of the size of `x` count in. -/
def exponent (x : ℚ) : ℤ := max (Int.log 2 |x| - 52) (-1074)

/-- The nearest integer, and the even one halfway between two. -/
def roundEven (x : ℚ) : ℤ :=
  if Int.fract x < 1 / 2 ∨ Int.fract x = 1 / 2 ∧ ⌊x⌋ % 2 = 0 then ⌊x⌋ else ⌊x⌋ + 1

def nearest (x : ℚ) : ℚ := roundEven (x / 2 ^ exponent x) * 2 ^ exponent x

@[simp] theorem roundEven_intCast (n : ℤ) : roundEven n = n := by
  rw [roundEven, Int.fract_intCast, if_pos (.inl one_half_pos), Int.floor_intCast]

theorem exponent_le {m e : ℤ} (hne : m ≠ 0) (hm : |m| < 2 ^ 53) (he : -1074 ≤ e) :
    exponent (m * 2 ^ e) ≤ e := by
  have hunit : (0 : ℚ) < 2 ^ e := zpow_pos two_pos e
  have hpos : 0 < |(m : ℚ) * 2 ^ e| :=
    abs_pos.mpr (mul_ne_zero (Int.cast_ne_zero.mpr hne) hunit.ne')
  have hbits : |(m : ℚ)| < 2 ^ (53 : ℤ) := by exact_mod_cast hm
  have hlt : |(m : ℚ) * 2 ^ e| < 2 ^ (53 + e) := by
    rw [abs_mul, abs_of_pos hunit, zpow_add₀ two_ne_zero]
    exact mul_lt_mul_of_pos_right hbits hunit
  have hlog := (Int.lt_zpow_iff_log_lt one_lt_two hpos).mp hlt
  exact max_le (by omega) he

/-- A number of 53 bits is not rounded. -/
theorem nearest_eq_self {m e : ℤ} (hm : |m| < 2 ^ 53) (he : -1074 ≤ e) :
    nearest (m * 2 ^ e) = m * 2 ^ e := by
  by_cases hzero : m = 0
  · have hround : roundEven 0 = 0 := roundEven_intCast 0
    rw [hzero, Int.cast_zero, zero_mul, nearest, zero_div, hround, Int.cast_zero, zero_mul]
  · -- It is a multiple of the power that it counts in.
    obtain ⟨k, hk⟩ := Int.le.dest (exponent_le hzero hm he)
    have hcount : (m : ℚ) * 2 ^ e / 2 ^ exponent (m * 2 ^ e) = (m * 2 ^ k : ℤ) := by
      generalize exponent (m * 2 ^ e) = u at hk ⊢
      have hunit : (2 : ℚ) ^ u ≠ 0 := zpow_ne_zero u two_ne_zero
      rw [← hk, zpow_add₀ two_ne_zero, mul_left_comm, mul_div_cancel_left₀ _ hunit, zpow_natCast]
      push_cast
      rfl
    rw [nearest, hcount, roundEven_intCast, ← hcount, div_mul_cancel₀]
    exact zpow_ne_zero _ two_ne_zero

/-- A whole number of 53 bits is not rounded. -/
theorem nearest_intCast {n : ℤ} (hn : |n| < 2 ^ 53) : nearest n = n := by
  have h := nearest_eq_self hn (e := 0) (by decide)
  rwa [zpow_zero, mul_one] at h

end Double
