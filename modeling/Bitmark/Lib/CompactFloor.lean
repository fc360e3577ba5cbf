import Mathlib.Data.Nat.Size
import Mathlib.Tactic.Linarith
import Mathlib.Tactic.Ring

/-!
# Numbers with three leading bytes

The number left of a natural number when all but the three leading bytes are cleared, the first
of which keeps its top bit free: what a floating point format with a signed three byte mantissa
and an exponent to the base 256 can hold.
-/

namespace Nat

/-- The bytes of a number, the first with a free top bit. -/
def signedBytes (x : Nat) : Nat := x.size / 8 + 1

/-- The value of the lowest of the three leading bytes. -/
def compactUnit (x : Nat) : Nat := 256 ^ (x.signedBytes - 3)

/-- A number without its bytes behind the three leading ones. -/
def compactFloor (x : Nat) : Nat := x / x.compactUnit * x.compactUnit

theorem compactUnit_pos (x : Nat) : 0 < x.compactUnit := Nat.pow_pos (by decide)

private theorem pow_256 (n : Nat) : 256 ^ n = 2 ^ (8 * n) := by
  rw [Nat.pow_mul]

theorem compactFloor_le (x : Nat) : x.compactFloor ≤ x := Nat.div_mul_le_self _ _

theorem lt_compactFloor_add (x : Nat) : x < x.compactFloor + x.compactUnit := by
  have h := Nat.lt_mul_div_succ x x.compactUnit_pos
  unfold compactFloor
  linarith [Nat.mul_comm x.compactUnit (x / x.compactUnit + 1)]

theorem compactFloor_of_dvd {x : Nat} (h : x.compactUnit ∣ x) : x.compactFloor = x :=
  Nat.div_mul_cancel h

theorem compactFloor_of_lt {x : Nat} (h : x < 2 ^ 23) : x.compactFloor = x := by
  apply compactFloor_of_dvd
  have hsize : x.size ≤ 23 := Nat.size_le.mpr h
  have hbytes : x.signedBytes - 3 = 0 := by
    unfold signedBytes
    omega
  rw [compactUnit, hbytes]
  exact one_dvd x

/-- The unit is small against the number. -/
theorem compactUnit_mul_le {x : Nat} (h : 3 < x.signedBytes) :
    2 ^ 15 * x.compactUnit ≤ x := by
  have hsize : 8 * x.signedBytes - 9 < x.size := by
    unfold signedBytes at *
    omega
  refine le_trans ?_ (Nat.lt_size.mp hsize)
  rw [compactUnit, pow_256, ← Nat.pow_add]
  exact Nat.pow_le_pow_right (by decide) (by omega)

theorem signedBytes_mono {x y : Nat} (h : x ≤ y) : x.signedBytes ≤ y.signedBytes :=
  Nat.add_le_add_right (Nat.div_le_div_right (Nat.size_le_size h)) 1

/-- A power of two that is a number's first bit stays. -/
private theorem lt_compactFloor_of_signedBytes_lt {x y : Nat}
    (h : x.signedBytes < y.signedBytes) : x < y.compactFloor := by
  by_cases hthree : y.signedBytes ≤ 3
  · have hy : y < 2 ^ 23 := by
      apply Nat.size_le.mp
      unfold signedBytes at hthree
      omega
    rw [compactFloor_of_lt hy]
    by_contra hle
    exact absurd (signedBytes_mono (not_lt.mp hle)) h.not_ge
  · have hx : x < 2 ^ (8 * y.signedBytes - 9) := by
      apply Nat.size_le.mp
      unfold signedBytes at *
      omega
    have hy : 2 ^ (8 * y.signedBytes - 9) ≤ y := by
      apply Nat.lt_size.mp
      unfold signedBytes at *
      omega
    have hdvd : y.compactUnit ∣ 2 ^ (8 * y.signedBytes - 9) := by
      rw [compactUnit, pow_256]
      exact Nat.pow_dvd_pow 2 (by omega)
    refine hx.trans_le ?_
    rw [← Nat.div_mul_cancel hdvd]
    exact Nat.mul_le_mul_right _ (Nat.div_le_div_right hy)

theorem compactFloor_mono {x y : Nat} (h : x ≤ y) : x.compactFloor ≤ y.compactFloor := by
  rcases (signedBytes_mono h).eq_or_lt with heq | hlt
  · have hunit : x.compactUnit = y.compactUnit := by rw [compactUnit, compactUnit, heq]
    rw [compactFloor, compactFloor, hunit]
    exact Nat.mul_le_mul_right _ (Nat.div_le_div_right h)
  · exact (compactFloor_le x).trans (lt_compactFloor_of_signedBytes_lt hlt).le

/-- The bytes that are cleared are less than half of the number. -/
theorem lt_two_mul_compactFloor {x : Nat} (h : 0 < x) : x < 2 * x.compactFloor := by
  by_cases hthree : x.signedBytes ≤ 3
  · rw [compactFloor_of_lt]
    · omega
    · apply Nat.size_le.mp
      unfold signedBytes at hthree
      omega
  · have hunit := compactUnit_mul_le (not_le.mp hthree)
    have hlt := lt_compactFloor_add x
    omega

theorem compactFloor_pos {x : Nat} (h : 0 < x) : 0 < x.compactFloor := by
  have := lt_two_mul_compactFloor h
  omega

/-- Three times a number stays above it. -/
theorem lt_compactFloor_three_mul {x : Nat} (h : 0 < x) : x < (3 * x).compactFloor := by
  have := lt_two_mul_compactFloor (Nat.mul_pos (show 0 < 3 by decide) h)
  omega

/-- A mantissa of 23 bits with any number of bytes behind it is kept. -/
theorem compactFloor_mul_pow {w : Nat} (h : w < 2 ^ 23) (n : Nat) :
    (w * 256 ^ n).compactFloor = w * 256 ^ n := by
  apply compactFloor_of_dvd
  have hlt : w * 256 ^ n < 2 ^ (23 + 8 * n) := by
    rw [pow_256, Nat.pow_add]
    exact Nat.mul_lt_mul_of_pos_right h (Nat.pow_pos (by decide))
  have hsize := Nat.size_le.mpr hlt
  refine Dvd.dvd.mul_left (Nat.pow_dvd_pow 256 ?_) w
  unfold signedBytes
  omega

end Nat
