import Mathlib.Algebra.Field.ZMod
import Mathlib.GroupTheory.OrderOfElement

/-!
# Multiples by residues

In a group whose elements have a common order, residues multiply elements. A signature equation is
solved for the point of the secret, and a point is determined by a multiple of it.
-/

namespace Scalars

variable {G : Type*} [AddCommGroup G] {n : ℕ} {x y : G}

theorem smul_eq_of_cast_eq (hx : n • x = 0) {a b : ℕ} (h : (a : ZMod n) = b) : a • x = b • x := by
  have hdvd : addOrderOf x ∣ n := addOrderOf_dvd_of_nsmul_eq_zero hx
  rw [← mod_addOrderOf_nsmul x a, ← mod_addOrderOf_nsmul x b]
  exact congrArg (· • x) (((ZMod.natCast_eq_natCast_iff a b n).mp h).of_dvd hdvd)

variable [Fact n.Prime]

/-- A point is determined by a multiple of it. -/
theorem smul_left_cancel {c : ℕ} (hc : (c : ZMod n) ≠ 0) (hx : n • x = 0) (hy : n • y = 0)
    (h : c • x = c • y) : x = y := by
  let inv := ((c : ZMod n)⁻¹).val
  have hinv : ((inv * c : ℕ) : ZMod n) = (1 : ℕ) := by
    rw [Nat.cast_mul, ZMod.natCast_zmod_val, inv_mul_cancel₀ hc, Nat.cast_one]
  have hself : ∀ z : G, n • z = 0 → (inv * c) • z = z := by
    intro z hz
    rw [smul_eq_of_cast_eq hz hinv, one_nsmul]
  rw [← hself x hx, ← hself y hy, mul_nsmul', mul_nsmul', h]

/-- Where `s k = e + r d`, the multiples of a point by `k` and by one give the multiple by `d`. -/
theorem solve {r s e d : ZMod n} {k : ℕ} (hr : r ≠ 0) (hsign : s * k = e + r * d) (hx : n • x = 0) :
    (-e * r⁻¹).val • x + (s * r⁻¹).val • (k • x) = d.val • x := by
  rw [← mul_nsmul', ← add_nsmul]
  refine smul_eq_of_cast_eq hx ?_
  push_cast
  rw [ZMod.natCast_zmod_val, ZMod.natCast_zmod_val, ZMod.natCast_zmod_val]
  rw [mul_right_comm, hsign, ← add_mul, neg_add_cancel_left, mul_right_comm, mul_inv_cancel₀ hr,
    one_mul]

end Scalars
