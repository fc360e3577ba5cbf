import Mathlib.Data.Nat.Bitwise
import Mathlib.Data.BitVec
import Mathlib.Tactic.Ring

/-!
# Numbers in limbs

A number is held in `n` limbs of `w` bits, the low limb first. Loops that work on limbs from the
low end are followed by the number `low a i` that the lowest `i` limbs denote.
-/

/-- `n` limbs of `w` bits. -/
abbrev Limbs (w n : ℕ) := Vector (BitVec w) n

namespace Limbs

variable {w n : ℕ}

/-- Reading limb `i`, if there is one. -/
def load (a : Limbs w n) (i : ℕ) : Option (BitVec w) := a[i]?

/-- Writing limb `i`, if there is one. -/
def store (a : Limbs w n) (i : ℕ) (x : BitVec w) : Option (Limbs w n) :=
  if i < n then some (a.setIfInBounds i x) else none

/-- Limb `i`, and zero beyond the limbs. -/
def limb (a : Limbs w n) (i : ℕ) : BitVec w := (load a i).getD 0#w

theorem load_of_lt (a : Limbs w n) {i : ℕ} (h : i < n) : load a i = some (limb a i) := by
  rw [limb, load, Vector.getElem?_eq_getElem h]
  rfl

theorem limb_of_le (a : Limbs w n) {i : ℕ} (h : n ≤ i) : limb a i = 0#w := by
  rw [limb, load, Vector.getElem?_eq_none h]
  rfl

/-- A write changes its limb and no other. -/
theorem exists_store (a : Limbs w n) {i : ℕ} (h : i < n) (x : BitVec w) :
    ∃ t, store a i x = some t ∧ limb t i = x ∧ ∀ j, j ≠ i → limb t j = limb a j := by
  refine ⟨a.setIfInBounds i x, if_pos h, ?_, fun j hj ↦ ?_⟩
  · rw [limb, load, Vector.getElem?_setIfInBounds_self, if_pos h]
    rfl
  · rw [limb, load, Vector.getElem?_setIfInBounds_ne hj.symm]
    rfl

theorem ext_limb {a b : Limbs w n} (h : ∀ i, i < n → limb a i = limb b i) : a = b := by
  ext i hi : 1
  have hlimb := h i hi
  rw [limb, limb, load, load, Vector.getElem?_eq_getElem hi, Vector.getElem?_eq_getElem hi] at hlimb
  exact hlimb

/-! ### The number -/

/-- The number that the lowest limbs denote. -/
def low (a : Limbs w n) : ℕ → ℕ
  | 0 => 0
  | i + 1 => 2 ^ (w * i) * (limb a i).toNat + low a i

/-- The number that all limbs denote. -/
def num (a : Limbs w n) : ℕ := low a n

theorem low_lt (a : Limbs w n) (i : ℕ) : low a i < 2 ^ (w * i) := by
  induction i with
  | zero => exact Nat.one_pos
  | succ i ih =>
    have hlimb := (limb a i).isLt
    calc low a (i + 1) < 2 ^ (w * i) * (limb a i).toNat + 2 ^ (w * i) := Nat.add_lt_add_left ih _
      _ = 2 ^ (w * i) * ((limb a i).toNat + 1) := rfl
      _ ≤ 2 ^ (w * i) * 2 ^ w := Nat.mul_le_mul_left _ hlimb
      _ = 2 ^ (w * (i + 1)) := (Nat.pow_add 2 (w * i) w).symm

theorem num_lt (a : Limbs w n) : num a < 2 ^ (w * n) := low_lt a n

theorem low_congr {a b : Limbs w n} {i : ℕ} (h : ∀ j, j < i → limb a j = limb b j) :
    low a i = low b i := by
  induction i with
  | zero => rfl
  | succ i ih =>
    rw [low, low, h i (Nat.lt_succ_self i), ih fun j hj ↦ h j (Nat.lt_succ_of_lt hj)]

/-- Zero limbs add nothing. -/
theorem low_of_limb_eq_zero {a : Limbs w n} {i : ℕ} (h : ∀ j, i ≤ j → limb a j = 0#w) (m : ℕ) :
    low a (i + m) = low a i := by
  induction m with
  | zero => rfl
  | succ m ih =>
    rw [← Nat.add_assoc, low, h (i + m) (Nat.le_add_right i m), ih]
    exact Nat.zero_add _

/-- The highest limb that differs decides. -/
theorem low_succ_lt_iff (a b : Limbs w n) (i : ℕ) :
    low a (i + 1) < low b (i + 1) ↔
      limb a i < limb b i ∨ limb a i = limb b i ∧ low a i < low b i := by
  have ha := low_lt a i
  have hb := low_lt b i
  have hle : ∀ {p q x y : ℕ}, x < 2 ^ (w * i) → p < q →
      2 ^ (w * i) * p + x < 2 ^ (w * i) * q + y := by
    intro p q x y hx hpq
    calc 2 ^ (w * i) * p + x < 2 ^ (w * i) * (p + 1) := Nat.add_lt_add_left hx _
      _ ≤ 2 ^ (w * i) * q := Nat.mul_le_mul_left _ hpq
      _ ≤ 2 ^ (w * i) * q + y := Nat.le_add_right _ _
  rw [low, low, BitVec.lt_def]
  obtain hlt | heq | hgt := lt_trichotomy (limb a i).toNat (limb b i).toNat
  · exact iff_of_true (hle ha hlt) (Or.inl hlt)
  · rw [heq, Nat.add_lt_add_iff_left, or_iff_right (lt_irrefl _)]
    exact (and_iff_right (BitVec.eq_of_toNat_eq heq)).symm
  · refine iff_of_false (hle hb hgt).not_gt fun h ↦ ?_
    obtain hlt | ⟨heq, -⟩ := h
    · exact absurd hlt hgt.not_gt
    · exact absurd (congrArg BitVec.toNat heq) hgt.ne'

theorem low_injective {a b : Limbs w n} {i : ℕ} (h : low a i = low b i) :
    ∀ j, j < i → limb a j = limb b j := by
  induction i with
  | zero => exact fun j hj ↦ absurd hj (Nat.not_lt_zero j)
  | succ i ih =>
    have hlimb : limb a i = limb b i := by
      have hab := mt (low_succ_lt_iff a b i).mpr h.not_lt
      have hba := mt (low_succ_lt_iff b a i).mpr h.not_gt
      rw [not_or, BitVec.not_lt] at hab hba
      exact BitVec.le_antisymm hba.1 hab.1
    rw [low, low, hlimb] at h
    intro j hj
    obtain hlt | rfl := Nat.lt_succ_iff_lt_or_eq.mp hj
    · exact ih (Nat.add_left_cancel h) j hlt
    · exact hlimb

/-- A number is held in one way. -/
theorem num_inj {a b : Limbs w n} : num a = num b ↔ a = b :=
  ⟨fun h ↦ ext_limb (low_injective h), congrArg num⟩

/-- What the number becomes where one limb changes. -/
theorem num_update {a t : Limbs w n} {i : ℕ} (hi : i < n)
    (hother : ∀ j, j ≠ i → limb t j = limb a j) :
    num t + 2 ^ (w * i) * (limb a i).toNat = num a + 2 ^ (w * i) * (limb t i).toNat := by
  have hlow : low t i = low a i := low_congr fun j hj ↦ hother j hj.ne
  have habove : ∀ m, low t (i + 1 + m) + 2 ^ (w * i) * (limb a i).toNat =
      low a (i + 1 + m) + 2 ^ (w * i) * (limb t i).toNat := by
    intro m
    induction m with
    | zero => rw [Nat.add_zero, low, low, hlow]; ring
    | succ m ih =>
      have hlimb := hother (i + 1 + m) (by omega)
      rw [← Nat.add_assoc (i + 1), low, low, hlimb, Nat.add_assoc, ih]
      ring
  have hsplit : i + 1 + (n - (i + 1)) = n := by omega
  have h := habove (n - (i + 1))
  rwa [hsplit] at h

/-- The limbs of a complement. -/
theorem num_not {a t : Limbs w n} (h : ∀ i, i < n → limb t i = ~~~limb a i) :
    num t + num a + 1 = 2 ^ (w * n) := by
  have hlow : ∀ i, i ≤ n → low t i + low a i + 1 = 2 ^ (w * i) := by
    intro i hi
    induction i with
    | zero => rfl
    | succ i ih =>
      have hlimb := (limb a i).isLt
      have hsum : (limb t i).toNat + (limb a i).toNat + 1 = 2 ^ w := by
        rw [h i hi, BitVec.toNat_not]
        omega
      calc low t (i + 1) + low a (i + 1) + 1
          = 2 ^ (w * i) * ((limb t i).toNat + (limb a i).toNat) + (low t i + low a i + 1) := by
            rw [low, low]; ring
        _ = 2 ^ (w * i) * ((limb t i).toNat + (limb a i).toNat + 1) := by
            rw [ih (Nat.le_of_succ_le hi)]; ring
        _ = 2 ^ (w * (i + 1)) := by rw [hsum, ← Nat.pow_add]; rfl
  exact hlow n le_rfl

/-! ### Bits -/

theorem testBit_low (a : Limbs w n) (i p : ℕ) :
    (low a i).testBit p = (decide (p < w * i) && (limb a (p / w)).getLsbD (p % w)) := by
  induction i with
  | zero => simp [low]
  | succ i ih =>
    rw [low, Nat.testBit_two_pow_mul_add _ (low_lt a i)]
    by_cases hlo : p < w * i
    · have hhi : p < w * (i + 1) := hlo.trans_le (Nat.mul_le_mul_left w (Nat.le_succ i))
      rw [if_pos hlo, ih, decide_eq_true hlo, decide_eq_true hhi]
    · rw [if_neg hlo, BitVec.testBit_toNat]
      by_cases hhi : p < w * (i + 1)
      · have hdiv : p / w = i := Nat.div_eq_of_lt_le (by rwa [Nat.mul_comm, ← not_lt])
          (by rwa [Nat.mul_comm])
        have hmod : p - w * i = p % w := by rw [← hdiv, Nat.mod_eq_sub_mul_div]
        rw [decide_eq_true hhi, hdiv, hmod, Bool.true_and]
      · rw [decide_eq_false hhi, Bool.false_and]
        apply BitVec.getLsbD_of_ge
        rw [Nat.mul_succ] at hhi
        omega

theorem testBit_num (hw : 0 < w) (a : Limbs w n) (p : ℕ) :
    (num a).testBit p = (limb a (p / w)).getLsbD (p % w) := by
  rw [num, testBit_low]
  by_cases hp : p < w * n
  · rw [decide_eq_true hp, Bool.true_and]
  · have hle : n ≤ p / w := (Nat.le_div_iff_mul_le hw).mpr (by rwa [Nat.mul_comm, ← not_lt])
    rw [limb_of_le a hle, BitVec.getLsbD_zero, Bool.and_false]

/-- A bit of the number that a limb's place and a place in it give. -/
theorem testBit_num_add (a : Limbs w n) {i b : ℕ} (hb : b < w) :
    (num a).testBit (w * i + b) = (limb a i).getLsbD b := by
  have hw : 0 < w := Nat.zero_lt_of_lt hb
  rw [testBit_num hw, Nat.mul_add_div hw, Nat.div_eq_of_lt hb, Nat.add_zero, Nat.mul_add_mod,
    Nat.mod_eq_of_lt hb]

/-- Numbers agree where they agree at every place of every limb. -/
theorem num_eq_of_testBit {a : Limbs w n} {x : ℕ} (hw : 0 < w) (hx : x < 2 ^ (w * n))
    (h : ∀ i b, i < n → b < w → (limb a i).getLsbD b = x.testBit (w * i + b)) : num a = x := by
  apply Nat.eq_of_testBit_eq
  intro p
  by_cases hp : p < w * n
  · have hi : p / w < n := (Nat.div_lt_iff_lt_mul hw).mpr (by rwa [Nat.mul_comm])
    rw [testBit_num hw, h _ _ hi (Nat.mod_lt p hw), Nat.div_add_mod]
  · have hpow : 2 ^ (w * n) ≤ 2 ^ p := Nat.pow_le_pow_right Nat.two_pos (not_lt.mp hp)
    rw [Nat.testBit_lt_two_pow (hx.trans_le hpow),
      Nat.testBit_lt_two_pow ((num_lt a).trans_le hpow)]

/-- Limbs moved up by `k` places and `s` bits. -/
theorem num_shiftLeft {a r : Limbs w n} {k s : ℕ} (hs : s < w)
    (h : ∀ j, j < n → limb r j =
      (if k + 1 ≤ j ∧ s ≠ 0 then limb a (j - (k + 1)) >>> (w - s) else 0#w) |||
        (if k ≤ j then limb a (j - k) <<< s else 0#w)) :
    num r = num a * 2 ^ (w * k + s) % 2 ^ (w * n) := by
  have hw : 0 < w := Nat.zero_lt_of_lt hs
  apply num_eq_of_testBit hw (Nat.mod_lt _ (Nat.two_pow_pos _))
  intro j b hj hb
  have hp : w * j + b < w * n := by
    calc w * j + b < w * (j + 1) := Nat.add_lt_add_left hb _
      _ ≤ w * n := Nat.mul_le_mul_left w hj
  rw [h j hj, Nat.testBit_mod_two_pow, decide_eq_true hp, Bool.true_and, Nat.testBit_mul_two_pow,
    BitVec.getLsbD_or]
  by_cases hbs : s ≤ b
  · -- the bit comes from the limb `k` places below
    have hleft : (if k + 1 ≤ j ∧ s ≠ 0 then limb a (j - (k + 1)) >>> (w - s)
        else 0#w).getLsbD b = false := by
      split
      case isTrue hk =>
        rw [BitVec.getLsbD_ushiftRight]
        exact BitVec.getLsbD_of_ge _ _ (by omega)
      case isFalse => exact BitVec.getLsbD_zero
    rw [hleft, Bool.false_or]
    by_cases hkj : k ≤ j
    · obtain ⟨d, rfl⟩ := Nat.exists_eq_add_of_le hkj
      have hge : w * k + s ≤ w * (k + d) + b := by rw [Nat.mul_add]; omega
      have hsub : w * (k + d) + b - (w * k + s) = w * d + (b - s) := by rw [Nat.mul_add]; omega
      rw [if_pos hkj, BitVec.getLsbD_shiftLeft, decide_eq_true hb, decide_eq_false (by omega),
        decide_eq_true hge, hsub, testBit_num_add a (by omega), Nat.add_sub_cancel_left]
      rfl
    · have hmul : w * (j + 1) ≤ w * k := Nat.mul_le_mul_left w (by omega)
      rw [Nat.mul_succ] at hmul
      rw [if_neg hkj, BitVec.getLsbD_zero, decide_eq_false (by omega), Bool.false_and]
  · -- the bit comes from the next limb below
    have hright : (if k ≤ j then limb a (j - k) <<< s else 0#w).getLsbD b = false := by
      split
      case isTrue => rw [BitVec.getLsbD_shiftLeft, decide_eq_true (by omega : b < s)]; simp
      case isFalse => exact BitVec.getLsbD_zero
    rw [hright, Bool.or_false]
    by_cases hkj : k + 1 ≤ j
    · obtain ⟨d, rfl⟩ := Nat.exists_eq_add_of_le hkj
      have hmul : w * (k + 1 + d) = w * k + w + w * d := by ring
      have hsub : w * (k + 1 + d) + b - (w * k + s) = w * d + (w - s + b) := by omega
      rw [if_pos ⟨hkj, by omega⟩, BitVec.getLsbD_ushiftRight, decide_eq_true (by omega), hsub,
        testBit_num_add a (by omega), Nat.add_sub_cancel_left, Bool.true_and]
    · have hmul : w * j ≤ w * k := Nat.mul_le_mul_left w (by omega)
      rw [if_neg fun h ↦ hkj h.1, BitVec.getLsbD_zero, decide_eq_false (by omega), Bool.false_and]

/-- Limbs moved down by `k` places and `s` bits. -/
theorem num_shiftRight {a r : Limbs w n} {k s : ℕ} (hs : s < w)
    (h : ∀ j, j < n → limb r j =
      limb a (j + k) >>> s ||| (if s ≠ 0 then limb a (j + k + 1) <<< (w - s) else 0#w)) :
    num r = num a / 2 ^ (w * k + s) := by
  have hw : 0 < w := Nat.zero_lt_of_lt hs
  apply num_eq_of_testBit hw ((Nat.div_le_self _ _).trans_lt (num_lt a))
  intro j b hj hb
  have hmul : w * (j + k + 1) = w * j + w * k + w := by ring
  have hmul' : w * (j + k) = w * j + w * k := by ring
  rw [h j hj, Nat.testBit_div_two_pow, BitVec.getLsbD_or, BitVec.getLsbD_ushiftRight]
  by_cases hbs : s + b < w
  · -- the bit comes from the limb `k` places above
    have hright : (if s ≠ 0 then limb a (j + k + 1) <<< (w - s) else 0#w).getLsbD b = false := by
      split
      case isTrue => rw [BitVec.getLsbD_shiftLeft, decide_eq_true (by omega : b < w - s)]; simp
      case isFalse => exact BitVec.getLsbD_zero
    have hadd : w * j + b + (w * k + s) = w * (j + k) + (s + b) := by omega
    rw [hright, Bool.or_false, hadd, testBit_num_add a hbs]
  · -- the bit comes from the next limb above
    have hadd : w * j + b + (w * k + s) = w * (j + k + 1) + (b - (w - s)) := by omega
    rw [BitVec.getLsbD_of_ge _ _ (by omega), Bool.false_or, if_pos (by omega),
      BitVec.getLsbD_shiftLeft, decide_eq_true hb, decide_eq_false (by omega), hadd,
      testBit_num_add a (by omega)]
    rfl

end Limbs
