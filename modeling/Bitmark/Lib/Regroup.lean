import Bitmark.Lib.Radix

/-!
# Regrouping bits

A string of digits of one width is read a digit at a time and written in digits of another width.
What is read and not yet written is a number of `r` pending bits. A string packs another where the
bits that fill its last digit are zero, and then each of the two determines the other.
-/

namespace Regroup

open Radix

variable {u v r rest pad x : ℕ} {xs ys zs : List ℕ}

/-- Digits `xs` of width `u` have been read, digits `ys` of width `v` written, and `r` bits are
pending. -/
structure Carries (u v r rest : ℕ) (xs ys : List ℕ) : Prop where
  lt_left : ∀ x ∈ xs, x < 2 ^ u
  lt_right : ∀ y ∈ ys, y < 2 ^ v
  length_eq : u * xs.length = v * ys.length + r
  value_eq : value (2 ^ u) xs = value (2 ^ v) ys * 2 ^ r + rest
  rest_lt : rest < 2 ^ r

/-- Digits `ys` of width `v` hold the digits `xs` of width `u`, and `pad` zero bits, less than a
digit. -/
structure Packs (u v pad : ℕ) (xs ys : List ℕ) : Prop where
  lt_left : ∀ x ∈ xs, x < 2 ^ u
  lt_right : ∀ y ∈ ys, y < 2 ^ v
  length_eq : v * ys.length = u * xs.length + pad
  value_eq : value (2 ^ v) ys = value (2 ^ u) xs * 2 ^ pad
  pad_lt : pad < v

theorem carries_nil (u v : ℕ) : Carries u v 0 0 [] [] :=
  ⟨nofun, nofun, rfl, rfl, Nat.one_pos⟩

/-- Reading a digit. -/
theorem Carries.push (h : Carries u v r rest xs ys) (hx : x < 2 ^ u) :
    Carries u v (r + u) (rest * 2 ^ u + x) (xs ++ [x]) ys where
  lt_left := by
    intro y hy
    obtain hy | hy := List.mem_append.mp hy
    · exact h.lt_left y hy
    · exact List.mem_singleton.mp hy ▸ hx
  lt_right := h.lt_right
  length_eq := by
    rw [List.length_append, List.length_singleton, Nat.mul_add, h.length_eq, Nat.mul_one,
      Nat.add_assoc]
  value_eq := by
    rw [value_concat, h.value_eq, Nat.pow_add]
    ring
  rest_lt := by
    calc rest * 2 ^ u + x < (rest + 1) * 2 ^ u := by rw [Nat.succ_mul]; omega
      _ ≤ 2 ^ r * 2 ^ u := Nat.mul_le_mul_right _ h.rest_lt
      _ = 2 ^ (r + u) := (Nat.pow_add 2 r u).symm

/-- Writing a digit. -/
theorem Carries.pop (h : Carries u v (r + v) rest xs ys) :
    Carries u v r (rest % 2 ^ r) xs (ys ++ [rest / 2 ^ r]) where
  lt_left := h.lt_left
  lt_right := by
    intro y hy
    obtain hy | hy := List.mem_append.mp hy
    · exact h.lt_right y hy
    · rw [List.mem_singleton.mp hy, Nat.div_lt_iff_lt_mul (Nat.two_pow_pos r), ← Nat.pow_add,
        Nat.add_comm]
      exact h.rest_lt
  length_eq := by
    rw [List.length_append, List.length_singleton, h.length_eq]
    ring
  value_eq := by
    have hsplit := Nat.div_add_mod rest (2 ^ r)
    rw [value_concat, h.value_eq, Nat.pow_add]
    linear_combination -hsplit
  rest_lt := Nat.mod_lt _ (Nat.two_pow_pos r)

/-- Filling the last digit with zeros. -/
theorem Carries.packs (h : Carries u v r rest xs ys) (hpos : 0 < r) (hr : r < v) :
    Packs u v (v - r) xs (ys ++ [rest * 2 ^ (v - r)]) where
  lt_left := h.lt_left
  lt_right := by
    intro y hy
    obtain hy | hy := List.mem_append.mp hy
    · exact h.lt_right y hy
    · rw [List.mem_singleton.mp hy]
      calc rest * 2 ^ (v - r) < 2 ^ r * 2 ^ (v - r) :=
            Nat.mul_lt_mul_of_pos_right h.rest_lt (Nat.two_pow_pos _)
        _ = 2 ^ v := by rw [← Nat.pow_add, Nat.add_sub_cancel' hr.le]
  length_eq := by
    rw [List.length_append, List.length_singleton, h.length_eq, Nat.mul_add]
    omega
  value_eq := by
    have hpow : 2 ^ v = 2 ^ r * 2 ^ (v - r) := by rw [← Nat.pow_add, Nat.add_sub_cancel' hr.le]
    rw [value_concat, h.value_eq]
    linear_combination value (2 ^ v) ys * hpow
  pad_lt := by omega

/-- With no bits pending the digits are full. -/
theorem Carries.packs_zero (h : Carries u v 0 rest xs ys) (hv : 0 < v) : Packs u v 0 xs ys where
  lt_left := h.lt_left
  lt_right := h.lt_right
  length_eq := h.length_eq.symm
  value_eq := by
    have hrest : rest = 0 := Nat.lt_one_iff.mp h.rest_lt
    rw [h.value_eq, hrest, Nat.add_zero, Nat.pow_zero, Nat.mul_one, Nat.mul_one]
  pad_lt := hv

/-- Reading back: zero bits, less than a digit, are left over. -/
theorem Carries.packs_symm (h : Carries v u r 0 ys xs) (hr : r < v) : Packs u v r xs ys where
  lt_left := h.lt_right
  lt_right := h.lt_left
  length_eq := h.length_eq
  value_eq := h.value_eq
  pad_lt := hr

/-- What is read back from a packed string is what was packed. -/
theorem Packs.eq_of_carries (h : Packs u v pad xs ys) (hread : Carries v u r rest ys zs)
    (hu : 1 ≤ u) (hvu : v ≤ u) (hr : r < u) : zs = xs ∧ r = pad ∧ rest = 0 := by
  have hlength : u * zs.length + r = u * xs.length + pad := hread.length_eq.symm.trans h.length_eq
  have hpad : r = pad := by
    have hmod := congrArg (· % u) hlength
    simpa [Nat.mod_eq_of_lt hr, Nat.mod_eq_of_lt (h.pad_lt.trans_le hvu)] using hmod
  subst hpad
  have hlen : zs.length = xs.length := Nat.eq_of_mul_eq_mul_left hu (Nat.add_right_cancel hlength)
  have hvalue : value (2 ^ u) zs * 2 ^ r + rest = value (2 ^ u) xs * 2 ^ r :=
    hread.value_eq.symm.trans h.value_eq
  have hrest : rest = 0 := by
    have hmod := congrArg (· % 2 ^ r) hvalue
    simpa [Nat.mod_eq_of_lt hread.rest_lt] using hmod
  rw [hrest, Nat.add_zero] at hvalue
  refine ⟨?_, rfl, hrest⟩
  exact value_inj (Nat.one_lt_two_pow (by omega)) hread.lt_right h.lt_left hlen
    (Nat.eq_of_mul_eq_mul_right (Nat.two_pow_pos r) hvalue)

theorem Packs.length_le {pad' : ℕ} (h : Packs u v pad xs ys) (h' : Packs u v pad' xs zs) :
    ys.length ≤ zs.length := by
  by_contra hlt
  have hmul : v * (zs.length + 1) ≤ v * ys.length := Nat.mul_le_mul_left v (by omega)
  have hlen := h.length_eq
  have hlen' := h'.length_eq
  have hpad := h.pad_lt
  rw [Nat.mul_succ] at hmul
  omega

/-- A string is packed in one way. -/
theorem Packs.unique {pad' : ℕ} (h : Packs u v pad xs ys) (h' : Packs u v pad' xs zs) :
    pad = pad' ∧ ys = zs := by
  have hlen : ys.length = zs.length := le_antisymm (h.length_le h') (h'.length_le h)
  have hpad : pad = pad' := by
    have hlength := h.length_eq
    rw [hlen, h'.length_eq] at hlength
    omega
  subst hpad
  have hv : 1 < 2 ^ v := Nat.one_lt_two_pow (Nat.ne_of_gt (Nat.zero_lt_of_lt h.pad_lt))
  exact ⟨rfl, value_inj hv h.lt_right h'.lt_right hlen (h.value_eq.trans h'.value_eq.symm)⟩

end Regroup
