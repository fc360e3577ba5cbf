import Bitmark.Base.Word
import Bitmark.Lib.Pieces

/-!
# Big-endian bytes

Where byte strings are compared like numbers, numbers are written with the high byte first
(`src/equihash.cpp:139–157`). The order of bytes, and of byte lists of one length, is that of
`memcmp`.
-/

namespace Bitmark

open Pieces

/-- The low `n` bytes of a number, most significant first. -/
def beBytes (n x : ℕ) : Bytes := (pieces 8 n x).map UInt8.ofNat

/-- The number a big-endian byte string denotes. -/
def beNat (bs : Bytes) : ℕ := join 8 (bs.map UInt8.toNat)

@[simp] theorem length_beBytes (n x : ℕ) : (beBytes n x).length = n := by
  rw [beBytes, List.length_map, length_pieces]

@[simp] theorem beNat_concat (bs : Bytes) (b : UInt8) :
    beNat (bs ++ [b]) = beNat bs * 256 + b.toNat := by
  rw [beNat, List.map_append, List.map_singleton, join_concat]
  rfl

theorem beNat_replicate_zero (n : ℕ) : beNat (List.replicate n 0) = 0 := by
  induction n with
  | zero => rfl
  | succ n ih => rw [List.replicate_succ', beNat_concat, ih]; rfl

private theorem toNat_lt_of_mem (bs : Bytes) : ∀ d ∈ bs.map UInt8.toNat, d < 2 ^ 8 := by
  intro d hd
  obtain ⟨b, -, rfl⟩ := List.mem_map.mp hd
  exact b.toNat_lt

theorem beNat_lt (bs : Bytes) : beNat bs < 2 ^ (8 * bs.length) := by
  have h := join_lt (toNat_lt_of_mem bs)
  rwa [List.length_map] at h

/-- A byte string is the layout of the number it denotes. -/
theorem beBytes_beNat (bs : Bytes) : beBytes bs.length (beNat bs) = bs := by
  have h := pieces_join (toNat_lt_of_mem bs)
  rw [List.length_map] at h
  rw [beBytes, beNat, h, List.map_map]
  exact List.map_id'' (fun b ↦ UInt8.ofNat_toNat) bs

theorem beNat_beBytes {n x : ℕ} (h : x < 2 ^ (8 * n)) : beNat (beBytes n x) = x := by
  have hbytes : (beBytes n x).map UInt8.toNat = pieces 8 n x := by
    rw [beBytes, List.map_map]
    refine (List.map_congr_left fun d hd ↦ ?_).trans (List.map_id _)
    exact UInt8.toNat_ofNat_of_lt (lt_of_mem_pieces hd)
  rw [beNat, hbytes, join_pieces, Nat.mod_eq_of_lt h]

theorem beBytes_inj {n x y : ℕ} (hx : x < 2 ^ (8 * n)) (hy : y < 2 ^ (8 * n)) :
    beBytes n x = beBytes n y ↔ x = y := by
  constructor
  · intro h
    rw [← beNat_beBytes hx, h, beNat_beBytes hy]
  · rintro rfl
    rfl

theorem beNat_cons (b : UInt8) (bs : Bytes) :
    beNat (b :: bs) = b.toNat * 2 ^ (8 * bs.length) + beNat bs := by
  induction bs using List.reverseRecOn with
  | nil =>
    change 0 * 2 ^ 8 + b.toNat = b.toNat * 1 + 0
    omega
  | append_singleton bs c ih =>
    have hpow : 2 ^ (8 * (bs.length + 1)) = 2 ^ (8 * bs.length) * 256 := Nat.pow_add 2 _ 8
    rw [← List.cons_append, beNat_concat, beNat_concat, ih, List.length_append,
      List.length_singleton, hpow]
    ring

/-- The bytes of a number that has one byte more. -/
theorem beBytes_succ (n x : ℕ) :
    beBytes (n + 1) x = UInt8.ofNat (x / 2 ^ (8 * n) % 256) :: beBytes n x := by
  rw [beBytes, pieces_succ_eq_cons, List.map_cons]
  rfl

/-- A small number has zeros in front. -/
theorem beBytes_add (p : ℕ) {n x : ℕ} (h : x < 2 ^ (8 * n)) :
    beBytes (p + n) x = List.replicate p 0 ++ beBytes n x := by
  induction p with
  | zero => rw [Nat.zero_add, List.replicate_zero, List.nil_append]
  | succ p ih =>
    have hlt : x < 2 ^ (8 * (p + n)) := h.trans_le (Nat.pow_le_pow_right (by omega) (by omega))
    rw [Nat.succ_add, beBytes_succ, ih, Nat.div_eq_of_lt hlt, List.replicate_succ, List.cons_append]
    rfl

theorem beBytes_mod (n x : ℕ) : beBytes n (x % 2 ^ (8 * n)) = beBytes n x := by
  rw [beBytes, pieces_mod]
  rfl

theorem beBytes_xor (n x y : ℕ) :
    beBytes n (x ^^^ y) = List.zipWith (· ^^^ ·) (beBytes n x) (beBytes n y) := by
  rw [beBytes, pieces_xor, List.map_zipWith, beBytes, beBytes, List.zipWith_map]
  simp only [UInt8.ofNat_xor]

/-- Of two different numbers the smaller one comes first. -/
theorem beBytes_append_lt {n x y : ℕ} (hx : x < 2 ^ (8 * n)) (hy : y < 2 ^ (8 * n)) (hne : x ≠ y)
    (xs ys : Bytes) : beBytes n x ++ xs < beBytes n y ++ ys ↔ x < y := by
  induction n generalizing x y with
  | zero =>
    rw [Nat.mul_zero, Nat.pow_zero, Nat.lt_one_iff] at hx hy
    exact absurd (hx.trans hy.symm) hne
  | succ n ih =>
    have hpow : 2 ^ (8 * (n + 1)) = 256 * 2 ^ (8 * n) := by
      rw [Nat.mul_succ, Nat.pow_add, Nat.mul_comm]
    rw [hpow, ← Nat.div_lt_iff_lt_mul (Nat.two_pow_pos _)] at hx hy
    have hbyte : ∀ z : ℕ, z < 256 → (UInt8.ofNat (z % 256)).toNat = z := by
      intro z hz
      rw [Nat.mod_eq_of_lt hz]
      exact UInt8.toNat_ofNat_of_lt hz
    have hsplitx := Nat.div_add_mod x (2 ^ (8 * n))
    have hsplity := Nat.div_add_mod y (2 ^ (8 * n))
    rw [beBytes_succ, beBytes_succ, List.cons_append, List.cons_append, List.cons_lt_cons_iff,
      UInt8.lt_iff_toNat_lt, ← UInt8.toNat_inj, hbyte _ hx, hbyte _ hy]
    by_cases heq : x / 2 ^ (8 * n) = y / 2 ^ (8 * n)
    · -- the high bytes agree, and the rest decides
      rw [heq] at hsplitx
      have hpos := Nat.two_pow_pos (8 * n)
      have hrest := ih (Nat.mod_lt x hpos) (Nat.mod_lt y hpos) (by omega)
      rw [beBytes_mod, beBytes_mod] at hrest
      rw [heq, hrest]
      omega
    · rw [or_iff_left fun h ↦ heq h.1]
      constructor
      · exact Nat.lt_of_div_lt_div
      · intro hlt
        exact lt_of_le_of_ne (Nat.div_le_div_right hlt.le) heq

end Bitmark
