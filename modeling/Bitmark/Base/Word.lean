import Mathlib.Data.BitVec
import Mathlib.Data.Nat.Bitwise
import Mathlib.Tactic.Ring
import Mathlib.Tactic.Linarith

/-!
# Fixed-width integers and little-endian bytes

C++ `int64_t` values are `Int` with explicit two's complement wrap-around, `int` version
words are `BitVec 32`, and `uint256` is `BitVec 256` (`src/uint256.h:55`). Objects reach a
hash or a stream as little-endian byte lists; `leBytes` and `leNat` are that layout.
-/

namespace Bitmark

/-- Byte strings: `std::vector<unsigned char>`, scripts and raw memory ranges. -/
abbrev Bytes := List UInt8

/-- `uint256` of `src/uint256.h:345`: a 256-bit word, compared and copied as a value. -/
abbrev Uint256 := BitVec 256

/-- A C++ `int` version word, signed when compared and a bit field when masked. -/
abbrev Version := BitVec 32

/-- Two's complement narrowing of a mathematical integer to `int64_t`. -/
def toInt64 (x : Int) : Int := Int.bmod x (2 ^ 64)

/-- Conversion of an `int64_t` to `uint64_t`. -/
def toUint64 (x : Int) : Nat := (x % 2 ^ 64).toNat

/-- Narrowing of a natural number to `uint32_t`. -/
def toUint32 (x : Nat) : Nat := x % 2 ^ 32

@[simp] theorem toUint32_add_left (x y : Nat) : toUint32 (toUint32 x + y) = toUint32 (x + y) :=
  Nat.mod_add_mod x _ y

@[simp] theorem toUint32_add_right (x y : Nat) : toUint32 (x + toUint32 y) = toUint32 (x + y) :=
  Nat.add_mod_mod x y _

/-- Narrowing to `int64_t` keeps every value of the type. -/
theorem toInt64_of_range {x : Int} (hlo : -2 ^ 63 ≤ x) (hhi : x < 2 ^ 63) : toInt64 x = x := by
  unfold toInt64
  exact Int.bmod_eq_of_le (by omega) (by omega)

/-- Narrowing never leaves the range of `int64_t`. -/
theorem toInt64_range (x : Int) : -2 ^ 63 ≤ toInt64 x ∧ toInt64 x < 2 ^ 63 := by
  unfold toInt64
  have hlo := Int.le_bmod (x := x) (m := 2 ^ 64) (by decide)
  have hhi := Int.bmod_lt (x := x) (m := 2 ^ 64) (by decide)
  constructor <;> omega

/-- Narrowing changes a value by a multiple of `2 ^ 64`. -/
theorem toInt64_eq_sub (x : Int) : ∃ k : Int, toInt64 x = x - 2 ^ 64 * k := by
  refine ⟨(x - toInt64 x) / 2 ^ 64, ?_⟩
  have h : (2 ^ 64 : Int) ∣ x - toInt64 x := by
    have := Int.dvd_self_sub_bmod (x := x) (m := 2 ^ 64)
    simpa [toInt64] using this
  rw [Int.mul_ediv_cancel' h]
  ring

/-- Adding after narrowing is the same as adding first. -/
theorem toInt64_add_toInt64 (x y : Int) : toInt64 (toInt64 x + y) = toInt64 (x + y) := by
  simp [toInt64]

/-- A nonnegative `int64_t` converts to itself. -/
theorem toUint64_of_nonneg {x : Int} (hlo : 0 ≤ x) (hhi : x < 2 ^ 64) :
    (toUint64 x : Int) = x := by
  unfold toUint64
  rw [Int.emod_eq_of_lt hlo (by omega), Int.toNat_of_nonneg hlo]

/-- A negative `int64_t` converts to its distance below `2 ^ 64`. -/
theorem toUint64_of_neg {x : Int} (hlo : -2 ^ 64 ≤ x) (hhi : x < 0) :
    (toUint64 x : Int) = x + 2 ^ 64 := by
  unfold toUint64
  have h : x % 2 ^ 64 = x + 2 ^ 64 := by
    rw [← Int.add_emod_right, Int.emod_eq_of_lt] <;> omega
  rw [h, Int.toNat_of_nonneg (by omega)]

/-- An `int64_t` is not changed by a conversion to `uint64_t` and back. -/
theorem toInt64_toUint64 {x : Int} (hlo : -2 ^ 63 ≤ x) (hhi : x < 2 ^ 63) :
    toInt64 (toUint64 x) = x := by
  obtain ⟨k, hk⟩ := toInt64_eq_sub (toUint64 x)
  have hrange := toInt64_range (toUint64 x)
  unfold toUint64 at *
  omega

/-- Nor is a `uint64_t` by a conversion to `int64_t` and back. -/
theorem toUint64_toInt64 {n : Nat} (h : n < 2 ^ 64) : toUint64 (toInt64 n) = n := by
  obtain ⟨k, hk⟩ := toInt64_eq_sub n
  unfold toUint64
  omega

/-! ### Little-endian layout -/

/-- The low `n` bytes of a number, least significant first. -/
def leBytes : Nat → Nat → Bytes
  | 0, _ => []
  | n + 1, x => UInt8.ofNat (x % 256) :: leBytes n (x / 256)

/-- The number a little-endian byte string denotes. -/
def leNat : Bytes → Nat
  | [] => 0
  | b :: bs => b.toNat + 256 * leNat bs

/-- A layout of `n` bytes has length `n`. -/
@[simp] theorem length_leBytes (n x : Nat) : (leBytes n x).length = n := by
  induction n generalizing x with
  | zero => rfl
  | succ n ih => simp [leBytes, ih]

/-- Reading back a layout gives the number modulo its width. -/
theorem leNat_leBytes (n x : Nat) : leNat (leBytes n x) = x % 256 ^ n := by
  induction n generalizing x with
  | zero => simp [leBytes, leNat, Nat.mod_one]
  | succ n ih =>
    have hb : (UInt8.ofNat (x % 256)).toNat = x % 256 := by
      simp
    rw [leBytes, leNat, hb, ih, pow_succ, Nat.mul_comm (256 ^ n) 256, Nat.mod_mul]

/-- A byte string denotes a number below its width. -/
theorem leNat_lt (bs : Bytes) : leNat bs < 256 ^ bs.length := by
  induction bs with
  | nil => simp [leNat]
  | cons b bs ih =>
    have hb := b.toNat_lt
    rw [leNat, List.length_cons, pow_succ]
    omega

/-- Laying out the number a byte string denotes gives the string back. -/
theorem leBytes_leNat (bs : Bytes) : leBytes bs.length (leNat bs) = bs := by
  induction bs with
  | nil => rfl
  | cons b bs ih =>
    have hb := b.toNat_lt
    have hmod : (b.toNat + 256 * leNat bs) % 256 = b.toNat := by omega
    have hdiv : (b.toNat + 256 * leNat bs) / 256 = leNat bs := by omega
    rw [List.length_cons, leBytes, leNat, hmod, hdiv, ih]
    simp

/-- Layouts of numbers below the width are injective. -/
theorem leBytes_inj {n x y : Nat} (hx : x < 256 ^ n) (hy : y < 256 ^ n)
    (h : leBytes n x = leBytes n y) : x = y := by
  have hn := congrArg leNat h
  rwa [leNat_leBytes, leNat_leBytes, Nat.mod_eq_of_lt hx, Nat.mod_eq_of_lt hy] at hn

/-- The four bytes of a 32-bit word in memory. -/
def bytes32 (x : BitVec 32) : Bytes := leBytes 4 x.toNat

/-- The 32 bytes of a `uint256` in memory, `begin()` to `end()`. -/
def bytes256 (x : Uint256) : Bytes := leBytes 32 x.toNat

@[simp] theorem length_bytes32 (x : BitVec 32) : (bytes32 x).length = 4 := length_leBytes _ _

@[simp] theorem length_bytes256 (x : Uint256) : (bytes256 x).length = 32 := length_leBytes _ _

/-- A 32-bit word is determined by its bytes. -/
theorem bytes32_inj {x y : BitVec 32} (h : bytes32 x = bytes32 y) : x = y :=
  BitVec.eq_of_toNat_eq (leBytes_inj x.isLt y.isLt h)

/-- A `uint256` is determined by its bytes. -/
theorem bytes256_inj {x y : Uint256} (h : bytes256 x = bytes256 y) : x = y :=
  BitVec.eq_of_toNat_eq (leBytes_inj x.isLt y.isLt h)

/-- The 32-bit word four bytes denote, as `memcpy` into an `int` reads them. -/
def word32 (bs : Bytes) : BitVec 32 := BitVec.ofNat 32 (leNat bs)

/-- The `uint256` a byte string denotes. -/
def word256 (bs : Bytes) : Uint256 := BitVec.ofNat 256 (leNat bs)

/-- Reading back the bytes of a 32-bit word. -/
@[simp] theorem word32_bytes32 (x : BitVec 32) : word32 (bytes32 x) = x := by
  apply BitVec.eq_of_toNat_eq
  have := x.isLt
  simp only [word32, bytes32, leNat_leBytes, BitVec.toNat_ofNat]
  omega

/-- Reading back the bytes of a `uint256`. -/
@[simp] theorem word256_bytes256 (x : Uint256) : word256 (bytes256 x) = x := by
  apply BitVec.eq_of_toNat_eq
  have := x.isLt
  simp only [word256, bytes256, leNat_leBytes, BitVec.toNat_ofNat]
  omega

/-- The high bit of a byte. -/
theorem and_sign_ne_zero (b : UInt8) : b &&& 0x80 ≠ 0 ↔ 128 ≤ b.toNat := by
  have hb := b.toNat_lt
  have hbit : (b &&& 0x80).toNat = (b.toNat.testBit 7).toNat * 2 ^ 7 := by
    rw [UInt8.toNat_and, ← Nat.and_two_pow]
    rfl
  rw [ne_eq, ← UInt8.toNat_inj, hbit, Nat.testBit_eq_decide_div_mod_eq]
  by_cases hlarge : b.toNat / 2 ^ 7 % 2 = 1
  · simp only [hlarge]
    simp
    omega
  · simp only [hlarge]
    simp
    omega

end Bitmark
