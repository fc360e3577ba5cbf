import Mathlib.Data.List.Basic
import Mathlib.Data.UInt

/-!
# Bits of a byte array

The bit of index `n` is bit `n % 8` of byte `n / 8`. Both operations fail outside the array.
Setting a bit keeps those that are set.
-/

namespace BitArray

/-- The byte that has only this bit of an index. -/
def mask (n : Nat) : UInt8 := 1 <<< UInt8.ofNat (n % 8)

/-- `data[n >> 3] |= 1 << (7 & n)`. -/
def setBit (data : List UInt8) (n : Nat) : Option (List UInt8) :=
  if n / 8 < data.length then some (data.modify (n / 8) (· ||| mask n)) else none

/-- `data[n >> 3] & (1 << (7 & n))`. -/
def testBit (data : List UInt8) (n : Nat) : Option Bool :=
  data[n / 8]?.map fun byte ↦ byte &&& mask n ≠ 0

theorem mask_ne_zero (n : Nat) : mask n ≠ 0 := by
  have hall : ∀ k : Fin 8, (1 : UInt8) <<< UInt8.ofNat k ≠ 0 := by decide
  exact hall ⟨n % 8, Nat.mod_lt _ (by decide)⟩

private theorem and_or_distrib (a b c : UInt8) : (a ||| b) &&& c = (a &&& c) ||| (b &&& c) := by
  apply UInt8.toBitVec_inj.mp
  ext i
  simp [Bool.and_or_distrib_right]

theorem or_and_ne_zero {a c : UInt8} (b : UInt8) (h : a &&& c ≠ 0) : (a ||| b) &&& c ≠ 0 := by
  rw [and_or_distrib, ne_eq, UInt8.or_eq_zero_iff]
  exact fun hzero ↦ h hzero.1

theorem or_mask_and_mask (a : UInt8) (n : Nat) : (a ||| mask n) &&& mask n ≠ 0 := by
  rw [and_or_distrib, UInt8.and_self, ne_eq, UInt8.or_eq_zero_iff]
  exact fun hzero ↦ mask_ne_zero n hzero.2

variable {data data' : List UInt8} {m n : Nat}

theorem setBit_eq_some (h : n < data.length * 8) :
    setBit data n = some (data.modify (n / 8) (· ||| mask n)) :=
  if_pos (by omega)

theorem length_setBit (h : setBit data n = some data') : data'.length = data.length := by
  unfold setBit at h
  split at h
  · obtain rfl := Option.some.inj h
    exact List.length_modify ..
  · cases h

theorem testBit_isSome (h : n < data.length * 8) : ∃ b, testBit data n = some b := by
  have hlt : n / 8 < data.length := by omega
  exact ⟨_, by rw [testBit, List.getElem?_eq_getElem hlt]; rfl⟩

theorem testBit_setBit_self (h : setBit data n = some data') : testBit data' n = some true := by
  unfold setBit at h
  split at h
  next hlt =>
    obtain rfl := Option.some.inj h
    rw [testBit, List.getElem?_modify, List.getElem?_eq_getElem hlt]
    simp [or_mask_and_mask]
  next => cases h

/-- No bit is cleared. -/
theorem testBit_setBit_of_testBit (h : setBit data n = some data')
    (hbit : testBit data m = some true) : testBit data' m = some true := by
  unfold setBit at h
  split at h
  next hlt =>
    obtain rfl := Option.some.inj h
    rw [testBit, Option.map_eq_some_iff] at hbit
    obtain ⟨byte, hbyte, hset⟩ := hbit
    rw [testBit, List.getElem?_modify, hbyte]
    have hbyte_ne : byte &&& mask m ≠ 0 := of_decide_eq_true hset
    split
    · simp [or_and_ne_zero _ hbyte_ne]
    · simp [hbyte_ne]
  next => cases h

end BitArray
