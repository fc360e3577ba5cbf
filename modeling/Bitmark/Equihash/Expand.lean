import Bitmark.Base.BigEndian

/-!
# Packed arrays

Numbers of a few bits are packed into bytes without gaps, the high bit first. `ExpandArray` gives
each of them bytes of its own (`src/equihash.cpp:55–97`).
-/

namespace Bitmark

open Pieces

/-- The loop state of `ExpandArray`. The low `accBits` bits of `accValue` wait to be written. -/
structure Expanding where
  accBits : ℕ := 0
  accValue : ℕ := 0
  out : Bytes := []

/-- The bytes of the low `bitLen` bits of a number. The mask is shifted like the number. -/
def maskedBytes (bitLen x : ℕ) : Bytes :=
  (List.range ((bitLen + 7) / 8)).map fun i ↦
    let shift := 8 * ((bitLen + 7) / 8 - i - 1)
    UInt8.ofNat (x >>> shift &&& ((2 ^ bitLen - 1) >>> shift &&& 0xff))

/-- One byte of input of `ExpandArray`. -/
def expandStep (bitLen bytePad : ℕ) (s : Expanding) (b : UInt8) : Expanding :=
  let accValue := toUint32 (s.accValue <<< 8) ||| b.toNat
  let accBits := s.accBits + 8
  if bitLen ≤ accBits then
    let accBits := accBits - bitLen
    { accValue, accBits
      out := s.out ++ List.replicate bytePad 0 ++ maskedBytes bitLen (accValue >>> accBits) }
  else { s with accValue, accBits }

/-- `ExpandArray`. -/
def expandArray (bs : Bytes) (bitLen bytePad : ℕ) : Bytes :=
  (bs.foldl (expandStep bitLen bytePad) {}).out

theorem maskedBytes_eq (bitLen x : ℕ) :
    maskedBytes bitLen x = beBytes ((bitLen + 7) / 8) (x % 2 ^ bitLen) := by
  rw [maskedBytes, beBytes, pieces_eq_map, List.map_map]
  apply List.map_congr_left
  intro i _
  have hmask : x % 2 ^ bitLen = x &&& (2 ^ bitLen - 1) := (Nat.and_two_pow_sub_one_eq_mod x _).symm
  have hbyte : ∀ y : ℕ, y % 2 ^ 8 = y &&& 0xff := fun y ↦ (Nat.and_two_pow_sub_one_eq_mod y 8).symm
  simp only [Function.comp_apply]
  rw [hmask, ← Nat.shiftRight_eq_div_pow, Nat.shiftRight_and_distrib, hbyte, Nat.and_assoc]

/-- The bytes an element takes. -/
def elementBytes (bitLen bytePad d : ℕ) : Bytes :=
  List.replicate bytePad 0 ++ beBytes ((bitLen + 7) / 8) d

/-- After some bytes all complete elements are written, and the accumulator has the rest. -/
structure Expanding.Holds (bitLen bytePad : ℕ) (bs : Bytes) (s : Expanding) : Prop where
  accBits : s.accBits < bitLen
  accValue : s.accValue = toUint32 (beNat bs)
  out : ∃ m, bitLen * m + s.accBits = 8 * bs.length ∧
    s.out = (pieces bitLen m (beNat bs / 2 ^ s.accBits)).flatMap (elementBytes bitLen bytePad)

/-- A number that has 32 bits is shifted, and the low bits are set. -/
theorem toUint32_shiftLeft_or {n : ℕ} (hn : n ≤ 32) (x : ℕ) {y : ℕ} (hy : y < 2 ^ n) :
    toUint32 (toUint32 x <<< n) ||| y = toUint32 (x * 2 ^ n + y) := by
  have hpow : 2 ^ 32 = 2 ^ n * 2 ^ (32 - n) := by
    rw [← Nat.pow_add]
    congr 1
    omega
  have hshift : toUint32 (toUint32 x <<< n) = 2 ^ n * (x % 2 ^ (32 - n)) := by
    rw [toUint32, toUint32, Nat.shiftLeft_eq, Nat.mod_mul_mod, Nat.mul_comm, hpow,
      Nat.mul_mod_mul_left]
  have hpos := Nat.two_pow_pos n
  rw [hshift, ← Nat.two_pow_add_eq_or_of_lt hy, toUint32, hpow, Nat.mod_mul, Nat.mul_comm x,
    Nat.mul_add_mod, Nat.mul_add_div hpos, Nat.div_eq_of_lt hy, Nat.mod_eq_of_lt hy, Nat.add_zero,
    Nat.add_comm]

/-- The low bits of a number survive in 32 of them. -/
theorem toUint32_shiftRight_mod (x : ℕ) {a n : ℕ} (h : a + n ≤ 32) :
    toUint32 x >>> a % 2 ^ n = x / 2 ^ a % 2 ^ n := by
  have hpow : 2 ^ 32 = 2 ^ a * 2 ^ (32 - a) := by
    rw [← Nat.pow_add]
    congr 1
    omega
  rw [toUint32, Nat.shiftRight_eq_div_pow, hpow, Nat.mod_mul_right_div_self]
  exact Nat.mod_mod_of_dvd _ (Nat.pow_dvd_pow 2 (by omega))

theorem Expanding.Holds.expandStep {bitLen bytePad : ℕ} (hlow : 8 ≤ bitLen) (hhigh : bitLen ≤ 25)
    {bs : Bytes} {s : Expanding} (h : s.Holds bitLen bytePad bs) (b : UInt8) :
    (Bitmark.expandStep bitLen bytePad s b).Holds bitLen bytePad (bs ++ [b]) := by
  obtain ⟨hbits, hvalue, m, hm, hout⟩ := h
  have hb := b.toNat_lt
  have hlength : (bs ++ [b]).length = bs.length + 1 := by
    rw [List.length_append, List.length_singleton]
  have hacc : toUint32 (s.accValue <<< 8) ||| b.toNat = toUint32 (beNat (bs ++ [b])) := by
    rw [hvalue, beNat_concat, toUint32_shiftLeft_or (by omega) _ hb]
    rfl
  -- the bits that were there before the new byte
  have hold : beNat (bs ++ [b]) / 2 ^ (s.accBits + 8) = beNat bs / 2 ^ s.accBits := by
    rw [beNat_concat, Nat.add_comm s.accBits, Nat.pow_add, ← Nat.div_div_eq_div_mul]
    congr 1
    omega
  unfold Bitmark.expandStep
  dsimp only
  rw [hacc]
  split
  case isTrue hfull =>
    have hsplit : s.accBits + 8 - bitLen + bitLen = s.accBits + 8 := Nat.sub_add_cancel hfull
    have hhighBits : beNat (bs ++ [b]) / 2 ^ (s.accBits + 8 - bitLen) / 2 ^ bitLen =
        beNat bs / 2 ^ s.accBits := by
      rw [Nat.div_div_eq_div_mul, ← Nat.pow_add, hsplit, hold]
    constructor
    · change s.accBits + 8 - bitLen < bitLen
      omega
    · rfl
    · refine ⟨m + 1, ?_, ?_⟩
      · change bitLen * (m + 1) + (s.accBits + 8 - bitLen) = _
        rw [hlength, Nat.mul_succ]
        omega
      · change s.out ++ List.replicate bytePad 0 ++ maskedBytes bitLen _ =
          (pieces bitLen (m + 1) (beNat (bs ++ [b]) / 2 ^ (s.accBits + 8 - bitLen))).flatMap _
        rw [maskedBytes_eq, toUint32_shiftRight_mod _ (by omega), pieces, hhighBits, hout,
          List.flatMap_append, List.flatMap_singleton, elementBytes, List.append_assoc]
  case isFalse hopen =>
    constructor
    · exact Nat.lt_of_not_le hopen
    · rfl
    · refine ⟨m, ?_, ?_⟩
      · change bitLen * m + (s.accBits + 8) = _
        rw [hlength]
        omega
      · change s.out = (pieces bitLen m (beNat (bs ++ [b]) / 2 ^ (s.accBits + 8))).flatMap _
        rw [hold, hout]

theorem holds_expand {bitLen : ℕ} (hlow : 8 ≤ bitLen) (hhigh : bitLen ≤ 25) (bytePad : ℕ)
    (bs : Bytes) :
    (bs.foldl (expandStep bitLen bytePad) {}).Holds bitLen bytePad bs := by
  induction bs using List.reverseRecOn with
  | nil => exact ⟨by change 0 < bitLen; omega, rfl, 0, rfl, rfl⟩
  | append_singleton bs b ih =>
    rw [List.foldl_append]
    exact ih.expandStep hlow hhigh b

/-- `ExpandArray` writes out the elements that its input is packed from. -/
theorem expandArray_eq {bitLen m : ℕ} (hlow : 8 ≤ bitLen) (hhigh : bitLen ≤ 25) {bs : Bytes}
    (h : 8 * bs.length = bitLen * m) (bytePad : ℕ) :
    expandArray bs bitLen bytePad =
      (pieces bitLen m (beNat bs)).flatMap (elementBytes bitLen bytePad) := by
  obtain ⟨hbits, -, m', hm, hout⟩ := holds_expand hlow hhigh bytePad bs
  rw [h] at hm
  -- no bits are left over, since the input is a whole number of elements
  have hrest : (bs.foldl (expandStep bitLen bytePad) {}).accBits = 0 := by
    have hmod := congrArg (· % bitLen) hm
    simp only [Nat.mul_add_mod, Nat.mul_mod_right, Nat.mod_eq_of_lt hbits] at hmod
    exact hmod
  have hcount : m' = m := by
    rw [hrest, Nat.add_zero] at hm
    exact Nat.eq_of_mul_eq_mul_left (by omega) hm
  rw [expandArray, hout, hrest, hcount, Nat.pow_zero, Nat.div_one]

/-! ### Indices -/

/-- `GetIndicesFromMinimal`: the packed indices of `cBitLen + 1` bits, four bytes each. -/
def getIndicesFromMinimal (minimal : Bytes) (cBitLen : ℕ) : List ℕ :=
  let lenIndices := 8 * 4 * minimal.length / (cBitLen + 1)
  let bytePad := 4 - (cBitLen + 1 + 7) / 8
  let array := expandArray minimal (cBitLen + 1) bytePad
  (List.range ((lenIndices + 3) / 4)).map fun i ↦ beNat ((array.drop (4 * i)).take 4)

/-- The `i`th of blocks of one width. -/
theorem take_drop_flatMap {α β : Type*} {f : α → List β} {w : ℕ} (hf : ∀ a, (f a).length = w)
    {l : List α} {i : ℕ} (h : i < l.length) :
    ((l.flatMap f).drop (w * i)).take w = f l[i] := by
  induction l generalizing i with
  | nil => exact absurd h (Nat.not_lt_zero i)
  | cons a l ih =>
    rw [List.flatMap_cons]
    cases i with
    | zero =>
      rw [Nat.mul_zero, List.drop_zero, List.take_left' (hf a)]
      rfl
    | succ i =>
      have hskip : w * (i + 1) = (f a).length + w * i := by rw [hf, Nat.mul_succ, Nat.add_comm]
      rw [hskip, List.drop_length_add_append]
      exact ih (Nat.lt_of_succ_lt_succ h)

theorem length_flatMap_of_const {α β : Type*} {f : α → List β} {w : ℕ}
    (hf : ∀ a, (f a).length = w) (l : List α) : (l.flatMap f).length = w * l.length := by
  induction l with
  | nil => rfl
  | cons a l ih => rw [List.flatMap_cons, List.length_append, hf, ih, List.length_cons]; ring

/-- An index has four bytes, the padding included. -/
theorem elementBytes_index {bitLen d : ℕ} (hhigh : bitLen ≤ 25) (hd : d < 2 ^ bitLen) :
    elementBytes bitLen (4 - (bitLen + 7) / 8) d = beBytes 4 d := by
  have hwidth : 2 ^ bitLen ≤ 2 ^ (8 * ((bitLen + 7) / 8)) :=
    Nat.pow_le_pow_right (by omega) (by omega)
  rw [elementBytes, ← beBytes_add _ (hd.trans_le hwidth)]
  congr 1
  omega

/-- The indices are the pieces of the packed number. -/
theorem getIndicesFromMinimal_eq {cBitLen m : ℕ} (hlow : 8 ≤ cBitLen + 1) (hhigh : cBitLen + 1 ≤ 25)
    {minimal : Bytes} (h : 8 * minimal.length = (cBitLen + 1) * m) :
    getIndicesFromMinimal minimal cBitLen = pieces (cBitLen + 1) m (beNat minimal) := by
  have hcount : (8 * 4 * minimal.length / (cBitLen + 1) + 3) / 4 = m := by
    have hbytes : 8 * 4 * minimal.length = (cBitLen + 1) * (4 * m) := by
      rw [Nat.mul_left_comm (cBitLen + 1), ← h]
      ring
    rw [hbytes, Nat.mul_div_cancel_left _ (by omega)]
    omega
  have helement : ∀ d ∈ pieces (cBitLen + 1) m (beNat minimal),
      elementBytes (cBitLen + 1) (4 - (cBitLen + 1 + 7) / 8) d = beBytes 4 d :=
    fun d hd ↦ elementBytes_index hhigh (lt_of_mem_pieces hd)
  rw [getIndicesFromMinimal, hcount, expandArray_eq hlow hhigh h, List.flatMap_congr helement]
  apply List.ext_getElem
  · rw [List.length_map, List.length_range, length_pieces]
  · intro i _ hi
    have hlt : (pieces (cBitLen + 1) m (beNat minimal))[i] < 2 ^ (8 * 4) :=
      (lt_of_mem_pieces (List.getElem_mem hi)).trans_le (Nat.pow_le_pow_right (by omega) (by omega))
    rw [List.getElem_map, List.getElem_range, take_drop_flatMap (length_beBytes 4) hi,
      beNat_beBytes hlt]

end Bitmark
