import Bitmark.Equihash.Verify

/-!
# Packing and unpacking

`CompressArray` puts elements back together that `ExpandArray` takes apart
(`src/equihash.cpp:55–136`), and `GetMinimalFromIndices` does so with indices of four bytes
(`src/equihash.cpp:170–201`). Assertions, bounds of arrays and the `int` that counts indices are
part of the functions here.
-/

namespace Bitmark

open Pieces

namespace Packing

/-- What a run can do instead of returning. -/
inductive PackFault where
  | assertion
  | outOfRange
  /-- An `int` is counted beyond `2 ^ 31 - 1`. -/
  | overflow
deriving DecidableEq, Repr

abbrev Pack := Except PackFault

def assert (ok : Prop) [Decidable ok] : Pack Unit := if ok then .ok () else .error .assertion

/-- `n` bytes of an array from a position on. -/
def bytesFrom (bs : Bytes) (pos n : ℕ) : Pack Bytes :=
  if pos + n ≤ bs.length then .ok ((bs.drop pos).take n) else .error .outOfRange

/-! ### The arrays -/

/-- One byte of input of `ExpandArray`, which must not write behind `outLen`. -/
def expandByte (outLen bitLen bytePad : ℕ) (s : Expanding) (b : UInt8) : Pack Expanding :=
  let s := expandStep bitLen bytePad s b
  if s.out.length ≤ outLen then .ok s else .error .outOfRange

/-- `ExpandArray` into an array of zeros. -/
def expandInto (bs : Bytes) (outLen bitLen bytePad : ℕ) : Pack Bytes := do
  assert (8 ≤ bitLen)
  assert (7 + bitLen ≤ 8 * 4)
  let outWidth := (bitLen + 7) / 8 + bytePad
  assert (outLen = 8 * outWidth * bs.length / bitLen)
  let s ← bs.foldlM (expandByte outLen bitLen bytePad) {}
  return s.out ++ List.replicate (outLen - s.out.length) 0

/-- The loop state of `CompressArray`. -/
structure Compressing where
  accBits : ℕ := 0
  accValue : ℕ := 0
  j : ℕ := 0
  out : Bytes := []

/-- The bytes of an element under the mask, the high one first. -/
def readElement (bitLenMask : ℕ) : Bytes → ℕ → ℕ
  | [], accValue => accValue
  | b :: bs, accValue =>
    readElement bitLenMask bs
      (accValue ||| (b.toNat &&& (bitLenMask >>> (8 * bs.length) &&& 0xff)) <<< (8 * bs.length))

/-- With fewer than 8 bits in the accumulator the next element is read. -/
def refill (bs : Bytes) (bitLen bytePad : ℕ) (s : Compressing) : Pack Compressing :=
  let inWidth := (bitLen + 7) / 8 + bytePad
  if s.accBits < 8 then do
    let element ← bytesFrom bs (s.j + bytePad) (inWidth - bytePad)
    return { s with
      accValue := readElement (2 ^ bitLen - 1) element (toUint32 (s.accValue <<< bitLen))
      j := s.j + inWidth
      accBits := s.accBits + bitLen }
  else return s

/-- The high byte of the accumulator is written. -/
def emit (s : Compressing) : Compressing :=
  let accBits := s.accBits - 8
  { s with accBits, out := s.out ++ [UInt8.ofNat (s.accValue >>> accBits &&& 0xff)] }

/-- One byte of output of `CompressArray`. -/
def compressByte (bs : Bytes) (bitLen bytePad : ℕ) (s : Compressing) : Pack Compressing := do
  return emit (← refill bs bitLen bytePad s)

/-- The loop of `CompressArray`, for so many bytes more. -/
def compressLoop (bs : Bytes) (bitLen bytePad : ℕ) : ℕ → Compressing → Pack Compressing
  | 0, s => .ok s
  | n + 1, s => do compressLoop bs bitLen bytePad n (← compressByte bs bitLen bytePad s)

/-- `CompressArray`. -/
def compressInto (bs : Bytes) (outLen bitLen bytePad : ℕ) : Pack Bytes := do
  assert (8 ≤ bitLen)
  assert (7 + bitLen ≤ 8 * 4)
  let inWidth := (bitLen + 7) / 8 + bytePad
  assert (outLen = bitLen * bs.length / (8 * inWidth))
  let s ← compressLoop bs bitLen bytePad outLen {}
  return s.out

/-! ### The indices -/

/-- The loop of `GetIndicesFromMinimal` over its array. -/
def readIndices (array : Bytes) (lenIndices i : ℕ) : Pack (List ℕ) :=
  if i < lenIndices then do
    let index ← bytesFrom array i 4
    if i + 4 < 2 ^ 31 then do
      let rest ← readIndices array lenIndices (i + 4)
      return beNat index :: rest
    else
      -- the sum is a `size_t`, it comes back to the `int i` as a negative number, and this is
      -- compared as a `size_t` again: it is behind every array
      return [beNat index]
  else return []
  termination_by lenIndices - i

/-- `GetIndicesFromMinimal`, `src/equihash.cpp:170`. -/
def getIndicesFromMinimal (minimal : Bytes) (cBitLen : ℕ) : Pack (List ℕ) := do
  assert ((cBitLen + 1 + 7) / 8 ≤ 4)
  let lenIndices := 8 * 4 * minimal.length / (cBitLen + 1)
  let bytePad := 4 - (cBitLen + 1 + 7) / 8
  let array ← expandInto minimal lenIndices (cBitLen + 1) bytePad
  readIndices array lenIndices 0

/-- The loop of `GetMinimalFromIndices` over the indices, with an `int`. -/
def writeIndices : ℕ → List ℕ → Pack Bytes
  | _, [] => .ok []
  | i, index :: indices =>
    if i + 1 < 2 ^ 31 then do
      let array ← writeIndices (i + 1) indices
      return beBytes 4 index ++ array
    else .error .overflow

/-- `GetMinimalFromIndices`, `src/equihash.cpp:186`. -/
def getMinimalFromIndices (indices : List ℕ) (cBitLen : ℕ) : Pack Bytes := do
  assert ((cBitLen + 1 + 7) / 8 ≤ 4)
  let lenIndices := indices.length * 4
  let minLen := (cBitLen + 1) * lenIndices / (8 * 4)
  let bytePad := 4 - (cBitLen + 1 + 7) / 8
  let array ← writeIndices 0 indices
  compressInto array minLen (cBitLen + 1) bytePad

/-! ### Expanding -/

@[simp] theorem ok_bind {α β : Type} (a : α) (f : α → Pack β) : (Except.ok a >>= f) = f a := rfl

theorem assert_of {ok : Prop} [Decidable ok] (h : ok) : assert ok = .ok () := if_pos h

variable {bitLen bytePad m : ℕ} {bs : Bytes} {ds : List ℕ}

theorem length_elementBytes (bitLen bytePad d : ℕ) :
    (elementBytes bitLen bytePad d).length = (bitLen + 7) / 8 + bytePad := by
  rw [elementBytes, List.length_append, List.length_replicate, length_beBytes, Nat.add_comm]

/-- What is written after some bytes has room in the output for all of them. -/
theorem length_expanded_le (hlow : 8 ≤ bitLen) (hhigh : bitLen ≤ 25) (bytePad : ℕ) (bs : Bytes) :
    (bs.foldl (expandStep bitLen bytePad) {}).out.length ≤
      8 * ((bitLen + 7) / 8 + bytePad) * bs.length / bitLen := by
  obtain ⟨-, -, m, hm, hout⟩ := holds_expand hlow hhigh bytePad bs
  rw [hout, length_flatMap_of_const (length_elementBytes bitLen bytePad), length_pieces,
    Nat.le_div_iff_mul_le (by omega)]
  calc ((bitLen + 7) / 8 + bytePad) * m * bitLen
      = ((bitLen + 7) / 8 + bytePad) * (bitLen * m) := by ring
    _ ≤ ((bitLen + 7) / 8 + bytePad) * (8 * bs.length) := Nat.mul_le_mul_left _ (by omega)
    _ = 8 * ((bitLen + 7) / 8 + bytePad) * bs.length := by ring

theorem foldlM_expandByte (hlow : 8 ≤ bitLen) (hhigh : bitLen ≤ 25) {outLen : ℕ}
    (hout : 8 * ((bitLen + 7) / 8 + bytePad) * bs.length / bitLen ≤ outLen) :
    bs.foldlM (expandByte outLen bitLen bytePad) {} =
      .ok (bs.foldl (expandStep bitLen bytePad) {}) := by
  induction bs using List.reverseRecOn with
  | nil => rfl
  | append_singleton bs b ih =>
    have hfits := (length_expanded_le hlow hhigh bytePad (bs ++ [b])).trans hout
    have hprefix : 8 * ((bitLen + 7) / 8 + bytePad) * bs.length / bitLen ≤ outLen := by
      refine (Nat.div_le_div_right (Nat.mul_le_mul_left _ ?_)).trans hout
      rw [List.length_append]
      exact Nat.le_add_right _ _
    rw [List.foldl_append] at hfits
    rw [List.foldlM_append, ih hprefix, List.foldl_append]
    rw [ok_bind, List.foldlM_cons, List.foldl_cons, List.foldl_nil]
    exact congrArg (· >>= _) (if_pos hfits)

/-- Into an array of the right length for whole elements, `ExpandArray` writes what the function
without its faults returns. -/
theorem expandInto_eq_ok (hlow : 8 ≤ bitLen) (hhigh : bitLen ≤ 25) (bytePad : ℕ)
    (h : 8 * bs.length = bitLen * m) :
    expandInto bs (((bitLen + 7) / 8 + bytePad) * m) bitLen bytePad =
      .ok (expandArray bs bitLen bytePad) := by
  have hlen : 8 * ((bitLen + 7) / 8 + bytePad) * bs.length / bitLen =
      ((bitLen + 7) / 8 + bytePad) * m := by
    have hproduct : 8 * ((bitLen + 7) / 8 + bytePad) * bs.length =
        bitLen * (((bitLen + 7) / 8 + bytePad) * m) := by
      rw [Nat.mul_left_comm, ← h]
      ring
    rw [hproduct, Nat.mul_div_cancel_left _ (by omega)]
  have hfull := congrArg List.length (expandArray_eq hlow hhigh h bytePad)
  rw [length_flatMap_of_const (length_elementBytes bitLen bytePad), length_pieces] at hfull
  rw [expandInto, assert_of hlow, ok_bind, assert_of (by omega), ok_bind]
  dsimp only
  rw [assert_of hlen.symm, ok_bind, foldlM_expandByte hlow hhigh hlen.le, ok_bind]
  change Except.ok (expandArray bs bitLen bytePad ++
    List.replicate (_ - (expandArray bs bitLen bytePad).length) 0) = _
  rw [hfull, Nat.sub_self, List.replicate_zero, List.append_nil]

/-- What `ExpandArray` writes when its input is a whole number of elements. -/
theorem expandInto_eq (hlow : 8 ≤ bitLen) (hhigh : bitLen ≤ 25) (bytePad : ℕ)
    (h : 8 * bs.length = bitLen * m) :
    expandInto bs (((bitLen + 7) / 8 + bytePad) * m) bitLen bytePad =
      .ok ((pieces bitLen m (beNat bs)).flatMap (elementBytes bitLen bytePad)) := by
  rw [expandInto_eq_ok hlow hhigh bytePad h, expandArray_eq hlow hhigh h]

/-! ### Compressing -/

theorem bytesFrom_eq {pos n : ℕ} (h : pos + n ≤ bs.length) :
    bytesFrom bs pos n = .ok ((bs.drop pos).take n) := if_pos h

/-- A byte is masked by the bits of the mask that belong to it. -/
theorem shiftLeft_and_mask {b : ℕ} (hb : b < 256) (k M : ℕ) :
    (b &&& (M >>> k &&& 0xff)) <<< k = b <<< k &&& M := by
  have hbyte : b &&& 0xff = b := (Nat.and_two_pow_sub_one_eq_mod b 8).trans (Nat.mod_eq_of_lt hb)
  rw [Nat.and_comm (M >>> k), ← Nat.and_assoc, hbyte]
  apply Nat.eq_of_testBit_eq
  intro i
  rw [Nat.testBit_and, Nat.testBit_shiftLeft, Nat.testBit_shiftLeft, Nat.testBit_and,
    Nat.testBit_shiftRight]
  by_cases hi : k ≤ i
  · rw [Nat.add_sub_cancel' hi, Bool.and_assoc]
  · simp [hi]

theorem beNat_cons_or (b : UInt8) (bs : Bytes) :
    beNat (b :: bs) = b.toNat <<< (8 * bs.length) ||| beNat bs := by
  rw [beNat_cons, Nat.shiftLeft_eq, Nat.mul_comm, Nat.two_pow_add_eq_or_of_lt (beNat_lt bs)]

/-- The bytes of an element set the low bits of the accumulator. -/
theorem readElement_eq (n : ℕ) (bs : Bytes) (accValue : ℕ) :
    readElement (2 ^ n - 1) bs accValue = accValue ||| beNat bs % 2 ^ n := by
  induction bs generalizing accValue with
  | nil =>
    change accValue = accValue ||| 0 % 2 ^ n
    rw [Nat.zero_mod, Nat.or_zero]
  | cons b bs ih =>
    rw [readElement, ih, shiftLeft_and_mask b.toNat_lt, beNat_cons_or,
      ← Nat.and_two_pow_sub_one_eq_mod, ← Nat.and_two_pow_sub_one_eq_mod, Nat.and_or_distrib_right,
      Nat.or_assoc]

/-- The bytes of an element behind its padding. -/
theorem bytesFrom_elements {e : ℕ} (he : e < ds.length) :
    bytesFrom (ds.flatMap (elementBytes bitLen bytePad))
      (((bitLen + 7) / 8 + bytePad) * e + bytePad) ((bitLen + 7) / 8) =
      .ok (beBytes ((bitLen + 7) / 8) ds[e]) := by
  have hwidth := length_elementBytes bitLen bytePad
  have hroom : ((bitLen + 7) / 8 + bytePad) * e + bytePad + (bitLen + 7) / 8 ≤
      (ds.flatMap (elementBytes bitLen bytePad)).length := by
    rw [length_flatMap_of_const hwidth]
    calc ((bitLen + 7) / 8 + bytePad) * e + bytePad + (bitLen + 7) / 8
        = ((bitLen + 7) / 8 + bytePad) * (e + 1) := by ring
      _ ≤ ((bitLen + 7) / 8 + bytePad) * ds.length := Nat.mul_le_mul_left _ he
  have hblock := congrArg (List.drop bytePad) (take_drop_flatMap hwidth he)
  rw [List.drop_take, List.drop_drop, Nat.add_sub_cancel_right, elementBytes,
    List.drop_left' List.length_replicate] at hblock
  rw [bytesFrom_eq hroom, hblock]

/-- After `i` bytes the accumulator has the rest of the elements that have been read. -/
structure Compressing.Holds (bitLen bytePad : ℕ) (ds : List ℕ) (i e : ℕ) (s : Compressing) :
    Prop where
  read : e ≤ ds.length
  j : s.j = ((bitLen + 7) / 8 + bytePad) * e
  bits : bitLen * e = 8 * i + s.accBits
  accBits : s.accBits ≤ 32
  accValue : s.accValue = toUint32 (join bitLen (ds.take e))
  out : s.out = beBytes i (join bitLen (ds.take e) / 2 ^ s.accBits)

theorem join_take_succ {e : ℕ} (he : e < ds.length) :
    join bitLen (ds.take (e + 1)) = join bitLen (ds.take e) * 2 ^ bitLen + ds[e] := by
  rw [List.take_succ_eq_append_getElem he, join_concat]

/-- While elements are left, the accumulator can be filled. -/
theorem Compressing.Holds.refill (hlow : 8 ≤ bitLen) (hhigh : bitLen ≤ 25)
    (hds : ∀ d ∈ ds, d < 2 ^ bitLen) {i e : ℕ} {s : Compressing}
    (h : s.Holds bitLen bytePad ds i e) (hroom : 8 * (i + 1) ≤ bitLen * ds.length) :
    ∃ s' e', refill (ds.flatMap (elementBytes bitLen bytePad)) bitLen bytePad s = .ok s' ∧
      s'.Holds bitLen bytePad ds i e' ∧ 8 ≤ s'.accBits := by
  have hbits := h.bits
  unfold Packing.refill
  dsimp only
  split
  case isTrue hfew =>
    have he : e < ds.length := Nat.lt_of_mul_lt_mul_left (a := bitLen) (by omega)
    have hd : ds[e] < 2 ^ bitLen := hds _ (List.getElem_mem he)
    have hwidth : 2 ^ bitLen ≤ 2 ^ (8 * ((bitLen + 7) / 8)) :=
      Nat.pow_le_pow_right (by omega) (by omega)
    have hpos := Nat.two_pow_pos bitLen
    have hold : (join bitLen (ds.take e) * 2 ^ bitLen + ds[e]) / 2 ^ (s.accBits + bitLen) =
        join bitLen (ds.take e) / 2 ^ s.accBits := by
      rw [Nat.add_comm s.accBits, Nat.pow_add, ← Nat.div_div_eq_div_mul, Nat.mul_comm,
        Nat.mul_add_div hpos, Nat.div_eq_of_lt hd, Nat.add_zero]
    rw [h.j, Nat.add_sub_cancel_right, bytesFrom_elements he, ok_bind, readElement_eq,
      beNat_beBytes (hd.trans_le hwidth), Nat.mod_eq_of_lt hd, h.accValue,
      toUint32_shiftLeft_or (by omega) _ hd]
    refine ⟨_, e + 1, rfl, ?_, by change 8 ≤ s.accBits + bitLen; omega⟩
    constructor
    · exact he
    · exact (Nat.mul_succ _ e).symm
    · change bitLen * (e + 1) = 8 * i + (s.accBits + bitLen)
      rw [Nat.mul_succ, hbits, Nat.add_assoc]
    · change s.accBits + bitLen ≤ 32
      omega
    · rw [join_take_succ he]
    · rw [join_take_succ he]
      exact h.out.trans (congrArg (beBytes i) hold.symm)
  case isFalse hmany => exact ⟨s, e, rfl, h, Nat.le_of_not_lt hmany⟩

theorem Compressing.Holds.emit {i e : ℕ} {s : Compressing} (h : s.Holds bitLen bytePad ds i e)
    (hfull : 8 ≤ s.accBits) : (emit s).Holds bitLen bytePad ds (i + 1) e := by
  have hbits := h.bits
  have haccBits := h.accBits
  have hsplit : s.accBits - 8 + 8 = s.accBits := Nat.sub_add_cancel hfull
  have hbyte : ∀ x : ℕ, x &&& 0xff = x % 2 ^ 8 := fun x ↦ Nat.and_two_pow_sub_one_eq_mod x 8
  constructor
  · exact h.read
  · exact h.j
  · change bitLen * e = 8 * (i + 1) + (s.accBits - 8)
    omega
  · change s.accBits - 8 ≤ 32
    omega
  · exact h.accValue
  · change s.out ++ [UInt8.ofNat (s.accValue >>> (s.accBits - 8) &&& 0xff)] =
      beBytes (i + 1) (join bitLen (ds.take e) / 2 ^ (s.accBits - 8))
    rw [hbyte, h.accValue, toUint32_shiftRight_mod _ (by omega), h.out, beBytes, beBytes, pieces,
      List.map_append, List.map_singleton, Nat.div_div_eq_div_mul, ← Nat.pow_add, hsplit]

/-- The loop runs to its end as long as there are elements for it. -/
theorem Compressing.Holds.compressLoop (hlow : 8 ≤ bitLen) (hhigh : bitLen ≤ 25)
    (hds : ∀ d ∈ ds, d < 2 ^ bitLen) {i e n : ℕ} {s : Compressing}
    (h : s.Holds bitLen bytePad ds i e) (hroom : 8 * (i + n) ≤ bitLen * ds.length) :
    ∃ s' e', compressLoop (ds.flatMap (elementBytes bitLen bytePad)) bitLen bytePad n s = .ok s' ∧
      s'.Holds bitLen bytePad ds (i + n) e' := by
  induction n generalizing i e s with
  | zero => exact ⟨s, e, rfl, h⟩
  | succ n ih =>
    obtain ⟨filled, e', hfill, hfilled, hfull⟩ := h.refill hlow hhigh hds (by omega)
    obtain ⟨s', e'', hloop, hs'⟩ := ih (hfilled.emit hfull) (by omega)
    refine ⟨s', e'', ?_, ?_⟩
    · rw [Packing.compressLoop, compressByte, hfill]
      exact hloop
    · rwa [Nat.add_right_comm] at hs'

/-- What `CompressArray` writes when the packed elements are whole bytes. -/
theorem compressInto_eq (hlow : 8 ≤ bitLen) (hhigh : bitLen ≤ 25) (bytePad : ℕ)
    (hds : ∀ d ∈ ds, d < 2 ^ bitLen) {len : ℕ} (h : bitLen * ds.length = 8 * len) :
    compressInto (ds.flatMap (elementBytes bitLen bytePad)) len bitLen bytePad =
      .ok (beBytes len (join bitLen ds)) := by
  have hlen : len = bitLen * (ds.flatMap (elementBytes bitLen bytePad)).length /
      (8 * ((bitLen + 7) / 8 + bytePad)) := by
    have hproduct : bitLen * (((bitLen + 7) / 8 + bytePad) * ds.length) =
        8 * ((bitLen + 7) / 8 + bytePad) * len := by
      rw [Nat.mul_left_comm, h]
      ring
    rw [length_flatMap_of_const (length_elementBytes bitLen bytePad), hproduct,
      Nat.mul_div_cancel_left _ (by omega)]
  have hstart : Compressing.Holds bitLen bytePad ds 0 0 {} := by
    constructor
    · exact Nat.zero_le _
    · rfl
    · rfl
    · exact Nat.zero_le _
    · rfl
    · rfl
  obtain ⟨s, e, hloop, hs⟩ := hstart.compressLoop hlow hhigh hds (n := len) (by omega)
  have hread := hs.read
  have hbits := hs.bits
  rw [Nat.zero_add, ← h] at hbits
  have he : e = ds.length := by
    apply Nat.le_antisymm hread
    exact Nat.le_of_mul_le_mul_left (by omega) (show 0 < bitLen by omega)
  have hnone : s.accBits = 0 := by
    rw [he] at hbits
    omega
  have hout := hs.out
  rw [he, hnone, List.take_length, Nat.pow_zero, Nat.div_one, Nat.zero_add] at hout
  rw [compressInto, assert_of hlow, ok_bind, assert_of (by omega), ok_bind]
  dsimp only
  rw [assert_of hlen, ok_bind, hloop, ok_bind, hout]
  rfl

/-! ### Round trips -/

/-- Elements that are packed can be unpacked. -/
theorem expand_compress (hlow : 8 ≤ bitLen) (hhigh : bitLen ≤ 25) (bytePad : ℕ)
    (hds : ∀ d ∈ ds, d < 2 ^ bitLen) {len : ℕ} (h : bitLen * ds.length = 8 * len) :
    (do
      let packed ← compressInto (ds.flatMap (elementBytes bitLen bytePad)) len bitLen bytePad
      expandInto packed (((bitLen + 7) / 8 + bytePad) * ds.length) bitLen bytePad) =
      .ok (ds.flatMap (elementBytes bitLen bytePad)) := by
  have hwhole : 8 * (beBytes len (join bitLen ds)).length = bitLen * ds.length := by
    rw [length_beBytes, h]
  have hlt : join bitLen ds < 2 ^ (8 * len) := h ▸ join_lt hds
  rw [compressInto_eq hlow hhigh bytePad hds h, ok_bind, expandInto_eq hlow hhigh bytePad hwhole,
    beNat_beBytes hlt, pieces_join hds]

/-- Elements that are unpacked can be packed. -/
theorem compress_expand (hlow : 8 ≤ bitLen) (hhigh : bitLen ≤ 25) (bytePad : ℕ)
    (h : 8 * bs.length = bitLen * m) :
    (do
      let array ← expandInto bs (((bitLen + 7) / 8 + bytePad) * m) bitLen bytePad
      compressInto array bs.length bitLen bytePad) = .ok bs := by
  have hwhole : bitLen * (pieces bitLen m (beNat bs)).length = 8 * bs.length := by
    rw [length_pieces, h]
  have hlt : beNat bs < 2 ^ (bitLen * m) := h ▸ beNat_lt bs
  rw [expandInto_eq hlow hhigh bytePad h, ok_bind,
    compressInto_eq hlow hhigh bytePad (fun d hd ↦ lt_of_mem_pieces hd) hwhole, join_pieces,
    Nat.mod_eq_of_lt hlt, beBytes_beNat]

theorem writeIndices_eq {i : ℕ} {indices : List ℕ} (h : i + indices.length < 2 ^ 31) :
    writeIndices i indices = .ok (indices.flatMap (beBytes 4)) := by
  induction indices generalizing i with
  | nil => rfl
  | cons index indices ih =>
    rw [List.length_cons] at h
    rw [writeIndices, if_pos (by omega), ih (by omega)]
    rfl

/-- The counter cannot count so many indices. -/
theorem writeIndices_overflow {i : ℕ} {indices : List ℕ} (hi : i < 2 ^ 31)
    (h : 2 ^ 31 ≤ i + indices.length) : writeIndices i indices = .error .overflow := by
  induction indices generalizing i with
  | nil => exact absurd h (Nat.not_le_of_lt hi)
  | cons index indices ih =>
    rw [List.length_cons] at h
    rw [writeIndices]
    split
    case isTrue hnext =>
      rw [ih hnext (by omega)]
      rfl
    case isFalse => rfl

/-- One turn of the loop of `GetIndicesFromMinimal`. -/
theorem readIndices_of_lt {indices : List ℕ} (hindices : ∀ d ∈ indices, d < 2 ^ 32) {k : ℕ}
    (hk : k < indices.length) :
    readIndices (indices.flatMap (beBytes 4)) (4 * indices.length) (4 * k) =
      if 4 * (k + 1) < 2 ^ 31 then do
        let rest ← readIndices (indices.flatMap (beBytes 4)) (4 * indices.length) (4 * (k + 1))
        return indices[k] :: rest
      else .ok [indices[k]] := by
  have hwidth := length_beBytes 4
  have hroom : 4 * k + 4 ≤ (indices.flatMap (beBytes 4)).length := by
    rw [length_flatMap_of_const hwidth]
    omega
  rw [readIndices, if_pos (by omega), bytesFrom_eq hroom, take_drop_flatMap hwidth hk, ok_bind,
    beNat_beBytes (hindices _ (List.getElem_mem hk)), ← Nat.mul_succ]
  rfl

theorem readIndices_of_ge {indices : List ℕ} {k : ℕ} (hk : indices.length ≤ k) :
    readIndices (indices.flatMap (beBytes 4)) (4 * indices.length) (4 * k) = .ok [] := by
  rw [readIndices, if_neg (by omega)]
  rfl

/-- The loop of `GetIndicesFromMinimal` ends where its counter becomes negative. -/
theorem readIndices_eq {indices : List ℕ} (hindices : ∀ d ∈ indices, d < 2 ^ 32) {k n : ℕ}
    (hk : k + n + 1 = 2 ^ 29) :
    readIndices (indices.flatMap (beBytes 4)) (4 * indices.length) (4 * k) =
      .ok ((indices.take (2 ^ 29)).drop k) := by
  induction n generalizing k with
  | zero =>
    by_cases hlen : k < indices.length
    · have hshort : k < (indices.take (2 ^ 29)).length := by
        rw [List.length_take]
        omega
      have hlast : (indices.take (2 ^ 29)).length ≤ k + 1 := by
        rw [List.length_take]
        omega
      rw [readIndices_of_lt hindices hlen, if_neg (by omega), List.drop_eq_getElem_cons hshort,
        List.getElem_take, List.drop_eq_nil_of_le hlast]
    · have hdone : (indices.take (2 ^ 29)).length ≤ k := by
        rw [List.length_take]
        omega
      rw [readIndices_of_ge (Nat.le_of_not_lt hlen), List.drop_eq_nil_of_le hdone]
  | succ n ih =>
    by_cases hlen : k < indices.length
    · have hshort : k < (indices.take (2 ^ 29)).length := by
        rw [List.length_take]
        omega
      rw [readIndices_of_lt hindices hlen, if_pos (by omega), ih (by omega),
        List.drop_eq_getElem_cons hshort, List.getElem_take]
      rfl
    · have hdone : (indices.take (2 ^ 29)).length ≤ k := by
        rw [List.length_take]
        omega
      rw [readIndices_of_ge (Nat.le_of_not_lt hlen), List.drop_eq_nil_of_le hdone]

variable {cBitLen : ℕ} {indices : List ℕ}

theorem getMinimalFromIndices_eq (hlow : 8 ≤ cBitLen + 1) (hhigh : cBitLen + 1 ≤ 25)
    (hindices : ∀ d ∈ indices, d < 2 ^ (cBitLen + 1)) {len : ℕ}
    (hwhole : (cBitLen + 1) * indices.length = 8 * len) (hint : indices.length < 2 ^ 31) :
    getMinimalFromIndices indices cBitLen = .ok (beBytes len (join (cBitLen + 1) indices)) := by
  have hlen : (cBitLen + 1) * (indices.length * 4) / (8 * 4) = len := by
    rw [← Nat.mul_assoc, hwhole]
    omega
  have hbytes : indices.flatMap (beBytes 4) =
      indices.flatMap (elementBytes (cBitLen + 1) (4 - (cBitLen + 1 + 7) / 8)) :=
    (List.flatMap_congr fun d hd ↦ elementBytes_index hhigh (hindices d hd)).symm
  rw [getMinimalFromIndices, assert_of (by omega), ok_bind]
  dsimp only
  rw [writeIndices_eq (by omega), ok_bind, hbytes, hlen,
    compressInto_eq hlow hhigh _ hindices hwhole]

theorem getIndicesFromMinimal_join (hlow : 8 ≤ cBitLen + 1) (hhigh : cBitLen + 1 ≤ 25)
    (hindices : ∀ d ∈ indices, d < 2 ^ (cBitLen + 1)) {len : ℕ}
    (hwhole : (cBitLen + 1) * indices.length = 8 * len) :
    getIndicesFromMinimal (beBytes len (join (cBitLen + 1) indices)) cBitLen =
      .ok (indices.take (2 ^ 29)) := by
  have hlt : join (cBitLen + 1) indices < 2 ^ (8 * len) := hwhole ▸ join_lt hindices
  have hminimal : 8 * (beBytes len (join (cBitLen + 1) indices)).length =
      (cBitLen + 1) * indices.length := by
    rw [length_beBytes, hwhole]
  have hlen : 8 * 4 * len / (cBitLen + 1) = 4 * indices.length := by
    have hproduct : 8 * 4 * len = (cBitLen + 1) * (4 * indices.length) := by
      rw [Nat.mul_left_comm, hwhole]
      ring
    rw [hproduct, Nat.mul_div_cancel_left _ (Nat.succ_pos cBitLen)]
  have hwidth : (cBitLen + 1 + 7) / 8 + (4 - (cBitLen + 1 + 7) / 8) = 4 := by omega
  have hexpand := expandInto_eq hlow hhigh (4 - (cBitLen + 1 + 7) / 8) hminimal
  have hbytes := List.flatMap_congr fun d hd ↦ elementBytes_index hhigh (hindices d hd)
  have hbound : ∀ d ∈ indices, d < 2 ^ 32 := fun d hd ↦
    (hindices d hd).trans_le (Nat.pow_le_pow_right (by omega) (by omega))
  rw [beNat_beBytes hlt, pieces_join hindices, hwidth, hbytes] at hexpand
  rw [getIndicesFromMinimal, assert_of (by omega), ok_bind]
  dsimp only
  rw [length_beBytes, hlen, hexpand, ok_bind]
  exact readIndices_eq hbound (k := 0) (n := 2 ^ 29 - 1) (by omega)

/-- Of whole indices that the counter reaches, the function without its faults returns the same. -/
theorem getIndicesFromMinimal_eq_ok (hlow : 8 ≤ cBitLen + 1) (hhigh : cBitLen + 1 ≤ 25)
    {minimal : Bytes} (h : 8 * minimal.length = (cBitLen + 1) * m) (hm : m ≤ 2 ^ 29) :
    getIndicesFromMinimal minimal cBitLen = .ok (Bitmark.getIndicesFromMinimal minimal cBitLen) := by
  have hwhole : (cBitLen + 1) * (pieces (cBitLen + 1) m (beNat minimal)).length =
      8 * minimal.length := by
    rw [length_pieces, h]
  have hlt : beNat minimal < 2 ^ ((cBitLen + 1) * m) := h ▸ beNat_lt minimal
  have hpacked : beBytes minimal.length (join (cBitLen + 1) (pieces (cBitLen + 1) m
      (beNat minimal))) = minimal := by
    rw [join_pieces, Nat.mod_eq_of_lt hlt, beBytes_beNat]
  have hread := getIndicesFromMinimal_join hlow hhigh (fun d hd ↦ lt_of_mem_pieces hd) hwhole
  rw [hpacked, List.take_of_length_le (by rwa [length_pieces])] at hread
  rw [hread, getIndicesFromMinimal_eq hlow hhigh h]

/-- So the verifier reads the indices of a solution without a fault. -/
theorem getIndicesFromMinimal_of_instantiated {p : Equihash} (hp : p ∈ Equihash.instantiated)
    {soln : Bytes} (hsize : soln.length = p.solutionWidth) :
    getIndicesFromMinimal soln p.collisionBitLength =
      .ok (Bitmark.getIndicesFromMinimal soln p.collisionBitLength) := by
  have hfits := Equihash.fits_of_instantiated hp
  have hlow := hfits.low
  have hdepth : ∀ p ∈ Equihash.instantiated, p.K ≤ 29 := by decide
  apply getIndicesFromMinimal_eq_ok (by omega) hfits.high (hsize ▸ hfits.solution)
  exact Nat.pow_le_pow_right (by decide) (hdepth p hp)

/-- Indices come back exactly when the counter of `GetIndicesFromMinimal` reaches all of them. -/
theorem indices_roundTrip_iff (hlow : 8 ≤ cBitLen + 1) (hhigh : cBitLen + 1 ≤ 25)
    (hindices : ∀ d ∈ indices, d < 2 ^ (cBitLen + 1)) {len : ℕ}
    (hwhole : (cBitLen + 1) * indices.length = 8 * len) :
    (do
      let minimal ← getMinimalFromIndices indices cBitLen
      getIndicesFromMinimal minimal cBitLen) = .ok indices ↔ indices.length ≤ 2 ^ 29 := by
  by_cases hint : indices.length < 2 ^ 31
  · rw [getMinimalFromIndices_eq hlow hhigh hindices hwhole hint, ok_bind,
      getIndicesFromMinimal_join hlow hhigh hindices hwhole, Except.ok.injEq, List.take_eq_self_iff]
  · have hoverflow : writeIndices 0 indices = .error .overflow :=
      writeIndices_overflow (Nat.two_pow_pos 31) (by omega)
    rw [getMinimalFromIndices, assert_of (by omega), ok_bind]
    dsimp only
    rw [hoverflow]
    exact iff_of_false (by intro h; cases h) (by omega)

end Packing

/-- Packing is undone by unpacking, for arrays of every padding in both directions, and for indices
exactly when there are at most `2 ^ 29` of them. -/
theorem packing_iff {cBitLen : ℕ} (hlow : 8 ≤ cBitLen + 1) (hhigh : cBitLen + 1 ≤ 25) :
    (∀ (indices : List ℕ) (len : ℕ), (∀ d ∈ indices, d < 2 ^ (cBitLen + 1)) →
      (cBitLen + 1) * indices.length = 8 * len →
        ((do
          let minimal ← Packing.getMinimalFromIndices indices cBitLen
          Packing.getIndicesFromMinimal minimal cBitLen) = .ok indices ↔
            indices.length ≤ 2 ^ 29)) ∧
    (∀ (bytePad : ℕ) (ds : List ℕ) (len : ℕ), (∀ d ∈ ds, d < 2 ^ (cBitLen + 1)) →
      (cBitLen + 1) * ds.length = 8 * len →
        let array := ds.flatMap (elementBytes (cBitLen + 1) bytePad)
        (do
          let packed ← Packing.compressInto array len (cBitLen + 1) bytePad
          Packing.expandInto packed array.length (cBitLen + 1) bytePad) = .ok array) ∧
    ∀ (bytePad : ℕ) (bs : Bytes) (m : ℕ), 8 * bs.length = (cBitLen + 1) * m →
      (do
        let array ← Packing.expandInto bs (((cBitLen + 1 + 7) / 8 + bytePad) * m) (cBitLen + 1)
          bytePad
        Packing.compressInto array bs.length (cBitLen + 1) bytePad) = .ok bs := by
  refine ⟨?_, ?_, ?_⟩
  · intro indices len hindices hwhole
    exact Packing.indices_roundTrip_iff hlow hhigh hindices hwhole
  · intro bytePad ds len hds hwhole
    dsimp only
    rw [length_flatMap_of_const (Packing.length_elementBytes _ bytePad)]
    exact Packing.expand_compress hlow hhigh bytePad hds hwhole
  · intro bytePad bs m h
    exact Packing.compress_expand hlow hhigh bytePad h

/-- Three indices of eight bits. -/
theorem packing_iff_sample :
    (do
      let minimal ← Packing.getMinimalFromIndices [1, 128, 255] 7
      Packing.getIndicesFromMinimal minimal 7) = .ok [1, 128, 255] :=
  ((packing_iff (show 8 ≤ 7 + 1 by decide) (by decide)).1 [1, 128, 255] 3 (by decide) rfl).mpr
    (by decide)

/-- One index more than the counter reaches is lost. -/
theorem indices_lost :
    (do
      let minimal ← Packing.getMinimalFromIndices (List.replicate (2 ^ 29 + 1) 0) 7
      Packing.getIndicesFromMinimal minimal 7) = .ok (List.replicate (2 ^ 29) 0) ∧
      List.replicate (2 ^ 29) 0 ≠ List.replicate (2 ^ 29 + 1) 0 := by
  have hindices : ∀ d ∈ List.replicate (2 ^ 29 + 1) 0, d < 2 ^ (7 + 1) := by
    intro d hd
    rw [List.eq_of_mem_replicate hd]
    exact Nat.two_pow_pos 8
  have hwhole : (7 + 1) * (List.replicate (2 ^ 29 + 1) 0).length = 8 * (2 ^ 29 + 1) := by
    rw [List.length_replicate]
  have hint : (List.replicate (2 ^ 29 + 1) 0).length < 2 ^ 31 := by
    rw [List.length_replicate]
    omega
  constructor
  · rw [Packing.getMinimalFromIndices_eq (by omega) (by omega) hindices hwhole hint,
      Packing.ok_bind, Packing.getIndicesFromMinimal_join (by omega) (by omega) hindices hwhole,
      List.take_replicate, Nat.min_eq_left (Nat.le_succ _)]
  · intro h
    have hlength := congrArg List.length h
    rw [List.length_replicate, List.length_replicate] at hlength
    omega

end Bitmark
