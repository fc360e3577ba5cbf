import Bitmark.Chain.Retarget
import Bitmark.Lib.CompactFloor

/-!
# Compact targets as truncated numbers

Writing a number with `GetCompact` and reading it with `SetCompact` (`src/bignum.h:319–360`)
clears all but its three leading bytes, with the top bit of the first free for the sign.
-/

namespace Bitmark

private theorem and_signBit (n : Nat) :
    BitVec.ofNat 32 n &&& 0x00800000 = 0 ↔ n / 2 ^ 23 % 2 = 0 := by
  have hbit : (BitVec.ofNat 32 n).getLsbD 23 = decide (n / 2 ^ 23 % 2 = 1) := by
    rw [BitVec.getLsbD_ofNat, Nat.testBit_eq_decide_div_mod_eq, decide_eq_true (by decide : 23 < 32),
      Bool.true_and]
  rw [show (0x00800000 : BitVec 32) = BitVec.twoPow 32 23 from rfl, BitVec.and_twoPow, hbit]
  by_cases hodd : n / 2 ^ 23 % 2 = 1
  · simp only [hodd, decide_true, if_true]
    decide
  · simp only [hodd, decide_false, Bool.false_eq_true, if_false]
    exact iff_of_true rfl (by omega)

/-- `SetCompact` of a size byte and a mantissa without sign. -/
theorem setCompact_ofNat {e w : Nat} (he : e < 256) (hw : w < 2 ^ 23) :
    setCompact (BitVec.ofNat 32 (e * 2 ^ 24 + w)) =
      ((if e ≤ 3 then w >>> (8 * (3 - e)) else w <<< (8 * (e - 3)) : Nat) : Int) := by
  have hlt : e * 2 ^ 24 + w < 2 ^ 32 := by omega
  have hbits : (BitVec.ofNat 32 (e * 2 ^ 24 + w)).toNat = e * 2 ^ 24 + w := by
    rw [BitVec.toNat_ofNat, Nat.mod_eq_of_lt hlt]
  have hsize : (BitVec.ofNat 32 (e * 2 ^ 24 + w) >>> 24).toNat = e := by
    rw [BitVec.toNat_ushiftRight, hbits, Nat.shiftRight_eq_div_pow]
    omega
  have hword : (BitVec.ofNat 32 (e * 2 ^ 24 + w) &&& 0x007fffff).toNat = w := by
    rw [BitVec.toNat_and, hbits, show (0x007fffff : BitVec 32).toNat = 2 ^ 23 - 1 from rfl,
      Nat.and_two_pow_sub_one_eq_mod]
    omega
  have hsign : BitVec.ofNat 32 (e * 2 ^ 24 + w) &&& 0x00800000 = 0 := by
    apply (and_signBit _).mpr
    omega
  unfold setCompact
  simp only [hsize, hword, hsign, ne_eq, not_true_eq_false, if_false]

private theorem numBytes_eq (x : Nat) : numBytes x = (x.size + 7) / 8 := by
  by_cases h : x = 0
  · subst h
    rfl
  · have hsize : x.size = Nat.log2 x + 1 := by
      apply le_antisymm
      · exact Nat.size_le.mpr Nat.lt_log2_self
      · exact Nat.lt_size.mpr (Nat.log2_self_le h)
    rw [numBytes, if_neg h, hsize]
    omega

/-- The mantissa of a compact number. -/
def compactWord (x : Nat) : Nat :=
  if x.signedBytes ≤ 3 then x <<< (8 * (3 - x.signedBytes))
  else x >>> (8 * (x.signedBytes - 3))

theorem compactWord_lt (x : Nat) : compactWord x < 2 ^ 23 := by
  have hx : x < 2 ^ (8 * x.signedBytes - 1) := by
    apply Nat.size_le.mp
    unfold Nat.signedBytes
    omega
  unfold compactWord
  split
  · rw [Nat.shiftLeft_eq]
    calc x * 2 ^ (8 * (3 - x.signedBytes))
        < 2 ^ (8 * x.signedBytes - 1) * 2 ^ (8 * (3 - x.signedBytes)) :=
          Nat.mul_lt_mul_of_pos_right hx (Nat.pow_pos (by decide))
      _ = 2 ^ 23 := by
          rw [← Nat.pow_add]
          congr 1
          have : 0 < x.signedBytes := Nat.succ_pos _
          omega
  · rw [Nat.shiftRight_eq_div_pow]
    apply Nat.div_lt_of_lt_mul
    rw [← Nat.pow_add]
    refine hx.trans_le (Nat.pow_le_pow_right (by decide) ?_)
    omega

private theorem or_sizeByte {n w : Nat} (hn : n < 256) (hw : w < 2 ^ 24) :
    BitVec.ofNat 32 w ||| BitVec.ofNat 32 (n <<< 24) = BitVec.ofNat 32 (n * 2 ^ 24 + w) := by
  apply BitVec.eq_of_toNat_eq
  rw [BitVec.toNat_or, BitVec.toNat_ofNat, BitVec.toNat_ofNat, BitVec.toNat_ofNat,
    Nat.mod_eq_of_lt (by omega), Nat.mod_eq_of_lt (by rw [Nat.shiftLeft_eq]; omega),
    Nat.mod_eq_of_lt (by omega), Nat.or_comm, ← Nat.shiftLeft_add_eq_or_of_lt hw,
    Nat.shiftLeft_eq]

/-- The leading bytes before the sign bit is looked at. -/
private def leadingWord (x : Nat) : Nat :=
  if numBytes x ≤ 3 then x <<< (8 * (3 - numBytes x)) else x >>> (8 * (numBytes x - 3))

private theorem leadingWord_lt (x : Nat) : leadingWord x < 2 ^ 24 := by
  have hx : x < 2 ^ (8 * numBytes x) := by
    apply Nat.size_le.mp
    rw [numBytes_eq]
    omega
  unfold leadingWord
  split
  · rw [Nat.shiftLeft_eq]
    calc x * 2 ^ (8 * (3 - numBytes x))
        < 2 ^ (8 * numBytes x) * 2 ^ (8 * (3 - numBytes x)) :=
          Nat.mul_lt_mul_of_pos_right hx (Nat.pow_pos (by decide))
      _ = 2 ^ 24 := by
          rw [← Nat.pow_add]
          congr 1
          omega
  · rw [Nat.shiftRight_eq_div_pow]
    apply Nat.div_lt_of_lt_mul
    rw [← Nat.pow_add]
    refine hx.trans_le (Nat.pow_le_pow_right (by decide) ?_)
    omega

private theorem leadingWord_eq {x : Nat} (h : numBytes x = x.signedBytes) :
    leadingWord x = compactWord x := by
  rw [leadingWord, compactWord, h]

/-- A full leading byte has its top bit set and goes one place down. -/
private theorem leadingWord_of_full {x : Nat} (hpos : 0 < x)
    (h : numBytes x + 1 = x.signedBytes) :
    2 ^ 23 ≤ leadingWord x ∧ leadingWord x / 2 ^ 8 = compactWord x := by
  have hx : 2 ^ (8 * numBytes x - 1) ≤ x ∧ 0 < numBytes x := by
    have hbytes := numBytes_eq x
    have hsize := Nat.size_pos.mpr hpos
    unfold Nat.signedBytes at h
    exact ⟨Nat.lt_size.mp (by omega), by omega⟩
  unfold leadingWord compactWord
  rw [← h]
  split
  · next hsmall =>
    rw [Nat.shiftLeft_eq]
    constructor
    · calc 2 ^ 23 = 2 ^ (8 * numBytes x - 1) * 2 ^ (8 * (3 - numBytes x)) := by
            rw [← Nat.pow_add]
            congr 1
            omega
        _ ≤ _ := Nat.mul_le_mul_right _ hx.1
    · split
      · next hle =>
        have : 8 * (3 - numBytes x) = 8 * (3 - (numBytes x + 1)) + 8 := by omega
        rw [this, Nat.pow_add, ← Nat.mul_assoc, Nat.mul_div_cancel _ (by decide),
          Nat.shiftLeft_eq]
      · next hgt =>
        have hthree : numBytes x = 3 := by omega
        rw [hthree, Nat.shiftRight_eq_div_pow, Nat.mul_one]
  · next hlarge =>
    rw [Nat.shiftRight_eq_div_pow]
    constructor
    · rw [Nat.le_div_iff_mul_le (Nat.pow_pos (by decide)), ← Nat.pow_add]
      refine le_trans (Nat.pow_le_pow_right (by decide) ?_) hx.1
      omega
    · rw [if_neg (by omega), Nat.div_div_eq_div_mul, ← Nat.pow_add, Nat.shiftRight_eq_div_pow]
      congr 2
      omega

/-- `GetCompact` of a positive number. -/
theorem getCompact_natCast {x : Nat} (hpos : 0 < x) (hx : x.signedBytes < 256) :
    getCompact x = BitVec.ofNat 32 (x.signedBytes * 2 ^ 24 + compactWord x) := by
  have hlead := leadingWord_lt x
  have hword : (if numBytes x ≤ 3 then BitVec.ofNat 32 (x <<< (8 * (3 - numBytes x)))
      else BitVec.ofNat 32 (x >>> (8 * (numBytes x - 3)))) = BitVec.ofNat 32 (leadingWord x) := by
    unfold leadingWord
    split <;> rfl
  unfold getCompact
  simp only [Int.natAbs_natCast, hword, not_lt.mpr (Int.natCast_nonneg x), if_false]
  have hzero : ∀ b : BitVec 32, b ||| 0 = b := fun b ↦ BitVec.or_zero
  rw [hzero]
  have hbytes := numBytes_eq x
  rcases (by unfold Nat.signedBytes; omega :
    numBytes x = x.signedBytes ∨ numBytes x + 1 = x.signedBytes) with heq | hfull
  · have hsmall := compactWord_lt x
    rw [leadingWord_eq heq, if_neg]
    · show BitVec.ofNat 32 (compactWord x) ||| BitVec.ofNat 32 (numBytes x <<< 24) = _
      rw [heq]
      exact or_sizeByte hx (by omega)
    · rw [not_not]
      apply (and_signBit _).mpr
      omega
  · obtain ⟨htop, hnext⟩ := leadingWord_of_full hpos hfull
    rw [if_pos]
    · show BitVec.ofNat 32 (leadingWord x) >>> 8 ||| BitVec.ofNat 32 ((numBytes x + 1) <<< 24) = _
      have hshift : BitVec.ofNat 32 (leadingWord x) >>> 8 = BitVec.ofNat 32 (compactWord x) := by
        apply BitVec.eq_of_toNat_eq
        rw [BitVec.toNat_ushiftRight, BitVec.toNat_ofNat, BitVec.toNat_ofNat,
          Nat.mod_eq_of_lt (by omega), Nat.shiftRight_eq_div_pow, hnext, Nat.mod_eq_of_lt]
        have := compactWord_lt x
        omega
      rw [hshift, hfull]
      exact or_sizeByte hx ((compactWord_lt x).trans (by decide))
    · intro hzero
      have := (and_signBit _).mp hzero
      omega

/-- What is left of a number in its compact form. -/
theorem setCompact_getCompact {x : Nat} (hx : x.signedBytes < 256) :
    setCompact (getCompact x) = x.compactFloor := by
  rcases Nat.eq_zero_or_pos x with rfl | hpos
  · rfl
  rw [getCompact_natCast hpos hx, setCompact_ofNat hx (compactWord_lt x)]
  congr 1
  unfold compactWord
  split
  · next hle =>
    rw [Nat.compactFloor_of_lt]
    · rw [Nat.shiftLeft_shiftRight]
    · apply Nat.size_le.mp
      unfold Nat.signedBytes at hle
      omega
  · next hgt =>
    rw [Nat.shiftLeft_eq, Nat.shiftRight_eq_div_pow, Nat.compactFloor, Nat.compactUnit,
      show 256 = 2 ^ 8 from rfl, ← Nat.pow_mul]

/-- Numbers of 256 bits times a weight fit into the format. -/
theorem signedBytes_lt {x : Nat} (h : x < 2 ^ 256 * 2 ^ 23) : x.signedBytes < 256 := by
  have hsize : x.size ≤ 256 + 23 := Nat.size_le.mpr (h.trans_eq (Nat.pow_add 2 256 23).symm)
  clear h
  unfold Nat.signedBytes
  omega

/-- A compact number that is not negative is read back as it is. -/
theorem exists_setCompact_eq (b : BitVec 32) (h : 0 ≤ setCompact b) :
    ∃ x : Nat, setCompact b = x ∧ x.compactFloor = x := by
  have hword : (b &&& 0x007fffff).toNat < 2 ^ 23 := by
    rw [BitVec.toNat_and, show (0x007fffff : BitVec 32).toNat = 2 ^ 23 - 1 from rfl,
      Nat.and_two_pow_sub_one_eq_mod]
    exact Nat.mod_lt _ (by decide)
  have hmagnitude : ∀ m : Nat, m.compactFloor = m → ∀ negative : Prop, ∀ _ : Decidable negative,
      0 ≤ (if negative then -(m : Int) else m) →
      ∃ x : Nat, (if negative then -(m : Int) else m) = x ∧ x.compactFloor = x := by
    intro m hm negative _ hpos
    split at hpos
    · next hneg => exact ⟨0, by rw [if_pos hneg]; omega, rfl⟩
    · next hneg => exact ⟨m, by rw [if_neg hneg], hm⟩
  unfold setCompact at h ⊢
  refine hmagnitude _ ?_ _ _ h
  split
  · apply Nat.compactFloor_of_lt
    rw [Nat.shiftRight_eq_div_pow]
    exact (Nat.div_le_self _ _).trans_lt hword
  · rw [Nat.shiftLeft_eq, Nat.pow_mul]
    exact Nat.compactFloor_mul_pow hword _

end Bitmark
