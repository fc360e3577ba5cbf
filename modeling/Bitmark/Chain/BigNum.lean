import Mathlib.Order.Bounds.Defs
import Bitmark.Chain.CompactTarget

/-!
# Two paths through big numbers

Targets are decoded with OpenSSL's numbers (`CBigNum`, `src/bignum.h:319`) for the chain work and
with those of Boost (`src/core.cpp:719`) for the scaling of the subsidy. Both give the same number,
and the compact form holds the largest number that it can hold below the one encoded.
-/

namespace Bitmark

/-! ### OpenSSL -/

/-- A `BIGNUM`: a magnitude and a sign, which zero does not have. -/
structure BigNum where
  magnitude : Nat
  neg : Bool
  neg_ne_zero : neg = true → magnitude ≠ 0

namespace BigNum

def toInt (bn : BigNum) : Int := if bn.neg then -(bn.magnitude : Int) else bn.magnitude

/-- `BN_set_word`. -/
def setWord (w : Nat) : BigNum := ⟨w, false, nofun⟩

/-- `BN_lshift` of a number without sign. -/
def lshift (bn : BigNum) (n : Nat) : BigNum where
  magnitude := bn.magnitude <<< n
  neg := bn.neg
  neg_ne_zero h := by
    rw [Nat.shiftLeft_eq]
    exact Nat.mul_ne_zero (bn.neg_ne_zero h) (Nat.two_pow_pos n).ne'

/-- `BN_set_negative`, which leaves zero as it is. -/
def setNegative (bn : BigNum) (negative : Bool) : BigNum where
  magnitude := bn.magnitude
  neg := negative && bn.magnitude != 0
  neg_ne_zero h := by
    rw [Bool.and_eq_true, bne_iff_ne] at h
    exact h.2

theorem toInt_setNegative (bn : BigNum) (negative : Bool) :
    (bn.setNegative negative).toInt =
      if negative then -(bn.magnitude : Int) else bn.magnitude := by
  change (if (negative && bn.magnitude != 0) = true then -(bn.magnitude : Int)
    else bn.magnitude) = _
  cases negative with
  | false => rfl
  | true =>
    by_cases hzero : bn.magnitude = 0
    · rw [hzero]
      rfl
    · rw [Bool.true_and, bne_iff_ne.mpr hzero]

/-- `CBigNum::SetCompact`, `src/bignum.h:319`. -/
def setCompact (nCompact : BitVec 32) : BigNum :=
  let nSize := (nCompact >>> 24).toNat
  let fNegative := decide (nCompact &&& 0x00800000 ≠ 0)
  let nWord := (nCompact &&& 0x007fffff).toNat
  let bn := if nSize ≤ 3 then setWord (nWord >>> (8 * (3 - nSize)))
    else (setWord nWord).lshift (8 * (nSize - 3))
  bn.setNegative fNegative

theorem toInt_setCompact (nCompact : BitVec 32) :
    (setCompact nCompact).toInt = Bitmark.setCompact nCompact := by
  have hmagnitude : (if (nCompact >>> 24).toNat ≤ 3
      then setWord ((nCompact &&& 0x007fffff).toNat >>> (8 * (3 - (nCompact >>> 24).toNat)))
      else (setWord (nCompact &&& 0x007fffff).toNat).lshift
        (8 * ((nCompact >>> 24).toNat - 3))).magnitude =
      if (nCompact >>> 24).toNat ≤ 3
      then (nCompact &&& 0x007fffff).toNat >>> (8 * (3 - (nCompact >>> 24).toNat))
      else (nCompact &&& 0x007fffff).toNat <<< (8 * ((nCompact >>> 24).toNat - 3)) := by
    split <;> rfl
  rw [setCompact, toInt_setNegative, hmagnitude, Bitmark.setCompact]
  by_cases hsign : nCompact &&& 0x00800000 ≠ 0
  · rw [decide_eq_true hsign, if_pos rfl, if_pos hsign]
  · rw [decide_eq_false hsign, if_neg Bool.false_ne_true, if_neg hsign]

end BigNum

/-! ### Boost -/

/-- `BoostBigNumFromCompact`, `src/core.cpp:719`. -/
def boostBigNumFromCompact (nCompact : BitVec 32) : Int :=
  let nSize := (nCompact >>> 24).toNat
  let fNegative := decide (nCompact &&& 0x00800000 ≠ 0)
  let nWord := (nCompact &&& 0x007fffff).toNat
  let out : Int := if nSize ≤ 3 then (nWord >>> (8 * (3 - nSize)) : Nat)
    else (nWord : Int) * (2 : Int) ^ (8 * (nSize - 3))
  if fNegative ∧ 0 < out ∨ ¬ fNegative ∧ out < 0 then -out else out

theorem boostBigNumFromCompact_eq (nCompact : BitVec 32) :
    boostBigNumFromCompact nCompact = setCompact nCompact := by
  have hout : (if (nCompact >>> 24).toNat ≤ 3
      then (((nCompact &&& 0x007fffff).toNat >>> (8 * (3 - (nCompact >>> 24).toNat)) : Nat) : Int)
      else ((nCompact &&& 0x007fffff).toNat : Int) * (2 : Int) ^ (8 * ((nCompact >>> 24).toNat - 3))) =
      ((if (nCompact >>> 24).toNat ≤ 3
      then (nCompact &&& 0x007fffff).toNat >>> (8 * (3 - (nCompact >>> 24).toNat))
      else (nCompact &&& 0x007fffff).toNat <<< (8 * ((nCompact >>> 24).toNat - 3)) : Nat) : Int) := by
    split
    · rfl
    · rw [Nat.shiftLeft_eq, Nat.cast_mul, Nat.cast_pow, Nat.cast_ofNat]
  rw [boostBigNumFromCompact, setCompact, hout]
  generalize (if (nCompact >>> 24).toNat ≤ 3 then _ else _ : Nat) = magnitude
  by_cases hsign : nCompact &&& 0x00800000 ≠ 0
  · rw [decide_eq_true hsign, if_pos hsign]
    by_cases hpos : 0 < (magnitude : Int)
    · exact if_pos (.inl ⟨rfl, hpos⟩)
    · obtain rfl : magnitude = 0 := by omega
      rfl
  · rw [decide_eq_false hsign, if_neg hsign]
    exact if_neg (by simp)

/-! ### The work of a block -/

/-- The body that `GetBlockWork` and `GetBlockWorkBoost` share but for the type of the numbers. -/
def blockWork (bnTarget : Int) (algoWeight : Nat) : Int :=
  if bnTarget ≤ 0 then 0 else ((1 : Int) * 2 ^ 256).tdiv (bnTarget.tdiv algoWeight + 1)

/-- `CBlockIndex::GetBlockWork`, `src/core.h:992`. -/
def CBlockIndex.getBlockWork (b : CBlockIndex) : Int :=
  blockWork (BigNum.setCompact b.nBits).toInt (getAlgoWeight (getAlgo b.nVersion))

/-- `CBlockIndex::GetBlockWorkBoost`, `src/core.h:1004`, through Boost's decoder. -/
def CBlockIndex.getBlockWorkThroughBoost (b : CBlockIndex) : Int :=
  blockWork (boostBigNumFromCompact b.nBits) (getAlgoWeight (getAlgo b.nVersion))

theorem CBlockIndex.getBlockWork_eq (b : CBlockIndex) : b.getBlockWork = b.getBlockWorkBoost := by
  rw [getBlockWork, BigNum.toInt_setCompact, blockWork, getBlockWorkBoost]
  split
  · rfl
  next hpos =>
  obtain ⟨target, htarget⟩ := Int.eq_ofNat_of_zero_le (Int.le_of_lt (Int.not_le.mp hpos))
  rw [htarget, Int.toNat_natCast, Int.one_mul]
  rfl

/-! ### Encoding -/

theorem compactWord_mono {m n : Nat} (h : m ≤ n) (hbytes : m.signedBytes = n.signedBytes) :
    compactWord m ≤ compactWord n := by
  rw [compactWord, compactWord, hbytes]
  split
  · rw [Nat.shiftLeft_eq, Nat.shiftLeft_eq]
    exact Nat.mul_le_mul_right _ h
  · rw [Nat.shiftRight_eq_div_pow, Nat.shiftRight_eq_div_pow]
    exact Nat.div_le_div_right h

/-- `GetCompact` orders numbers as they are ordered. -/
theorem getCompact_mono {m n : Nat} (h : m ≤ n) (hn : n.signedBytes < 256) :
    (getCompact m).toNat ≤ (getCompact n).toNat := by
  have hle := Nat.signedBytes_mono h
  have htoNat : ∀ x : Nat, 0 < x → x.signedBytes < 256 →
      (getCompact x).toNat = x.signedBytes * 2 ^ 24 + compactWord x := by
    intro x hpos hx
    have hword := compactWord_lt x
    rw [getCompact_natCast hpos hx, BitVec.toNat_ofNat, Nat.mod_eq_of_lt (by omega)]
  rcases Nat.eq_zero_or_pos m with rfl | hm
  · exact Nat.zero_le _
  rw [htoNat m hm (hle.trans_lt hn), htoNat n (hm.trans_le h) hn]
  have hword := compactWord_lt m
  rcases hle.eq_or_lt with heq | hlt
  · have hmono := compactWord_mono h heq
    omega
  · omega

/-- What is left of a number is the largest number not above it that has a compact form. -/
theorem isGreatest_compactFloor {n : Nat} (hn : n.signedBytes < 256) :
    IsGreatest {x : Int | (∃ nBits, setCompact nBits = x) ∧ x ≤ n} n.compactFloor := by
  have hsigned : ∀ x : Nat, x.compactFloor = x → x ≤ n → x ≤ n.compactFloor := by
    intro x hx hle
    rw [← hx]
    exact Nat.compactFloor_mono hle
  constructor
  · exact ⟨⟨getCompact n, setCompact_getCompact hn⟩, by exact_mod_cast Nat.compactFloor_le n⟩
  · rintro x ⟨⟨nBits, rfl⟩, hle⟩
    by_cases hneg : setCompact nBits < 0
    · exact (Int.le_of_lt hneg).trans (Int.natCast_nonneg _)
    · obtain ⟨v, hv, hfloor⟩ := exists_setCompact_eq nBits (Int.not_lt.mp hneg)
      rw [hv] at hle ⊢
      exact_mod_cast hsigned v hfloor (by exact_mod_cast hle)

/-- Decoding, the work of a block and the compact form do not depend on the path. -/
theorem bigNumPaths_agree :
    (∀ nBits, (BigNum.setCompact nBits).toInt = boostBigNumFromCompact nBits) ∧
    (∀ b : CBlockIndex, b.getBlockWork = b.getBlockWorkThroughBoost) ∧
    (∀ n : Nat, n < 2 ^ 256 →
      IsGreatest {x : Int | (∃ nBits, (BigNum.setCompact nBits).toInt = x) ∧ x ≤ n}
        (BigNum.setCompact (getCompact n)).toInt ∧
      ∃ k, (BigNum.setCompact (getCompact n)).toInt = (n / 256 ^ k * 256 ^ k : Nat)) ∧
    (∀ m n : Nat, m ≤ n → n < 2 ^ 256 → (getCompact m).toNat ≤ (getCompact n).toNat) := by
  have hbytes : ∀ n < 2 ^ 256, Nat.signedBytes n < 256 := fun n hn ↦
    signedBytes_lt (hn.trans (by decide))
  refine ⟨fun nBits ↦ ?_, fun b ↦ ?_, fun n hn ↦ ?_, fun m n h hn ↦ getCompact_mono h (hbytes n hn)⟩
  · rw [BigNum.toInt_setCompact, boostBigNumFromCompact_eq]
  · rw [CBlockIndex.getBlockWork, CBlockIndex.getBlockWorkThroughBoost, BigNum.toInt_setCompact,
      boostBigNumFromCompact_eq]
  · simp only [BigNum.toInt_setCompact]
    rw [setCompact_getCompact (hbytes n hn)]
    exact ⟨isGreatest_compactFloor (hbytes n hn), _, rfl⟩

theorem bigNumPaths_agree_sample :
    (BigNum.setCompact 0x1d00ffff).toInt = boostBigNumFromCompact 0x1d00ffff ∧
      (getCompact (0x12345678 : Nat)).toNat ≤ (getCompact (0x12345679 : Nat)).toNat ∧
      ∃ k, (BigNum.setCompact (getCompact (0x12345678 : Nat))).toInt =
        (0x12345678 / 256 ^ k * 256 ^ k : Nat) := by
  obtain ⟨hdecode, -, hround, hmono⟩ := bigNumPaths_agree
  exact ⟨hdecode _, hmono _ _ (by decide) (by decide), (hround _ (by decide)).2⟩

end Bitmark
