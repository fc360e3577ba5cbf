import Mathlib.Data.Nat.Bitwise
import Bitmark.Script.HeightPush
import Bitmark.Script.Interpreter

/-!
# Script numbers

`CScriptNum` (`src/script.h:42–185`) between integers and byte vectors, with the shifts of its
decoder as the types of their operands have them. A vector means its little-endian magnitude with
the high bit of the last byte as the sign.
-/

namespace Bitmark

/-! ### The decoder -/

/-- `x << n`, which has no meaning where `n` is not below the width of `x`. -/
def shiftLeft {w : Nat} (x : BitVec w) (n : Nat) : Access (BitVec w) :=
  if n < w then .ok (x <<< n) else .error .shift

/-- The loop of `CScriptNum::set_vch`. -/
def setVchLoop : Nat → BitVec 64 → Bytes → Access (BitVec 64)
  | _, result, [] => .ok result
  | i, result, b :: vch => do
    let byte ← shiftLeft (b.toBitVec.setWidth 64) (8 * i)
    setVchLoop (i + 1) (result ||| byte) vch

/-- `CScriptNum::set_vch`, `src/script.h:166`. The mask that clears the sign is an `int`. -/
def setVch (vch : Bytes) : Access Int :=
  match vch.getLast? with
  | none => .ok 0
  | some back => do
    let result ← setVchLoop 0 0 vch
    if back &&& 0x80 ≠ 0 then
      let sign ← shiftLeft 0x80#32 (8 * (vch.length - 1))
      .ok (-(result &&& (~~~sign).signExtend 64)).toInt
    else .ok result.toInt

/-- `CScriptNum(vch, nMaxNumSize)`, `src/script.h:58`. -/
def cScriptNum (vch : Bytes) (nMaxNumSize : Nat) : Eval Int :=
  if nMaxNumSize < vch.length then .error .fail else .ofAccess (setVch vch)

/-! ### What a vector means -/

/-- The high bit of the last byte is set. -/
def hasSign (vch : Bytes) : Bool := vch.getLast?.any (· &&& 0x80 ≠ 0)

/-- The integer of a vector in sign and magnitude, the least significant byte first. -/
def signMagnitude (vch : Bytes) : Int :=
  if 2 ^ (8 * vch.length - 1) ≤ leNat vch then -(leNat vch - 2 ^ (8 * vch.length - 1) : Nat)
  else leNat vch

theorem leNat_concat (bs : Bytes) (b : UInt8) :
    leNat (bs ++ [b]) = leNat bs + 2 ^ (8 * bs.length) * b.toNat := by
  induction bs with
  | nil => simp [leNat]
  | cons c bs ih =>
    have hpow : 2 ^ (8 * (bs.length + 1)) = 256 * 2 ^ (8 * bs.length) := by
      rw [Nat.mul_succ, pow_add, Nat.mul_comm]
      rfl
    rw [List.cons_append, leNat, leNat, ih, List.length_cons, hpow, Nat.mul_add, Nat.mul_assoc,
      Nat.add_assoc]

theorem leNat_lt_pow (bs : Bytes) : leNat bs < 2 ^ (8 * bs.length) := by
  have h := leNat_lt bs
  rwa [show (256 : Nat) = 2 ^ 8 from rfl, ← pow_mul] at h

@[simp] theorem hasSign_nil : hasSign [] = false := rfl

@[simp] theorem hasSign_concat (bs : Bytes) (b : UInt8) :
    hasSign (bs ++ [b]) = true ↔ 128 ≤ b.toNat := by
  rw [hasSign, List.getLast?_concat, Option.any_some, decide_eq_true_eq, and_sign_ne_zero]

theorem pow_concat (bs : Bytes) (b : UInt8) :
    2 ^ (8 * (bs ++ [b]).length - 1) = 2 ^ (8 * bs.length) * 128 := by
  rw [List.length_append, List.length_singleton,
    show 8 * (bs.length + 1) - 1 = 8 * bs.length + 7 by omega, pow_add _ _ 7]
  rfl

/-- The sign is the bit above the magnitude. -/
theorem hasSign_iff (vch : Bytes) :
    hasSign vch = true ↔ 2 ^ (8 * vch.length - 1) ≤ leNat vch := by
  induction vch using List.reverseRecOn with
  | nil => simp [leNat]
  | append_singleton bs b =>
    have hlow := leNat_lt_pow bs
    rw [hasSign_concat, leNat_concat, pow_concat]
    constructor
    · intro hb
      exact (Nat.mul_le_mul_left _ hb).trans (Nat.le_add_left _ _)
    · intro h
      by_contra hb
      have hmul : 2 ^ (8 * bs.length) * b.toNat ≤ 2 ^ (8 * bs.length) * 127 :=
        Nat.mul_le_mul_left _ (by omega)
      omega

/-! ### The decoder computes it -/

-- The bits read so far lie below those of the next byte.
private theorem setVchLoop_eq {i : Nat} {result : BitVec 64} {vch : Bytes}
    (hresult : result.toNat < 2 ^ (8 * i)) (hi : 8 * (i + vch.length) ≤ 64) :
    setVchLoop i result vch = .ok (BitVec.ofNat 64 (result.toNat + 2 ^ (8 * i) * leNat vch)) := by
  induction vch generalizing i result with
  | nil => simp [setVchLoop, leNat]
  | cons b vch ih =>
    rw [List.length_cons] at hi
    have hb := b.toNat_lt
    have hpow : 2 ^ (8 * (i + 1)) = 2 ^ (8 * i) * 256 := by
      rw [Nat.mul_succ, pow_add]
      rfl
    have hbound : 2 ^ (8 * (i + 1)) ≤ 2 ^ 64 := Nat.pow_le_pow_right (by decide) (by omega)
    have hfits : 2 ^ (8 * i) * b.toNat + 2 ^ (8 * i) ≤ 2 ^ (8 * (i + 1)) := by
      have := Nat.mul_le_mul_left (2 ^ (8 * i)) (Nat.succ_le_of_lt hb)
      rwa [Nat.mul_succ, ← hpow] at this
    have hbyte : (b.toBitVec.setWidth 64 <<< (8 * i)).toNat = 2 ^ (8 * i) * b.toNat := by
      rw [BitVec.toNat_shiftLeft, BitVec.toNat_setWidth, UInt8.toNat_toBitVec, Nat.shiftLeft_eq,
        Nat.mod_eq_of_lt (by omega : b.toNat < 2 ^ 64), Nat.mul_comm, Nat.mod_eq_of_lt (by omega)]
    have hor : (result ||| b.toBitVec.setWidth 64 <<< (8 * i)).toNat =
        2 ^ (8 * i) * b.toNat + result.toNat := by
      rw [BitVec.toNat_or, hbyte, Nat.or_comm, ← Nat.two_pow_add_eq_or_of_lt hresult]
    rw [setVchLoop, shiftLeft, if_pos (by omega), Access.ok_bind, ih (by omega) (by omega), hor,
      hpow, leNat, Nat.mul_add, ← Nat.mul_assoc]
    congr 2
    omega

-- Up to four bytes the mask keeps every bit below the sign.
private theorem and_mask {k : Nat} (hk : k ≤ 24) {result : BitVec 64}
    (hresult : result.toNat < 2 ^ (k + 8)) :
    (result &&& (~~~(0x80#32 <<< k)).signExtend 64).toNat = result.toNat % 2 ^ (k + 7) := by
  have hlow : ∀ j < 7, (0x80#32).getLsbD j = false := by decide
  apply Nat.eq_of_testBit_eq
  intro i
  rw [Nat.testBit_mod_two_pow, BitVec.testBit_toNat, BitVec.testBit_toNat, BitVec.getLsbD_and,
    BitVec.getLsbD_signExtend]
  by_cases hi : i < k + 7
  · have hmask : (~~~(0x80#32 <<< k)).getLsbD i = true := by
      rw [BitVec.getLsbD_not, BitVec.getLsbD_shiftLeft, hlow (i - k) (by omega)]
      simp
      omega
    rw [if_pos (by omega), hmask]
    simp [hi, show i < 64 by omega]
  by_cases htop : i = k + 7
  · have hmask : (~~~(0x80#32 <<< k)).getLsbD i = false := by
      have hseven : (0x80#32).getLsbD (i - k) = true := by
        rw [htop, Nat.add_sub_cancel_left]
        rfl
      rw [BitVec.getLsbD_not, BitVec.getLsbD_shiftLeft, hseven]
      simp
      omega
    rw [if_pos (by omega), hmask]
    simp [hi]
  · have hnone : result.getLsbD i = false := by
      rw [← BitVec.testBit_toNat]
      apply Nat.testBit_lt_two_pow
      exact hresult.trans_le (Nat.pow_le_pow_right (by decide) (by omega))
    simp [hnone]

/-- The decoder returns what the vector means unless it has to shift the sign of a fifth byte out of
an `int`. -/
theorem setVch_eq {vch : Bytes} (hsize : vch.length ≤ 8) :
    setVch vch = if 4 < vch.length ∧ hasSign vch = true then .error .shift
      else .ok (signMagnitude vch) := by
  induction vch using List.reverseRecOn with
  | nil => rfl
  | append_singleton bs b _ =>
    have hlow := leNat_lt_pow (bs ++ [b])
    have hlength : (bs ++ [b]).length = bs.length + 1 := by simp
    have hword : 2 ^ (8 * (bs ++ [b]).length) ≤ 2 ^ 64 := Nat.pow_le_pow_right (by decide) (by omega)
    have hloop : setVchLoop 0 0 (bs ++ [b]) = .ok (BitVec.ofNat 64 (leNat (bs ++ [b]))) := by
      rw [setVchLoop_eq (by simp) (by omega)]
      simp
    have hnat : (BitVec.ofNat 64 (leNat (bs ++ [b]))).toNat = leNat (bs ++ [b]) := by
      rw [BitVec.toNat_ofNat, Nat.mod_eq_of_lt (by omega)]
    have hmeaning := hasSign_iff (bs ++ [b])
    rw [setVch, List.getLast?_concat]
    dsimp only
    rw [hloop, Access.ok_bind, hlength, Nat.add_sub_cancel]
    by_cases hsign : b &&& 0x80 ≠ 0
    · have hhas : hasSign (bs ++ [b]) = true := by
        rw [hasSign_concat, ← and_sign_ne_zero]
        exact hsign
      rw [if_pos hsign, shiftLeft]
      by_cases hfour : 4 < bs.length + 1
      · rw [if_neg (by omega), if_pos ⟨hfour, hhas⟩]
        rfl
      have hk : 8 * bs.length + 8 = 8 * (bs ++ [b]).length := by omega
      have hfits : (BitVec.ofNat 64 (leNat (bs ++ [b]))).toNat < 2 ^ (8 * bs.length + 8) := by
        rw [hnat, hk]
        exact hlow
      have hmask := and_mask (show 8 * bs.length ≤ 24 by omega) hfits
      rw [if_pos (by omega), Access.ok_bind, if_neg (fun h ↦ hfour h.1), signMagnitude,
        if_pos (hmeaning.mp hhas)]
      have hpow : 2 ^ (8 * bs.length + 8) = 2 * 2 ^ (8 * bs.length + 7) := by
        rw [← pow_succ']
      have hmod : leNat (bs ++ [b]) % 2 ^ (8 * bs.length + 7) =
          leNat (bs ++ [b]) - 2 ^ (8 * bs.length + 7) := by
        have hge := hmeaning.mp hhas
        rw [show 8 * (bs ++ [b]).length - 1 = 8 * bs.length + 7 by omega] at hge
        rw [← hk] at hlow
        rw [Nat.mod_eq_sub_mod hge, Nat.mod_eq_of_lt (by omega)]
      rw [hnat, hmod] at hmask
      have hsmall : 2 ^ (8 * bs.length + 7) ≤ 2 ^ 31 := Nat.pow_le_pow_right (by decide) (by omega)
      have hmagnitude : leNat (bs ++ [b]) - 2 ^ (8 * bs.length + 7) < 2 ^ (8 * bs.length + 7) := by
        rw [← hk] at hlow
        omega
      rw [BitVec.toInt_neg, BitVec.toInt_eq_toNat_of_lt (by omega), hmask,
        Int.bmod_eq_of_le (by omega) (by omega),
        show 8 * (bs ++ [b]).length - 1 = 8 * bs.length + 7 by omega]
    · have hhas : ¬ hasSign (bs ++ [b]) = true := by
        rw [hasSign_concat, ← and_sign_ne_zero]
        exact hsign
      have hlt : leNat (bs ++ [b]) < 2 ^ 63 :=
        (Nat.lt_of_not_le fun h ↦ hhas (hmeaning.mpr h)).trans_le
          (Nat.pow_le_pow_right (by decide) (by omega))
      rw [if_neg hsign, if_neg (fun h ↦ hhas h.2), signMagnitude,
        if_neg (fun h ↦ hhas (hmeaning.mpr h)), BitVec.toInt_eq_toNat_of_lt (by omega), hnat]

/-- The interpreter's operands are what the decoder returns. -/
theorem scriptNum_eq (vch : Bytes) {nMaxNumSize : Nat} (hmax : nMaxNumSize ≤ 8) :
    scriptNum vch nMaxNumSize = cScriptNum vch nMaxNumSize := by
  have hback : (vch.getLast?.getD 0) &&& 0x80 = 0 ↔ ¬ hasSign vch = true := by
    induction vch using List.reverseRecOn with
    | nil => decide
    | append_singleton bs b _ =>
      rw [hasSign_concat, ← and_sign_ne_zero, List.getLast?_concat, not_not]
      rfl
  rw [scriptNum, cScriptNum]
  split
  · rfl
  next hsize =>
  have hlt := leNat_lt_pow vch
  rw [setVch_eq (by omega), signMagnitude]
  by_cases hsign : hasSign vch = true
  · have hge := (hasSign_iff vch).mp hsign
    rw [if_neg (fun h ↦ hback.mp h hsign), if_pos hge]
    by_cases hfour : 4 < vch.length
    · rw [if_pos hfour, if_pos ⟨hfour, hsign⟩]
      rfl
    · have hne : vch ≠ [] := by
        rintro rfl
        cases hsign
      have hpos := List.length_pos_iff.mpr hne
      have hpow : 2 ^ (8 * vch.length) = 2 * 2 ^ (8 * vch.length - 1) := by
        rw [← pow_succ', show 8 * vch.length - 1 + 1 = 8 * vch.length by omega]
      rw [if_neg hfour, if_neg (fun h ↦ hfour h.1), Nat.mod_eq_sub_mod hge,
        Nat.mod_eq_of_lt (by omega)]
      rfl
  · rw [if_pos (hback.mpr hsign), if_neg (fun h ↦ hsign h.2),
      if_neg (fun h ↦ hsign ((hasSign_iff vch).mpr h))]
    rfl

/-! ### The encoder writes it -/

private theorem pow_le_of_magnitudeBytes {fuel a : Nat} (ha : a ≠ 0) (hfuel : a < 256 ^ fuel) :
    2 ^ (8 * ((magnitudeBytes fuel a).length - 1)) ≤ a := by
  induction fuel generalizing a with
  | zero =>
    rw [pow_zero] at hfuel
    omega
  | succ fuel ih =>
    rw [magnitudeBytes, if_neg ha, List.length_cons, Nat.add_sub_cancel]
    by_cases hone : a / 256 = 0
    · have hnil : magnitudeBytes fuel (a / 256) = [] := by
        cases fuel with
        | zero => rfl
        | succ fuel => rw [magnitudeBytes, if_pos hone]
      rw [hnil]
      exact Nat.one_le_iff_ne_zero.mpr ha
    · have hrest := ih hone (Nat.div_lt_of_lt_mul (by rwa [pow_succ, Nat.mul_comm] at hfuel))
      rcases Nat.eq_zero_or_pos (magnitudeBytes fuel (a / 256)).length with hzero | hpos
      · rw [hzero]
        exact Nat.one_le_iff_ne_zero.mpr ha
      · have hpow : 2 ^ (8 * (magnitudeBytes fuel (a / 256)).length) =
            2 ^ (8 * ((magnitudeBytes fuel (a / 256)).length - 1)) * 256 := by
          rw [show 8 * (magnitudeBytes fuel (a / 256)).length =
            8 * ((magnitudeBytes fuel (a / 256)).length - 1) + 8 by omega, pow_add]
          rfl
        rw [hpow]
        exact (Nat.le_div_iff_mul_le (by decide)).mp hrest

/-- The code of a number that is not zero: it means the number, and no shorter one could. -/
structure Encodes (value : Int) (vch : Bytes) : Prop where
  nonempty : 0 < vch.length
  leNat_eq : leNat vch = value.natAbs + if value < 0 then 2 ^ (8 * vch.length - 1) else 0
  fits : value.natAbs < 2 ^ (8 * vch.length - 1)
  shortest : 1 < vch.length → 2 ^ (8 * (vch.length - 1) - 1) ≤ value.natAbs

private theorem Encodes.concat {value : Int} {bs : Bytes} {b : UInt8}
    (hcode : leNat bs + 2 ^ (8 * bs.length) * b.toNat =
      value.natAbs + if value < 0 then 2 ^ (8 * bs.length) * 128 else 0)
    (hfits : value.natAbs < 2 ^ (8 * bs.length) * 128)
    (hshortest : 0 < bs.length → 2 ^ (8 * bs.length - 1) ≤ value.natAbs) :
    Encodes value (bs ++ [b]) := by
  constructor
  · rw [List.length_append, List.length_singleton]
    exact Nat.succ_pos _
  · rw [leNat_concat, pow_concat, hcode]
  · rw [pow_concat]
    exact hfits
  · rw [List.length_append, List.length_singleton, Nat.add_sub_cancel]
    intro h
    exact hshortest (by omega)

theorem encodes_scriptNumSerialize {value : Int} (hne : value ≠ 0) (hsize : value.natAbs < 2 ^ 64) :
    Encodes value (scriptNumSerialize value) := by
  have hpos : value.natAbs ≠ 0 := Int.natAbs_ne_zero.mpr hne
  have hvalue : leNat (magnitudeBytes 8 value.natAbs) = value.natAbs := leNat_magnitudeBytes hsize
  have hlow := pow_le_of_magnitudeBytes hpos (show value.natAbs < 256 ^ 8 from hsize)
  unfold scriptNumSerialize
  generalize magnitudeBytes 8 value.natAbs = bytes at hvalue hlow
  induction bytes using List.reverseRecOn with
  | nil => exact absurd hvalue.symm hpos
  | append_singleton bs top _ =>
    have hinit := leNat_lt_pow bs
    have hlength : (bs ++ [top]).length = bs.length + 1 := by simp
    rw [hlength, Nat.add_sub_cancel] at hlow
    dsimp only
    rw [List.getLast?_concat]
    dsimp only
    by_cases hfull : top &&& 0x80 ≠ 0
    · -- the sign takes a byte of its own
      have hmul := Nat.mul_le_mul_left (2 ^ (8 * bs.length)) ((and_sign_ne_zero top).mp hfull)
      have hall := leNat_lt_pow (bs ++ [top])
      have hpow := pow_concat bs top
      rw [if_pos hfull]
      apply Encodes.concat
      · rw [hvalue]
        by_cases hneg : value < 0
        · rw [if_pos hneg, if_pos hneg]
          rfl
        · rw [if_neg hneg, if_neg hneg]
          rfl
      · rw [← hvalue]
        omega
      · intro _
        rw [hpow, ← hvalue, leNat_concat]
        omega
    · have hsmall : top.toNat ≤ 127 := by
        have := mt (and_sign_ne_zero top).mpr hfull
        omega
      have hmul := Nat.mul_le_mul_left (2 ^ (8 * bs.length)) hsmall
      have hlow' : 0 < bs.length → 2 ^ (8 * bs.length - 1) ≤ value.natAbs := by
        intro _
        exact (Nat.pow_le_pow_right (by decide) (by omega)).trans hlow
      rw [leNat_concat] at hvalue
      rw [if_neg hfull]
      by_cases hneg : value < 0
      · have hbyte : (top ||| 0x80).toNat = top.toNat + 128 := by
          have hor := Nat.two_pow_add_eq_or_of_lt (show top.toNat < 2 ^ 7 by omega) 1
          rw [UInt8.toNat_or, Nat.or_comm]
          exact hor.symm.trans (Nat.add_comm _ _)
        rw [if_pos hneg, List.dropLast_concat]
        apply Encodes.concat
        · rw [hbyte, Nat.mul_add, if_pos hneg, ← Nat.add_assoc, hvalue]
        · omega
        · exact hlow'
      · rw [if_neg hneg]
        apply Encodes.concat
        · rw [if_neg hneg, hvalue]
          rfl
        · omega
        · exact hlow'

theorem Encodes.signMagnitude_eq {value : Int} {vch : Bytes} (h : Encodes value vch) :
    signMagnitude vch = value := by
  have hcode := h.leNat_eq
  have hfits := h.fits
  rw [signMagnitude, hcode]
  by_cases hneg : value < 0
  · rw [if_pos hneg, if_pos (Nat.le_add_left _ _), Nat.add_sub_cancel]
    omega
  · rw [if_neg hneg, Nat.add_zero, if_neg (by omega)]
    omega

theorem Encodes.hasSign_iff {value : Int} {vch : Bytes} (h : Encodes value vch) :
    hasSign vch = true ↔ value < 0 := by
  have hcode := h.leNat_eq
  have hfits := h.fits
  rw [Bitmark.hasSign_iff, hcode]
  by_cases hneg : value < 0
  · rw [if_pos hneg]
    exact iff_of_true (Nat.le_add_left _ _) hneg
  · rw [if_neg hneg]
    exact iff_of_false (by omega) hneg

/-- The code has at most `w` bytes exactly if the magnitude leaves their highest bit free. -/
theorem Encodes.length_le_iff {value : Int} {vch : Bytes} (h : Encodes value vch) {w : Nat}
    (hw : 0 < w) : vch.length ≤ w ↔ value.natAbs < 2 ^ (8 * w - 1) := by
  constructor
  · intro hle
    exact h.fits.trans_le (Nat.pow_le_pow_right (by decide) (by omega))
  · intro hlt
    by_contra hlong
    have hshort := h.shortest (by omega)
    have hpow : 2 ^ (8 * w - 1) ≤ 2 ^ (8 * (vch.length - 1) - 1) :=
      Nat.pow_le_pow_right (by decide) (by omega)
    omega

/-! ### Both ways -/

/-- A number of the range that four or five bytes hold comes back from its code, and a vector of so
many bytes is read as what it means, unless the vector has five bytes and a sign. The codes that
have these are those of the numbers from `-2 ^ 31` down. -/
theorem scriptNum_iff {w : Nat} (hw : w = 4 ∨ w = 5) :
    (∀ n : Int, n.natAbs < 2 ^ (8 * w - 1) →
      (cScriptNum (scriptNumSerialize n) w = .ok n ↔ -2 ^ 31 < n)) ∧
    (∀ vch : Bytes, vch.length ≤ w →
      (cScriptNum vch w = .ok (signMagnitude vch) ↔ ¬ (vch.length = 5 ∧ hasSign vch = true))) := by
  have hdecode : ∀ vch : Bytes, vch.length ≤ w → ∀ n,
      (cScriptNum vch w = .ok n ↔ ¬ (4 < vch.length ∧ hasSign vch = true) ∧ signMagnitude vch = n) := by
    intro vch hlength n
    rw [cScriptNum, if_neg (by omega), setVch_eq (by omega)]
    split
    · next hfault =>
      constructor
      · intro h
        cases h
      · intro h
        exact absurd hfault h.1
    · next hok =>
      constructor
      · intro h
        exact ⟨hok, Except.ok.inj h⟩
      · rintro ⟨-, rfl⟩
        rfl
  constructor
  · intro n hn
    rcases eq_or_ne n 0 with rfl | hne
    · exact iff_of_true ((hdecode [] (Nat.zero_le w) 0).mpr (by decide)) (by decide)
    have hcode := encodes_scriptNumSerialize hne
      (hn.trans_le (Nat.pow_le_pow_right (by decide) (by omega)))
    have hfour : 4 < (scriptNumSerialize n).length ↔ ¬ n.natAbs < 2 ^ 31 := by
      rw [← Nat.not_le, hcode.length_le_iff (by decide)]
    rw [hdecode _ ((hcode.length_le_iff (by omega)).mpr hn), hfour, hcode.hasSign_iff]
    constructor
    · rintro ⟨h, -⟩
      omega
    · intro h
      exact ⟨by omega, hcode.signMagnitude_eq⟩
  · intro vch hlength
    rw [hdecode vch hlength]
    constructor
    · rintro ⟨h, -⟩ ⟨hfive, hsign⟩
      exact h ⟨by omega, hsign⟩
    · intro h
      exact ⟨fun ⟨hfive, hsign⟩ ↦ h ⟨by omega, hsign⟩, rfl⟩

theorem scriptNum_iff_sample :
    (cScriptNum (scriptNumSerialize (-1000)) 4 = .ok (-1000) ↔ (-2 ^ 31 : Int) < -1000) ∧
      (cScriptNum [0, 0, 0, 0, 1] 5 = .ok (signMagnitude [0, 0, 0, 0, 1]) ↔
        ¬ (5 = 5 ∧ hasSign [0, 0, 0, 0, 1] = true)) :=
  ⟨(scriptNum_iff (.inl rfl)).1 (-1000) (by decide),
    (scriptNum_iff (.inr rfl)).2 [0, 0, 0, 0, 1] (by decide)⟩

/-- A lock time of `-2 ^ 31` is written in five bytes, and reading them shifts an `int` by its
width. -/
theorem cScriptNum_shift :
    ¬ ∀ n : Int, n.natAbs < 2 ^ (8 * 5 - 1) → cScriptNum (scriptNumSerialize n) 5 = .ok n := by
  intro h
  have hread := h (-2 ^ 31) (by decide)
  cases hread

end Bitmark
