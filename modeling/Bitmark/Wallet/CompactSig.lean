import Bitmark.Lib.Scalars
import Bitmark.Wallet.CurveOrder

/-!
# Compact signatures

`CKey::SignCompact` looks for the number that leads `ECDSA_SIG_recover_key_GFp` from its signature
back to its key and writes it into the first byte; `CPubKey::RecoverCompact` and
`CPubKey::VerifyCompact` read it (`src/key.cpp:70–145`, `308–362` and `638–719`). The signature that
OpenSSL makes is the one of the mathematics, for whatever nonce it has drawn.
-/

namespace Bitmark

open Scalars

/-- The prime of the field of secp256k1. -/
def fieldPrime : ℕ := 0xFFFFFFFFFFFFFFFFFFFFFFFFFFFFFFFFFFFFFFFFFFFFFFFFFFFFFFFEFFFFFC2F

/-- The coordinates of the points, and `EC_POINT_set_compressed_coordinates_GFp`. The point at
infinity has no octets that a `CPubKey` takes. -/
structure EcdsaCrypto (G : Type*) [AddCommGroup G] extends CurveCrypto G where
  xCoord : G → ℕ
  yOdd : G → Bool
  setCompressed : (x : ℕ) → (yBit : Bool) → Option G
  xCoord_lt : ∀ {point}, point ≠ 0 → xCoord point < fieldPrime
  setCompressed_eq_some : ∀ {x yBit point}, setCompressed x yBit = some point ↔
    point ≠ 0 ∧ xCoord point = x ∧ yOdd point = yBit
  pubKeyIsValid_infinity : ∀ fCompressed, pubKeyIsValid (toOctets 0 fCompressed) = false

section Recover

variable {G : Type*} [AddCommGroup G] [DecidableEq G] (C : EcdsaCrypto G)

/-- The number that a hash is signed as: `BN_bin2bn` of its 32 bytes. -/
def signedNumber (hash : Uint256) : ℕ := beNat (bytes256 hash)

/-- `ECDSA_do_sign` with the nonce `k`; another nonce is drawn where there is no signature. -/
def ecdsaDoSign (vchSecret : Bytes) (hash : Uint256) (k : ℕ) : Option (ℕ × ℕ) :=
  let r := C.xCoord (k • C.generator) % curveOrder
  let s := ((k : ZMod curveOrder)⁻¹ * (signedNumber hash + r * beNat vchSecret)).val
  if k % curveOrder = 0 ∨ r = 0 ∨ s = 0 then none else some (r, s)

/-- `BN_mod_inverse`. -/
def bnModInverse (a : ℕ) : Option ℕ :=
  if Nat.Coprime a curveOrder then some (a : ZMod curveOrder)⁻¹.val else none

/-- `ECDSA_SIG_recover_key_GFp`, `src/key.cpp:70`. The hash has as many bits as the order. -/
def ecdsaSigRecoverKey (r s : ℕ) (hash : Uint256) (recid : ℕ) (check : Bool) : Option G :=
  let i := recid / 2
  let x := curveOrder * i + r
  if fieldPrime ≤ x then none
  else
    (C.setCompressed x (recid % 2 = 1)).bind fun R ↦
      if check && curveOrder • R ≠ 0 then none
      else
        let e := (-(signedNumber hash : ZMod curveOrder)).val
        (bnModInverse r).bind fun rr ↦
          let sor := s * rr % curveOrder
          let eor := e * rr % curveOrder
          some (eor • C.generator + sor • R)

/-- `CECKey::GetPubKey` of a point. -/
def ecKeyGetPubKey (point : G) (fCompressed : Bool) : HeldPubKey :=
  CPubKey.set (C.toOctets point fCompressed)

/-- The test in the loop of `CECKey::SignCompact`. -/
def recoversTo (r s : ℕ) (hash : Uint256) (pubkey : HeldPubKey) (i : ℕ) : Bool :=
  (ecdsaSigRecoverKey C r s hash i true).any fun point ↦ ecKeyGetPubKey C point true = pubkey

/-- `CECKey::SignCompact`, `src/key.cpp:308`, with the signature `sig`; the outer `none` is its
assertion. -/
def ecKeySignCompact (vchSecret : Bytes) (hash : Uint256) (sig : Option (ℕ × ℕ)) :
    Option (Option (Bytes × ℕ)) :=
  match sig with
  | none => some none
  | some (r, s) =>
    if r < 2 ^ 256 ∧ s < 2 ^ 256 then
      let pubkey := ecKeyGetPubKey C (beNat vchSecret • C.generator) true
      match (List.range 4).find? (recoversTo C r s hash pubkey) with
      | none => none
      | some rec => some (some (beBytes 32 r ++ beBytes 32 s, rec))
    else some none

/-- `CKey::SignCompact`, `src/key.cpp:638`, with the nonce `k`; the outer `none` is an assertion,
the inner one a failure. -/
def CKey.signCompact (key : CKey) (hash : Uint256) (k : ℕ) : Option (Option Bytes) :=
  if !key.fValid then some none
  else do
    match ← ecKeySignCompact C key.vch hash (ecdsaDoSign C key.vch hash k) with
    | none => some none
    | some (p64, rec) => some (some (UInt8.ofNat (27 + rec + if key.fCompressed then 4 else 0) :: p64))

/-- `vchSig[0] - 27`, an `int`. -/
def headerNumber (vchSig : Bytes) : BitVec 32 := BitVec.ofNat 32 (vchSig.getD 0 0).toNat - 27

/-- `CECKey::Recover`, `src/key.cpp:346`. -/
def ecKeyRecover (hash : Uint256) (p64 : Bytes) (rec : BitVec 32) : Option G :=
  if rec.slt 0 || (3 : BitVec 32).sle rec then none
  else ecdsaSigRecoverKey C (beNat (p64.take 32)) (beNat (p64.drop 32)) hash rec.toNat false

/-- `CPubKey::RecoverCompact`, `src/key.cpp:696`: the key it sets when it succeeds. -/
def recoverCompact (hash : Uint256) (vchSig : Bytes) : Option HeldPubKey :=
  if vchSig.length ≠ 65 then none
  else
    (ecKeyRecover C hash (vchSig.drop 1) (headerNumber vchSig &&& ~~~4)).map fun point ↦
      ecKeyGetPubKey C point (headerNumber vchSig &&& 4 ≠ 0)

/-- `CPubKey::VerifyCompact`, `src/key.cpp:706`. -/
def verifyCompact (pubkey : HeldPubKey) (hash : Uint256) (vchSig : Bytes) : Bool :=
  pubKeyIsValid pubkey.val && vchSig.length = 65 &&
    (ecKeyRecover C hash (vchSig.drop 1) (headerNumber vchSig &&& ~~~4)).any fun point ↦
      pubkey = ecKeyGetPubKey C point pubkey.val.isCompressed

end Recover

/-! ### The signature equation -/

section Signed

variable {G : Type*} [AddCommGroup G] (C : EcdsaCrypto G)

/-- What a signature with the nonce `k` satisfies. -/
structure Signed (vchSecret : Bytes) (hash : Uint256) (k r s : ℕ) : Prop where
  point_ne_zero : k • C.generator ≠ 0
  r_eq : r = C.xCoord (k • C.generator) % curveOrder
  r_ne_zero : (r : ZMod curveOrder) ≠ 0
  s_lt : s < curveOrder
  s_ne_zero : (s : ZMod curveOrder) ≠ 0
  equation : (s : ZMod curveOrder) * k = signedNumber hash + r * (beNat vchSecret : ℕ)

variable {C} {vchSecret : Bytes} {hash : Uint256} {k r s : ℕ}

theorem natCast_ne_zero {a : ℕ} (hpos : a ≠ 0) (hlt : a < curveOrder) : (a : ZMod curveOrder) ≠ 0 := by
  rw [Ne, ZMod.natCast_eq_zero_iff]
  exact fun hdvd ↦ hpos (Nat.eq_zero_of_dvd_of_lt hdvd hlt)

theorem signed_of_ecdsaDoSign (h : ecdsaDoSign C vchSecret hash k = some (r, s)) :
    Signed C vchSecret hash k r s := by
  rw [ecdsaDoSign] at h
  simp only [Option.ite_none_left_eq_some, not_or, Option.some.injEq, Prod.mk.injEq] at h
  obtain ⟨⟨hk, hr, hs⟩, rfl, rfl⟩ := h
  have hkz : (k : ZMod curveOrder) ≠ 0 := by
    rw [Ne, ZMod.natCast_eq_zero_iff, Nat.dvd_iff_mod_eq_zero]
    exact hk
  refine ⟨?_, rfl, natCast_ne_zero hr (Nat.mod_lt _ curveOrder_pos), ZMod.val_lt _,
    natCast_ne_zero hs (ZMod.val_lt _), ?_⟩
  · rw [Ne, C.smul_generator_eq_zero_iff]
    exact hk
  · rw [ZMod.natCast_zmod_val, mul_comm, mul_inv_cancel_left₀ hkz]

/-! ### Which number recovers the key -/

/-- The number of a point: whether its x-coordinate reaches the order, and the bit of y. -/
def recoveryId (C : EcdsaCrypto G) (point : G) : ℕ :=
  2 * (C.xCoord point / curveOrder) + (C.yOdd point).toNat

theorem recoveryId_lt {point : G} (h : point ≠ 0) : recoveryId C point < 4 := by
  have hx : C.xCoord point / curveOrder < 2 :=
    Nat.div_lt_of_lt_mul ((C.xCoord_lt h).trans (by decide))
  have hy := (C.yOdd point).toNat_lt
  unfold recoveryId
  omega

/-- The only number that is refused is that of a point with odd y whose x-coordinate reaches the
order. -/
theorem recoveryId_eq_three_iff {point : G} (h : point ≠ 0) :
    recoveryId C point = 3 ↔ curveOrder ≤ C.xCoord point ∧ C.yOdd point = true := by
  have hx : C.xCoord point / curveOrder < 2 :=
    Nat.div_lt_of_lt_mul ((C.xCoord_lt h).trans (by decide))
  have hone : curveOrder ≤ C.xCoord point ↔ 1 ≤ C.xCoord point / curveOrder := by
    rw [Nat.le_div_iff_mul_le curveOrder_pos, Nat.one_mul]
  rw [hone, recoveryId]
  cases C.yOdd point with
  | false => simp; omega
  | true => simp; omega

theorem order_smul_multiple (k : ℕ) : curveOrder • k • C.generator = 0 := by
  rw [← mul_nsmul', C.smul_generator_eq_zero_iff, Nat.mul_mod_right]

/-- What is multiplied in the recovery, by residues. -/
def recoveredPoint (C : EcdsaCrypto G) (hash : Uint256) (r s : ℕ) (R : G) : G :=
  (-(signedNumber hash : ZMod curveOrder) * (r : ZMod curveOrder)⁻¹).val • C.generator +
    ((s : ZMod curveOrder) * (r : ZMod curveOrder)⁻¹).val • R

/-- From the point of the nonce the key is recovered. -/
theorem Signed.recoveredPoint_eq (h : Signed C vchSecret hash k r s) :
    recoveredPoint C hash r s (k • C.generator) = beNat vchSecret • C.generator := by
  have hgenerator : curveOrder • C.generator = 0 := by
    rw [C.smul_generator_eq_zero_iff, Nat.mod_self]
  rw [recoveredPoint, solve h.r_ne_zero h.equation hgenerator, ZMod.val_natCast,
    C.mod_smul_generator]

theorem Signed.r_lt (h : Signed C vchSecret hash k r s) : r < curveOrder := by
  rw [h.r_eq]
  exact Nat.mod_lt _ curveOrder_pos

/-- From another point another key is recovered. -/
theorem Signed.eq_of_recoveredPoint (h : Signed C vchSecret hash k r s) {R : G}
    (horder : curveOrder • R = 0)
    (hR : recoveredPoint C hash r s R = beNat vchSecret • C.generator) : R = k • C.generator := by
  rw [← h.recoveredPoint_eq] at hR
  refine smul_left_cancel ?_ horder (order_smul_multiple k) (add_left_cancel hR)
  rw [ZMod.natCast_zmod_val]
  exact mul_ne_zero h.s_ne_zero (inv_ne_zero h.r_ne_zero)

theorem ecKeyGetPubKey_inj {point point' : G} (h : point ≠ 0) {fCompressed : Bool}
    (heq : ecKeyGetPubKey C point' fCompressed = ecKeyGetPubKey C point fCompressed) :
    point' = point := by
  have hval := congrArg Subtype.val heq
  unfold ecKeyGetPubKey at hval
  rw [CPubKey.val_set_toOctets C.toCurveCrypto h] at hval
  have hpoint' : point' ≠ 0 := by
    rintro rfl
    have hinfinity : (CPubKey.set (C.toOctets 0 fCompressed)).val = [] :=
      if_neg (by rw [C.pubKeyIsValid_infinity]; exact Bool.false_ne_true)
    have hlength := C.length_toOctets fCompressed h
    rw [← hval, hinfinity] at hlength
    cases fCompressed with
    | false => cases hlength
    | true => cases hlength
  rw [CPubKey.val_set_toOctets C.toCurveCrypto hpoint'] at hval
  have hread := C.ofOctets_toOctets fCompressed hpoint'
  rw [hval, C.ofOctets_toOctets fCompressed h] at hread
  exact (Option.some.inj hread).symm

/-- What `SignCompact` writes for a valid key. -/
def compactSignature (C : EcdsaCrypto G) (key : CKey) (k r s : ℕ) : Bytes :=
  UInt8.ofNat (27 + recoveryId C (k • C.generator) + if key.fCompressed then 4 else 0) ::
    (beBytes 32 r ++ beBytes 32 s)

theorem length_compactSignature {key : CKey} (k r s : ℕ) : (compactSignature C key k r s).length = 65 := by
  rw [compactSignature, List.length_cons, List.length_append, length_beBytes, length_beBytes]

end Signed

section RecoveryId

variable {G : Type*} [AddCommGroup G] [DecidableEq G] {C : EcdsaCrypto G} {vchSecret : Bytes}
  {hash : Uint256} {k r s : ℕ}

/-- The recovery of a signed hash. -/
theorem Signed.recover_eq (h : Signed C vchSecret hash k r s) (recid : ℕ) (check : Bool) :
    ecdsaSigRecoverKey C r s hash recid check =
      if fieldPrime ≤ curveOrder * (recid / 2) + r then none
      else
        (C.setCompressed (curveOrder * (recid / 2) + r) (recid % 2 = 1)).bind fun R ↦
          if check && curveOrder • R ≠ 0 then none else some (recoveredPoint C hash r s R) := by
  have hrr : bnModInverse r = some (r : ZMod curveOrder)⁻¹.val := by
    refine if_pos ((Nat.Prime.coprime_iff_not_dvd prime_curveOrder).mpr ?_).symm
    rw [← ZMod.natCast_eq_zero_iff]
    exact h.r_ne_zero
  have hpoint : ∀ R, recoveredPoint C hash r s R =
      ((-(signedNumber hash : ZMod curveOrder)).val * (r : ZMod curveOrder)⁻¹.val % curveOrder) •
          C.generator +
        (s * (r : ZMod curveOrder)⁻¹.val % curveOrder) • R := by
    intro R
    rw [recoveredPoint, ZMod.val_mul, ZMod.val_mul, ZMod.val_natCast_of_lt h.s_lt]
  simp only [hpoint]
  rw [ecdsaSigRecoverKey, hrr]
  rfl

/-- The number of the nonce's point recovers the key. -/
theorem Signed.recover_recoveryId (h : Signed C vchSecret hash k r s) (check : Bool) :
    ecdsaSigRecoverKey C r s hash (recoveryId C (k • C.generator)) check =
      some (beNat vchSecret • C.generator) := by
  have hbit := (C.yOdd (k • C.generator)).toNat_lt
  have hx : curveOrder * (recoveryId C (k • C.generator) / 2) + r =
      C.xCoord (k • C.generator) := by
    have hdiv : recoveryId C (k • C.generator) / 2 = C.xCoord (k • C.generator) / curveOrder := by
      unfold recoveryId
      omega
    rw [hdiv, h.r_eq, Nat.div_add_mod]
  have hy : decide (recoveryId C (k • C.generator) % 2 = 1) = C.yOdd (k • C.generator) := by
    unfold recoveryId
    cases C.yOdd (k • C.generator) with
    | false => simp
    | true => simp [Nat.add_mod]
  have hpoint : C.setCompressed (C.xCoord (k • C.generator)) (C.yOdd (k • C.generator)) =
      some (k • C.generator) := C.setCompressed_eq_some.mpr ⟨h.point_ne_zero, rfl, rfl⟩
  rw [h.recover_eq, hx, if_neg (not_le.mpr (C.xCoord_lt h.point_ne_zero)), hy, hpoint,
    Option.bind_some, if_neg (by simp [order_smul_multiple]), h.recoveredPoint_eq]

/-- Only the number of the nonce's point recovers the key. -/
theorem Signed.recoveryId_eq (h : Signed C vchSecret hash k r s) {recid : ℕ}
    (hrecover : ecdsaSigRecoverKey C r s hash recid true = some (beNat vchSecret • C.generator)) :
    recid = recoveryId C (k • C.generator) := by
  rw [h.recover_eq, Option.ite_none_left_eq_some] at hrecover
  obtain ⟨R, hR, hcheck⟩ := Option.bind_eq_some_iff.mp hrecover.2
  rw [Option.ite_none_left_eq_some, Bool.true_and, decide_eq_true_iff, not_not] at hcheck
  obtain rfl := h.eq_of_recoveredPoint hcheck.1 (Option.some.inj hcheck.2)
  obtain ⟨-, hx, hy⟩ := C.setCompressed_eq_some.mp hR
  have hdiv : C.xCoord (k • C.generator) / curveOrder = recid / 2 := by
    rw [hx, Nat.mul_add_div curveOrder_pos, Nat.div_eq_of_lt h.r_lt, Nat.add_zero]
  rw [recoveryId, hdiv, hy]
  rcases Nat.mod_two_eq_zero_or_one recid with heven | hodd
  · rw [heven]
    simp
    omega
  · rw [hodd]
    simp
    omega

/-! ### The first byte -/

theorem Signed.recoversTo_iff (h : Signed C vchSecret hash k r s)
    (hpoint : beNat vchSecret • C.generator ≠ 0) {i : ℕ} :
    recoversTo C r s hash (ecKeyGetPubKey C (beNat vchSecret • C.generator) true) i = true ↔
      i = recoveryId C (k • C.generator) := by
  constructor
  · intro htest
    obtain ⟨point, hrecover, heq⟩ := (Option.any_eq_true _ _).mp htest
    rw [ecKeyGetPubKey_inj hpoint (decide_eq_true_iff.mp heq)] at hrecover
    exact h.recoveryId_eq hrecover
  · rintro rfl
    rw [recoversTo, h.recover_recoveryId, Option.any_some, decide_eq_true rfl]

/-- The loop of `SignCompact` ends with the number of the nonce's point. -/
theorem Signed.signCompact_eq (h : Signed C vchSecret hash k r s)
    (hpoint : beNat vchSecret • C.generator ≠ 0) :
    ecKeySignCompact C vchSecret hash (some (r, s)) =
      some (some (beBytes 32 r ++ beBytes 32 s, recoveryId C (k • C.generator))) := by
  have hbits : r < 2 ^ 256 ∧ s < 2 ^ 256 :=
    ⟨h.r_lt.trans curveOrder_lt, h.s_lt.trans curveOrder_lt⟩
  have hfind : (List.range 4).find?
      (recoversTo C r s hash (ecKeyGetPubKey C (beNat vchSecret • C.generator) true)) =
        some (recoveryId C (k • C.generator)) := by
    cases hfind : (List.range 4).find? _ with
    | none =>
      have hmem := List.mem_range.mpr (recoveryId_lt (C := C) h.point_ne_zero)
      exact absurd ((h.recoversTo_iff hpoint).mpr rfl) (List.find?_eq_none.mp hfind _ hmem)
    | some recid => exact congrArg some ((h.recoversTo_iff hpoint).mp (List.find?_some hfind))
  rw [ecKeySignCompact]
  simp only [if_pos hbits, hfind]

/-- The first byte is read as it was written. -/
theorem headerNumber_and {recid : ℕ} (h : recid < 4) (fCompressed : Bool) (p64 : Bytes) :
    headerNumber (UInt8.ofNat (27 + recid + if fCompressed then 4 else 0) :: p64) &&& ~~~4 =
        BitVec.ofNat 32 recid ∧
      decide (headerNumber (UInt8.ofNat (27 + recid + if fCompressed then 4 else 0) :: p64) &&& 4 ≠ 0) =
        fCompressed := by
  simp only [headerNumber, List.getD_cons_zero]
  interval_cases recid <;> cases fCompressed <;> decide

/-- `Recover` refuses the number three. -/
theorem Signed.ecKeyRecover_eq (h : Signed C vchSecret hash k r s) :
    ecKeyRecover C hash (beBytes 32 r ++ beBytes 32 s)
        (BitVec.ofNat 32 (recoveryId C (k • C.generator))) =
      if recoveryId C (k • C.generator) = 3 then none else some (beNat vchSecret • C.generator) := by
  have hr : beNat ((beBytes 32 r ++ beBytes 32 s).take 32) = r := by
    rw [List.take_left' (length_beBytes 32 r), beNat_beBytes (h.r_lt.trans curveOrder_lt)]
  have hs : beNat ((beBytes 32 r ++ beBytes 32 s).drop 32) = s := by
    rw [List.drop_left' (length_beBytes 32 r), beNat_beBytes (h.s_lt.trans curveOrder_lt)]
  have hlt := recoveryId_lt (C := C) h.point_ne_zero
  have hrange : ∀ recid < 4, ((BitVec.ofNat 32 recid).slt 0 ||
      (3 : BitVec 32).sle (BitVec.ofNat 32 recid)) = decide (recid = 3) := by decide
  have htoNat : (BitVec.ofNat 32 (recoveryId C (k • C.generator))).toNat =
      recoveryId C (k • C.generator) := by
    rw [BitVec.toNat_ofNat, Nat.mod_eq_of_lt (by omega)]
  rw [ecKeyRecover, hrange _ hlt, htoNat, hr, hs, h.recover_recoveryId]
  simp only [decide_eq_true_eq]

variable {key : CKey}

theorem CKey.signCompact_eq (hvalid : key.fValid = true)
    (hsig : ecdsaDoSign C key.vch hash k = some (r, s)) :
    key.signCompact C hash k = some (some (compactSignature C key k r s)) := by
  have hsigned := signed_of_ecdsaDoSign hsig
  rw [CKey.signCompact, hvalid, if_neg (by decide), hsig,
    hsigned.signCompact_eq (CKey.point_ne_zero C.toCurveCrypto hvalid)]
  rfl

theorem recoverCompact_eq (hvalid : key.fValid = true)
    (hsig : ecdsaDoSign C key.vch hash k = some (r, s)) :
    recoverCompact C hash (compactSignature C key k r s) =
      if recoveryId C (k • C.generator) = 3 then none else key.heldPubKey C.toCurveCrypto := by
  have hsigned := signed_of_ecdsaDoSign hsig
  obtain ⟨hrec, hcompressed⟩ := headerNumber_and (recoveryId_lt (C := C) hsigned.point_ne_zero)
    key.fCompressed (beBytes 32 r ++ beBytes 32 s)
  rw [recoverCompact, if_neg (not_not.mpr (length_compactSignature k r s)), compactSignature, hrec,
    hcompressed, List.drop_one, List.tail_cons, hsigned.ecKeyRecover_eq,
    CKey.heldPubKey_eq C.toCurveCrypto hvalid]
  split
  · rfl
  · rfl

theorem verifyCompact_eq (hvalid : key.fValid = true)
    (hsig : ecdsaDoSign C key.vch hash k = some (r, s)) {pubkey : HeldPubKey}
    (hpubkey : key.heldPubKey C.toCurveCrypto = some pubkey) :
    verifyCompact C pubkey hash (compactSignature C key k r s) =
      decide (recoveryId C (k • C.generator) ≠ 3) := by
  have hsigned := signed_of_ecdsaDoSign hsig
  have hpoint := CKey.point_ne_zero C.toCurveCrypto hvalid
  obtain ⟨hrec, -⟩ := headerNumber_and (recoveryId_lt (C := C) hsigned.point_ne_zero)
    key.fCompressed (beBytes 32 r ++ beBytes 32 s)
  rw [CKey.heldPubKey_eq C.toCurveCrypto hvalid] at hpubkey
  obtain rfl := Option.some.inj hpubkey
  have hval := CPubKey.val_set_toOctets C.toCurveCrypto hpoint key.fCompressed
  have hisCompressed : CPubKey.isCompressed
      (C.toOctets (beNat key.vch • C.generator) key.fCompressed) = key.fCompressed := by
    rw [CPubKey.isCompressed, C.length_toOctets _ hpoint]
    cases key.fCompressed with
    | false => rfl
    | true => rfl
  rw [verifyCompact, hval, C.pubKeyIsValid_toOctets _ hpoint, length_compactSignature,
    compactSignature, hrec, hisCompressed, List.drop_one, List.tail_cons, hsigned.ecKeyRecover_eq]
  by_cases hthree : recoveryId C (k • C.generator) = 3
  · rw [if_pos hthree, hthree]
    rfl
  · rw [if_neg hthree, Option.any_some, decide_eq_true hthree]
    exact decide_eq_true rfl

/-- For every valid key, every hash and every nonce that signs it: `SignCompact` succeeds, and
`RecoverCompact` gives the public key back and `VerifyCompact` accepts the signature exactly when
the point of the nonce has an x-coordinate below the order or an even y. -/
theorem recoverCompact_signCompact_iff (hvalid : key.fValid = true)
    (hsig : (ecdsaDoSign C key.vch hash k).isSome) :
    ∃ vchSig pubkey, key.signCompact C hash k = some (some vchSig) ∧
      key.heldPubKey C.toCurveCrypto = some pubkey ∧
      (recoverCompact C hash vchSig = some pubkey ∧ verifyCompact C pubkey hash vchSig = true ↔
        C.xCoord (k • C.generator) < curveOrder ∨ C.yOdd (k • C.generator) = false) := by
  obtain ⟨⟨r, s⟩, hsig⟩ := Option.isSome_iff_exists.mp hsig
  have hpoint := (signed_of_ecdsaDoSign hsig).point_ne_zero
  have hpubkey := CKey.heldPubKey_eq C.toCurveCrypto hvalid
  have hcondition : C.xCoord (k • C.generator) < curveOrder ∨ C.yOdd (k • C.generator) = false ↔
      recoveryId C (k • C.generator) ≠ 3 := by
    rw [Ne, recoveryId_eq_three_iff hpoint, not_and_or, not_le, Bool.not_eq_true]
  refine ⟨_, _, CKey.signCompact_eq hvalid hsig, hpubkey, ?_⟩
  rw [recoverCompact_eq hvalid hsig, verifyCompact_eq hvalid hsig hpubkey, hcondition, hpubkey]
  by_cases hthree : recoveryId C (k • C.generator) = 3
  · rw [if_pos hthree]
    simp [hthree]
  · rw [if_neg hthree]
    simp [hthree]

end RecoveryId

/-! ### A curve with a point beyond the order -/

namespace SampleGroup

/-- The number of a point up to sign. -/
def magnitude (point : SampleGroup) : ℕ := min point.val (curveOrder - point.val)

/-- Opposite points share a coordinate; that of the generator reaches the order. -/
def xCoord (point : SampleGroup) : ℕ :=
  if point.magnitude = 1 then curveOrder + 1 else point.magnitude

def yOdd (point : SampleGroup) : Bool := decide (point.val ≤ curveOrder / 2)

def setCompressed (x : ℕ) (yBit : Bool) : Option SampleGroup :=
  let m := if x = curveOrder + 1 then 1 else x
  if x = 1 ∨ m = 0 ∨ curveOrder / 2 < m then none else some (if yBit then (m : ℕ) else -(m : ℕ))

theorem curveOrder_odd : curveOrder = 2 * (curveOrder / 2) + 1 := by decide

theorem val_signed {m : ℕ} (hpos : m ≠ 0) (hhalf : m ≤ curveOrder / 2) (yBit : Bool) :
    (if yBit then (m : SampleGroup) else -(m : SampleGroup)).val =
      if yBit then m else curveOrder - m := by
  have hodd := curveOrder_odd
  have hval : (m : SampleGroup).val = m := ZMod.val_natCast_of_lt (by omega)
  cases yBit with
  | true => exact hval
  | false =>
    have hne : (m : SampleGroup) ≠ 0 := by
      rw [Ne, ← ZMod.val_eq_zero, hval]
      exact hpos
    change (-(m : SampleGroup)).val = curveOrder - m
    rw [ZMod.neg_val, if_neg hne, hval]

theorem setCompressed_eq_some {x : ℕ} {yBit : Bool} {point : SampleGroup} :
    setCompressed x yBit = some point ↔ point ≠ 0 ∧ xCoord point = x ∧ yOdd point = yBit := by
  have hodd := curveOrder_odd
  have hlt := ZMod.val_lt point
  have hzero : point ≠ 0 ↔ point.val ≠ 0 := (ZMod.val_eq_zero point).not.symm
  rw [setCompressed, Option.ite_none_left_eq_some, Option.some.injEq, hzero, xCoord, yOdd,
    magnitude]
  generalize hdef : (if x = curveOrder + 1 then 1 else x) = m
  have hx : x ≠ curveOrder + 1 → m = x := fun hne ↦ hdef.symm.trans (if_neg hne)
  have hone : x = curveOrder + 1 → m = 1 := fun heq ↦ hdef.symm.trans (if_pos heq)
  constructor
  · rintro ⟨hrange, rfl⟩
    rw [val_signed (by omega) (by omega)]
    have hmagnitude : min (if yBit then m else curveOrder - m)
        (curveOrder - if yBit then m else curveOrder - m) = m := by
      cases yBit <;> simp <;> omega
    rw [hmagnitude]
    refine ⟨?_, ?_, ?_⟩
    · split <;> omega
    · split <;> omega
    · cases yBit <;> simp <;> omega
  · rintro ⟨hpos, hcoord, rfl⟩
    have hmagnitude : m = min point.val (curveOrder - point.val) := by
      split at hcoord <;> omega
    have hne : x ≠ 1 := by
      split at hcoord <;> omega
    refine ⟨by omega, ZMod.val_injective curveOrder ?_⟩
    rw [val_signed (by omega) (by omega)]
    split
    case isTrue hsmall =>
      rw [decide_eq_true_iff] at hsmall
      omega
    case isFalse hlarge =>
      rw [decide_eq_true_iff] at hlarge
      omega

theorem xCoord_lt {point : SampleGroup} : xCoord point < fieldPrime := by
  have hprime : curveOrder + 1 < fieldPrime := by decide
  have hlt := ZMod.val_lt point
  unfold xCoord magnitude
  split <;> omega

end SampleGroup

def sampleEcdsa : EcdsaCrypto SampleGroup where
  toCurveCrypto := sampleCurve
  xCoord := SampleGroup.xCoord
  yOdd := SampleGroup.yOdd
  setCompressed := SampleGroup.setCompressed
  xCoord_lt _ := SampleGroup.xCoord_lt
  setCompressed_eq_some := SampleGroup.setCompressed_eq_some
  pubKeyIsValid_infinity _ := rfl

/-- The key of the secret one. -/
def oneKey : CKey := CKey.set (List.replicate 31 0 ++ [1]) true

theorem beNat_oneKey : beNat oneKey.vch = 1 := by decide

theorem xCoord_generator (k : ℕ) (hk : k ≤ curveOrder / 2) :
    SampleGroup.xCoord (k • (1 : SampleGroup)) = if k = 1 then curveOrder + 1 else k := by
  have hodd := SampleGroup.curveOrder_odd
  have hval : (k • (1 : SampleGroup)).val = k := by
    rw [nsmul_one]
    exact ZMod.val_natCast_of_lt (by omega)
  have hmin : min k (curveOrder - k) = k := by omega
  rw [SampleGroup.xCoord, SampleGroup.magnitude, hval, hmin]

/-- A signature of the hash zero under the key one, with a small nonce. -/
theorem ecdsaDoSign_oneKey {k : ℕ} (hpos : k ≠ 0) (hk : k ≤ curveOrder / 2) :
    ecdsaDoSign sampleEcdsa oneKey.vch 0 k = some (k, 1) := by
  have hodd := SampleGroup.curveOrder_odd
  have hmod : k % curveOrder = k := Nat.mod_eq_of_lt (by omega)
  have hr : SampleGroup.xCoord (k • (1 : SampleGroup)) % curveOrder = k := by
    rw [xCoord_generator k hk]
    split
    case isTrue hone => rw [Nat.add_mod_left, ← hone, hmod]
    case isFalse => exact hmod
  have hkz : (k : ZMod curveOrder) ≠ 0 := natCast_ne_zero hpos (by omega)
  have hzero : signedNumber 0 = 0 := by decide
  have hs : ((k : ZMod curveOrder)⁻¹ * (signedNumber 0 + (k : ℕ) * beNat oneKey.vch)).val = 1 := by
    rw [hzero, beNat_oneKey, Nat.cast_zero, zero_add, Nat.cast_one, mul_one, inv_mul_cancel₀ hkz,
      ZMod.val_one]
  unfold ecdsaDoSign
  simp only [sampleEcdsa, sampleCurve, hr, hs, hmod]
  exact if_neg (by omega)

/-- `recoverCompact_signCompact_iff` for the nonce two. -/
theorem recoverCompact_signCompact_iff_two :
    ∃ vchSig pubkey, oneKey.signCompact sampleEcdsa 0 2 = some (some vchSig) ∧
      oneKey.heldPubKey sampleEcdsa.toCurveCrypto = some pubkey ∧
      (recoverCompact sampleEcdsa 0 vchSig = some pubkey ∧
          verifyCompact sampleEcdsa pubkey 0 vchSig = true ↔
        sampleEcdsa.xCoord (2 • sampleEcdsa.generator) < curveOrder ∨
          sampleEcdsa.yOdd (2 • sampleEcdsa.generator) = false) := by
  have hsig : (ecdsaDoSign sampleEcdsa oneKey.vch 0 2).isSome := by
    rw [ecdsaDoSign_oneKey (by decide) (by decide)]
    rfl
  exact recoverCompact_signCompact_iff (by decide) hsig

/-- A signature whose nonce is the number of a point with odd y beyond the order: it is made, and
neither `RecoverCompact` nor `VerifyCompact` takes it. -/
theorem recoverCompact_refuses :
    ∃ vchSig pubkey, oneKey.signCompact sampleEcdsa 0 1 = some (some vchSig) ∧
      oneKey.heldPubKey sampleEcdsa.toCurveCrypto = some pubkey ∧
      recoverCompact sampleEcdsa 0 vchSig = none ∧
      verifyCompact sampleEcdsa pubkey 0 vchSig = false := by
  have hvalid : oneKey.fValid = true := by decide
  have hsig := ecdsaDoSign_oneKey (k := 1) (by decide) (by decide)
  have hpubkey := CKey.heldPubKey_eq sampleEcdsa.toCurveCrypto hvalid
  have hpoint := (signed_of_ecdsaDoSign hsig).point_ne_zero
  have hthree : recoveryId sampleEcdsa (1 • sampleEcdsa.generator) = 3 := by
    refine (recoveryId_eq_three_iff hpoint).mpr ⟨?_, ?_⟩
    · change curveOrder ≤ SampleGroup.xCoord (1 • (1 : SampleGroup))
      rw [xCoord_generator 1 (by decide), if_pos rfl]
      exact Nat.le_succ _
    · change decide ((1 • (1 : SampleGroup)).val ≤ curveOrder / 2) = true
      rw [one_nsmul, ZMod.val_one]
      decide
  refine ⟨_, _, CKey.signCompact_eq hvalid hsig, hpubkey, ?_, ?_⟩
  · rw [recoverCompact_eq hvalid hsig, if_pos hthree]
  · rw [verifyCompact_eq hvalid hsig hpubkey, hthree]
    rfl

end Bitmark
