import Mathlib.Data.ZMod.Basic
import Mathlib.GroupTheory.OrderOfElement
import Bitmark.Base.BigEndian
import Bitmark.Lib.Attempts
import Bitmark.Wallet.Signing

/-!
# Hierarchical keys

`CKey::Derive` adds a tweak to the secret and `CPubKey::Derive` adds its point to the public key
(`src/key.cpp:364–413` and `740–866`). The curve, the hash functions and the order of the group are
those of OpenSSL: a group with a generator, and an encoding of its points.
-/

namespace Bitmark

/-- A byte array of fixed size. -/
abbrev FixedBytes (n : ℕ) := { bs : Bytes // bs.length = n }

/-- The two halves of what is hashed. -/
def FixedBytes.halves (out : FixedBytes 64) : FixedBytes 32 × FixedBytes 32 :=
  (⟨out.val.take 32, by rw [List.length_take, out.property]; rfl⟩,
    ⟨out.val.drop 32, by rw [List.length_drop, out.property]⟩)

/-- The order of the group of secp256k1. -/
def curveOrder : ℕ := 0xFFFFFFFFFFFFFFFFFFFFFFFFFFFFFFFEBAAEDCE6AF48A03BBFD25E8CD0364141

/-- The group of the curve, its points as `i2o_ECPublicKey` writes and `o2i_ECPublicKey` reads them,
what a key holds whose public key was not read, and `HMAC_SHA512`. -/
structure CurveCrypto (G : Type*) [AddCommGroup G] extends KeyCrypto where
  generator : G
  toOctets : (point : G) → (fCompressed : Bool) → Bytes
  ofOctets : Bytes → Option G
  unread : G
  hmacSha512 : (key message : Bytes) → FixedBytes 64
  addOrderOf_generator : addOrderOf generator = curveOrder
  ofOctets_toOctets : ∀ {point} fCompressed, point ≠ 0 →
    ofOctets (toOctets point fCompressed) = some point
  length_toOctets : ∀ {point} fCompressed, point ≠ 0 →
    (toOctets point fCompressed).length = if fCompressed then 33 else 65
  pubKeyIsValid_toOctets : ∀ {point} fCompressed, point ≠ 0 →
    pubKeyIsValid (toOctets point fCompressed) = true
  publicKey_eq : ∀ vch fCompressed,
    publicKey vch fCompressed = toOctets (beNat vch • generator) fCompressed

/-! ### The range of a secret -/

theorem curveOrder_eq : curveOrder = beNat CKey.vchMax + 1 := by decide

theorem curveOrder_pos : 0 < curveOrder := by decide

theorem CKey.any_iff (vch : Bytes) : vch.any (· ≠ 0) = true ↔ 0 < beNat vch := by
  induction vch with
  | nil => decide
  | cons v vch ih =>
    have hpos := Nat.two_pow_pos (8 * vch.length)
    have hbyte : v ≠ 0 ↔ 0 < v.toNat := by
      rw [Nat.pos_iff_ne_zero, Ne, Ne, ← UInt8.toNat_inj]
      rfl
    rw [List.any_cons, Bool.or_eq_true, ih, beNat_cons, decide_eq_true_iff, hbyte,
      Nat.add_pos_iff_pos_or_pos, Nat.mul_pos_iff_of_pos_right hpos]

theorem CKey.notAbove_iff {vch vchMax : Bytes} (h : vch.length = vchMax.length) :
    CKey.notAbove vch vchMax = true ↔ beNat vch ≤ beNat vchMax := by
  induction vch generalizing vchMax with
  | nil =>
    obtain rfl := List.length_eq_zero_iff.mp h.symm
    decide
  | cons v vch ih =>
    cases vchMax with
    | nil => cases h
    | cons m vchMax =>
      have hlength : vch.length = vchMax.length := Nat.succ.inj h
      have hv := beNat_lt vch
      have hm := beNat_lt vchMax
      rw [hlength] at hv
      rw [CKey.notAbove, beNat_cons, beNat_cons, hlength]
      split
      case isTrue hlt =>
        rw [UInt8.lt_iff_toNat_lt] at hlt
        have hmul := Nat.mul_le_mul_right (2 ^ (8 * vchMax.length)) (Nat.succ_le_of_lt hlt)
        rw [Nat.succ_mul] at hmul
        refine iff_of_true rfl ?_
        omega
      case isFalse hge =>
        split
        case isTrue hgt =>
          rw [UInt8.lt_iff_toNat_lt] at hgt
          have hmul := Nat.mul_le_mul_right (2 ^ (8 * vchMax.length)) (Nat.succ_le_of_lt hgt)
          rw [Nat.succ_mul] at hmul
          refine iff_of_false Bool.false_ne_true ?_
          omega
        case isFalse hle =>
          rw [UInt8.lt_iff_toNat_lt] at hge hle
          obtain heq : v.toNat = m.toNat := by omega
          rw [ih hlength, heq]
          omega

/-- `Check` accepts the numbers from one up to below the order. -/
theorem CKey.check_iff {vch : Bytes} (h : vch.length = 32) :
    CKey.check vch = true ↔ 0 < beNat vch ∧ beNat vch < curveOrder := by
  rw [CKey.check, Bool.and_eq_true, CKey.any_iff, CKey.notAbove_iff (h.trans (by decide)),
    curveOrder_eq, Nat.lt_succ_iff]

/-! ### Public keys -/

theorem ofVector_ofVector (vch : Bytes) :
    CPubKey.ofVector (CPubKey.ofVector vch) = CPubKey.ofVector vch := by
  by_cases h : pubKeyIsValid vch = true
  · have hself : CPubKey.ofVector vch = vch := if_pos h
    rw [hself, hself]
  · have hnil : CPubKey.ofVector vch = [] := if_neg h
    rw [hnil]
    rfl

/-- A `CPubKey`, whose size is that of its header. -/
abbrev HeldPubKey := { pubkey : CPubKey // CPubKey.ofVector pubkey = pubkey }

/-- `Set`, `src/key.h:71`. -/
def CPubKey.set (vch : Bytes) : HeldPubKey := ⟨CPubKey.ofVector vch, ofVector_ofVector vch⟩

/-! ### One step -/

section Derive

variable {G : Type*} [AddCommGroup G] [DecidableEq G] (C : CurveCrypto G)

/-- `GetPubKey`, `src/key.cpp:621`, with the `Set` at its end. -/
def CKey.heldPubKey (key : CKey) : Option HeldPubKey :=
  (key.getPubKey C.toKeyCrypto).map CPubKey.set

/-- The key id of a public key, and the four bytes of it that a child keeps. -/
def HeldPubKey.fingerprint (pubkey : HeldPubKey) : FixedBytes 4 :=
  ⟨(bytes160 (C.hash160 pubkey.val)).take 4, by
    rw [List.length_take, bytes160, length_leBytes]; rfl⟩

/-- The bytes of a child number, the high one first. -/
def childBytes (nChild : UInt32) : FixedBytes 4 :=
  ⟨[((nChild >>> 24) &&& 0xFF).toUInt8, ((nChild >>> 16) &&& 0xFF).toUInt8,
    ((nChild >>> 8) &&& 0xFF).toUInt8, (nChild &&& 0xFF).toUInt8], rfl⟩

/-- `BIP32Hash`, `src/key.cpp:740`, in its two halves. -/
def bip32Hash (chainCode : FixedBytes 32) (nChild : UInt32) (header : UInt8) (data : Bytes) :
    FixedBytes 32 × FixedBytes 32 :=
  (C.hmacSha512 chainCode.val (header :: data ++ (childBytes nChild).val)).halves

/-- `TweakSecret`, `src/key.cpp:364`. -/
def tweakSecret (vchSecretIn vchTweak : Bytes) : Bytes × Bool :=
  let bnTweak := beNat vchTweak
  let bnSecret := (beNat vchSecretIn + bnTweak) % curveOrder
  (beBytes 32 bnSecret, decide (¬ curveOrder ≤ bnTweak) && decide (bnSecret ≠ 0))

/-- `TweakPublic`, `src/key.cpp:391`. -/
def tweakPublic (pkey : G) (vchTweak : Bytes) : G × Bool :=
  let bnTweak := beNat vchTweak
  let point := bnTweak • C.generator + pkey
  (point, decide (¬ curveOrder ≤ bnTweak) && decide (point ≠ 0))

theorem length_tweakSecret (vchSecretIn vchTweak : Bytes) :
    (tweakSecret vchSecretIn vchTweak).1.length = 32 := by
  rw [tweakSecret, length_beBytes]

theorem curveOrder_lt : curveOrder < 2 ^ (8 * 32) := by decide

theorem beNat_tweakSecret (vchSecretIn vchTweak : Bytes) :
    beNat (tweakSecret vchSecretIn vchTweak).1 =
      (beNat vchSecretIn + beNat vchTweak) % curveOrder := by
  have hlt : (beNat vchSecretIn + beNat vchTweak) % curveOrder < 2 ^ (8 * 32) :=
    (Nat.mod_lt _ curveOrder_pos).trans curveOrder_lt
  rw [tweakSecret, beNat_beBytes hlt]

/-- A secret that `TweakSecret` passes is in range. -/
theorem check_tweakSecret {vchSecretIn vchTweak : Bytes}
    (h : (tweakSecret vchSecretIn vchTweak).2 = true) :
    CKey.check (tweakSecret vchSecretIn vchTweak).1 = true := by
  rw [CKey.check_iff (length_tweakSecret ..), beNat_tweakSecret]
  rw [tweakSecret, Bool.and_eq_true, decide_eq_true_iff, decide_eq_true_iff] at h
  exact ⟨Nat.pos_of_ne_zero h.2, Nat.mod_lt _ curveOrder_pos⟩

/-- The child with a tweaked secret. -/
def CKey.ofTweak (vchSecretIn vchTweak : Bytes) : CKey where
  fValid := (tweakSecret vchSecretIn vchTweak).2
  fCompressed := true
  vch := (tweakSecret vchSecretIn vchTweak).1
  size_vch := length_tweakSecret vchSecretIn vchTweak
  check_vch := check_tweakSecret

/-- `CKey::Derive`, `src/key.cpp:754`; `none` is an assertion. -/
def CKey.derive (key : CKey) (nChild : UInt32) (cc : FixedBytes 32) :
    Option ((CKey × FixedBytes 32) × Bool) :=
  if !key.fValid || !key.fCompressed then none
  else do
    let (vchTweak, ccChild) ←
      if nChild >>> 31 = 0 then do
        let pubkey ← key.heldPubKey C
        match pubkey.val with
        | [] => none
        | header :: data =>
          if data.length ≠ 32 then none else some (bip32Hash C cc nChild header data)
      else some (bip32Hash C cc nChild 0 key.vch)
    let keyChild := CKey.ofTweak key.vch vchTweak.val
    some ((keyChild, ccChild), keyChild.fValid)

/-- `CPubKey::Derive`, `src/key.cpp:775`; `none` is an assertion. -/
def CPubKey.derive (pubkey : HeldPubKey) (nChild : UInt32) (cc : FixedBytes 32) :
    Option ((HeldPubKey × FixedBytes 32) × Bool) :=
  if nChild >>> 31 ≠ 0 then none
  else
    match pubkey.val with
    | [] => none
    | header :: data =>
      if data.length ≠ 32 then none
      else
        let (vchTweak, ccChild) := bip32Hash C cc nChild header data
        let (pkey, ret) :=
          match C.ofOctets (header :: data) with
          | some pkey => (pkey, true)
          | none => (C.unread, false)
        let (pkey, tweaked) := tweakPublic C pkey vchTweak.val
        some ((CPubKey.set (C.toOctets pkey true), ccChild), ret && tweaked)

end Derive

/-! ### Extended keys -/

/-- What `CExtKey` and `CExtPubKey` share. -/
structure ExtKeyData where
  nDepth : UInt8
  vchFingerprint : FixedBytes 4
  nChild : UInt32
  vchChainCode : FixedBytes 32
deriving DecidableEq

/-- `CExtKey`, `src/key.h:292`. -/
structure CExtKey extends ExtKeyData where
  key : CKey
deriving DecidableEq

/-- `CExtPubKey`, `src/key.h:275`. -/
structure CExtPubKey extends ExtKeyData where
  pubkey : HeldPubKey
deriving DecidableEq

section ExtDerive

variable {G : Type*} [AddCommGroup G] [DecidableEq G] (C : CurveCrypto G)

/-- `CExtKey::Derive`, `src/key.cpp:789`. -/
def CExtKey.derive (key : CExtKey) (nChild : UInt32) : Option (CExtKey × Bool) := do
  let pubkey ← key.key.heldPubKey C
  let ((keyChild, ccChild), ret) ← key.key.derive C nChild key.vchChainCode
  some (⟨⟨key.nDepth + 1, pubkey.fingerprint C, nChild, ccChild⟩, keyChild⟩, ret)

/-- `CExtPubKey::Derive`, `src/key.cpp:860`. -/
def CExtPubKey.derive (pubkey : CExtPubKey) (nChild : UInt32) : Option (CExtPubKey × Bool) := do
  let ((pubkeyChild, ccChild), ret) ← CPubKey.derive C pubkey.pubkey nChild pubkey.vchChainCode
  some (⟨⟨pubkey.nDepth + 1, pubkey.pubkey.fingerprint C, nChild, ccChild⟩, pubkeyChild⟩, ret)

/-- `Neuter`, `src/key.cpp:813`; `none` is the assertion of `GetPubKey`. -/
def CExtKey.neuter (key : CExtKey) : Option CExtPubKey :=
  (key.key.heldPubKey C).map fun pubkey ↦ ⟨key.toExtKeyData, pubkey⟩

/-- `SetMaster`, `src/key.cpp:797`. -/
def CExtKey.setMaster (seed : Bytes) : CExtKey :=
  let hashkey : Bytes := "Bitcoin seed".toUTF8.toList
  let (secret, vchChainCode) := (C.hmacSha512 hashkey seed).halves
  ⟨⟨0, ⟨List.replicate 4 0, rfl⟩, 0, vchChainCode⟩, CKey.set secret.val true⟩

end ExtDerive

/-! ### Seventy-four bytes -/

/-- `code[0]` to `code[40]`. -/
def ExtKeyData.encode (d : ExtKeyData) : Bytes :=
  d.nDepth :: d.vchFingerprint.val ++ (childBytes d.nChild).val ++ d.vchChainCode.val

/-- What `Decode` reads from there. -/
def ExtKeyData.decode (code : FixedBytes 74) : ExtKeyData where
  nDepth := code.val.getD 0 0
  vchFingerprint := ⟨(code.val.drop 1).take 4, by
    rw [List.length_take, List.length_drop, code.property]; rfl⟩
  nChild := (code.val.getD 5 0).toUInt32 <<< 24 ||| (code.val.getD 6 0).toUInt32 <<< 16 |||
    (code.val.getD 7 0).toUInt32 <<< 8 ||| (code.val.getD 8 0).toUInt32
  vchChainCode := ⟨(code.val.drop 9).take 32, by
    rw [List.length_take, List.length_drop, code.property]; rfl⟩

theorem ExtKeyData.length_encode (d : ExtKeyData) : d.encode.length = 41 := by
  rw [encode, List.length_append, List.length_append, List.length_cons, d.vchFingerprint.property,
    (childBytes d.nChild).property, d.vchChainCode.property]

/-- `CExtKey::Encode`, `src/key.cpp:823`; `none` is its assertion. -/
def CExtKey.encode (key : CExtKey) : Option (FixedBytes 74) :=
  if h : key.key.bytes.length = 32 then
    some ⟨key.toExtKeyData.encode ++ 0 :: key.key.bytes, by
      rw [List.length_append, ExtKeyData.length_encode, List.length_cons, h]⟩
  else none

/-- `CExtKey::Decode`, `src/key.cpp:834`, on a fresh key. -/
def CExtKey.decode (code : FixedBytes 74) : CExtKey :=
  ⟨ExtKeyData.decode code, CKey.set (code.val.drop 42) true⟩

/-- `CExtPubKey::Encode`, `src/key.cpp:842`; `none` is its assertion. -/
def CExtPubKey.encode (pubkey : CExtPubKey) : Option (FixedBytes 74) :=
  if h : pubkey.pubkey.val.length = 33 then
    some ⟨pubkey.toExtKeyData.encode ++ pubkey.pubkey.val, by
      rw [List.length_append, ExtKeyData.length_encode, h]⟩
  else none

/-- `CExtPubKey::Decode`, `src/key.cpp:852`. -/
def CExtPubKey.decode (code : FixedBytes 74) : CExtPubKey :=
  ⟨ExtKeyData.decode code, CPubKey.set (code.val.drop 41)⟩

/-! ### Points of secrets -/

section Points

variable {G : Type*} [AddCommGroup G] (C : CurveCrypto G)

theorem CurveCrypto.smul_generator_eq_zero_iff (k : ℕ) : k • C.generator = 0 ↔ k % curveOrder = 0 := by
  rw [← addOrderOf_dvd_iff_nsmul_eq_zero, C.addOrderOf_generator, Nat.dvd_iff_mod_eq_zero]

theorem CurveCrypto.mod_smul_generator (k : ℕ) :
    (k % curveOrder) • C.generator = k • C.generator := by
  rw [← C.addOrderOf_generator, mod_addOrderOf_nsmul]

/-- The point of a key that passes `Check`. -/
theorem CKey.point_ne_zero {key : CKey} (hvalid : key.fValid = true) :
    beNat key.vch • C.generator ≠ 0 := by
  obtain ⟨hpos, hlt⟩ := (CKey.check_iff key.size_vch).mp (key.check_vch hvalid)
  rw [Ne, C.smul_generator_eq_zero_iff, Nat.mod_eq_of_lt hlt]
  omega

theorem CPubKey.val_set_toOctets {point : G} (h : point ≠ 0) (fCompressed : Bool) :
    (CPubKey.set (C.toOctets point fCompressed)).val = C.toOctets point fCompressed :=
  if_pos (C.pubKeyIsValid_toOctets fCompressed h)

theorem CKey.heldPubKey_eq {key : CKey} (hvalid : key.fValid = true) :
    key.heldPubKey C =
      some (CPubKey.set (C.toOctets (beNat key.vch • C.generator) key.fCompressed)) := by
  rw [CKey.heldPubKey, CKey.getPubKey, if_pos hvalid, C.publicKey_eq]
  rfl

theorem CKey.heldPubKey_eq_none {key : CKey} (hvalid : key.fValid = false) :
    key.heldPubKey C = none := by
  rw [CKey.heldPubKey, CKey.getPubKey, if_neg (by rw [hvalid]; exact Bool.false_ne_true)]
  rfl

end Points

/-! ### A group of that order -/

/-- The multiples of a generator, each with its number for coordinates. -/
abbrev SampleGroup := ZMod curveOrder

namespace SampleGroup

def toOctets (point : SampleGroup) (fCompressed : Bool) : Bytes :=
  if point = 0 then [0]
  else if fCompressed then 2 :: beBytes 32 point.val
  else 4 :: beBytes 64 point.val

def ofOctets : Bytes → Option SampleGroup
  | [] => none
  | _ :: data => some (beNat data : ℕ)

instance : NeZero curveOrder := ⟨curveOrder_pos.ne'⟩

theorem toOctets_of_ne_zero {point : SampleGroup} (fCompressed : Bool) (h : point ≠ 0) :
    toOctets point fCompressed =
      if fCompressed then 2 :: beBytes 32 point.val else 4 :: beBytes 64 point.val := if_neg h

theorem beNat_beBytes_val (point : SampleGroup) {n : ℕ} (h : 32 ≤ n) :
    ((beNat (beBytes n point.val) : ℕ) : SampleGroup) = point := by
  have hlt : point.val < 2 ^ (8 * n) :=
    (ZMod.val_lt point).trans
      (curveOrder_lt.trans_le (Nat.pow_le_pow_right (by decide) (Nat.mul_le_mul_left 8 h)))
  rw [beNat_beBytes hlt, ZMod.natCast_zmod_val]

theorem ofOctets_toOctets {point : SampleGroup} (fCompressed : Bool) (h : point ≠ 0) :
    ofOctets (toOctets point fCompressed) = some point := by
  rw [toOctets_of_ne_zero fCompressed h]
  cases fCompressed with
  | true => exact congrArg some (beNat_beBytes_val point le_rfl)
  | false => exact congrArg some (beNat_beBytes_val point (by decide))

theorem length_toOctets {point : SampleGroup} (fCompressed : Bool) (h : point ≠ 0) :
    (toOctets point fCompressed).length = if fCompressed then 33 else 65 := by
  rw [toOctets_of_ne_zero fCompressed h]
  cases fCompressed with
  | true => rw [if_pos rfl, List.length_cons, length_beBytes, if_pos rfl]
  | false =>
    rw [if_neg Bool.false_ne_true, List.length_cons, length_beBytes, if_neg Bool.false_ne_true]

theorem pubKeyIsValid_toOctets {point : SampleGroup} (fCompressed : Bool) (h : point ≠ 0) :
    pubKeyIsValid (toOctets point fCompressed) = true := by
  have hlength := length_toOctets fCompressed h
  rw [toOctets_of_ne_zero fCompressed h] at hlength ⊢
  cases fCompressed with
  | true =>
    rw [if_pos rfl] at hlength ⊢
    rw [pubKeyIsValid, decide_eq_true_iff, hlength]
    rfl
  | false =>
    rw [if_neg Bool.false_ne_true] at hlength ⊢
    rw [pubKeyIsValid, decide_eq_true_iff, hlength]
    rfl

end SampleGroup

def sampleCurve : CurveCrypto SampleGroup where
  aesEncrypt _ _ plaintext := some plaintext
  aesDecrypt _ _ ciphertext := some ciphertext
  publicKey vch fCompressed := SampleGroup.toOctets (beNat vch • 1) fCompressed
  hash160 bs := Fin.ofNat _ (beNat bs)
  hash bs := word256 bs
  generator := 1
  toOctets := SampleGroup.toOctets
  ofOctets := SampleGroup.ofOctets
  unread := 0
  hmacSha512 _ _ := ⟨List.replicate 64 1, rfl⟩
  addOrderOf_generator := ZMod.addOrderOf_one curveOrder
  ofOctets_toOctets := SampleGroup.ofOctets_toOctets
  length_toOctets := SampleGroup.length_toOctets
  pubKeyIsValid_toOctets := SampleGroup.pubKeyIsValid_toOctets
  publicKey_eq _ _ := rfl

/-- The key of a secret of ones. -/
def sampleExtKey : CExtKey :=
  ⟨⟨0, ⟨[0, 0, 0, 0], rfl⟩, 0, ⟨List.replicate 32 0, rfl⟩⟩, CKey.set (List.replicate 32 1) true⟩

end Bitmark
