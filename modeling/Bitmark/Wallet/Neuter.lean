import Bitmark.Wallet.ExtKeys

/-!
# Neutered keys

A wallet that only watches derives the keys that the wallet with the secrets derives: neutering
commutes with each step of the derivation (`src/key.cpp:789` and `860`), and so with every path. The
74 bytes of an extended key give it back.
-/

namespace Bitmark

open Attempts

section Octets

variable {G : Type*} [AddCommGroup G] (C : CurveCrypto G)

/-- The octets of a compressed public key, as both sides hash them. -/
theorem exists_octets {point : G} (h : point ≠ 0) :
    ∃ header data, C.toOctets point true = header :: data ∧ data.length = 32 := by
  have hlength := C.length_toOctets true h
  cases hoctets : C.toOctets point true with
  | nil =>
    rw [hoctets] at hlength
    cases hlength
  | cons header data =>
    rw [hoctets] at hlength
    exact ⟨header, data, rfl, Nat.succ.inj hlength⟩

end Octets

section Derive

variable {G : Type*} [AddCommGroup G] [DecidableEq G] (C : CurveCrypto G)

/-! ### One step -/

/-- The secret that is tweaked belongs to the point that is tweaked. -/
theorem tweakSecret_generator (vchSecretIn vchTweak : Bytes) :
    beNat (tweakSecret vchSecretIn vchTweak).1 • C.generator =
      (tweakPublic C (beNat vchSecretIn • C.generator) vchTweak).1 := by
  rw [beNat_tweakSecret, C.mod_smul_generator, add_smul, add_comm]
  rfl

/-- The two tweaks succeed alike. -/
theorem tweakSecret_snd (vchSecretIn vchTweak : Bytes) :
    (tweakSecret vchSecretIn vchTweak).2 =
      (tweakPublic C (beNat vchSecretIn • C.generator) vchTweak).2 := by
  have hpoint : beNat vchTweak • C.generator + beNat vchSecretIn • C.generator =
      (beNat vchSecretIn + beNat vchTweak) • C.generator := by
    rw [add_smul, add_comm]
  have hzero : decide ((beNat vchSecretIn + beNat vchTweak) % curveOrder ≠ 0) =
      decide (beNat vchTweak • C.generator + beNat vchSecretIn • C.generator ≠ 0) := by
    rw [decide_eq_decide, hpoint, Ne, Ne, C.smul_generator_eq_zero_iff]
  rw [tweakSecret, tweakPublic, hzero]

variable {key : CKey} {nChild : UInt32} {header : UInt8} {data : Bytes}

/-- `CKey::Derive` without hardening. -/
theorem CKey.derive_eq (hvalid : key.fValid = true) (hcompressed : key.fCompressed = true)
    (hchild : nChild >>> 31 = 0) (cc : FixedBytes 32)
    (hoctets : C.toOctets (beNat key.vch • C.generator) true = header :: data)
    (hdata : data.length = 32) :
    key.derive C nChild cc =
      let (vchTweak, ccChild) := bip32Hash C cc nChild header data
      some ((CKey.ofTweak key.vch vchTweak.val, ccChild),
        (tweakPublic C (beNat key.vch • C.generator) vchTweak.val).2) := by
  have hset := CPubKey.val_set_toOctets C (CKey.point_ne_zero C hvalid) true
  rw [hoctets] at hset
  rw [CKey.derive, if_neg (by rw [hvalid, hcompressed]; decide), if_pos hchild,
    CKey.heldPubKey_eq C hvalid, hcompressed, hoctets]
  simp only [Option.bind_eq_bind, Option.bind_some, hset]
  rw [if_neg (not_not.mpr hdata), ← tweakSecret_snd]
  rfl

/-- `CPubKey::Derive` of the point of a key. -/
theorem CPubKey.derive_eq (hvalid : key.fValid = true) (hchild : nChild >>> 31 = 0)
    (cc : FixedBytes 32) (hoctets : C.toOctets (beNat key.vch • C.generator) true = header :: data)
    (hdata : data.length = 32) :
    CPubKey.derive C (CPubKey.set (C.toOctets (beNat key.vch • C.generator) true)) nChild cc =
      let (vchTweak, ccChild) := bip32Hash C cc nChild header data
      let (point, ret) := tweakPublic C (beNat key.vch • C.generator) vchTweak.val
      some ((CPubKey.set (C.toOctets point true), ccChild), ret) := by
  have hpoint := CKey.point_ne_zero C hvalid
  have hset := CPubKey.val_set_toOctets C hpoint true
  have hread := C.ofOctets_toOctets true hpoint
  rw [hoctets] at hset hread
  rw [CPubKey.derive, if_neg (not_not.mpr hchild), hoctets]
  simp only [hset, hread]
  rw [if_neg (not_not.mpr hdata)]
  rfl

/-- `CPubKey::Derive` asserts that the key is compressed. -/
theorem CPubKey.derive_eq_none {pubkey : HeldPubKey} (h : pubkey.val.length ≠ 33) (nChild : UInt32)
    (cc : FixedBytes 32) : CPubKey.derive C pubkey nChild cc = none := by
  rw [CPubKey.derive]
  split
  · rfl
  · cases hval : pubkey.val with
    | nil => rfl
    | cons header data =>
      rw [hval, List.length_cons] at h
      exact if_pos (by omega)

/-- The child of a key holds the public key that `CPubKey::Derive` sets. -/
theorem CKey.heldPubKey_ofTweak {vchSecretIn vchTweak : Bytes}
    (h : (tweakPublic C (beNat vchSecretIn • C.generator) vchTweak).2 = true) :
    (CKey.ofTweak vchSecretIn vchTweak).heldPubKey C = some (CPubKey.set
      (C.toOctets (tweakPublic C (beNat vchSecretIn • C.generator) vchTweak).1 true)) := by
  rw [← tweakSecret_snd] at h
  rw [CKey.heldPubKey_eq C h, CKey.ofTweak, tweakSecret_generator]

/-- One child without hardening: the key that is derived and then neutered is the one derived from
the neutered key, and one derivation fails when the other does. -/
theorem seen_neuter_derive (key : CExtKey) (hchild : nChild >>> 31 = 0) :
    seen (CExtKey.neuter C) (key.derive C nChild) =
      (key.neuter C).bind fun pubkey ↦ seen some (pubkey.derive C nChild) := by
  cases hvalid : key.key.fValid with
  | false =>
    rw [CExtKey.derive, CExtKey.neuter, CKey.heldPubKey_eq_none C hvalid]
    rfl
  | true =>
    have hpoint := CKey.point_ne_zero C hvalid
    have hheld := CKey.heldPubKey_eq C hvalid
    cases hcompressed : key.key.fCompressed with
    | false =>
      rw [hcompressed] at hheld
      have hlength : (CPubKey.set
          (C.toOctets (beNat key.key.vch • C.generator) false)).val.length ≠ 33 := by
        rw [CPubKey.val_set_toOctets C hpoint, C.length_toOctets false hpoint]
        decide
      rw [CExtKey.derive, CExtKey.neuter, hheld, CKey.derive,
        if_pos (by rw [hvalid, hcompressed]; rfl), Option.map_some, Option.bind_some,
        CExtPubKey.derive, CPubKey.derive_eq_none C hlength]
      rfl
    | true =>
      obtain ⟨header, data, hoctets, hdata⟩ := exists_octets C hpoint
      rw [hcompressed] at hheld
      rw [CExtKey.derive, CExtKey.neuter, hheld, Option.map_some, Option.bind_some,
        CExtPubKey.derive, CKey.derive_eq C hvalid hcompressed hchild _ hoctets hdata,
        CPubKey.derive_eq C hvalid hchild _ hoctets hdata]
      generalize bip32Hash C key.vchChainCode nChild header data = out
      simp only [Option.bind_eq_bind, Option.bind_some]
      cases hret : (tweakPublic C (beNat key.key.vch • C.generator) out.1.val).2 with
      | false => rfl
      | true =>
        rw [seen, CExtKey.neuter, CKey.heldPubKey_ofTweak C hret]
        rfl

/-- A valid key has a child, which is valid when the flag says so. -/
theorem exists_derive {key : CExtKey} (hvalid : key.key.fValid = true)
    (hcompressed : key.key.fCompressed = true) (hchild : nChild >>> 31 = 0) :
    ∃ child ret, key.derive C nChild = some (child, ret) ∧ child.key.fValid = ret ∧
      child.key.fCompressed = true := by
  obtain ⟨header, data, hoctets, hdata⟩ := exists_octets C (CKey.point_ne_zero C hvalid)
  rw [CExtKey.derive, CKey.heldPubKey_eq C hvalid,
    CKey.derive_eq C hvalid hcompressed hchild _ hoctets hdata]
  exact ⟨_, _, rfl, tweakSecret_snd C _ _, rfl⟩

end Derive

/-! ### Encoding -/

private theorem or_bytes {a b c d : ℕ} (hb : b < 256) (hc : c < 256) (hd : d < 256) :
    2 ^ 24 * a ||| 2 ^ 16 * b ||| 2 ^ 8 * c ||| d = ((a * 256 + b) * 256 + c) * 256 + d := by
  have hab : 2 ^ 24 * a ||| 2 ^ 16 * b = 2 ^ 16 * (a * 256 + b) := by
    rw [← Nat.two_pow_add_eq_or_of_lt (by omega)]
    omega
  have habc : 2 ^ 16 * (a * 256 + b) ||| 2 ^ 8 * c = 2 ^ 8 * ((a * 256 + b) * 256 + c) := by
    rw [← Nat.two_pow_add_eq_or_of_lt (by omega)]
    omega
  rw [hab, habc, ← Nat.two_pow_add_eq_or_of_lt (by omega), Nat.mul_comm]

/-- The four bytes of a number make the number. -/
theorem childNumber_bytes (nChild : UInt32) :
    ((nChild >>> 24) &&& 0xFF).toUInt8.toUInt32 <<< 24 |||
      ((nChild >>> 16) &&& 0xFF).toUInt8.toUInt32 <<< 16 |||
      ((nChild >>> 8) &&& 0xFF).toUInt8.toUInt32 <<< 8 ||| (nChild &&& 0xFF).toUInt8.toUInt32 =
      nChild := by
  have hbyte : ∀ m : UInt32, (m &&& 0xFF).toUInt8.toUInt32.toNat = m.toNat % 256 := by
    intro m
    have hmask : m.toNat &&& 255 = m.toNat % 2 ^ 8 := Nat.and_two_pow_sub_one_eq_mod m.toNat 8
    rw [UInt8.toNat_toUInt32, UInt32.toNat_toUInt8, UInt32.toNat_and]
    change (m.toNat &&& 255) % 256 = _
    omega
  have hshift : ∀ (m : UInt32) (k : ℕ), k ≤ 24 →
      (m.toNat % 256) <<< k % 2 ^ 32 = 2 ^ k * (m.toNat % 256) := by
    intro m k hk
    rw [Nat.shiftLeft_eq, Nat.mul_comm, Nat.mod_eq_of_lt]
    calc 2 ^ k * (m.toNat % 256) < 2 ^ k * 256 :=
          Nat.mul_lt_mul_of_pos_left (Nat.mod_lt _ (by decide)) (Nat.two_pow_pos k)
      _ ≤ 2 ^ 24 * 256 := Nat.mul_le_mul_right _ (Nat.pow_le_pow_right (by decide) hk)
  have hlt := nChild.toNat_lt
  apply UInt32.toNat_inj.mp
  simp only [UInt32.toNat_or, UInt32.toNat_shiftLeft, hbyte, UInt32.reduceToNat, Nat.reduceMod]
  rw [hshift _ 24 (by decide), hshift _ 16 (by decide), hshift _ 8 (by decide),
    or_bytes (Nat.mod_lt _ (by decide)) (Nat.mod_lt _ (by decide)) (Nat.mod_lt _ (by decide))]
  simp only [UInt32.toNat_shiftRight, UInt32.reduceToNat, Nat.reduceMod, Nat.shiftRight_eq_div_pow]
  omega

theorem ExtKeyData.decode_encode (d : ExtKeyData) (tail : Bytes) (h : (d.encode ++ tail).length = 74) :
    ExtKeyData.decode ⟨d.encode ++ tail, h⟩ = d := by
  obtain ⟨nDepth, ⟨vchFingerprint, hfingerprint⟩, nChild, vchChainCode⟩ := d
  obtain ⟨f₀, f₁, f₂, f₃, rfl⟩ : ∃ f₀ f₁ f₂ f₃, vchFingerprint = [f₀, f₁, f₂, f₃] := by
    match vchFingerprint, hfingerprint with
    | [f₀, f₁, f₂, f₃], _ => exact ⟨f₀, f₁, f₂, f₃, rfl⟩
  have hchain : (vchChainCode.val ++ tail).take 32 = vchChainCode.val :=
    List.take_left' vchChainCode.property
  rw [ExtKeyData.decode, ExtKeyData.mk.injEq]
  exact ⟨rfl, rfl, childNumber_bytes nChild, Subtype.ext hchain⟩

theorem CKey.set_vch {key : CKey} (hvalid : key.fValid = true) (hcompressed : key.fCompressed = true) :
    CKey.set key.vch true = key := by
  rw [CKey.set, dif_pos key.size_vch, dif_pos (key.check_vch hvalid), CKey.mk.injEq]
  exact ⟨hvalid.symm, hcompressed.symm, rfl⟩

theorem CExtKey.decode_encode {key : CExtKey} (hvalid : key.key.fValid = true)
    (hcompressed : key.key.fCompressed = true) :
    ∃ code, key.encode = some code ∧ CExtKey.decode code = key := by
  have hbytes : key.key.bytes = key.key.vch := if_pos hvalid
  have hsize : key.key.bytes.length = 32 := by rw [hbytes, key.key.size_vch]
  have hdrop : (key.toExtKeyData.encode ++ 0 :: key.key.bytes).drop 42 = key.key.vch := by
    rw [← List.singleton_append, ← List.append_assoc, hbytes]
    exact List.drop_left' (by rw [List.length_append, key.toExtKeyData.length_encode]; rfl)
  refine ⟨_, dif_pos hsize, ?_⟩
  rw [CExtKey.decode, ExtKeyData.decode_encode, hdrop, CKey.set_vch hvalid hcompressed]

theorem CExtPubKey.decode_encode {pubkey : CExtPubKey} {code : FixedBytes 74}
    (h : pubkey.encode = some code) : CExtPubKey.decode code = pubkey := by
  rw [CExtPubKey.encode, Option.dite_none_right_eq_some] at h
  obtain ⟨hsize, hcode⟩ := h
  obtain rfl := Option.some.inj hcode
  have hdrop : (pubkey.toExtKeyData.encode ++ pubkey.pubkey.val).drop 41 = pubkey.pubkey.val :=
    List.drop_left' pubkey.toExtKeyData.length_encode
  have hset : CPubKey.set pubkey.pubkey.val = pubkey.pubkey := Subtype.ext pubkey.pubkey.property
  rw [CExtPubKey.decode, ExtKeyData.decode_encode, hdrop, hset]

/-! ### Every path -/

section Path

variable {G : Type*} [AddCommGroup G] [DecidableEq G] (C : CurveCrypto G)

/-- For every extended private key and every path without hardening, deriving the key along the path
ends, and what it ends with, neutered, is what the derivation along the path from the neutered key
ends with, with the same flag at every step. Both kinds of extended keys are read as they were
written. -/
theorem derive_neuter_comm {key : CExtKey} (hvalid : key.key.fValid = true)
    (hcompressed : key.key.fCompressed = true) {path : List UInt32}
    (hpath : ∀ nChild ∈ path, nChild >>> 31 = 0) :
    (∃ result, run (CExtKey.derive C) path key = some result) ∧
      seenRun (CExtKey.neuter C) (run (CExtKey.derive C) path key) =
        (key.neuter C).bind (run (CExtPubKey.derive C) path) ∧
      (∃ code, key.encode = some code ∧ CExtKey.decode code = key) ∧
      ∀ (pubkey : CExtPubKey) (code : FixedBytes 74), pubkey.encode = some code →
        CExtPubKey.decode code = pubkey := by
  refine ⟨?_, ?_, CExtKey.decode_encode hvalid hcompressed,
    fun pubkey code ↦ CExtPubKey.decode_encode⟩
  · refine exists_run (P := fun nChild : UInt32 ↦ nChild >>> 31 = 0)
      (Q := fun s : CExtKey ↦ s.key.fValid = true ∧ s.key.fCompressed = true) ?_ hpath
      ⟨hvalid, hcompressed⟩
    rintro s nChild ⟨hvalid, hcompressed⟩ hchild
    obtain ⟨child, ret, hderive, hret, hchildCompressed⟩ :=
      exists_derive C hvalid hcompressed hchild
    exact ⟨child, ret, hderive, fun htrue ↦ ⟨hret.trans htrue, hchildCompressed⟩⟩
  · refine seenRun_run (P := fun nChild : UInt32 ↦ nChild >>> 31 = 0) ?_ hpath key
    intro s nChild hchild
    exact seen_neuter_derive C s hchild

end Path

/-- `derive_neuter_comm` for a path of two children. -/
theorem derive_neuter_comm_two :
    seenRun (CExtKey.neuter sampleCurve) (run (CExtKey.derive sampleCurve) [0, 1] sampleExtKey) =
        (sampleExtKey.neuter sampleCurve).bind (run (CExtPubKey.derive sampleCurve) [0, 1]) ∧
      ∃ code, sampleExtKey.encode = some code ∧ CExtKey.decode code = sampleExtKey := by
  have hpath : ∀ nChild ∈ [(0 : UInt32), 1], nChild >>> 31 = 0 :=
    List.forall_mem_cons.mpr ⟨by decide, List.forall_mem_singleton.mpr (by decide)⟩
  have hvalid : sampleExtKey.key.fValid = true := by decide
  have hcompressed : sampleExtKey.key.fCompressed = true := by decide
  obtain ⟨-, hcomm, hcode, -⟩ := derive_neuter_comm sampleCurve hvalid hcompressed hpath
  exact ⟨hcomm, hcode⟩

end Bitmark
