import Bitmark.Script.StraightLine
import Bitmark.Wallet.Custody
import Bitmark.Wallet.Signing

/-!
# What the wallet owns and can sign

An unlocked store signs for every output that `IsMine` calls spendable, but for an output whose
redeem script is a pay-to-script-hash script itself.
-/

namespace Bitmark

/-- The idealized signatures: a key signs every hash, in strict DER, and its public key is in one of
the two forms and verifies what it signed. A signature is never the hash of its key. -/
structure SigningCrypto.Ideal (K : SigningCrypto) : Prop extends K.toKeyCrypto.Ideal where
  encoding_publicKey : ∀ key : CKey, key.fValid = true →
    isCompressedOrUncompressedPubKey (K.publicKey key.vch key.fCompressed) = .ok true
  sign_isSome : ∀ (key : CKey) hash, key.fValid = true → (K.sign key.vch hash).isSome
  encoding_sign : ∀ (key : CKey) hash vchSig, K.sign key.vch hash = some vchSig →
    ∀ nHashType, isValidSignatureEncoding (vchSig ++ [nHashType]) = .ok true
  verify_sign : ∀ (key : CKey) hash vchSig, key.fValid = true → K.sign key.vch hash = some vchSig →
    K.verify (K.publicKey key.vch key.fCompressed) hash vchSig = true
  sign_ne_hash : ∀ (key : CKey) hash vchSig nHashType, K.sign key.vch hash = some vchSig →
    vchSig ++ [nHashType] ≠ bytes160 (K.hash160 (K.publicKey key.vch key.fCompressed))

/-- The hash types that have a name, `src/script.h:224`. -/
def definedHashTypes : List Nat := [1, 2, 3, 0x81, 0x82, 0x83]

/-- What an unlocked store returns: the keys it has, with their public keys, and the scripts it has
by their hash. -/
structure CCryptoKeyStore.Unlocked (C : KeyCrypto) (s : CCryptoKeyStore) : Prop where
  keys : ∀ address, s.haveKey address = true → ∃ key, s.getKey C address = some key ∧
    key.fValid = true ∧ address = C.hash160 (C.publicKey key.vch key.fCompressed) ∧
      s.getPubKey C address = some (C.publicKey key.vch key.fCompressed)
  scripts : ∀ hash script, s.getCScript hash = some script →
    script.length ≤ maxScriptElementSize ∧ hash = C.hash160 script

/-- No data that a script pushes, read as a public key, collides with the key of the store that has
the same hash. -/
def CCryptoKeyStore.Distinguishes (C : KeyCrypto) (s : CCryptoKeyStore) (script : Bytes) : Prop :=
  ∀ op ∈ (getOps script).1, ∀ address key, s.getKey C address = some key →
    C.hash160 (CPubKey.ofVector op.data) = C.hash160 (C.publicKey key.vch key.fCompressed) →
      CPubKey.ofVector op.data = C.publicKey key.vch key.fCompressed

/-! ### Encodings -/

theorem pubKey_of_encoding {vchPubKey : Bytes}
    (h : isCompressedOrUncompressedPubKey vchPubKey = .ok true) :
    pubKeyIsValid vchPubKey = true ∧ vchPubKey.head? ≠ some 0x30 := by
  cases vchPubKey with
  | nil => cases h
  | cons header rest =>
    simp only [isCompressedOrUncompressedPubKey, vectorAt, List.getElem?_cons_zero] at h
    split at h
    · cases h
    change (if header = 0x04 then _ else _ : Access Bool) = _ at h
    rw [pubKeyIsValid, List.head?_cons]
    split_ifs at h with huncompressed hcompressed
    · have hlength := of_decide_eq_true (Except.ok.inj h)
      subst huncompressed
      exact ⟨decide_eq_true hlength.symm, by decide⟩
    · have hlength := of_decide_eq_true (Except.ok.inj h)
      rcases hcompressed with rfl | rfl
      · exact ⟨decide_eq_true hlength.symm, by decide⟩
      · exact ⟨decide_eq_true hlength.symm, by decide⟩
    · cases h

theorem signature_of_encoding {vchSig : Bytes} (h : isValidSignatureEncoding vchSig = .ok true) :
    vchSig.length ≤ 73 ∧ vchSig.head? = some 0x30 := by
  rw [isValidSignatureEncoding] at h
  split at h
  · cases h
  case isFalse hlo =>
    split at h
    · cases h
    case isFalse hhi =>
      cases vchSig with
      | nil => exact absurd (by decide) hlo
      | cons compound rest =>
        simp only [vectorAt, List.getElem?_cons_zero] at h
        change (if compound ≠ 0x30 then _ else _ : Access Bool) = _ at h
        refine ⟨Nat.le_of_not_lt hhi, ?_⟩
        split at h
        · cases h
        case isFalse hcompound => rw [List.head?_cons, not_not.mp hcompound]

/-! ### A signature in a script -/

section Signature

variable {K : SigningCrypto} {s : CCryptoKeyStore} {script : Bytes} {txTo txTo' : CTransaction}
  {nIn nHashType : Nat}

/-- A push that a key made for a hash. -/
def SignatureOf (K : SigningCrypto) (key : CKey) (hash : Uint256) (nHashType : Nat)
    (b : Bytes) : Prop :=
  ∃ vchSig, K.sign key.vch hash = some vchSig ∧ b = vchSig ++ [UInt8.ofNat nHashType]

theorem signatureHash_setScriptSig (H : Hashes) (scriptCode scriptSig : Bytes)
    (txTo : CTransaction) (nIn : Nat) (nHashType : BitVec 32) :
    signatureHash scriptCode (txTo.setScriptSig nIn scriptSig) nIn nHashType H =
      signatureHash scriptCode txTo nIn nHashType H := by
  have hinput : ∀ i, serializeInput scriptCode (txTo.setScriptSig nIn scriptSig) nIn nHashType i =
      serializeInput scriptCode txTo nIn nHashType i := by
    intro i
    unfold serializeInput
    generalize (if fAnyoneCanPay nHashType then nIn else i) = j
    have hsame : ((txTo.setScriptSig nIn scriptSig).vin.getD j { prevout := .null }).prevout =
        (txTo.vin.getD j { prevout := .null }).prevout ∧
        ((txTo.setScriptSig nIn scriptSig).vin.getD j { prevout := .null }).nSequence =
          (txTo.vin.getD j { prevout := .null }).nSequence := by
      rw [CTransaction.setScriptSig, List.getD_eq_getElem?_getD, List.getD_eq_getElem?_getD,
        List.getElem?_modify]
      cases txTo.vin[j]? with
      | none => exact ⟨rfl, rfl⟩
      | some txin =>
        change (if nIn = j then { txin with scriptSig } else txin).prevout = txin.prevout ∧
          (if nIn = j then { txin with scriptSig } else txin).nSequence = txin.nSequence
        split
        · exact ⟨rfl, rfl⟩
        · exact ⟨rfl, rfl⟩
    dsimp only
    rw [hsame.1, hsame.2]
  have hvin : (txTo.setScriptSig nIn scriptSig).vin.length = txTo.vin.length :=
    List.length_modify _ _ _
  simp only [signatureHash, serializeForSignature, hvin, funext hinput]
  rfl

variable {key : CKey} {hash : Uint256} {b : Bytes}

theorem SignatureOf.encoding (h : SignatureOf K key hash nHashType b) (hK : K.Ideal) :
    isValidSignatureEncoding b = .ok true := by
  obtain ⟨vchSig, hsign, rfl⟩ := h
  exact hK.encoding_sign key hash vchSig hsign _

theorem checkPubKeyEncoding_publicKey (hK : K.Ideal) (hvalid : key.fValid = true)
    (flags : BitVec 32) :
    checkPubKeyEncoding (K.publicKey key.vch key.fCompressed) flags = .ok true := by
  rw [checkPubKeyEncoding, underFlags, hK.encoding_publicKey key hvalid, ite_self]

theorem checkSignatureEncoding_standard (h : SignatureOf K key hash nHashType b) (hK : K.Ideal)
    (htype : nHashType ∈ definedHashTypes) :
    checkSignatureEncoding b standardVerifyFlags = .ok true := by
  have hencoding := h.encoding hK
  obtain ⟨vchSig, -, rfl⟩ := h
  have hdefined : isDefinedHashtypeSignature (vchSig ++ [UInt8.ofNat nHashType]) = true := by
    have hall : ∀ n ∈ definedHashTypes, isDefinedHashtypeSignature [UInt8.ofNat n] = true := by
      decide
    have hone := hall nHashType htype
    rw [isDefinedHashtypeSignature, List.getLast?_concat]
    rw [isDefinedHashtypeSignature, List.getLast?_singleton] at hone
    exact hone
  have hder : underFlags standardVerifyFlags derFlags (.ok true) = .ok true := rfl
  have hlow : ∀ check, underFlags standardVerifyFlags scriptVerifyLowS check = .ok true := by
    intro check
    rw [underFlags, if_pos (by decide)]
  have hstrict : underFlags standardVerifyFlags scriptVerifyStrictenc (.ok true) = .ok true := rfl
  rw [checkSignatureEncoding, if_neg (by simp), hencoding, hder, hlow, hdefined]
  exact hstrict

/-- Whatever key it is tried with, a signature is only looked at after its encoding. -/
theorem SignatureOf.signatureOk_eq (h : SignatureOf K key hash nHashType b) (hK : K.Ideal)
    (htype : nHashType ∈ definedHashTypes) {key' : CKey} (hvalid : key'.fValid = true)
    (env : ScriptEnv) (scriptCode : Bytes) :
    env.signatureOk standardVerifyFlags scriptCode b (K.publicKey key'.vch key'.fCompressed) =
      .ok (env.checkSig b (K.publicKey key'.vch key'.fCompressed) scriptCode) := by
  rw [ScriptEnv.signatureOk, checkSignatureEncoding_standard h hK htype,
    checkPubKeyEncoding_publicKey hK hvalid]
  rfl

/-- A signature of the hash that `CheckSig` makes verifies under its key. -/
theorem SignatureOf.signatureOk (hK : K.Ideal) (htype : nHashType ∈ definedHashTypes)
    (hvalid : key.fValid = true)
    (h : SignatureOf K key (signatureHash script txTo nIn (BitVec.ofNat 32 nHashType) K.hashes)
      nHashType b)
    (htx : txTo' = txTo.setScriptSig nIn scriptSig) :
    ScriptEnv.signatureOk ⟨K.scriptCrypto, txTo', nIn, 0⟩ standardVerifyFlags script b
      (K.publicKey key.vch key.fCompressed) = .ok true := by
  rw [h.signatureOk_eq hK htype hvalid]
  obtain ⟨vchSig, hsign, rfl⟩ := h
  have hbyte : (UInt8.ofNat nHashType).toNat = nHashType := by
    have hall : ∀ n ∈ definedHashTypes, (UInt8.ofNat n).toNat = n := by decide
    exact hall nHashType htype
  have hverify := hK.verify_sign key _ vchSig hvalid hsign
  rw [ScriptEnv.checkSig, List.getLast?_concat, List.dropLast_concat]
  dsimp only
  rw [hbyte, (pubKey_of_encoding (hK.encoding_publicKey key hvalid)).1]
  change Except.ok (true && (true || _) && K.verify _ (signatureHash script txTo' nIn
    (BitVec.ofInt 32 nHashType) K.hashes) vchSig) = _
  rw [BitVec.ofInt_natCast, htx, signatureHash_setScriptSig, hverify]
  rfl

/-! ### Keys of the store -/

/-- A public key whose secret the store has. -/
structure Owned (K : SigningCrypto) (s : CCryptoKeyStore) (vchPubKey : Bytes) (key : CKey) :
    Prop where
  getKey : s.getKey K.toKeyCrypto (K.hash160 vchPubKey) = some key
  valid : key.fValid = true
  eq : vchPubKey = K.publicKey key.vch key.fCompressed

theorem ofVector_publicKey (hK : K.Ideal) (hvalid : key.fValid = true) :
    CPubKey.ofVector (K.publicKey key.vch key.fCompressed) =
      K.publicKey key.vch key.fCompressed :=
  if_pos (pubKey_of_encoding (hK.encoding_publicKey key hvalid)).1

/-- A key that a script pushes and the store has is one of the store's own public keys. -/
theorem owned_of_haveKey (hK : K.Ideal) (hs : s.Unlocked K.toKeyCrypto)
    (hdistinct : s.Distinguishes K.toKeyCrypto script) {op : ScriptOp}
    (hop : op ∈ (getOps script).1)
    (hhave : s.haveKey (K.hash160 (CPubKey.ofVector op.data)) = true) :
    ∃ key, Owned K s op.data key := by
  obtain ⟨key, hkey, hvalid, haddress, -⟩ := hs.keys _ hhave
  have heq := hdistinct op hop _ key hkey haddress
  have hne : K.publicKey key.vch key.fCompressed ≠ [] := by
    intro hnil
    have hencoding := hK.encoding_publicKey key hvalid
    rw [hnil] at hencoding
    cases hencoding
  have hdata : CPubKey.ofVector op.data = op.data := by
    rw [CPubKey.ofVector] at heq ⊢
    split at heq
    case isTrue h => rw [if_pos h]
    case isFalse => exact absurd heq.symm hne
  rw [hdata] at hkey heq
  exact ⟨key, hkey, hvalid, heq⟩

/-- What the store signs with a key. -/
theorem sign1_eq (hK : K.Ideal) {address : CKeyID}
    (hkey : s.getKey K.toKeyCrypto address = some key) (hvalid : key.fValid = true)
    (hash : Uint256) (nHashType : Nat) :
    ∃ b, SignatureOf K key hash nHashType b ∧
      ∀ scriptSig, sign1 K s hash nHashType address scriptSig =
        some (scriptSig ++ pushBytes b) := by
  obtain ⟨vchSig, hsign⟩ := Option.isSome_iff_exists.mp (hK.sign_isSome key hash hvalid)
  refine ⟨_, ⟨vchSig, hsign, rfl⟩, fun scriptSig ↦ ?_⟩
  rw [sign1, hkey]
  simp only [Option.bind_eq_bind, Option.bind_some, CKey.sign, hvalid, if_true, hsign]

/-- Without the secret there is no signature. -/
theorem sign1_eq_none {address : CKeyID} (hhave : s.haveKey address = false) (hash : Uint256)
    (nHashType : Nat) (scriptSig : Bytes) : sign1 K s hash nHashType address scriptSig = none := by
  have hkey : s.getKey K.toKeyCrypto address = none := by
    rw [CCryptoKeyStore.haveKey] at hhave
    rw [CCryptoKeyStore.getKey]
    split at hhave
    case isTrue hplain =>
      rw [if_pos hplain]
      exact Option.isNone_iff_eq_none.mp (Option.isSome_eq_false_iff.mp hhave)
    case isFalse hcrypted =>
      rw [if_neg hcrypted, Option.isNone_iff_eq_none.mp (Option.isSome_eq_false_iff.mp hhave)]
      rfl
  rw [sign1, hkey]
  rfl

/-- The store signs with the first of its keys, up to the number that is required. -/
theorem signEach_eq (hK : K.Ideal) {pubkeys : List Bytes}
    (howned : ∀ vchPubKey ∈ pubkeys,
      s.haveKey (K.hash160 (CPubKey.ofVector vchPubKey)) = true → ∃ key, Owned K s vchPubKey key)
    (hash : Uint256) (nHashType nRequired : Nat) :
    ∃ sigs, List.Forall₂ (fun b vchPubKey ↦ ∃ key, Owned K s vchPubKey key ∧
        SignatureOf K key hash nHashType b) sigs
        ((pubkeys.filter fun vchPubKey ↦
          s.haveKey (K.hash160 (CPubKey.ofVector vchPubKey))).take nRequired) ∧
      ∀ scriptSig, signEach K s hash nHashType nRequired pubkeys scriptSig =
        (scriptSig ++ sigs.flatMap pushBytes, decide (sigs.length = nRequired)) := by
  induction pubkeys generalizing nRequired with
  | nil =>
    refine ⟨[], by rw [List.filter_nil, List.take_nil]; exact .nil, fun scriptSig ↦ ?_⟩
    cases nRequired <;> simp [signEach]
  | cons vchPubKey pubkeys ih =>
    have howned' : ∀ vchPubKey' ∈ pubkeys, s.haveKey (K.hash160 (CPubKey.ofVector vchPubKey')) =
        true → ∃ key, Owned K s vchPubKey' key :=
      fun vchPubKey' hmem ↦ howned vchPubKey' (List.mem_cons_of_mem _ hmem)
    cases nRequired with
    | zero => exact ⟨[], .nil, fun scriptSig ↦ by simp [signEach]⟩
    | succ nRequired =>
      cases hhave : s.haveKey (K.hash160 (CPubKey.ofVector vchPubKey)) with
      | false =>
        obtain ⟨sigs, hsigs, hrest⟩ := ih howned' (nRequired + 1)
        rw [List.filter_cons_of_neg (by simp [hhave])]
        refine ⟨sigs, hsigs, fun scriptSig ↦ ?_⟩
        rw [signEach, sign1_eq_none hhave]
        exact hrest scriptSig
      | true =>
        obtain ⟨key, hkey⟩ := howned vchPubKey List.mem_cons_self hhave
        obtain ⟨b, hb, hsign⟩ := sign1_eq hK hkey.getKey hkey.valid hash nHashType
        obtain ⟨sigs, hsigs, hrest⟩ := ih howned' nRequired
        have hvector : CPubKey.ofVector vchPubKey = vchPubKey := by
          rw [hkey.eq]
          exact ofVector_publicKey hK hkey.valid
        rw [List.filter_cons_of_pos (by simp [hhave]), List.take_succ_cons]
        refine ⟨b :: sigs, .cons ⟨key, hkey, hb⟩ hsigs, fun scriptSig ↦ ?_⟩
        rw [signEach, hvector, hsign]
        dsimp only
        rw [hrest, List.append_assoc, List.flatMap_cons, List.length_cons]
        simp

/-- A signature is not a public key. -/
theorem SignatureOf.ne_publicKey (h : SignatureOf K key hash nHashType b) (hK : K.Ideal)
    {key' : CKey} (hvalid : key'.fValid = true) :
    K.publicKey key'.vch key'.fCompressed ≠ b := by
  rintro rfl
  exact (pubKey_of_encoding (hK.encoding_publicKey key' hvalid)).2
    (signature_of_encoding (h.encoding hK)).2

theorem SignatureOf.ne_nil (h : SignatureOf K key hash nHashType b) : [] ≠ b := by
  obtain ⟨vchSig, -, rfl⟩ := h
  exact (List.append_ne_nil_of_right_ne_nil _ (List.cons_ne_nil _ _)).symm

theorem SignatureOf.findAndDelete_eq (h : SignatureOf K key hash nHashType b) (hK : K.Ideal)
    (hops : ∀ op ∈ (getOps script).1, op.data ≠ b) :
    findAndDelete script (pushBytes b) = script :=
  findAndDelete_eq_self
    (Nat.lt_of_le_of_lt (signature_of_encoding (h.encoding hK)).1 (by decide)) hops

/-- Pushes of the size of a signature. -/
theorem length_pushes_le {bs : List Bytes} (h : ∀ b ∈ bs, b.length ≤ 73) :
    (bs.flatMap pushBytes).length ≤ 76 * bs.length := by
  induction bs with
  | nil => exact Nat.zero_le _
  | cons b bs ih =>
    obtain ⟨hb, hbs⟩ := List.forall_mem_cons.mp h
    have hrest := ih hbs
    have hone : (pushBytes b).length = b.length + 1 := by
      rw [pushBytes, if_pos (Nat.lt_of_le_of_lt hb (by decide)), List.length_cons]
    rw [List.flatMap_cons, List.length_append, List.length_cons, hone]
    omega

/-- What the store signs of a multisignature script. -/
theorem solverSign_multisig (hK : K.Ideal) {m : UInt8} {pubkeys : List Bytes} {n : Bytes}
    (hsolver : solver script = some (.multisig, [m] :: (pubkeys ++ [n])))
    (howned : ∀ vchPubKey ∈ pubkeys,
      s.haveKey (K.hash160 (CPubKey.ofVector vchPubKey)) = true → ∃ key, Owned K s vchPubKey key)
    (hash : Uint256) (nHashType : Nat) :
    ∃ sigs, List.Forall₂ (fun b vchPubKey ↦ ∃ key, Owned K s vchPubKey key ∧
        SignatureOf K key hash nHashType b) sigs
        ((pubkeys.filter fun vchPubKey ↦
          s.haveKey (K.hash160 (CPubKey.ofVector vchPubKey))).take m.toNat) ∧
      solverSign K s hash nHashType script =
        (.multisig, ([] :: sigs).flatMap pushBytes, decide (sigs.length = m.toNat)) := by
  obtain ⟨sigs, hsigs, hsign⟩ := signEach_eq hK howned hash nHashType m.toNat
  refine ⟨sigs, hsigs, ?_⟩
  rw [solverSign, hsolver]
  dsimp only
  rw [signN, List.tail_cons, List.dropLast_concat, List.headD_cons, List.headD_cons, hsign,
    List.flatMap_cons]

/-! ### Scripts of one level -/

/-- Pushes that `Solver` writes for a script and that satisfy it in every transaction that differs
in the script of its input only. -/
structure Solved (K : SigningCrypto) (s : CCryptoKeyStore) (script : Bytes) (txTo : CTransaction)
    (nIn nHashType : Nat) (bs : List Bytes) : Prop where
  solver : ∃ type, type ≠ .scripthash ∧
    solverSign K s (signatureHash script txTo nIn (BitVec.ofNat 32 nHashType) K.hashes) nHashType
      script = (type, bs.flatMap pushBytes, true)
  short : ∀ b ∈ bs, b.length ≤ 73
  few : bs.length ≤ 17
  eval : ∀ scriptSig, ∃ stack,
    ScriptEnv.evalScript ⟨K.scriptCrypto, txTo.setScriptSig nIn scriptSig, nIn, 0⟩
      standardVerifyFlags bs.reverse script = .ok ([1] :: stack)

theorem solved_pubkey (hK : K.Ideal) (hs : s.Unlocked K.toKeyCrypto)
    (hdistinct : s.Distinguishes K.toKeyCrypto script) (htype : nHashType ∈ definedHashTypes)
    {vs : List Bytes} (hsolver : Bitmark.solver script = some (.pubkey, vs))
    (hhave : s.haveKey (K.hash160 (CPubKey.ofVector (vs.headD []))) = true)
    (txTo : CTransaction) (nIn : Nat) : ∃ bs, Solved K s script txTo nIn nHashType bs := by
  obtain ⟨push, hparse, hsize, rfl⟩ := solver_pubkey hsolver
  have hmem : push ∈ (getOps script).1 := by simp [hparse]
  obtain ⟨key, howned⟩ := owned_of_haveKey hK hs hdistinct hmem hhave
  obtain ⟨b, hb, hsign⟩ := sign1_eq hK howned.getKey howned.valid
    (signatureHash script txTo nIn (BitVec.ofNat 32 nHashType) K.hashes) nHashType
  have hvector : CPubKey.ofVector push.data = push.data := by
    rw [howned.eq]
    exact ofVector_publicKey hK howned.valid
  have hcode : findAndDelete script (pushBytes b) = script := by
    apply hb.findAndDelete_eq hK
    simp only [hparse, List.forall_mem_cons, howned.eq]
    exact ⟨hb.ne_publicKey hK howned.valid, hb.ne_nil, fun op hop ↦ by cases hop⟩
  refine ⟨[b], ⟨.pubkey, by decide, ?_⟩, ?_, by simp, fun scriptSig ↦ ⟨[], ?_⟩⟩
  · rw [solverSign, hsolver]
    dsimp only [List.headD_cons]
    rw [hvector, hsign, List.nil_append, List.flatMap_singleton]
  · rw [List.forall_mem_singleton]
    exact (signature_of_encoding (hb.encoding hK)).1
  · apply evalScript_pubkey hparse hsize hcode _ (Nat.zero_le _)
    rw [howned.eq]
    exact hb.signatureOk hK htype howned.valid rfl

theorem bytes160_uint160 {vch : Bytes} (h : vch.length = 20) : bytes160 (uint160 vch) = vch := by
  have hlt : leNat vch < 2 ^ 160 := by
    have hle := leNat_lt vch
    rwa [h] at hle
  have hval : (uint160 vch).val = leNat vch := Nat.mod_eq_of_lt hlt
  rw [bytes160, hval, ← h, leBytes_leNat]

theorem solved_pubkeyhash (hK : K.Ideal) (hs : s.Unlocked K.toKeyCrypto)
    (htype : nHashType ∈ definedHashTypes) {vs : List Bytes}
    (hsolver : Bitmark.solver script = some (.pubkeyhash, vs))
    (hhave : s.haveKey (uint160 (vs.headD [])) = true) (txTo : CTransaction) (nIn : Nat) :
    ∃ bs, Solved K s script txTo nIn nHashType bs := by
  obtain ⟨push, hparse, hsize, rfl⟩ := solver_pubkeyhash hsolver
  obtain ⟨key, hkey, hvalid, haddress, hpubkey⟩ := hs.keys _ hhave
  dsimp only [List.headD_cons] at hkey haddress hpubkey
  obtain ⟨b, hb, hsign⟩ := sign1_eq hK hkey hvalid
    (signatureHash script txTo nIn (BitVec.ofNat 32 nHashType) K.hashes) nHashType
  have hhash : bytes160 (K.hash160 (K.publicKey key.vch key.fCompressed)) = push.data := by
    rw [← haddress, bytes160_uint160 hsize]
  have hcode : findAndDelete script (pushBytes b) = script := by
    apply hb.findAndDelete_eq hK
    have hne : push.data ≠ b := by
      obtain ⟨vchSig, hvchSig, rfl⟩ := hb
      rw [← hhash]
      exact (hK.sign_ne_hash key _ vchSig _ hvchSig).symm
    simp only [hparse, List.forall_mem_cons]
    exact ⟨hb.ne_nil, hb.ne_nil, hne, hb.ne_nil, hb.ne_nil, fun op hop ↦ by cases hop⟩
  refine ⟨[b, K.publicKey key.vch key.fCompressed], ⟨.pubkeyhash, by decide, ?_⟩, ?_, by simp,
    fun scriptSig ↦ ⟨[], ?_⟩⟩
  · rw [solverSign, hsolver]
    dsimp only [List.headD_cons]
    rw [hsign, hpubkey, List.nil_append, List.flatMap_cons, List.flatMap_singleton]
    rfl
  · have hlength := hK.length_publicKey key hvalid
    have hsig := (signature_of_encoding (hb.encoding hK)).1
    simp only [List.forall_mem_cons, List.not_mem_nil, false_imp_iff, forall_const, and_true]
    refine ⟨hsig, ?_⟩
    rw [hlength]
    split <;> decide
  · exact evalScript_pubkeyhash hparse hsize hhash hcode (hb.signatureOk hK htype hvalid rfl)
      (Nat.zero_le _)

theorem solved_multisig (hK : K.Ideal) (hs : s.Unlocked K.toKeyCrypto)
    (hdistinct : s.Distinguishes K.toKeyCrypto script) (htype : nHashType ∈ definedHashTypes)
    {vs : List Bytes} (hsolver : Bitmark.solver script = some (.multisig, vs))
    (hhave : s.haveKeys K.toKeyCrypto vs.tail.dropLast = vs.tail.dropLast.length)
    (txTo : CTransaction) (nIn : Nat) : ∃ bs, Solved K s script txTo nIn nHashType bs := by
  obtain ⟨m, keys, n, hparse, hkeys, hm, hn, hle, hcount, rfl⟩ := solver_multisig hsolver
  rw [List.tail_cons, List.dropLast_concat] at hhave
  have hmem : ∀ op ∈ keys, op ∈ (getOps script).1 := by
    intro op hop
    simp [hparse, hop]
  rw [CCryptoKeyStore.haveKeys, List.countP_eq_length] at hhave
  have howned : ∀ vchPubKey ∈ keys.map (·.data), ∃ key, Owned K s vchPubKey key := by
    intro vchPubKey hvchPubKey
    have hkey := hhave vchPubKey hvchPubKey
    obtain ⟨op, hop, rfl⟩ := List.mem_map.mp hvchPubKey
    exact owned_of_haveKey hK hs hdistinct (hmem op hop) hkey
  have hrequired : decodeOpN m ≤ (keys.map (·.data)).length := by
    rw [List.length_map]
    omega
  have hsixteen : decodeOpN m ≤ 16 := by
    have hhi : m.toNat ≤ 0x60 := UInt8.le_iff_toNat_le.mp hm.2
    rw [decodeOpN, show op1.toNat = 0x51 from rfl]
    omega
  have hbyte : (UInt8.ofNat (decodeOpN m)).toNat = decodeOpN m :=
    UInt8.toNat_ofNat_of_lt' (Nat.lt_of_le_of_lt hsixteen (by decide))
  obtain ⟨sigs, hsigs, hsolve⟩ := solverSign_multisig hK hsolver
    (fun vchPubKey hmem _ ↦ howned vchPubKey hmem)
    (signatureHash script txTo nIn (BitVec.ofNat 32 nHashType) K.hashes) nHashType
  rw [List.filter_eq_self.mpr hhave, hbyte] at hsigs
  have hlength : sigs.length = decodeOpN m := by
    rw [hsigs.length_eq, List.length_take]
    omega
  have hsigner : ∀ b ∈ sigs, ∃ key, SignatureOf K key
      (signatureHash script txTo nIn (BitVec.ofNat 32 nHashType) K.hashes) nHashType b := by
    have hpairs : List.Forall₂ (fun b (_ : Bytes) ↦ (∃ key, SignatureOf K key
        (signatureHash script txTo nIn (BitVec.ofNat 32 nHashType) K.hashes) nHashType b) ∧ True)
        sigs ((keys.map (·.data)).take (decodeOpN m)) :=
      hsigs.imp fun b _ hsigned ↦ ⟨hsigned.imp fun _ howned ↦ howned.2, trivial⟩
    exact ((List.forall₂_and_left _ _).mp hpairs).1
  have hcode : ∀ b ∈ sigs.reverse, findAndDelete script (pushBytes b) = script := by
    intro b hb
    obtain ⟨key, hsignature⟩ := hsigner b (List.mem_reverse.mp hb)
    apply hsignature.findAndDelete_eq hK
    simp only [hparse, List.forall_mem_cons, List.forall_mem_append]
    refine ⟨hsignature.ne_nil, fun op hop ↦ ?_, hsignature.ne_nil, hsignature.ne_nil,
      fun op hop ↦ by cases hop⟩
    obtain ⟨key', howned'⟩ := howned op.data (List.mem_map_of_mem hop)
    rw [howned'.eq]
    exact hsignature.ne_publicKey hK howned'.valid
  refine ⟨[] :: sigs, ⟨.multisig, by decide, ?_⟩, ?_, ?_, fun scriptSig ↦ ⟨[], ?_⟩⟩
  · rw [hsolve, hbyte, decide_eq_true hlength]
  · rw [List.forall_mem_cons]
    refine ⟨Nat.zero_le _, fun b hb ↦ ?_⟩
    obtain ⟨key, hsignature⟩ := hsigner b hb
    exact (signature_of_encoding (hsignature.encoding hK)).1
  · rw [List.length_cons]
    omega
  · rw [List.reverse_cons]
    apply evalScript_multisig hparse hkeys hm hn hle hcount (by rwa [List.length_reverse]) hcode _
      (Nat.zero_le _)
    -- the signatures are by the first keys, which come last in the loop
    have hsublist : ((keys.map (·.data)).take (decodeOpN m)).reverse.Sublist
        (keys.map (·.data)).reverse := (List.take_sublist _ _).reverse
    apply multisigLoop_of_sublist _ hsublist
    · intro b hb vchPubKey hvchPubKey
      obtain ⟨key, hsignature⟩ := hsigner b (List.mem_reverse.mp hb)
      obtain ⟨key', howned'⟩ := howned vchPubKey (List.mem_reverse.mp hvchPubKey)
      rw [howned'.eq]
      exact ⟨_, hsignature.signatureOk_eq hK htype howned'.valid _ _⟩
    · rw [List.forall₂_reverse_iff]
      refine hsigs.imp fun b vchPubKey hsigned ↦ ?_
      obtain ⟨key, howned', hsignature⟩ := hsigned
      rw [howned'.eq]
      exact hsignature.signatureOk hK htype howned'.valid rfl

/-- A script of one level that `IsMine` calls spendable is solved. -/
theorem solved_of_isMine (hK : K.Ideal) (hs : s.Unlocked K.toKeyCrypto)
    (hdistinct : s.Distinguishes K.toKeyCrypto script) (htype : nHashType ∈ definedHashTypes)
    {setWatchOnly : List Bytes} {fuel : Nat}
    (hmine : isMine K.toKeyCrypto setWatchOnly s fuel script = some .spendable)
    (hp2sh : isPayToScriptHash script = false) (txTo : CTransaction) (nIn : Nat) :
    ∃ bs, Solved K s script txTo nIn nHashType bs := by
  have hother : (if script ∈ setWatchOnly then IsMineType.watchOnly else .no) ≠ .spendable := by
    split <;> decide
  have hhave : ∀ {hasKey : Bool}, (some (if hasKey = true then IsMineType.spendable
      else if script ∈ setWatchOnly then .watchOnly else .no)) = some .spendable →
        hasKey = true := by
    intro hasKey h
    by_contra hnot
    rw [if_neg hnot] at h
    exact hother (Option.some.inj h)
  cases fuel with
  | zero => cases hmine
  | succ fuel =>
    rw [isMine] at hmine
    cases hsolver : Bitmark.solver script with
    | none =>
      rw [hsolver] at hmine
      exact absurd (Option.some.inj hmine) hother
    | some p =>
      obtain ⟨type, vs⟩ := p
      rw [hsolver] at hmine
      cases type with
      | nonstandard => exact absurd (Option.some.inj hmine) hother
      | nullData => exact absurd (Option.some.inj hmine) hother
      | pubkey => exact solved_pubkey hK hs hdistinct htype hsolver (hhave hmine) txTo nIn
      | pubkeyhash => exact solved_pubkeyhash hK hs htype hsolver (hhave hmine) txTo nIn
      | scripthash =>
        rw [(solver_scripthash hsolver).1] at hp2sh
        cases hp2sh
      | multisig =>
        refine solved_multisig hK hs hdistinct htype hsolver ?_ txTo nIn
        by_contra hnot
        dsimp only at hmine
        rw [if_neg hnot] at hmine
        exact hother (Option.some.inj hmine)

theorem Solved.length_le {bs : List Bytes} (h : Solved K s script txTo nIn nHashType bs) :
    (bs.flatMap pushBytes).length ≤ 9000 := by
  have hbound := length_pushes_le h.short
  have hfew := h.few
  omega

end Signature

/-! ### The store after its calls -/

namespace CCryptoKeyStore

variable {C : KeyCrypto} {s s' : CCryptoKeyStore} {r : KeyRecord}

/-- Every script is under its hash and within the limit of `AddCScript`. -/
def ScriptsKept (C : KeyCrypto) (s : CCryptoKeyStore) : Prop :=
  ∀ hash script, s.getCScript hash = some script →
    script.length ≤ maxScriptElementSize ∧ hash = C.hash160 script

theorem mapScripts_setCrypted (s : CCryptoKeyStore) :
    s.setCrypted.1.mapScripts = s.mapScripts := by
  unfold setCrypted
  split_ifs <;> rfl

theorem mapScripts_addCryptedKey (vchPubKey : CPubKey) (vchCryptedSecret : Bytes) :
    (s.addCryptedKey C vchPubKey vchCryptedSecret).1.mapScripts = s.mapScripts := by
  have hset := mapScripts_setCrypted s
  unfold addCryptedKey
  generalize s.setCrypted = p at hset ⊢
  obtain ⟨t, _ | _⟩ := p
  · exact hset
  · exact hset

theorem mapScripts_encryptEach {vMasterKeyIn : CKeyingMaterial} {l : List (CKeyID × CKey)}
    {result : CCryptoKeyStore × Bool} (h : encryptEach C vMasterKeyIn l s = some result) :
    result.1.mapScripts = s.mapScripts := by
  induction l generalizing s with
  | nil =>
    obtain rfl := Option.some.inj h
    rfl
  | cons entry l ih =>
    obtain ⟨vchPubKey, -, h⟩ := Option.bind_eq_some_iff.mp h
    split at h
    · obtain rfl := Option.some.inj h
      rfl
    case h_2 vchCryptedSecret _ =>
      have hadd := mapScripts_addCryptedKey (C := C) (s := s) vchPubKey vchCryptedSecret
      generalize s.addCryptedKey C vchPubKey vchCryptedSecret = p at h hadd
      obtain ⟨t, _ | _⟩ := p
      · obtain rfl := Option.some.inj h
        exact hadd
      · exact (ih h).trans hadd

/-- Only `AddCScript` changes the scripts. -/
theorem mapScripts_step {op : KeyStoreOp} {result : CCryptoKeyStore × Bool}
    (hop : ∀ redeemScript, op ≠ .addCScript redeemScript) (h : s.step C op = some result) :
    result.1.mapScripts = s.mapScripts := by
  have hset := mapScripts_setCrypted s
  cases op with
  | addKey key =>
    obtain ⟨pubkey, -, h⟩ := Option.bind_eq_some_iff.mp h
    obtain rfl := Option.some.inj h
    unfold addKeyPubKey
    split_ifs
    · rfl
    · rfl
    · split
      · rfl
      · exact mapScripts_addCryptedKey _ _
  | addCScript redeemScript => exact absurd rfl (hop redeemScript)
  | encryptWallet vMasterKey =>
    change s.encryptWallet C vMasterKey = _ at h
    unfold encryptWallet at h
    split at h
    · obtain rfl := Option.some.inj h
      rfl
    obtain ⟨⟨t, ok⟩, hkeys, h⟩ := Option.bind_eq_some_iff.mp h
    obtain ⟨-, h⟩ := Option.ite_none_right_eq_some.mp h
    obtain rfl := Option.some.inj h
    unfold encryptKeys at hkeys
    split at hkeys
    · obtain ⟨rfl, -⟩ := Prod.mk.inj (Option.some.inj hkeys)
      rfl
    obtain ⟨⟨u, ok'⟩, heach, hkeys⟩ := Option.bind_eq_some_iff.mp hkeys
    have hu := mapScripts_encryptEach heach
    cases ok' with
    | true =>
      obtain ⟨rfl, -⟩ := Prod.mk.inj (Option.some.inj hkeys)
      exact hu
    | false =>
      obtain ⟨rfl, -⟩ := Prod.mk.inj (Option.some.inj hkeys)
      exact hu
  | lock =>
    change some s.lock = _ at h
    obtain rfl := Option.some.inj h
    unfold lock
    generalize s.setCrypted = p at hset ⊢
    obtain ⟨t, _ | _⟩ := p
    · exact hset
    · exact hset
  | unlock vMasterKeyIn =>
    change s.unlock C vMasterKeyIn = _ at h
    unfold unlock at h
    generalize s.setCrypted = p at hset h
    obtain ⟨t, _ | _⟩ := p
    · obtain rfl := Option.some.inj h
      exact hset
    obtain ⟨ok, -, h⟩ := Option.bind_eq_some_iff.mp h
    cases ok with
    | true =>
      obtain rfl := Option.some.inj h
      exact hset
    | false =>
      obtain rfl := Option.some.inj h
      exact hset

theorem ScriptsKept.step (hs : s.ScriptsKept C) {op : KeyStoreOp}
    {result : CCryptoKeyStore × Bool} (h : s.step C op = some result) :
    result.1.ScriptsKept C := by
  by_cases hop : ∃ redeemScript, op = .addCScript redeemScript
  · obtain ⟨redeemScript, rfl⟩ := hop
    change some (s.addCScript C redeemScript) = _ at h
    obtain rfl := Option.some.inj h
    unfold addCScript
    split
    case isTrue => exact hs
    case isFalse hsize =>
      intro hash script hlookup
      change (s.mapScripts.insert (C.hash160 redeemScript) redeemScript).lookup hash = _ at hlookup
      by_cases heq : hash = C.hash160 redeemScript
      · rw [heq, SortedMap.lookup_insert_self] at hlookup
        obtain rfl := Option.some.inj hlookup
        exact ⟨Nat.le_of_not_lt hsize, heq⟩
      · rw [SortedMap.lookup_insert_of_ne _ _ heq] at hlookup
        exact hs hash script hlookup
  · have hsame := mapScripts_step (fun redeemScript heq ↦ hop ⟨redeemScript, heq⟩) h
    intro hash script hlookup
    rw [getCScript, hsame] at hlookup
    exact hs hash script hlookup

theorem ScriptsKept.run (hs : s.ScriptsKept C) {ops : List KeyStoreOp}
    {log : List (KeyStoreOp × Bool)} (h : CCryptoKeyStore.run C ops s = some (s', log)) :
    s'.ScriptsKept C := by
  induction ops generalizing s log with
  | nil =>
    obtain ⟨rfl, -⟩ := Prod.mk.inj (Option.some.inj h)
    exact hs
  | cons op ops ih =>
    simp only [CCryptoKeyStore.run, Option.bind_eq_bind, Option.bind_eq_some_iff, Prod.exists] at h
    obtain ⟨t, ok, hstep, u, log', hrun, h⟩ := h
    obtain ⟨rfl, -⟩ := Prod.mk.inj (Option.some.inj h)
    exact ih (hs.step hstep) hrun

theorem scriptsKept_empty : empty.ScriptsKept C := by
  intro hash script h
  rw [getCScript, empty, SortedMap.lookup_empty] at h
  cases h

/-- After any calls an unlocked store returns its keys and its scripts. -/
theorem unlocked_of_run (hC : C.Ideal) {ops : List KeyStoreOp} {log : List (KeyStoreOp × Bool)}
    (h : CCryptoKeyStore.run C ops empty = some (s, log)) (hunlocked : s.isLocked = false) :
    s.Unlocked C where
  scripts := scriptsKept_empty.run h
  keys := by
    have hkeeps := keeps_empty.run hC h
    generalize KeyRecord.empty.after C log = r at hkeeps
    intro address hhave
    have hkeys := hkeeps.getKey_unlocked hC hunlocked address
    cases hcrypted : r.encrypted with
    | false =>
      obtain ⟨hplain, -⟩ := hkeeps.plain hcrypted
      rw [haveKey, isCrypted, hkeeps.crypted, hcrypted, hplain] at hhave
      obtain ⟨key, hkey⟩ := Option.isSome_iff_exists.mp hhave
      obtain ⟨hvalid, haddress⟩ := hkeeps.keys_valid address key hkey
      refine ⟨key, hkeys.trans hkey, hvalid, haddress, ?_⟩
      rw [getPubKey, isCrypted, hkeeps.crypted, hcrypted, hplain, hkey]
      exact getPubKey_eq_some.mpr ⟨hvalid, rfl⟩
    | true =>
      rw [haveKey, isCrypted, hkeeps.crypted, hcrypted] at hhave
      cases hkey : r.keys.lookup address with
      | none =>
        rw [hkeeps.sealed_none hcrypted address hkey] at hhave
        cases hhave
      | some key =>
        obtain ⟨hvalid, haddress⟩ := hkeeps.keys_valid address key hkey
        obtain ⟨vMasterKey, entry, -, hentry, hpubkey, -⟩ :=
          hkeeps.sealed_key hcrypted address key hkey
        refine ⟨key, hkeys.trans hkey, hvalid, haddress, ?_⟩
        rw [getPubKey, isCrypted, hkeeps.crypted, hcrypted, hentry, ← hpubkey]
        rfl

/-- The redeem script of an output is a pay-to-script-hash script itself. -/
def Nested (s : CCryptoKeyStore) (scriptPubKey : Bytes) : Prop :=
  isPayToScriptHash scriptPubKey = true ∧
    ∃ subscript, s.getCScript (uint160 ((scriptPubKey.drop 2).take 20)) = some subscript ∧
      isPayToScriptHash subscript = true

end CCryptoKeyStore

/-! ### Spendable and signable -/

/-- `SignSignature` returns true, and its result passes `VerifyScript` under the standard flags. -/
def Signs (K : SigningCrypto) (s : CCryptoKeyStore) (scriptPubKey : Bytes) (txTo : CTransaction)
    (nIn nHashType : Nat) : Prop :=
  let r := signSignature K s scriptPubKey txTo nIn nHashType
  r.2 = .ok () ∧ ∃ txin, r.1.vin[nIn]? = some txin ∧
    ScriptEnv.verifyScript ⟨K.scriptCrypto, r.1, nIn, 0⟩ standardVerifyFlags txin.scriptSig
      scriptPubKey = .ok ()

section Main

variable {K : SigningCrypto} {s : CCryptoKeyStore} {scriptPubKey : Bytes} {txTo : CTransaction}
  {nIn nHashType : Nat}

theorem vin_setScriptSig (hnIn : nIn < txTo.vin.length) (scriptSig : Bytes) :
    ∃ txin, (txTo.setScriptSig nIn scriptSig).vin[nIn]? = some txin ∧
      txin.scriptSig = scriptSig := by
  refine ⟨{ txTo.vin[nIn] with scriptSig }, ?_, rfl⟩
  rw [CTransaction.setScriptSig, List.getElem?_modify, List.getElem?_eq_getElem hnIn]
  simp

theorem setScriptSig_setScriptSig (scriptSig scriptSig' : Bytes) :
    (txTo.setScriptSig nIn scriptSig).setScriptSig nIn scriptSig' =
      txTo.setScriptSig nIn scriptSig' := by
  simp only [CTransaction.setScriptSig, List.modify_modify_eq]
  rfl

/-- `SignSignature` on a script of one level. -/
theorem signs_of_solved {bs : List Bytes} (h : Solved K s scriptPubKey txTo nIn nHashType bs)
    (hp2sh : isPayToScriptHash scriptPubKey = false) (hnIn : nIn < txTo.vin.length) :
    Signs K s scriptPubKey txTo nIn nHashType := by
  obtain ⟨type, hne, hsolver⟩ := h.solver
  obtain ⟨stack, heval⟩ := h.eval (bs.flatMap pushBytes)
  have hlength := h.length_le
  have hfew := h.few
  have hverify := verifyScript_pushes
    (fun b hb ↦ (h.short b hb).trans (by decide : 73 ≤ 520)) (by omega) (by omega) hp2sh heval
  have hsign : signSignature K s scriptPubKey txTo nIn nHashType =
      (txTo.setScriptSig nIn (bs.flatMap pushBytes), .ok ()) := by
    rw [signSignature]
    dsimp only
    rw [hsolver]
    cases type with
    | scripthash => exact absurd rfl hne
    | nonstandard => exact congrArg (Prod.mk _) hverify
    | pubkey => exact congrArg (Prod.mk _) hverify
    | pubkeyhash => exact congrArg (Prod.mk _) hverify
    | multisig => exact congrArg (Prod.mk _) hverify
    | nullData => exact congrArg (Prod.mk _) hverify
  rw [Signs, hsign]
  obtain ⟨txin, hvin, hscriptSig⟩ := vin_setScriptSig hnIn (bs.flatMap pushBytes)
  refine ⟨rfl, txin, hvin, ?_⟩
  rw [hscriptSig]
  exact hverify

/-- What `SignSignature` does for an output whose redeem script the store has. -/
theorem signSignature_scripthash (K : SigningCrypto) (txTo : CTransaction) (nIn nHashType : Nat)
    {subscript : Bytes} (hp2sh : isPayToScriptHash scriptPubKey = true)
    (hscript : s.getCScript (uint160 ((scriptPubKey.drop 2).take 20)) = some subscript) :
    signSignature K s scriptPubKey txTo nIn nHashType =
      let solved := solverSign K s (signatureHash subscript (txTo.setScriptSig nIn subscript) nIn
        (BitVec.ofNat 32 nHashType) K.hashes) nHashType subscript
      let scriptSig := solved.2.1 ++ pushBytes subscript
      let txTo := txTo.setScriptSig nIn scriptSig
      (txTo, if solved.2.2 && solved.1 ≠ .scripthash then
        ScriptEnv.verifyScript ⟨K.scriptCrypto, txTo, nIn, 0⟩ standardVerifyFlags scriptSig
          scriptPubKey
      else .error .fail) := by
  have hsolver : solver scriptPubKey = some (.scripthash, [(scriptPubKey.drop 2).take 20]) := by
    rw [solver, if_pos hp2sh]
  have houter : ∀ hash, solverSign K s hash nHashType scriptPubKey =
      (.scripthash, subscript, true) := by
    intro hash
    rw [solverSign, hsolver]
    dsimp only [List.headD_cons]
    rw [hscript]
  rw [signSignature]
  dsimp only
  rw [houter]
  dsimp only
  rw [setScriptSig_setScriptSig]
  split_ifs <;> rfl

/-- `SignSignature` signs one level of subscript. -/
theorem not_signs_of_nested (h : s.Nested scriptPubKey) :
    ¬ Signs K s scriptPubKey txTo nIn nHashType := by
  obtain ⟨hp2sh, subscript, hscript, hsub⟩ := h
  rintro ⟨hok, -⟩
  have hsolver : solver subscript = some (.scripthash, [(subscript.drop 2).take 20]) := by
    rw [solver, if_pos hsub]
  have htype : ∀ hash, (solverSign K s hash nHashType subscript).1 = .scripthash := by
    intro hash
    rw [solverSign, hsolver]
    dsimp only
    split <;> rfl
  rw [signSignature_scripthash K txTo nIn nHashType hp2sh hscript] at hok
  dsimp only at hok
  rw [htype, if_neg (by simp)] at hok
  cases hok

/-- An output that `IsMine` calls spendable and that pays to a script hash has a redeem script that
`IsMine` calls spendable. -/
theorem isMine_scripthash {C : KeyCrypto} {setWatchOnly : List Bytes} {fuel : Nat}
    (hmine : isMine C setWatchOnly s fuel scriptPubKey = some .spendable)
    (hp2sh : isPayToScriptHash scriptPubKey = true) :
    ∃ subscript fuel', s.getCScript (uint160 ((scriptPubKey.drop 2).take 20)) = some subscript ∧
      isMine C setWatchOnly s fuel' subscript = some .spendable := by
  have hother : (if scriptPubKey ∈ setWatchOnly then IsMineType.watchOnly else .no) ≠
      .spendable := by
    split <;> decide
  have hsolver : solver scriptPubKey = some (.scripthash, [(scriptPubKey.drop 2).take 20]) := by
    rw [solver, if_pos hp2sh]
  cases fuel with
  | zero => cases hmine
  | succ fuel =>
    rw [isMine, hsolver] at hmine
    dsimp only [List.headD_cons] at hmine
    cases hscript : s.getCScript (uint160 ((scriptPubKey.drop 2).take 20)) with
    | none =>
      rw [hscript] at hmine
      exact absurd (Option.some.inj hmine) hother
    | some subscript =>
      rw [hscript] at hmine
      obtain ⟨ret, hret, hmine⟩ := Option.bind_eq_some_iff.mp hmine
      refine ⟨subscript, fuel, rfl, ?_⟩
      split at hmine
      case isTrue heq => rw [hret, heq]
      case isFalse => exact absurd (Option.some.inj hmine) hother

/-- After any calls, an unlocked store signs for an output that `IsMine` calls spendable, with any
named hash type, exactly if its redeem script is not a pay-to-script-hash script. -/
theorem signs_iff_not_nested (hK : K.Ideal) {ops : List KeyStoreOp} {log : List (KeyStoreOp × Bool)}
    (hrun : CCryptoKeyStore.run K.toKeyCrypto ops .empty = some (s, log))
    (hunlocked : s.isLocked = false)
    (hdistinct : ∀ script, script = scriptPubKey ∨ (∃ hash, s.getCScript hash = some script) →
      s.Distinguishes K.toKeyCrypto script)
    {setWatchOnly : List Bytes} {fuel : Nat}
    (hmine : isMine K.toKeyCrypto setWatchOnly s fuel scriptPubKey = some .spendable)
    (hnIn : nIn < txTo.vin.length) (htype : nHashType ∈ definedHashTypes) :
    Signs K s scriptPubKey txTo nIn nHashType ↔ ¬ s.Nested scriptPubKey := by
  have hs := CCryptoKeyStore.unlocked_of_run hK.toIdeal hrun hunlocked
  cases hp2sh : isPayToScriptHash scriptPubKey with
  | false =>
    obtain ⟨bs, hsolved⟩ :=
      solved_of_isMine hK hs (hdistinct _ (.inl rfl)) htype hmine hp2sh txTo nIn
    refine iff_of_true (signs_of_solved hsolved hp2sh hnIn) fun hnested ↦ ?_
    rw [hnested.1] at hp2sh
    cases hp2sh
  | true =>
    obtain ⟨subscript, fuel', hscript, hsubmine⟩ := isMine_scripthash hmine hp2sh
    obtain ⟨hsize, hhash⟩ := hs.scripts _ _ hscript
    cases hsub : isPayToScriptHash subscript with
    | true =>
      have hnested : s.Nested scriptPubKey := ⟨hp2sh, subscript, hscript, hsub⟩
      exact iff_of_false (not_signs_of_nested hnested) fun hnot ↦ hnot hnested
    | false =>
      obtain ⟨bs, hsolved⟩ := solved_of_isMine hK hs (hdistinct _ (.inr ⟨_, hscript⟩)) htype
        hsubmine hsub (txTo.setScriptSig nIn subscript) nIn
      refine iff_of_true ?_ fun hnested ↦ ?_
      · obtain ⟨type, hne, hsolver⟩ := hsolved.solver
        obtain ⟨stack, heval⟩ := hsolved.eval (bs.flatMap pushBytes ++ pushBytes subscript)
        rw [setScriptSig_setScriptSig] at heval
        have hfew := hsolved.few
        have hbytes : bytes160 (K.hash160 subscript) = (scriptPubKey.drop 2).take 20 := by
          rw [← hhash, bytes160_uint160 (length_hash_of_isPayToScriptHash hp2sh)]
        have hverify := verifyScript_redeem
          (fun b hb ↦ (hsolved.short b hb).trans (by decide : 73 ≤ 520)) hsize (by omega)
          hsolved.length_le hp2sh hbytes heval
        have hsign := signSignature_scripthash K txTo nIn nHashType hp2sh hscript
        rw [hsolver] at hsign
        dsimp only at hsign
        rw [if_pos (by simp [hne]), hverify] at hsign
        rw [Signs, hsign]
        obtain ⟨txin, hvin, hscriptSig⟩ := vin_setScriptSig hnIn
          (bs.flatMap pushBytes ++ pushBytes subscript)
        refine ⟨rfl, txin, hvin, ?_⟩
        rw [hscriptSig]
        exact hverify
      · obtain ⟨-, subscript', hscript', hsub'⟩ := hnested
        rw [hscript] at hscript'
        obtain rfl := Option.some.inj hscript'
        rw [hsub] at hsub'
        cases hsub'

end Main

/-! ### A store with a nested script -/

/-- A signature that shows the hash and the key. -/
def shownSignature (hash : Uint256) (b : UInt8) : Bytes :=
  [0x30, 6, 2, 1, UInt8.ofNat (hash.toNat % 127 + 1), 2, 1, UInt8.ofNat (b.toNat % 127 + 1)]

def sampleSigning : SigningCrypto where
  toKeyCrypto := CCryptoKeyStore.sampleCrypto
  ripemd160 := id
  sha1 := id
  sha256 := id
  hash256 := id
  hashes := toyHashes
  sign vch hash := some (shownSignature hash (vch.headD 0))
  verify vchPubKey hash vchSig := vchSig = shownSignature hash (vchPubKey.tail.headD 0)

theorem encoding_shownSignature (hash : Uint256) (b nHashType : UInt8) :
    isValidSignatureEncoding (shownSignature hash b ++ [nHashType]) = .ok true := by
  have hpositive : ∀ n < 127, UInt8.ofNat (n + 1) &&& 0x80 = 0 := by decide
  have hr := hpositive (hash.toNat % 127) (Nat.mod_lt _ (by decide))
  have hs := hpositive (b.toNat % 127) (Nat.mod_lt _ (by decide))
  rw [shownSignature]
  generalize UInt8.ofNat (hash.toNat % 127 + 1) = r at hr ⊢
  generalize UInt8.ofNat (b.toNat % 127 + 1) = t at hs ⊢
  simp [isValidSignatureEncoding, isValidInteger, vectorAt, hr, hs, pure, Except.pure]

theorem sampleSigning_ideal : sampleSigning.Ideal where
  toIdeal := CCryptoKeyStore.sampleCrypto_ideal
  encoding_publicKey := by
    intro key _
    have hsize := key.size_vch
    cases hcompressed : key.fCompressed <;>
      simp [sampleSigning, CCryptoKeyStore.sampleCrypto, isCompressedOrUncompressedPubKey, vectorAt,
        hsize, pure, Except.pure]
  sign_isSome := fun _ _ _ ↦ rfl
  encoding_sign := by
    rintro key hash _ ⟨⟩ nHashType
    exact encoding_shownSignature hash _ nHashType
  verify_sign := by
    rintro key hash _ _ ⟨⟩
    obtain ⟨b, vch, hvch⟩ := List.exists_cons_of_length_eq_add_one key.size_vch
    cases hcompressed : key.fCompressed <;>
      simp [sampleSigning, CCryptoKeyStore.sampleCrypto, hvch]
  sign_ne_hash := by
    rintro key hash _ nHashType ⟨⟩ heq
    have hlength := congrArg List.length heq
    rw [bytes160, length_leBytes] at hlength
    cases hlength

/-- A payment to the hash of the key with the secret bytes 1. -/
def keyScript : Bytes :=
  [opDup, opHash160, 20, 2] ++ List.replicate 19 1 ++ [opEqualverify, opChecksig]

/-- A payment to the hash of a script. -/
def scriptHashOf (script : Bytes) : Bytes :=
  opHash160 :: 20 :: (bytes160 (sampleSigning.hash160 script) ++ [opEqual])

/-- A key, its script and the payment to the hash of this script. -/
def nestedOps : List KeyStoreOp :=
  [.addKey (CCryptoKeyStore.sampleKey 1 CCryptoKeyStore.check_sampleKey), .addCScript keyScript,
    .addCScript (scriptHashOf keyScript)]

/-- One input that spends whatever output, and no output. -/
def spendingTx : CTransaction := { vin := [⟨⟨1, 0⟩, [], 0⟩] }

/-- In the sample no data that is not a public key has the hash of a key. -/
theorem distinguishes_of_no_pubkeys {s : CCryptoKeyStore} {script : Bytes}
    (h : ∀ op ∈ (getOps script).1, CPubKey.ofVector op.data = []) :
    s.Distinguishes sampleSigning.toKeyCrypto script := by
  intro op hop address key _ heq
  rw [h op hop] at heq
  have hvalue : ∀ (c : UInt8) vch, c ≠ 0 → sampleSigning.hash160 (c :: vch) ≠ 0 := by
    intro c vch hc hzero
    have hval : (c.toNat + 256 * leNat vch) % 2 ^ 160 = 0 := congrArg Fin.val hzero
    have hlt := c.toNat_lt
    have hpos : c.toNat ≠ 0 := fun hzero' ↦ hc (UInt8.toNat_inj.mp hzero')
    omega
  cases hcompressed : key.fCompressed with
  | true =>
    rw [hcompressed] at heq
    exact absurd heq.symm (hvalue 2 key.vch (by decide))
  | false =>
    rw [hcompressed] at heq
    exact absurd heq.symm (hvalue 4 (key.vch ++ List.replicate 32 0) (by decide))

/-- The store after these calls. -/
def nestedStore : CCryptoKeyStore where
  mapKeys := SortedMap.insert ∅ (sampleSigning.hash160 (2 :: List.replicate 32 1))
    (CCryptoKeyStore.sampleKey 1 CCryptoKeyStore.check_sampleKey)
  mapScripts := (SortedMap.insert ∅ (sampleSigning.hash160 keyScript) keyScript).insert
    (sampleSigning.hash160 (scriptHashOf keyScript)) (scriptHashOf keyScript)
  mapCryptedKeys := ∅
  vMasterKey := []
  fUseCrypto := false

theorem run_nestedOps : ∃ log,
    CCryptoKeyStore.run sampleSigning.toKeyCrypto nestedOps .empty = some (nestedStore, log) :=
  ⟨_, rfl⟩

theorem distinguishes_nestedStore {scriptPubKey : Bytes}
    (h : ∀ op ∈ (getOps scriptPubKey).1, CPubKey.ofVector op.data = []) :
    ∀ script, script = scriptPubKey ∨ (∃ hash, nestedStore.getCScript hash = some script) →
      nestedStore.Distinguishes sampleSigning.toKeyCrypto script := by
  rintro script (rfl | ⟨hash, hscript⟩)
  · exact distinguishes_of_no_pubkeys h
  · have hentries : ∀ entry ∈ nestedStore.mapScripts.entries, ∀ op ∈ (getOps entry.2).1,
        CPubKey.ofVector op.data = [] := by decide
    exact distinguishes_of_no_pubkeys (hentries _ (SortedMap.lookup_eq_some.mp hscript))

theorem signs_iff_not_nested_sample :
    Signs sampleSigning nestedStore (scriptHashOf keyScript) spendingTx 0 1 := by
  obtain ⟨log, hrun⟩ := run_nestedOps
  have hmine : isMine sampleSigning.toKeyCrypto [] nestedStore 2 (scriptHashOf keyScript) =
      some .spendable := by decide
  refine (signs_iff_not_nested sampleSigning_ideal hrun rfl (distinguishes_nestedStore (by decide))
    hmine (by decide) (by decide)).mpr ?_
  rintro ⟨-, subscript, hscript, hsub⟩
  have hknown : nestedStore.getCScript (uint160 (((scriptHashOf keyScript).drop 2).take 20)) =
      some keyScript := by decide
  rw [hknown] at hscript
  obtain rfl := Option.some.inj hscript
  revert hsub
  decide

/-- The payment to the hash of the payment to the script's hash is spendable, and `SignSignature`
returns false. -/
theorem isMine_not_signs : ∃ log,
    CCryptoKeyStore.run sampleSigning.toKeyCrypto nestedOps .empty = some (nestedStore, log) ∧
      sampleSigning.Ideal ∧ nestedStore.isLocked = false ∧
      isMine sampleSigning.toKeyCrypto [] nestedStore 3 (scriptHashOf (scriptHashOf keyScript)) =
        some .spendable ∧
      (∀ script, script = scriptHashOf (scriptHashOf keyScript) ∨
        (∃ hash, nestedStore.getCScript hash = some script) →
          nestedStore.Distinguishes sampleSigning.toKeyCrypto script) ∧
      ¬ Signs sampleSigning nestedStore (scriptHashOf (scriptHashOf keyScript)) spendingTx 0 1 := by
  obtain ⟨log, hrun⟩ := run_nestedOps
  refine ⟨log, hrun, sampleSigning_ideal, rfl, by decide, distinguishes_nestedStore (by decide), ?_⟩
  exact not_signs_of_nested ⟨by decide, scriptHashOf keyScript, by decide, by decide⟩

end Bitmark
