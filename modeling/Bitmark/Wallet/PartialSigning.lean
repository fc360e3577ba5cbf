import Bitmark.Wallet.Combining

/-!
# Partially signed multisignature inputs

Every way of signing an input with several stores and merging the results, with empty arguments and
placeholders. A result has the signatures of the first keys of all who signed, up to the number
that is required, in the order of the keys.
-/

namespace Bitmark

/-- An input that a multisignature script with distinct keys locks. No signature is valid under two
of the keys, and a signature of the transaction is not part of the script that it signs. -/
structure MultisigInput (K : SigningCrypto) (script : Bytes) (txTo : CTransaction) (nIn : Nat)
    (m : UInt8) (pubkeys : List Bytes) : Prop where
  solver : ∃ n, solver script = some (.multisig, [m] :: (pubkeys ++ [[n]]))
  nodup : pubkeys.Nodup
  oneKey : ∀ hash vchSig, ∀ pubkey ∈ pubkeys, ∀ pubkey' ∈ pubkeys,
    K.verify pubkey hash vchSig = true → K.verify pubkey' hash vchSig = true → pubkey = pubkey'
  notInScript : ∀ key nHashType b, SignatureOf K key
    (signatureHash script txTo nIn (BitVec.ofNat 32 nHashType) K.hashes) nHashType b →
      ∀ op ∈ (getOps script).1, op.data ≠ b

/-- An output that pays to a script, as such or by its hash; a redeem script is pushed whole. -/
structure PaysTo (K : SigningCrypto) (script scriptPubKey : Bytes) : Prop where
  direct : isPayToScriptHash scriptPubKey = false → scriptPubKey = script
  redeem : isPayToScriptHash scriptPubKey = true → script.length ≤ maxScriptElementSize ∧
    bytes160 (K.hash160 script) = (scriptPubKey.drop 2).take 20

/-- The keys of a script that a store has. -/
def signers (K : SigningCrypto) (s : CCryptoKeyStore) (pubkeys : List Bytes) : Finset Bytes :=
  (pubkeys.filter fun pubkey ↦ s.haveKey (K.hash160 (CPubKey.ofVector pubkey))).toFinset

/-- What an input can be given as `scriptSig` and the keys that signed: nothing, what
`SignSignature` leaves with an unlocked store that knows the script, and what `CombineSignatures`
makes of two. -/
inductive PartiallySigned (K : SigningCrypto) (script scriptPubKey : Bytes) (txTo : CTransaction)
    (nIn : Nat) (pubkeys : List Bytes) : Bytes → Finset Bytes → Prop where
  | empty : PartiallySigned K script scriptPubKey txTo nIn pubkeys [] ∅
  | signed {s : CCryptoKeyStore} {nHashType : Nat} {txin : CTxIn} (hs : s.Unlocked K.toKeyCrypto)
      (hdistinct : s.Distinguishes K.toKeyCrypto script) (htype : nHashType ∈ definedHashTypes)
      (hknown : scriptPubKey = script ∨
        s.getCScript (uint160 ((scriptPubKey.drop 2).take 20)) = some script)
      (hvin : (signSignature K s scriptPubKey txTo nIn nHashType).1.vin[nIn]? = some txin) :
      PartiallySigned K script scriptPubKey txTo nIn pubkeys txin.scriptSig (signers K s pubkeys)
  | merged {scriptSig1 scriptSig2 scriptSig : Bytes} {S1 S2 : Finset Bytes}
      (h1 : PartiallySigned K script scriptPubKey txTo nIn pubkeys scriptSig1 S1)
      (h2 : PartiallySigned K script scriptPubKey txTo nIn pubkeys scriptSig2 S2)
      (h : combineSignatures K.scriptCrypto scriptPubKey txTo nIn scriptSig1 scriptSig2 =
        some scriptSig) :
      PartiallySigned K script scriptPubKey txTo nIn pubkeys scriptSig (S1 ∪ S2)

/-- The signatures of a `scriptSig`: what it pushes that is not empty, but for the redeem script. -/
def heldSignatures (scriptPubKey scriptSig : Bytes) : List Bytes :=
  let pushed := (getOps scriptSig).1.map (·.data)
  (if isPayToScriptHash scriptPubKey then pushed.dropLast else pushed).filter (· ≠ [])

/-! ### One signature -/

/-- A signature of the input by a key with this public key. -/
def SignedBy (K : SigningCrypto) (script : Bytes) (txTo : CTransaction) (nIn : Nat)
    (b pubkey : Bytes) : Prop :=
  ∃ key nHashType, nHashType ∈ definedHashTypes ∧ key.fValid = true ∧
    pubkey = K.publicKey key.vch key.fCompressed ∧ SignatureOf K key
      (signatureHash script txTo nIn (BitVec.ofNat 32 nHashType) K.hashes) nHashType b

section Signed

variable {K : SigningCrypto} {script scriptPubKey : Bytes} {txTo : CTransaction} {nIn : Nat}
  {m : UInt8} {pubkeys : List Bytes} {b pubkey : Bytes}

theorem checkSig_setScriptSig (scriptSig vchSig vchPubKey scriptCode : Bytes) :
    ScriptEnv.checkSig ⟨K.scriptCrypto, txTo.setScriptSig nIn scriptSig, nIn, 0⟩ vchSig vchPubKey
      scriptCode = ScriptEnv.checkSig ⟨K.scriptCrypto, txTo, nIn, 0⟩ vchSig vchPubKey scriptCode := by
  unfold ScriptEnv.checkSig
  cases vchSig.getLast? with
  | none => rfl
  | some last =>
    dsimp only [SigningCrypto.scriptCrypto]
    rw [signatureHash_setScriptSig]

namespace SignedBy

theorem ne_nil (h : SignedBy K script txTo nIn b pubkey) : b ≠ [] := by
  obtain ⟨key, nHashType, -, -, -, hsignature⟩ := h
  exact hsignature.ne_nil.symm

theorem length_le (h : SignedBy K script txTo nIn b pubkey) (hK : K.Ideal) : b.length ≤ 73 := by
  obtain ⟨key, nHashType, -, -, -, hsignature⟩ := h
  exact (signature_of_encoding (hsignature.encoding hK)).1

/-- The signature passes the checks of `OP_CHECKMULTISIG`. -/
theorem signatureOk (h : SignedBy K script txTo nIn b pubkey) (hK : K.Ideal) (scriptSig : Bytes) :
    ScriptEnv.signatureOk ⟨K.scriptCrypto, txTo.setScriptSig nIn scriptSig, nIn, 0⟩
      standardVerifyFlags script b pubkey = .ok true := by
  obtain ⟨key, nHashType, htype, hvalid, rfl, hsignature⟩ := h
  exact hsignature.signatureOk hK htype hvalid rfl

/-- `CombineMultisig` finds it valid. -/
theorem checkSig (h : SignedBy K script txTo nIn b pubkey) (hK : K.Ideal) :
    ScriptEnv.checkSig ⟨K.scriptCrypto, txTo, nIn, 0⟩ b pubkey script = true := by
  have hok := h.signatureOk hK []
  obtain ⟨key, nHashType, htype, hvalid, rfl, hsignature⟩ := h
  rw [hsignature.signatureOk_eq hK htype hvalid, checkSig_setScriptSig] at hok
  exact Except.ok.inj hok

theorem findAndDelete_eq (h : SignedBy K script txTo nIn b pubkey) (hK : K.Ideal)
    (hin : MultisigInput K script txTo nIn m pubkeys) :
    findAndDelete script (pushBytes b) = script := by
  obtain ⟨key, nHashType, -, -, -, hsignature⟩ := h
  exact hsignature.findAndDelete_eq hK (hin.notInScript key nHashType b hsignature)

end SignedBy

/-- What is signed for one key of the script is valid under this key only. -/
theorem MultisigInput.checkSig_inj (hin : MultisigInput K script txTo nIn m pubkeys) :
    ScriptEnv.OneKey ⟨K.scriptCrypto, txTo, nIn, 0⟩ script pubkeys := by
  intro sig pubkey hpubkey pubkey' hpubkey' h h'
  rw [ScriptEnv.checkSig] at h h'
  cases hlast : sig.getLast? with
  | none =>
    rw [hlast] at h
    cases h
  | some last =>
    rw [hlast] at h h'
    simp only [Bool.and_eq_true] at h h'
    exact hin.oneKey _ _ pubkey hpubkey pubkey' hpubkey' h.2 h'.2

/-- The keys have the size of a public key and may have another encoding. -/
theorem checkPubKeyEncoding_ok (h : isPubkeySize pubkey = true) (flags : BitVec 32) :
    ∃ ok, checkPubKeyEncoding pubkey flags = .ok ok := by
  have hlength : ¬ pubkey.length < 33 := by
    rw [isPubkeySize, Bool.and_eq_true, decide_eq_true_eq] at h
    exact Nat.not_lt.mpr h.1
  rw [checkPubKeyEncoding, underFlags]
  split
  · exact ⟨true, rfl⟩
  cases pubkey with
  | nil => exact absurd (by decide) hlength
  | cons header rest =>
    rw [isCompressedOrUncompressedPubKey, if_neg hlength, vectorAt, List.getElem?_cons_zero]
    change ∃ ok, (if header = 0x04 then _ else _ : Access Bool) = .ok ok
    split_ifs
    · exact ⟨_, rfl⟩
    · exact ⟨_, rfl⟩
    · exact ⟨_, rfl⟩

/-- The instructions of the script. -/
theorem MultisigInput.template (hin : MultisigInput K script txTo nIn m pubkeys) :
    ∃ m' keys n', getOps script = (⟨m', []⟩ :: (keys ++ [⟨n', []⟩, ⟨opCheckmultisig, []⟩]), true) ∧
      (∀ key ∈ keys, isPubkeySize key.data = true) ∧ (op1 ≤ m' ∧ m' ≤ op16) ∧
      (op1 ≤ n' ∧ n' ≤ op16) ∧ decodeOpN m' ≤ decodeOpN n' ∧ decodeOpN n' = keys.length ∧
      keys.map (·.data) = pubkeys ∧ decodeOpN m' = m.toNat := by
  obtain ⟨n, hsolver⟩ := hin.solver
  obtain ⟨m', keys, n', hparse, hkeys, hm, hn, hle, hcount, hvs⟩ := solver_multisig hsolver
  obtain ⟨hfirst, hrest⟩ := List.cons.inj hvs
  obtain ⟨hdata, -⟩ := List.append_inj' hrest rfl
  have hlt : decodeOpN m' < 256 := Nat.lt_of_le_of_lt (Nat.sub_le _ _) m'.toNat_lt
  refine ⟨m', keys, n', hparse, hkeys, hm, hn, hle, hcount, hdata.symm, ?_⟩
  rw [List.head_eq_of_cons_eq hfirst, UInt8.toNat_ofNat_of_lt' hlt]

theorem MultisigInput.required (hin : MultisigInput K script txTo nIn m pubkeys) :
    1 ≤ m.toNat ∧ m.toNat ≤ 16 := by
  obtain ⟨m', -, -, -, -, hm, -, -, -, -, hrequired⟩ := hin.template
  have hlo : 0x51 ≤ m'.toNat := UInt8.le_iff_toNat_le.mp hm.1
  have hhi : m'.toNat ≤ 0x60 := UInt8.le_iff_toNat_le.mp hm.2
  rw [← hrequired, decodeOpN, show op1.toNat = 0x51 from rfl]
  omega

theorem MultisigInput.not_scripthash (hin : MultisigInput K script txTo nIn m pubkeys) :
    isPayToScriptHash script = false := by
  obtain ⟨n, hsolver⟩ := hin.solver
  exact (solver_template (by decide) hsolver).1

end Signed

/-! ### Arguments -/

/-- The redeem script at the end of a `scriptSig` for its hash. -/
def redeemPush (scriptPubKey script : Bytes) : List Bytes :=
  if isPayToScriptHash scriptPubKey then [script] else []

/-- What a `scriptSig` of a partially signed input pushes: nothing, or the signatures of the first
keys that signed, with no placeholders or with as many as signatures are missing. -/
inductive Holding (K : SigningCrypto) (script scriptPubKey : Bytes) (txTo : CTransaction)
    (nIn : Nat) (m : UInt8) (pubkeys : List Bytes) : Bytes → Finset Bytes → Prop where
  | empty : Holding K script scriptPubKey txTo nIn m pubkeys [] ∅
  | held {sigs : List Bytes} {placeholders : Nat} {S : Finset Bytes}
      (hsigs : List.Forall₂ (SignedBy K script txTo nIn) sigs (quorum m.toNat S pubkeys))
      (hS : S ⊆ pubkeys.toFinset)
      (hplaceholders : placeholders = 0 ∨ sigs.length + placeholders = m.toNat) :
      Holding K script scriptPubKey txTo nIn m pubkeys
        (([] :: (sigs ++ List.replicate placeholders []) ++
          redeemPush scriptPubKey script).flatMap pushBytes) S

section Argument

variable {K : SigningCrypto} {script scriptPubKey : Bytes} {txTo : CTransaction} {nIn : Nat}
  {m : UInt8} {pubkeys sigs bs : List Bytes} {S : Finset Bytes} {placeholders : Nat}
  {scriptSig : Bytes}

theorem reverse_redeemPush (scriptPubKey script : Bytes) :
    (redeemPush scriptPubKey script).reverse = redeemPush scriptPubKey script := by
  rw [redeemPush]
  split <;> rfl

/-- A redeem script can be pushed behind what can. -/
theorem PaysTo.forall_mem_append (hpays : PaysTo K script scriptPubKey)
    (hbs : ∀ b ∈ bs, b.length ≤ 520) :
    ∀ b ∈ bs ++ redeemPush scriptPubKey script, b.length ≤ 520 := by
  intro b hb
  rcases List.mem_append.mp hb with hb | hb
  · exact hbs b hb
  · obtain ⟨hp2sh, hb⟩ := List.mem_ite_nil_right.mp hb
    rw [List.mem_singleton.mp hb]
    exact (hpays.redeem hp2sh).1

/-- The signatures among any pushes. -/
theorem heldSignatures_pushes (hpays : PaysTo K script scriptPubKey)
    (hbs : ∀ b ∈ bs, b.length ≤ 520) :
    heldSignatures scriptPubKey ((bs ++ redeemPush scriptPubKey script).flatMap pushBytes) =
      bs.filter (· ≠ []) := by
  obtain ⟨ops, hparse, hdata, -⟩ := getOps_pushes fun b hb ↦
    Nat.lt_of_le_of_lt (hpays.forall_mem_append hbs b hb) (by decide : 520 < 2 ^ 16)
  rw [heldSignatures, hparse]
  dsimp only
  rw [hdata, redeemPush]
  split
  · rw [List.dropLast_concat]
  · rw [List.append_nil]

/-- What the evaluation of pushes leaves, within the limits of `EvalScript`. -/
theorem evalScript_arguments (hpays : PaysTo K script scriptPubKey)
    (hbs : ∀ b ∈ bs, b.length ≤ 520)
    (hroom : (bs ++ redeemPush scriptPubKey script).length ≤ 1000)
    (hlength : ((bs ++ redeemPush scriptPubKey script).flatMap pushBytes).length ≤ 10000)
    (env : ScriptEnv) (flags : BitVec 32) :
    env.evalScript flags [] ((bs ++ redeemPush scriptPubKey script).flatMap pushBytes) =
      .ok (redeemPush scriptPubKey script ++ bs.reverse) := by
  rw [evalScript_pushes env flags (hpays.forall_mem_append hbs)
    (by rwa [List.length_nil, Nat.zero_add]) hlength, List.append_nil, List.reverse_append,
    reverse_redeemPush]

/-- Signatures and placeholders are short. -/
theorem short_of_held (hK : K.Ideal)
    (hsigs : List.Forall₂ (SignedBy K script txTo nIn) sigs (quorum m.toNat S pubkeys))
    (placeholders : Nat) :
    ∀ b ∈ [] :: (sigs ++ List.replicate placeholders []), b.length ≤ 73 := by
  intro b hb
  rcases List.mem_cons.mp hb with rfl | hb
  · exact Nat.zero_le _
  rcases List.mem_append.mp hb with hb | hb
  · obtain ⟨pubkey, -, hsigned⟩ := (exists_of_forall₂ hsigs).1 b hb
    exact hsigned.length_le hK
  · rw [List.eq_of_mem_replicate hb]
    exact Nat.zero_le _

theorem length_held_le (hin : MultisigInput K script txTo nIn m pubkeys)
    (hsigs : List.Forall₂ (SignedBy K script txTo nIn) sigs (quorum m.toNat S pubkeys))
    (hplaceholders : placeholders = 0 ∨ sigs.length + placeholders = m.toNat) :
    ([] :: (sigs ++ List.replicate placeholders [])).length ≤ 33 := by
  have hrequired := hin.required
  have hlength : sigs.length ≤ m.toNat := by
    rw [hsigs.length_eq, quorum, List.length_take]
    exact Nat.min_le_left _ _
  rw [List.length_cons, List.length_append, List.length_replicate]
  omega

/-- The signatures that a held argument shows. -/
theorem heldSignatures_held (hK : K.Ideal) (hpays : PaysTo K script scriptPubKey)
    (hsigs : List.Forall₂ (SignedBy K script txTo nIn) sigs (quorum m.toNat S pubkeys)) :
    heldSignatures scriptPubKey (([] :: (sigs ++ List.replicate placeholders []) ++
      redeemPush scriptPubKey script).flatMap pushBytes) = sigs := by
  have hshort := short_of_held hK hsigs placeholders
  have hne : ∀ b ∈ sigs, decide (b ≠ []) = true := by
    intro b hb
    obtain ⟨pubkey, -, hsigned⟩ := (exists_of_forall₂ hsigs).1 b hb
    exact decide_eq_true hsigned.ne_nil
  rw [heldSignatures_pushes hpays fun b hb ↦ (hshort b hb).trans (by decide),
    List.filter_cons_of_neg (by simp), List.filter_append, List.filter_eq_self.mpr hne,
    List.filter_replicate_of_neg (by simp), List.append_nil]

/-- The signatures of an argument, in the order of the keys. -/
theorem Holding.heldSignatures (hK : K.Ideal) (hpays : PaysTo K script scriptPubKey)
    (h : Holding K script scriptPubKey txTo nIn m pubkeys scriptSig S) :
    List.Forall₂ (SignedBy K script txTo nIn) (heldSignatures scriptPubKey scriptSig)
      (quorum m.toNat S pubkeys) := by
  cases h with
  | empty =>
    have hnone : Bitmark.heldSignatures scriptPubKey [] = [] := by
      rw [Bitmark.heldSignatures]
      split <;> rfl
    rw [hnone, quorum_empty]
    exact .nil
  | held hsigs hS hplaceholders => rwa [heldSignatures_held hK hpays hsigs]

theorem Holding.subset (h : Holding K script scriptPubKey txTo nIn m pubkeys scriptSig S) :
    S ⊆ pubkeys.toFinset := by
  cases h with
  | empty => exact Finset.empty_subset _
  | held _ hS _ => exact hS

/-- What the evaluation of a held argument leaves, under any flags. -/
theorem evalScript_held (hK : K.Ideal) (hin : MultisigInput K script txTo nIn m pubkeys)
    (hpays : PaysTo K script scriptPubKey)
    (hsigs : List.Forall₂ (SignedBy K script txTo nIn) sigs (quorum m.toNat S pubkeys))
    (hplaceholders : placeholders = 0 ∨ sigs.length + placeholders = m.toNat) (env : ScriptEnv)
    (flags : BitVec 32) :
    env.evalScript flags [] (([] :: (sigs ++ List.replicate placeholders []) ++
      redeemPush scriptPubKey script).flatMap pushBytes) =
        .ok (redeemPush scriptPubKey script ++
          ([] :: (sigs ++ List.replicate placeholders [])).reverse) := by
  have hshort := short_of_held hK hsigs placeholders
  have hfew := length_held_le hin hsigs hplaceholders
  have hlength := length_pushes_le hshort
  have hredeem : (redeemPush scriptPubKey script).length ≤ 1 ∧
      ((redeemPush scriptPubKey script).flatMap pushBytes).length ≤ 1000 := by
    rw [redeemPush]
    split
    case isTrue hp2sh =>
      rw [List.flatMap_singleton]
      have hsize : script.length ≤ 520 := (hpays.redeem hp2sh).1
      have hpush := length_pushBytes_le script
      exact ⟨le_rfl, by omega⟩
    case isFalse => exact ⟨Nat.zero_le _, Nat.zero_le _⟩
  apply evalScript_arguments hpays fun b hb ↦ (hshort b hb).trans (by decide)
  · rw [List.length_append]
    omega
  · rw [List.flatMap_append, List.length_append]
    omega

/-! ### Signing -/

theorem scriptSig_of_setScriptSig {scriptSig : Bytes} {txin : CTxIn}
    (h : (txTo.setScriptSig nIn scriptSig).vin[nIn]? = some txin) : txin.scriptSig = scriptSig := by
  rw [CTransaction.setScriptSig, List.getElem?_modify] at h
  obtain ⟨txin', -, rfl⟩ := Option.map_eq_some_iff.mp h
  rw [if_pos rfl]

/-- `SignSignature` leaves the inputs of the transaction where they are. -/
theorem length_vin_signSignature (K : SigningCrypto) (s : CCryptoKeyStore) (fromPubKey : Bytes)
    (txTo : CTransaction) (nIn nHashType : Nat) :
    (signSignature K s fromPubKey txTo nIn nHashType).1.vin.length = txTo.vin.length := by
  have hset : ∀ (txTo : CTransaction) scriptSig,
      (txTo.setScriptSig nIn scriptSig).vin.length = txTo.vin.length := fun _ _ ↦
    List.length_modify _ _ _
  rw [signSignature]
  dsimp only
  split
  · exact hset _ _
  · split <;> exact (hset _ _).trans (hset _ _)
  · exact hset _ _

/-- The transaction that `SignSignature` leaves for a multisignature script. -/
theorem signSignature_multisig {s : CCryptoKeyStore} {nHashType : Nat} {bs : Bytes} {solved : Bool}
    (h : solverSign K s (signatureHash script txTo nIn (BitVec.ofNat 32 nHashType) K.hashes)
      nHashType script = (.multisig, bs, solved)) :
    (signSignature K s script txTo nIn nHashType).1 = txTo.setScriptSig nIn bs := by
  rw [signSignature]
  dsimp only
  rw [h]
  cases solved <;> rfl

/-- What `SignSignature` leaves as `scriptSig`. -/
theorem holding_signed (hK : K.Ideal) (hin : MultisigInput K script txTo nIn m pubkeys)
    (hpays : PaysTo K script scriptPubKey)
    {s : CCryptoKeyStore} {nHashType : Nat} {txin : CTxIn} (hs : s.Unlocked K.toKeyCrypto)
    (hdistinct : s.Distinguishes K.toKeyCrypto script) (htype : nHashType ∈ definedHashTypes)
    (hknown : scriptPubKey = script ∨
      s.getCScript (uint160 ((scriptPubKey.drop 2).take 20)) = some script)
    (hvin : (signSignature K s scriptPubKey txTo nIn nHashType).1.vin[nIn]? = some txin) :
    Holding K script scriptPubKey txTo nIn m pubkeys txin.scriptSig (signers K s pubkeys) := by
  obtain ⟨n, hsolver⟩ := hin.solver
  obtain ⟨m', keys, n', hparse, -, -, -, -, -, hdata, -⟩ := hin.template
  have howned : ∀ vchPubKey ∈ pubkeys,
      s.haveKey (K.hash160 (CPubKey.ofVector vchPubKey)) = true →
        ∃ key, Owned K s vchPubKey key := by
    intro vchPubKey hmem hhave
    rw [← hdata] at hmem
    obtain ⟨op, hop, rfl⟩ := List.mem_map.mp hmem
    exact owned_of_haveKey hK hs hdistinct (by simp [hparse, hop]) hhave
  have hquorum : quorum m.toNat (signers K s pubkeys) pubkeys = (pubkeys.filter fun vchPubKey ↦
      s.haveKey (K.hash160 (CPubKey.ofVector vchPubKey))).take m.toNat := by
    have hfilter : pubkeys.filter (· ∈ signers K s pubkeys) = pubkeys.filter fun vchPubKey ↦
        s.haveKey (K.hash160 (CPubKey.ofVector vchPubKey)) := by
      apply List.filter_congr
      intro vchPubKey hmem
      rw [Bool.eq_iff_iff, decide_eq_true_eq, signers, List.mem_toFinset, List.mem_filter]
      exact and_iff_right hmem
    rw [quorum, hfilter]
  have hS : signers K s pubkeys ⊆ pubkeys.toFinset := by
    intro vchPubKey hmem
    rw [signers, List.mem_toFinset, List.mem_filter] at hmem
    exact List.mem_toFinset.mpr hmem.1
  obtain ⟨sigs, hsigs, hsolve⟩ := solverSign_multisig hK hsolver howned
    (signatureHash script txTo nIn (BitVec.ofNat 32 nHashType) K.hashes) nHashType
  have hsigned : List.Forall₂ (SignedBy K script txTo nIn) sigs
      (quorum m.toNat (signers K s pubkeys) pubkeys) := by
    rw [hquorum]
    refine hsigs.imp fun b vchPubKey hkey ↦ ?_
    obtain ⟨key, hkey, hsignature⟩ := hkey
    exact ⟨key, nHashType, htype, hkey.valid, hkey.eq, hsignature⟩
  have hholds : Holding K script scriptPubKey txTo nIn m pubkeys
      (([] :: sigs ++ redeemPush scriptPubKey script).flatMap pushBytes) (signers K s pubkeys) := by
    have hheld : Holding K script scriptPubKey txTo nIn m pubkeys
        (([] :: (sigs ++ List.replicate 0 []) ++ redeemPush scriptPubKey script).flatMap pushBytes)
        (signers K s pubkeys) := .held hsigned hS (.inl rfl)
    rwa [List.replicate_zero, List.append_nil] at hheld
  cases hp2sh : isPayToScriptHash scriptPubKey with
  | false =>
    obtain rfl := hpays.direct hp2sh
    rw [signSignature_multisig hsolve] at hvin
    rw [scriptSig_of_setScriptSig hvin]
    rwa [redeemPush, hp2sh, if_neg Bool.false_ne_true, List.append_nil] at hholds
  | true =>
    have hscript := hknown.resolve_left (by
      rintro rfl
      rw [hin.not_scripthash] at hp2sh
      cases hp2sh)
    rw [signSignature_scripthash K txTo nIn nHashType hp2sh hscript] at hvin
    dsimp only at hvin
    rw [signatureHash_setScriptSig, hsolve] at hvin
    rw [scriptSig_of_setScriptSig hvin]
    rwa [redeemPush, if_pos hp2sh, List.flatMap_append, List.flatMap_singleton] at hholds

/-! ### Merging -/

/-- The signatures on a stack are by these keys, and by each of them. -/
structure Covers (K : SigningCrypto) (script : Bytes) (txTo : CTransaction) (nIn : Nat)
    (stack : List Bytes) (signedBy : List Bytes) : Prop where
  signed : ∀ b ∈ stack, b ≠ [] → ∃ pubkey ∈ signedBy, SignedBy K script txTo nIn b pubkey
  all : ∀ pubkey ∈ signedBy, ∃ b ∈ stack, SignedBy K script txTo nIn b pubkey

theorem covers_nil : Covers K script txTo nIn [] (quorum m.toNat ∅ pubkeys) := by
  rw [quorum_empty]
  exact ⟨fun b hb ↦ absurd hb List.not_mem_nil, fun b hb ↦ absurd hb List.not_mem_nil⟩

theorem covers_held
    (hsigs : List.Forall₂ (SignedBy K script txTo nIn) sigs (quorum m.toNat S pubkeys))
    (placeholders : Nat) :
    Covers K script txTo nIn ([] :: (sigs ++ List.replicate placeholders [])).reverse
      (quorum m.toNat S pubkeys) where
  signed := by
    intro b hb hne
    rcases List.mem_cons.mp (List.mem_reverse.mp hb) with rfl | hb
    · exact absurd rfl hne
    rcases List.mem_append.mp hb with hb | hb
    · exact (exists_of_forall₂ hsigs).1 b hb
    · exact absurd (List.eq_of_mem_replicate hb) hne
  all := by
    intro pubkey hpubkey
    obtain ⟨b, hb, hsigned⟩ := (exists_of_forall₂ hsigs).2 pubkey hpubkey
    exact ⟨b, List.mem_reverse.mpr (List.mem_cons_of_mem _ (List.mem_append_left _ hb)), hsigned⟩

section Merge

variable {stack1 stack2 : List Bytes} {S1 S2 : Finset Bytes}

/-- What `CombineMultisig` keeps of two stacks. -/
theorem forall₂_merged (hK : K.Ideal) (hin : MultisigInput K script txTo nIn m pubkeys)
    (h1 : Covers K script txTo nIn stack1 (quorum m.toNat S1 pubkeys))
    (h2 : Covers K script txTo nIn stack2 (quorum m.toNat S2 pubkeys)) :
    List.Forall₂ (fun sig pubkey ↦ SignedBy K script txTo nIn sig pubkey ∧
        (sig ∈ stack1 ∨ sig ∈ stack2))
      (ScriptEnv.mergedSigs ⟨K.scriptCrypto, txTo, nIn, 0⟩ script m.toNat pubkeys stack1 stack2)
      (quorum m.toNat (S1 ∪ S2) pubkeys) := by
  have hkeys : (quorum m.toNat S1 pubkeys).toFinset ∪ (quorum m.toNat S2 pubkeys).toFinset ⊆
      pubkeys.toFinset := by
    apply Finset.union_subset
    · exact fun pubkey hmem ↦ List.mem_toFinset.mpr
        (mem_of_mem_quorum (List.mem_toFinset.mp hmem)).1
    · exact fun pubkey hmem ↦ List.mem_toFinset.mpr
        (mem_of_mem_quorum (List.mem_toFinset.mp hmem)).1
  have hsigned : ∀ {stack S}, Covers K script txTo nIn stack (quorum m.toNat S pubkeys) →
      ∀ sig ∈ stack, sig ≠ [] → ∃ pubkey ∈ (quorum m.toNat S pubkeys).toFinset,
        SignedBy K script txTo nIn sig pubkey := by
    intro stack S h sig hsig hne
    obtain ⟨pubkey, hpubkey, hby⟩ := h.signed sig hsig hne
    exact ⟨pubkey, List.mem_toFinset.mpr hpubkey, hby⟩
  have hall : ∀ {stack S}, Covers K script txTo nIn stack (quorum m.toNat S pubkeys) →
      ∀ pubkey ∈ (quorum m.toNat S pubkeys).toFinset, ∃ sig ∈ stack, sig ≠ [] ∧
        SignedBy K script txTo nIn sig pubkey := by
    intro stack S h pubkey hpubkey
    obtain ⟨sig, hsig, hby⟩ := h.all pubkey (List.mem_toFinset.mp hpubkey)
    exact ⟨sig, hsig, hby.ne_nil, hby⟩
  have hmerged := forall₂_mergedSigs hin.checkSig_inj (fun _ _ h ↦ h.checkSig hK) hkeys
    (hsigned h1) (hsigned h2) (hall h1) (hall h2) m.toNat
  rwa [quorum_union_quorum hin.nodup] at hmerged

/-- `CombineMultisig` makes a held argument of two stacks, and its signatures are theirs. -/
theorem holding_combineMultisig (hK : K.Ideal) (hin : MultisigInput K script txTo nIn m pubkeys)
    (hpays : PaysTo K script scriptPubKey)
    (h1 : Covers K script txTo nIn stack1 (quorum m.toNat S1 pubkeys))
    (h2 : Covers K script txTo nIn stack2 (quorum m.toNat S2 pubkeys))
    (hS : S1 ∪ S2 ⊆ pubkeys.toFinset) (n : Bytes)
    (hscriptSig : ScriptEnv.combineMultisig ⟨K.scriptCrypto, txTo, nIn, 0⟩ script
      ([m] :: (pubkeys ++ [n])) stack1 stack2 ++
        (redeemPush scriptPubKey script).flatMap pushBytes = scriptSig) :
    Holding K script scriptPubKey txTo nIn m pubkeys scriptSig (S1 ∪ S2) ∧
      ∀ sig ∈ heldSignatures scriptPubKey scriptSig, sig ≠ [] ∧ (sig ∈ stack1 ∨ sig ∈ stack2) := by
  have hmerged := forall₂_merged hK hin h1 h2
  have hsigned := hmerged.imp fun _ _ h ↦ h.1
  have hle := length_mergedSigs_le ⟨K.scriptCrypto, txTo, nIn, 0⟩ script m.toNat pubkeys stack1
    stack2
  rw [combineMultisig_eq hin.checkSig_inj, ← List.flatMap_append] at hscriptSig
  subst hscriptSig
  constructor
  · exact .held hsigned hS (.inr (by omega))
  · intro sig hsig
    rw [heldSignatures_held hK hpays hsigned] at hsig
    obtain ⟨pubkey, -, hby, hmem⟩ := (exists_of_forall₂ hmerged).1 sig hsig
    exact ⟨hby.ne_nil, hmem⟩

end Merge

/-- An argument that leaves a stack with the signatures of a set of keys, below the redeem
script. -/
structure Leaves (K : SigningCrypto) (script scriptPubKey : Bytes) (txTo : CTransaction)
    (nIn : Nat) (m : UInt8) (pubkeys : List Bytes) (scriptSig : Bytes) (stack : List Bytes)
    (S : Finset Bytes) : Prop where
  covers : Covers K script txTo nIn stack (quorum m.toNat S pubkeys)
  held : ∀ sig ∈ stack, sig ≠ [] → sig ∈ heldSignatures scriptPubKey scriptSig
  eval : ∀ (env : ScriptEnv) flags,
    env.evalScript flags [] scriptSig = .ok (redeemPush scriptPubKey script ++ stack)

/-- The signatures of an argument with placeholders anywhere. -/
theorem Holding.leaves_pushes (hK : K.Ideal) (hpays : PaysTo K script scriptPubKey)
    (h : Holding K script scriptPubKey txTo nIn m pubkeys scriptSig S)
    (hbs : bs.filter (· ≠ []) = Bitmark.heldSignatures scriptPubKey scriptSig)
    (hroom : (bs ++ redeemPush scriptPubKey script).length ≤ 1000)
    (hlength : ((bs ++ redeemPush scriptPubKey script).flatMap pushBytes).length ≤ 10000) :
    Leaves K script scriptPubKey txTo nIn m pubkeys
      ((bs ++ redeemPush scriptPubKey script).flatMap pushBytes) bs.reverse S := by
  have hsigs := h.heldSignatures hK hpays
  rw [← hbs] at hsigs
  have hmem : ∀ b, b ∈ bs.filter (· ≠ []) ↔ b ∈ bs ∧ b ≠ [] := by
    intro b
    rw [List.mem_filter, decide_eq_true_eq]
  have hshort : ∀ b ∈ bs, b.length ≤ 520 := by
    intro b hb
    by_cases hne : b = []
    · rw [hne]
      exact Nat.zero_le _
    · obtain ⟨pubkey, -, hby⟩ := (exists_of_forall₂ hsigs).1 b ((hmem b).mpr ⟨hb, hne⟩)
      exact (hby.length_le hK).trans (by decide)
  refine ⟨⟨?_, ?_⟩, ?_, evalScript_arguments hpays hshort hroom hlength⟩
  · intro b hb hne
    exact (exists_of_forall₂ hsigs).1 b ((hmem b).mpr ⟨List.mem_reverse.mp hb, hne⟩)
  · intro pubkey hpubkey
    obtain ⟨b, hb, hby⟩ := (exists_of_forall₂ hsigs).2 pubkey hpubkey
    exact ⟨b, List.mem_reverse.mpr ((hmem b).mp hb).1, hby⟩
  · intro sig hsig hne
    rw [heldSignatures_pushes hpays hshort]
    exact (hmem sig).mpr ⟨List.mem_reverse.mp hsig, hne⟩

/-- An argument is empty or leaves its own pushes. -/
theorem Holding.exists_leaves (hK : K.Ideal) (hin : MultisigInput K script txTo nIn m pubkeys)
    (hpays : PaysTo K script scriptPubKey)
    (h : Holding K script scriptPubKey txTo nIn m pubkeys scriptSig S) :
    (scriptSig = [] ∧ S = ∅) ∨ ∃ stack,
      scriptSig = pushAll (redeemPush scriptPubKey script ++ stack) ∧
        Leaves K script scriptPubKey txTo nIn m pubkeys scriptSig stack S := by
  cases h with
  | empty => exact .inl ⟨rfl, rfl⟩
  | @held sigs placeholders _ hsigs hS hplaceholders =>
    refine .inr ⟨([] :: (sigs ++ List.replicate placeholders [])).reverse, ?_,
      covers_held hsigs placeholders, ?_, evalScript_held hK hin hpays hsigs hplaceholders⟩
    · rw [pushAll, List.reverse_append, List.reverse_reverse, reverse_redeemPush]
    · intro sig hsig hne
      rw [heldSignatures_held hK hpays hsigs]
      rcases List.mem_cons.mp (List.mem_reverse.mp hsig) with rfl | hsig
      · exact absurd rfl hne
      rcases List.mem_append.mp hsig with hsig | hsig
      · exact hsig
      · exact absurd (List.eq_of_mem_replicate hsig) hne

section Combine

variable {scriptSig1 scriptSig2 : Bytes} {stack1 stack2 : List Bytes} {S1 S2 : Finset Bytes}

/-- `CombineSignatures` makes a held argument of two, the same in either order. -/
def Combines (K : SigningCrypto) (script scriptPubKey : Bytes) (txTo : CTransaction) (nIn : Nat)
    (m : UInt8) (pubkeys : List Bytes) (scriptSig1 scriptSig2 : Bytes) (S : Finset Bytes) : Prop :=
  ∃ scriptSig,
    combineSignatures K.scriptCrypto scriptPubKey txTo nIn scriptSig1 scriptSig2 =
      some scriptSig ∧
    combineSignatures K.scriptCrypto scriptPubKey txTo nIn scriptSig2 scriptSig1 =
      some scriptSig ∧
    Holding K script scriptPubKey txTo nIn m pubkeys scriptSig S ∧
    ∀ sig ∈ heldSignatures scriptPubKey scriptSig,
      sig ∈ heldSignatures scriptPubKey scriptSig1 ∨ sig ∈ heldSignatures scriptPubKey scriptSig2

/-- What is on both stacks below the redeem script goes through `CombineMultisig`. -/
theorem Leaves.combineSignatures_eq (hpays : PaysTo K script scriptPubKey)
    {vSolutions : List Bytes} (hsolver : solver script = some (.multisig, vSolutions))
    (h1 : Leaves K script scriptPubKey txTo nIn m pubkeys scriptSig1 stack1 S1)
    (h2 : Leaves K script scriptPubKey txTo nIn m pubkeys scriptSig2 stack2 S2) :
    combineSignatures K.scriptCrypto scriptPubKey txTo nIn scriptSig1 scriptSig2 =
      some (ScriptEnv.combineMultisig ⟨K.scriptCrypto, txTo, nIn, 0⟩ script vSolutions stack1
        stack2 ++ (redeemPush scriptPubKey script).flatMap pushBytes) := by
  have heval1 := h1.eval ⟨K.scriptCrypto, {}, 0, 0⟩ scriptVerifyStrictenc
  have heval2 := h2.eval ⟨K.scriptCrypto, {}, 0, 0⟩ scriptVerifyStrictenc
  rw [redeemPush] at heval1 heval2 ⊢
  cases hp2sh : isPayToScriptHash scriptPubKey with
  | false =>
    rw [hp2sh, if_neg Bool.false_ne_true, List.nil_append] at heval1 heval2
    obtain rfl := hpays.direct hp2sh
    rw [Bitmark.combineSignatures_eq hsolver heval1 heval2, combineStacks_multisig,
      if_neg Bool.false_ne_true, List.flatMap_nil, List.append_nil]
  | true =>
    rw [hp2sh, if_pos rfl, List.singleton_append] at heval1 heval2
    have hne : script ≠ [] := by
      rintro rfl
      cases hsolver
    have hhash : solver scriptPubKey = some (.scripthash, [(scriptPubKey.drop 2).take 20]) := by
      rw [solver, if_pos hp2sh]
    rw [Bitmark.combineSignatures_eq hhash heval1 heval2, combineStacks_redeem hne hsolver,
      combineStacks_multisig, if_pos rfl, List.flatMap_singleton]

/-- Two arguments that leave the signatures of their keys. -/
theorem Leaves.combines (hK : K.Ideal) (hin : MultisigInput K script txTo nIn m pubkeys)
    (hpays : PaysTo K script scriptPubKey) (hS : S1 ∪ S2 ⊆ pubkeys.toFinset)
    (h1 : Leaves K script scriptPubKey txTo nIn m pubkeys scriptSig1 stack1 S1)
    (h2 : Leaves K script scriptPubKey txTo nIn m pubkeys scriptSig2 stack2 S2) :
    Combines K script scriptPubKey txTo nIn m pubkeys scriptSig1 scriptSig2 (S1 ∪ S2) := by
  obtain ⟨n, hsolver⟩ := hin.solver
  obtain ⟨hholds, hfrom⟩ := holding_combineMultisig hK hin hpays h1.covers h2.covers hS [n] rfl
  refine ⟨_, h1.combineSignatures_eq hpays hsolver h2, ?_, hholds, ?_⟩
  · rw [h2.combineSignatures_eq hpays hsolver h1, combineMultisig_comm]
  · intro sig hsig
    obtain ⟨hne, hmem⟩ := hfrom sig hsig
    exact hmem.imp (fun hmem ↦ h1.held sig hmem hne) fun hmem ↦ h2.held sig hmem hne

/-- An empty argument leaves nothing of a script that is paid to as such. -/
theorem leaves_nil (hp2sh : isPayToScriptHash scriptPubKey = false) :
    Leaves K script scriptPubKey txTo nIn m pubkeys [] [] ∅ where
  covers := covers_nil
  held := fun sig hsig ↦ absurd hsig List.not_mem_nil
  eval := fun env flags ↦ by
    rw [redeemPush, hp2sh, if_neg Bool.false_ne_true]
    rfl

/-- With an empty argument `CombineSignatures` returns the other one of a script hash. -/
theorem Leaves.combine_nil (hp2sh : isPayToScriptHash scriptPubKey = true) (hne : script ≠ [])
    (h : Leaves K script scriptPubKey txTo nIn m pubkeys scriptSig stack1 S)
    (hscriptSig : scriptSig = pushAll (redeemPush scriptPubKey script ++ stack1)) :
    combineSignatures K.scriptCrypto scriptPubKey txTo nIn [] scriptSig = some scriptSig ∧
      combineSignatures K.scriptCrypto scriptPubKey txTo nIn scriptSig [] = some scriptSig := by
  have hnil : ScriptEnv.evalScript ⟨K.scriptCrypto, {}, 0, 0⟩ scriptVerifyStrictenc [] [] =
      .ok [] := rfl
  have heval := h.eval ⟨K.scriptCrypto, {}, 0, 0⟩ scriptVerifyStrictenc
  have hhash : solver scriptPubKey = some (.scripthash, [(scriptPubKey.drop 2).take 20]) := by
    rw [solver, if_pos hp2sh]
  have hredeem : redeemPush scriptPubKey script = [script] := by rw [redeemPush, if_pos hp2sh]
  constructor
  · rw [Bitmark.combineSignatures_eq hhash hnil heval, combineStacks_nil_left, ← hscriptSig]
  · rw [Bitmark.combineSignatures_eq hhash heval hnil, hredeem, List.singleton_append,
      combineStacks_nil_right hne, ← List.singleton_append, ← hredeem, ← hscriptSig]

/-- Two arguments of one input. -/
theorem Holding.combines (hK : K.Ideal) (hin : MultisigInput K script txTo nIn m pubkeys)
    (hpays : PaysTo K script scriptPubKey)
    (h1 : Holding K script scriptPubKey txTo nIn m pubkeys scriptSig1 S1)
    (h2 : Holding K script scriptPubKey txTo nIn m pubkeys scriptSig2 S2) :
    Combines K script scriptPubKey txTo nIn m pubkeys scriptSig1 scriptSig2 (S1 ∪ S2) := by
  have hS := Finset.union_subset h1.subset h2.subset
  have hne : script ≠ [] := by
    rintro rfl
    obtain ⟨n, hsolver⟩ := hin.solver
    cases hsolver
  rcases h1.exists_leaves hK hin hpays with ⟨rfl, rfl⟩ | ⟨stack1, hscriptSig1, hleaves1⟩
  · rcases h2.exists_leaves hK hin hpays with ⟨rfl, rfl⟩ | ⟨stack2, hscriptSig2, hleaves2⟩
    · cases hp2sh : isPayToScriptHash scriptPubKey with
      | false => exact (leaves_nil hp2sh).combines hK hin hpays hS (leaves_nil hp2sh)
      | true =>
        have hhash : solver scriptPubKey = some (.scripthash, [(scriptPubKey.drop 2).take 20]) := by
          rw [solver, if_pos hp2sh]
        have heval : ScriptEnv.evalScript ⟨K.scriptCrypto, {}, 0, 0⟩ scriptVerifyStrictenc [] [] =
            .ok [] := rfl
        have hnil : combineSignatures K.scriptCrypto scriptPubKey txTo nIn [] [] = some [] := by
          rw [Bitmark.combineSignatures_eq hhash heval heval, combineStacks_nil_left]
          rfl
        exact ⟨[], hnil, hnil, h1, fun sig hsig ↦ .inl hsig⟩
    · cases hp2sh : isPayToScriptHash scriptPubKey with
      | false => exact (leaves_nil hp2sh).combines hK hin hpays hS hleaves2
      | true =>
        obtain ⟨hleft, hright⟩ := hleaves2.combine_nil hp2sh hne hscriptSig2
        exact ⟨scriptSig2, hleft, hright, by rwa [Finset.empty_union], fun sig hsig ↦ .inr hsig⟩
  · rcases h2.exists_leaves hK hin hpays with ⟨rfl, rfl⟩ | ⟨stack2, hscriptSig2, hleaves2⟩
    · cases hp2sh : isPayToScriptHash scriptPubKey with
      | false => exact hleaves1.combines hK hin hpays hS (leaves_nil hp2sh)
      | true =>
        obtain ⟨hleft, hright⟩ := hleaves1.combine_nil hp2sh hne hscriptSig1
        exact ⟨scriptSig1, hright, hleft, by rwa [Finset.union_empty], fun sig hsig ↦ .inl hsig⟩
    · exact hleaves1.combines hK hin hpays hS hleaves2

end Combine

/-! ### Verifying -/

theorem signatureOk_placeholder {pubkey : Bytes} (h : isPubkeySize pubkey = true) (env : ScriptEnv)
    (flags : BitVec 32) (scriptCode : Bytes) :
    env.signatureOk flags scriptCode [] pubkey = .ok false := by
  obtain ⟨ok, hok⟩ := checkPubKeyEncoding_ok h flags
  rw [ScriptEnv.signatureOk, hok]
  cases ok <;> rfl

/-- A signature is looked at with any key of the script. -/
theorem SignedBy.exists_signatureOk {b pubkey pubkey' : Bytes}
    (hby : SignedBy K script txTo nIn b pubkey) (hK : K.Ideal)
    (h : isPubkeySize pubkey' = true) (env : ScriptEnv) (scriptCode : Bytes) :
    ∃ fOk, env.signatureOk standardVerifyFlags scriptCode b pubkey' = .ok fOk := by
  obtain ⟨key, nHashType, htype, -, -, hsignature⟩ := hby
  obtain ⟨ok, hok⟩ := checkPubKeyEncoding_ok h standardVerifyFlags
  rw [ScriptEnv.signatureOk, checkSignatureEncoding_standard hsignature hK htype, hok]
  cases ok with
  | false => exact ⟨false, rfl⟩
  | true => exact ⟨_, rfl⟩

/-- The script accepts what an argument leaves exactly if enough keys signed. -/
theorem evalScript_held_iff (hK : K.Ideal) (hin : MultisigInput K script txTo nIn m pubkeys)
    (hsigs : List.Forall₂ (SignedBy K script txTo nIn) sigs (quorum m.toNat S pubkeys))
    (hS : S ⊆ pubkeys.toFinset)
    (hplaceholders : placeholders = 0 ∨ sigs.length + placeholders = m.toNat) (scriptSig : Bytes) :
    (do endsInTrue (← ScriptEnv.evalScript
      ⟨K.scriptCrypto, txTo.setScriptSig nIn scriptSig, nIn, 0⟩ standardVerifyFlags
      ([] :: (sigs ++ List.replicate placeholders [])).reverse script)) = .ok () ↔
        m.toNat ≤ S.card := by
  obtain ⟨m', keys, n', hparse, hkeys, hm, hn, hle, hcount, hdata, hrequired⟩ := hin.template
  have hfew := length_held_le hin hsigs hplaceholders
  have hlength : sigs.length = min m.toNat S.card := by
    rw [hsigs.length_eq, length_quorum hin.nodup hS]
  have hsize : ∀ pubkey ∈ (keys.map (·.data)).reverse, isPubkeySize pubkey = true := by
    intro pubkey hmem
    obtain ⟨op, hop, rfl⟩ := List.mem_map.mp (List.mem_reverse.mp hmem)
    exact hkeys op hop
  have hstack : ([] :: (sigs ++ List.replicate placeholders [])).reverse =
      List.replicate placeholders [] ++ (sigs.reverse ++ [[]]) := by
    rw [List.reverse_cons, List.reverse_append, List.reverse_replicate, List.append_assoc]
  rw [hstack]
  by_cases henough : m.toNat ≤ S.card
  · -- as many signatures as are required, by the first keys, which come last in the loop
    have hfull : sigs.length = m.toNat := by rw [hlength, Nat.min_eq_left henough]
    obtain rfl : placeholders = 0 := by omega
    have hsub : (quorum m.toNat S pubkeys).reverse.Sublist (keys.map (·.data)).reverse := by
      rw [hdata]
      exact quorum_sublist.reverse
    have hcode : ∀ b ∈ sigs.reverse, findAndDelete script (pushBytes b) = script := by
      intro b hb
      obtain ⟨pubkey, -, hby⟩ := (exists_of_forall₂ hsigs).1 b (List.mem_reverse.mp hb)
      exact hby.findAndDelete_eq hK hin
    have hloop : ScriptEnv.multisigLoop ⟨K.scriptCrypto, txTo.setScriptSig nIn scriptSig, nIn, 0⟩
        standardVerifyFlags script (keys.map (·.data)).reverse sigs.reverse = .ok true := by
      apply multisigLoop_of_sublist _ hsub
      · intro b hb pubkey' hpubkey'
        obtain ⟨pubkey, -, hby⟩ := (exists_of_forall₂ hsigs).1 b (List.mem_reverse.mp hb)
        exact hby.exists_signatureOk hK (hsize pubkey' hpubkey') _ _
      · rw [List.forall₂_reverse_iff]
        exact hsigs.imp fun b pubkey hby ↦ hby.signatureOk hK scriptSig
    rw [List.replicate_zero, List.nil_append, evalScript_multisig hparse hkeys hm hn hle hcount
      (by rw [List.length_reverse, hfull, hrequired]) hcode hloop (Nat.zero_le _)]
    exact iff_of_true rfl henough
  · refine iff_of_false ?_ henough
    have hshort : sigs.length < m.toNat := by omega
    rw [evalScript_multisig_eq hparse hkeys hm hn hle hcount (by
      rw [← hstack, List.length_reverse]
      omega), hrequired]
    rcases hplaceholders with rfl | hfilled
    · -- the stack is too small
      rw [List.replicate_zero, List.nil_append, decide_eq_false (by
        rw [List.length_append, List.length_reverse, List.length_singleton]
        omega)]
      intro h
      cases h
    · -- a placeholder is on the top
      obtain ⟨j, rfl⟩ := Nat.exists_eq_succ_of_ne_zero (n := placeholders) (by omega)
      obtain ⟨r, hr⟩ := Nat.exists_eq_succ_of_ne_zero (n := m.toNat) (by omega)
      rw [decide_eq_true (by
        rw [List.length_append, List.length_append, List.length_reverse, List.length_replicate,
          List.length_singleton]
        omega), List.replicate_succ, List.cons_append, hr, List.take_succ_cons]
      simp only [Eval.check, if_true, Eval.ok_bind]
      rw [multisigLoop_placeholder fun pubkey hmem ↦ signatureOk_placeholder (hsize pubkey hmem) _ _ _]
      intro h
      cases h

/-- `VerifyScript` accepts an argument exactly if enough keys signed. -/
theorem Holding.verifyScript_iff (hK : K.Ideal) (hin : MultisigInput K script txTo nIn m pubkeys)
    (hpays : PaysTo K script scriptPubKey)
    (h : Holding K script scriptPubKey txTo nIn m pubkeys scriptSig S) (scriptSig' : Bytes) :
    ScriptEnv.verifyScript ⟨K.scriptCrypto, txTo.setScriptSig nIn scriptSig', nIn, 0⟩
      standardVerifyFlags scriptSig scriptPubKey = .ok () ↔ m.toNat ≤ S.card := by
  have hrequired := hin.required
  cases h with
  | empty =>
    refine iff_of_false ?_ (by rw [Finset.card_empty]; omega)
    cases hp2sh : isPayToScriptHash scriptPubKey with
    | false =>
      obtain rfl := hpays.direct hp2sh
      obtain ⟨m', keys, n', hparse, hkeys, hm, hn, hle, hcount, -, -⟩ := hin.template
      rw [← List.flatMap_nil, verifyScript_pushes_eq (by simp) (by simp) (by simp) hp2sh,
        List.reverse_nil, evalScript_multisig_eq hparse hkeys hm hn hle hcount (by simp)]
      intro h
      cases h
    | true =>
      have hnil : ∀ env : ScriptEnv, env.evalScript standardVerifyFlags [] [] = .ok [] :=
        fun _ ↦ rfl
      rw [ScriptEnv.verifyScript, hnil, Eval.ok_bind, evalScript_scripthash_nil hp2sh]
      intro h
      cases h
  | @held sigs placeholders _ hsigs hS hplaceholders =>
    have heval := evalScript_held_iff hK hin hsigs hS hplaceholders scriptSig'
    have hshort := short_of_held hK hsigs placeholders
    have hfew := length_held_le hin hsigs hplaceholders
    have hlength := length_pushes_le hshort
    generalize [] :: (sigs ++ List.replicate placeholders []) = bs at heval hshort hfew hlength ⊢
    have hbs : ∀ b ∈ bs, b.length ≤ 520 := fun b hb ↦ (hshort b hb).trans (by decide)
    rw [← heval, redeemPush]
    cases hp2sh : isPayToScriptHash scriptPubKey with
    | false =>
      obtain rfl := hpays.direct hp2sh
      rw [if_neg Bool.false_ne_true, List.append_nil,
        verifyScript_pushes_eq hbs (by omega) (by omega) hp2sh]
    | true =>
      obtain ⟨hsize, hhash⟩ := hpays.redeem hp2sh
      rw [if_pos rfl, List.flatMap_append, List.flatMap_singleton,
        verifyScript_redeem_eq hbs hsize (by omega) (by omega) hp2sh hhash, if_neg (by decide)]

/-! ### Every way of signing and merging -/

/-- Whatever was signed and merged is an argument that holds the first signatures. -/
theorem PartiallySigned.holding (hK : K.Ideal) (hin : MultisigInput K script txTo nIn m pubkeys)
    (hpays : PaysTo K script scriptPubKey)
    (h : PartiallySigned K script scriptPubKey txTo nIn pubkeys scriptSig S) :
    Holding K script scriptPubKey txTo nIn m pubkeys scriptSig S := by
  induction h with
  | empty => exact .empty
  | signed hs hdistinct htype hknown hvin =>
    exact holding_signed hK hin hpays hs hdistinct htype hknown hvin
  | merged h1 h2 hcombine ih1 ih2 =>
    obtain ⟨scriptSig, hscriptSig, -, hholds, -⟩ := ih1.combines hK hin hpays ih2
    rw [hcombine] at hscriptSig
    obtain rfl := Option.some.inj hscriptSig
    exact hholds

/-- `CombineSignatures`, in either order of its arguments, returns a `scriptSig` with valid
signatures by the first `m` keys of a set, in the order of the keys, and each from one of the
arguments. `VerifyScript` accepts it exactly if the set has `m` keys. -/
def MergesTo (K : SigningCrypto) (script scriptPubKey : Bytes) (txTo : CTransaction) (nIn : Nat)
    (m : UInt8) (pubkeys : List Bytes) (scriptSig1 scriptSig2 : Bytes) (S : Finset Bytes) : Prop :=
  ∃ scriptSig,
    combineSignatures K.scriptCrypto scriptPubKey txTo nIn scriptSig1 scriptSig2 =
      some scriptSig ∧
    combineSignatures K.scriptCrypto scriptPubKey txTo nIn scriptSig2 scriptSig1 =
      some scriptSig ∧
    (heldSignatures scriptPubKey scriptSig).length = min m.toNat S.card ∧
    List.Forall₂ (fun sig pubkey ↦ ScriptEnv.signatureOk
        ⟨K.scriptCrypto, txTo.setScriptSig nIn scriptSig, nIn, 0⟩ standardVerifyFlags script sig
          pubkey = .ok true)
      (heldSignatures scriptPubKey scriptSig) (quorum m.toNat S pubkeys) ∧
    (∀ sig ∈ heldSignatures scriptPubKey scriptSig,
      sig ∈ heldSignatures scriptPubKey scriptSig1 ∨
        sig ∈ heldSignatures scriptPubKey scriptSig2) ∧
    (ScriptEnv.verifyScript ⟨K.scriptCrypto, txTo.setScriptSig nIn scriptSig, nIn, 0⟩
      standardVerifyFlags scriptSig scriptPubKey = .ok () ↔ m.toNat ≤ S.card)

theorem Combines.mergesTo (hK : K.Ideal) (hin : MultisigInput K script txTo nIn m pubkeys)
    (hpays : PaysTo K script scriptPubKey) {scriptSig1 scriptSig2 : Bytes}
    (h : Combines K script scriptPubKey txTo nIn m pubkeys scriptSig1 scriptSig2 S) :
    MergesTo K script scriptPubKey txTo nIn m pubkeys scriptSig1 scriptSig2 S := by
  obtain ⟨scriptSig, hcombine, hswapped, hholds, hfrom⟩ := h
  have hsigs := hholds.heldSignatures hK hpays
  refine ⟨scriptSig, hcombine, hswapped, ?_, ?_, hfrom,
    hholds.verifyScript_iff hK hin hpays scriptSig⟩
  · rw [hsigs.length_eq, length_quorum hin.nodup hholds.subset]
  · exact hsigs.imp fun _ _ hby ↦ hby.signatureOk hK scriptSig

/-- Two ways of signing an input, with the keys `S1` and `S2`, merge to their union; with
placeholders anywhere in both, too, within the limits of `EvalScript`. -/
theorem combineSignatures_union (hK : K.Ideal) (hin : MultisigInput K script txTo nIn m pubkeys)
    (hpays : PaysTo K script scriptPubKey) {scriptSig1 scriptSig2 : Bytes} {S1 S2 : Finset Bytes}
    (h1 : PartiallySigned K script scriptPubKey txTo nIn pubkeys scriptSig1 S1)
    (h2 : PartiallySigned K script scriptPubKey txTo nIn pubkeys scriptSig2 S2) :
    MergesTo K script scriptPubKey txTo nIn m pubkeys scriptSig1 scriptSig2 (S1 ∪ S2) ∧
      ∀ bs1 bs2 : List Bytes,
        bs1.filter (· ≠ []) = heldSignatures scriptPubKey scriptSig1 →
        bs2.filter (· ≠ []) = heldSignatures scriptPubKey scriptSig2 →
        (∀ bs ∈ [bs1, bs2], (bs ++ redeemPush scriptPubKey script).length ≤ 1000 ∧
          ((bs ++ redeemPush scriptPubKey script).flatMap pushBytes).length ≤ 10000) →
        MergesTo K script scriptPubKey txTo nIn m pubkeys
          ((bs1 ++ redeemPush scriptPubKey script).flatMap pushBytes)
          ((bs2 ++ redeemPush scriptPubKey script).flatMap pushBytes) (S1 ∪ S2) := by
  have hholds1 := h1.holding hK hin hpays
  have hholds2 := h2.holding hK hin hpays
  constructor
  · exact (hholds1.combines hK hin hpays hholds2).mergesTo hK hin hpays
  · intro bs1 bs2 hbs1 hbs2 hlimits
    obtain ⟨hroom1, hlength1⟩ := hlimits bs1 List.mem_cons_self
    obtain ⟨hroom2, hlength2⟩ := hlimits bs2 (List.mem_cons_of_mem _ List.mem_cons_self)
    have hleaves1 := hholds1.leaves_pushes hK hpays hbs1 hroom1 hlength1
    have hleaves2 := hholds2.leaves_pushes hK hpays hbs2 hroom2 hlength2
    exact (hleaves1.combines hK hin hpays (Finset.union_subset hholds1.subset hholds2.subset)
      hleaves2).mergesTo hK hin hpays

end Argument

/-! ### Two stores with a key each -/

/-- The public key with these secret bytes. -/
def samplePubKey (b : UInt8) : Bytes := 2 :: List.replicate 32 b

/-- Two of two keys. -/
def twoOfTwo : Bytes :=
  0x52 :: (pushBytes (samplePubKey 1) ++ pushBytes (samplePubKey 2) ++ [0x52, opCheckmultisig])

theorem multisigInput_sample :
    MultisigInput sampleSigning twoOfTwo spendingTx 0 2 [samplePubKey 1, samplePubKey 2] where
  solver := ⟨2, by decide⟩
  nodup := by decide
  oneKey := by
    intro hash vchSig pubkey hpubkey pubkey' hpubkey' h h'
    have hshown := of_decide_eq_true h
    have hshown' := of_decide_eq_true h'
    have hall : ∀ pubkey ∈ [samplePubKey 1, samplePubKey 2],
        ∀ pubkey' ∈ [samplePubKey 1, samplePubKey 2],
          UInt8.ofNat ((pubkey.tail.headD 0).toNat % 127 + 1) =
            UInt8.ofNat ((pubkey'.tail.headD 0).toNat % 127 + 1) → pubkey = pubkey' := by decide
    have hlast := congrArg List.getLast? (hshown.symm.trans hshown')
    exact hall pubkey hpubkey pubkey' hpubkey' (Option.some.inj hlast)
  notInScript := by
    intro key nHashType b hb op hop hdata
    obtain ⟨vchSig, hsign, rfl⟩ := hb
    obtain rfl := Option.some.inj hsign
    have hlength : ∀ op ∈ (getOps twoOfTwo).1, op.data.length ≠ 9 := by decide
    exact hlength op hop (congrArg List.length hdata)

theorem uint160_bytes160 (x : Uint160) : uint160 (bytes160 x) = x := by
  apply Fin.ext
  have hlt : x.val < 256 ^ 20 := x.isLt
  change leNat (leBytes 20 x.val) % 2 ^ 160 = x.val
  rw [leNat_leBytes, Nat.mod_eq_of_lt hlt]
  exact Nat.mod_eq_of_lt x.isLt

/-- The hash in a payment to a hash. -/
theorem hash_scriptHashOf (script : Bytes) :
    ((scriptHashOf script).drop 2).take 20 = bytes160 (sampleSigning.hash160 script) :=
  List.take_left' (length_leBytes 20 _)

/-- A store with one of the keys, and the script. -/
def halfStore (b : UInt8) (h : CKey.check (List.replicate 32 b) = true) : CCryptoKeyStore where
  mapKeys := SortedMap.insert ∅ (sampleSigning.hash160 (samplePubKey b))
    (CCryptoKeyStore.sampleKey b h)
  mapScripts := SortedMap.insert ∅ (sampleSigning.hash160 twoOfTwo) twoOfTwo
  mapCryptedKeys := ∅
  vMasterKey := []
  fUseCrypto := false

/-- The signing of a store with one of the keys. -/
theorem partiallySigned_sample {b : UInt8} (h : CKey.check (List.replicate 32 b) = true)
    {log : List (KeyStoreOp × Bool)}
    (hrun : CCryptoKeyStore.run sampleSigning.toKeyCrypto
      [.addKey (CCryptoKeyStore.sampleKey b h), .addCScript twoOfTwo] .empty =
        some (halfStore b h, log))
    (hkeys : ∀ entry ∈ (halfStore b h).mapKeys.entries, ∀ op ∈ (getOps twoOfTwo).1,
      sampleSigning.hash160 (CPubKey.ofVector op.data) =
        sampleSigning.hash160 (sampleSigning.publicKey entry.2.vch entry.2.fCompressed) →
      CPubKey.ofVector op.data = sampleSigning.publicKey entry.2.vch entry.2.fCompressed)
    {scriptPubKey : Bytes} (hpays : scriptPubKey ∈ [twoOfTwo, scriptHashOf twoOfTwo]) :
    ∃ scriptSig, PartiallySigned sampleSigning twoOfTwo scriptPubKey spendingTx 0
      [samplePubKey 1, samplePubKey 2] scriptSig
      (signers sampleSigning (halfStore b h) [samplePubKey 1, samplePubKey 2]) := by
  have hs := CCryptoKeyStore.unlocked_of_run sampleSigning_ideal.toIdeal hrun rfl
  have hdistinct : (halfStore b h).Distinguishes sampleSigning.toKeyCrypto twoOfTwo :=
    fun op hop address key hkey ↦ hkeys _ (SortedMap.lookup_eq_some.mp hkey) op hop
  have hknown : scriptPubKey = twoOfTwo ∨
      (halfStore b h).getCScript (uint160 ((scriptPubKey.drop 2).take 20)) = some twoOfTwo := by
    rcases List.mem_pair.mp hpays with rfl | rfl
    · exact .inl rfl
    · right
      rw [hash_scriptHashOf, uint160_bytes160]
      exact SortedMap.lookup_insert_self _ _ _
  have hvin : 0 <
      (signSignature sampleSigning (halfStore b h) scriptPubKey spendingTx 0 1).1.vin.length := by
    rw [length_vin_signSignature]
    decide
  exact ⟨_, .signed hs hdistinct (by decide) hknown (List.getElem?_eq_getElem hvin)⟩

theorem paysTo_sample {scriptPubKey : Bytes}
    (hpays : scriptPubKey ∈ [twoOfTwo, scriptHashOf twoOfTwo]) :
    PaysTo sampleSigning twoOfTwo scriptPubKey := by
  rcases List.mem_pair.mp hpays with rfl | rfl
  · exact ⟨fun _ ↦ rfl, by decide⟩
  · exact ⟨by decide, fun _ ↦ ⟨by decide, (hash_scriptHashOf twoOfTwo).symm⟩⟩

/-- The output has the script, or its hash. -/
theorem combineSignatures_union_sample :
    (∃ scriptSig1 scriptSig2,
      MergesTo sampleSigning twoOfTwo twoOfTwo spendingTx 0 2 [samplePubKey 1, samplePubKey 2]
        scriptSig1 scriptSig2 {samplePubKey 1, samplePubKey 2}) ∧
    ∃ scriptSig1 scriptSig2,
      MergesTo sampleSigning twoOfTwo (scriptHashOf twoOfTwo) spendingTx 0 2
        [samplePubKey 1, samplePubKey 2] scriptSig1 scriptSig2 {samplePubKey 1, samplePubKey 2} := by
  have hmerges : ∀ scriptPubKey ∈ [twoOfTwo, scriptHashOf twoOfTwo], ∃ scriptSig1 scriptSig2,
      MergesTo sampleSigning twoOfTwo scriptPubKey spendingTx 0 2 [samplePubKey 1, samplePubKey 2]
        scriptSig1 scriptSig2 {samplePubKey 1, samplePubKey 2} := by
    intro scriptPubKey hpays
    obtain ⟨scriptSig1, h1⟩ := partiallySigned_sample (b := 1) (by decide) rfl (by decide) hpays
    obtain ⟨scriptSig2, h2⟩ := partiallySigned_sample (b := 2) (by decide) rfl (by decide) hpays
    exact ⟨scriptSig1, scriptSig2, (combineSignatures_union sampleSigning_ideal
      multisigInput_sample (paysTo_sample hpays) h1 h2).1⟩
  exact ⟨hmerges _ List.mem_cons_self, hmerges _ (List.mem_cons_of_mem _ List.mem_cons_self)⟩

end Bitmark
