import Bitmark.Primitives.BlockId

/-!
# Which auxpow headers are checked without a fault

`CheckAuxPowProofOfWork` runs on data straight from a peer. Its accesses stay in range except
in three situations, each guarded by a test that is missing or off by one: the chain id of a
CryptoNight parent of exactly four bytes, the first input of a coinbase that has none, and the
CryptoNight hash of a parent of fewer than 43 bytes.
-/

namespace Bitmark

variable (H : Hashes) (params : CChainParams)

/-! ### The pure content of the checks -/

/-- The value of `getExpectedIndex` for a branch that is short enough. -/
def expectedIndex (nNonce nChainId : BitVec 32) (h : Nat) : BitVec 32 :=
  ((nNonce * 1103515245 + 12345 + nChainId) * 1103515245 + 12345).umod ((1 : BitVec 32) <<< h)

theorem shiftOne_of_le {h : Nat} (hh : h ≤ 30) : shiftOne h = .ok ((1 : BitVec 32) <<< h) := by
  rw [shiftOne, if_pos (by omega)]

theorem getExpectedIndex_of_le {h : Nat} (hh : h ≤ 30) (nNonce nChainId : BitVec 32) :
    getExpectedIndex nNonce nChainId h = .ok (expectedIndex nNonce nChainId h) := by
  simp [getExpectedIndex, shiftOne_of_le hh, expectedIndex]

namespace CAuxPow

/-- The bytes of the parent coinbase that are searched, when there are any. -/
def scriptBytes (aux : CAuxPow) : Option Bytes :=
  if aux.vectorFormat then if aux.vectorRep.length > 1000 then none else some aux.vectorRep
  else aux.vin.head?.map (·.scriptSig)

/-- The coinbase bytes `script` commit to an auxiliary hash: its chain root stands where it has
to, followed by the size of the tree and a nonce that yields the slot. -/
def CommitsTo (aux : CAuxPow) (hashAuxBlock : Uint256) (nChainId : BitVec 32) (script : Bytes) :
    Prop :=
  ∃ pc, rootPosition script (aux.vchRootHash H hashAuxBlock) = some pc ∧ pc + 8 ≤ script.length ∧
    word32 ((script.drop pc).take 4) = (1 : BitVec 32) <<< aux.vChainMerkleBranch.length ∧
    aux.nChainIndex =
      expectedIndex (word32 ((script.drop (pc + 4)).take 4)) nChainId aux.vChainMerkleBranch.length

/-- The parent's chain id can be read and differs from ours, where that is checked. -/
def ForeignParent (aux : CAuxPow) (nChainId : BitVec 32) : Prop :=
  params.fStrictChainId → ∃ id, aux.parentBlock.getChainId = .ok id ∧ id ≠ nChainId

/-- The checks that precede the look into the coinbase pass. -/
structure ReachesCoinbase (aux : CAuxPow) (nChainId : BitVec 32) : Prop where
  generate : aux.nIndex = 0
  foreign : aux.ForeignParent params nChainId
  branch : aux.vChainMerkleBranch.length ≤ 30
  size : aux.parentBlock.vectorFormat → aux.parentBlock.vectorRep.length ≤ 1000
  inTree : aux.inParentTree H = true

/-- What `CAuxPow::check` accepts. -/
def Accepts (aux : CAuxPow) (hashAuxBlock : Uint256) (nChainId : BitVec 32) : Prop :=
  aux.ReachesCoinbase H params nChainId ∧
    ∃ script, aux.scriptBytes = some script ∧ aux.CommitsTo H hashAuxBlock nChainId script

/-- The chain id of the parent is read from a vector of exactly four bytes. -/
def ShortParent (aux : CAuxPow) : Prop :=
  aux.nIndex = 0 ∧ params.fStrictChainId ∧ aux.parentBlock.vectorFormat ∧
    aux.parentBlock.vectorRep.length = 4

/-- The coinbase of the parent is looked into and has no input. -/
def MissingInput (aux : CAuxPow) (nChainId : BitVec 32) : Prop :=
  aux.ReachesCoinbase H params nChainId ∧ aux.vectorFormat = false ∧ aux.vin = []

end CAuxPow

/-! ### Chain ids -/

/-- Reading the chain id faults only on vectors of exactly four bytes. -/
theorem CPureBlockHeader.getChainId_returns_iff (h : CPureBlockHeader) :
    Access.Returns h.getChainId ↔ ¬ (h.vectorFormat ∧ h.vectorRep.length = 4) := by
  unfold getChainId
  by_cases hv : h.vectorFormat
  · rw [if_pos hv]
    by_cases hlt : h.vectorRep.length < 4
    · rw [if_pos hlt]
      simp only [Access.returns_ok, true_iff, not_and]
      omega
    · rw [if_neg hlt]
      by_cases h4 : h.vectorRep.length = 4
      · have hnone : vectorAt h.vectorRep 4 = .error .outOfRange := by
          simp [vectorAt, h4]
        simp [hnone, hv, h4]
      · rw [vectorAt_of_lt (show 4 < h.vectorRep.length by omega),
          vectorAt_of_lt (show 3 < h.vectorRep.length by omega),
          vectorAt_of_lt (show 2 < h.vectorRep.length by omega),
          vectorAt_of_lt (show 1 < h.vectorRep.length by omega)]
        simp [h4]
  · rw [if_neg hv]
    simp [hv]

/-- A header that is not in vector format reads its chain id from the version word. -/
theorem CPureBlockHeader.getChainId_of_not_vector {h : CPureBlockHeader}
    (hv : h.vectorFormat = false) : h.getChainId = .ok (h.nVersion.sshiftRight 16) := by
  simp [getChainId, hv]

/-! ### The coinbase -/

namespace CAuxPow

/-- With a branch of at most 30 hashes, every access after the root is in range. -/
theorem checkSizeAndNonce_eq {aux : CAuxPow} (hbranch : aux.vChainMerkleBranch.length ≤ 30)
    (script : Bytes) (pc : Nat) (nChainId : BitVec 32) :
    ∃ b, aux.checkSizeAndNonce script pc nChainId = .ok b ∧
      (b = true ↔ pc + 8 ≤ script.length ∧
        word32 ((script.drop pc).take 4) = (1 : BitVec 32) <<< aux.vChainMerkleBranch.length ∧
        aux.nChainIndex = expectedIndex (word32 ((script.drop (pc + 4)).take 4)) nChainId
          aux.vChainMerkleBranch.length) := by
  unfold checkSizeAndNonce
  split
  · next hshort =>
    refine ⟨false, rfl, ?_⟩
    simp only [Bool.false_eq_true, false_iff, not_and]
    omega
  · next hlong =>
    rw [bytesAt_of_le (by omega)]
    simp only [Access.ok_bind, shiftOne_of_le hbranch,
      bytesAt_of_le (show pc + 4 + 4 ≤ script.length by omega), getExpectedIndex_of_le hbranch]
    split
    · next hsize =>
      refine ⟨false, rfl, ?_⟩
      simp only [Bool.false_eq_true, false_iff]
      exact fun hall ↦ hsize hall.2.1
    · next hsize =>
      refine ⟨_, rfl, ?_⟩
      simp only [decide_eq_true_eq]
      exact ⟨fun hidx ↦ ⟨by omega, not_not.mp hsize, hidx⟩, fun hall ↦ hall.2.2⟩

/-- The coinbase bytes are found unless an input is missing. -/
theorem coinbaseScript_eq {aux : CAuxPow} (hvin : aux.vectorFormat = false → aux.vin ≠ []) :
    aux.coinbaseScript = .ok aux.scriptBytes := by
  unfold coinbaseScript scriptBytes
  split
  · next hv => split <;> rfl
  · next hv =>
    have hne := hvin (by simpa using hv)
    cases hvin' : aux.vin with
    | nil => exact absurd hvin' hne
    | cons txin vin => simp [vectorAt]

theorem coinbaseScript_of_nil {aux : CAuxPow} (hv : aux.vectorFormat = false)
    (hvin : aux.vin = []) : aux.coinbaseScript = .error .outOfRange := by
  simp [coinbaseScript, hv, hvin, vectorAt]

/-- From the coinbase on, the check returns and accepts exactly the commitments. -/
theorem checkCoinbase_eq {aux : CAuxPow} (hbranch : aux.vChainMerkleBranch.length ≤ 30)
    (hvin : aux.vectorFormat = false → aux.vin ≠ []) (hashAuxBlock : Uint256)
    (nChainId : BitVec 32) :
    ∃ b, aux.checkCoinbase H hashAuxBlock nChainId = .ok b ∧
      (b = true ↔ ∃ script, aux.scriptBytes = some script ∧
        aux.CommitsTo H hashAuxBlock nChainId script) := by
  rw [checkCoinbase, coinbaseScript_eq hvin, Access.ok_bind]
  cases hscript : aux.scriptBytes with
  | none => exact ⟨false, rfl, by simp⟩
  | some script =>
    simp only [Option.some.injEq, exists_eq_left']
    unfold CommitsTo
    cases hpos : rootPosition script (aux.vchRootHash H hashAuxBlock) with
    | none => exact ⟨false, rfl, by simp⟩
    | some pc =>
      obtain ⟨b, heq, hb⟩ := checkSizeAndNonce_eq hbranch script pc nChainId
      exact ⟨b, heq, by simpa using hb⟩

/-- What `CAuxPow::check` does once the parent's chain id has been compared. -/
theorem check_eq_of_foreign {aux : CAuxPow} {nChainId : BitVec 32} (hidx : aux.nIndex = 0)
    (hforeign : aux.ForeignParent params nChainId) (hashAuxBlock : Uint256) :
    aux.check H params hashAuxBlock nChainId =
      if aux.vChainMerkleBranch.length > 30 then .ok false
      else if aux.parentBlock.vectorFormat ∧ aux.parentBlock.vectorRep.length > 1000 then .ok false
      else if !aux.inParentTree H then .ok false
      else aux.checkCoinbase H hashAuxBlock nChainId := by
  rw [check, if_neg (by simpa using hidx)]
  by_cases hstrict : params.fStrictChainId = true
  · obtain ⟨id, hid, hne⟩ := hforeign hstrict
    simp [hstrict, hid, hne]
  · simp [hstrict]

/-- `CAuxPow::check` returns unless one of its two unguarded accesses is reached, and accepts
exactly `Accepts`. -/
theorem check_spec (aux : CAuxPow) (hashAuxBlock : Uint256) (nChainId : BitVec 32) :
    (Access.Returns (aux.check H params hashAuxBlock nChainId) ↔
        ¬ aux.ShortParent params ∧ ¬ aux.MissingInput H params nChainId) ∧
      (aux.check H params hashAuxBlock nChainId = .ok true ↔
        aux.Accepts H params hashAuxBlock nChainId) := by
  by_cases hidx : aux.nIndex = 0
  swap
  · rw [check, if_pos hidx]
    have hno : ¬ aux.ReachesCoinbase H params nChainId := fun hr ↦ hidx hr.generate
    have hshort : ¬ aux.ShortParent params := fun hs ↦ hidx hs.1
    simp [hshort, MissingInput, Accepts, hno]
  by_cases hforeign : aux.ForeignParent params nChainId
  · -- the chain id was readable, so only the missing input can fault
    have hparent : ¬ aux.ShortParent params := by
      rintro ⟨-, hstrict, hbad⟩
      obtain ⟨id, hid, -⟩ := hforeign hstrict
      exact (aux.parentBlock.getChainId_returns_iff.mp ⟨id, hid⟩) hbad
    rw [check_eq_of_foreign H params hidx hforeign]
    split
    · next hlen =>
      have hno : ¬ aux.ReachesCoinbase H params nChainId := fun hr ↦ absurd hr.branch (by omega)
      simp [hparent, MissingInput, Accepts, hno]
    next hbranch =>
    split
    · next hsize =>
      have hno : ¬ aux.ReachesCoinbase H params nChainId := fun hr ↦
        absurd (hr.size hsize.1) (by omega)
      simp [hparent, MissingInput, Accepts, hno]
    next hsize =>
    split
    · next htree =>
      have hno : ¬ aux.ReachesCoinbase H params nChainId := fun hr ↦ by
        simp [hr.inTree] at htree
      simp [hparent, MissingInput, Accepts, hno]
    next htree =>
    have hreach : aux.ReachesCoinbase H params nChainId := by
      refine ⟨hidx, hforeign, by omega, fun hv ↦ ?_, by simpa using htree⟩
      by_contra hlen
      exact hsize ⟨hv, by omega⟩
    by_cases hmissing : aux.vectorFormat = false ∧ aux.vin = []
    · have herr : aux.checkCoinbase H hashAuxBlock nChainId = .error .outOfRange := by
        simp [checkCoinbase, coinbaseScript_of_nil hmissing.1 hmissing.2]
      have hnone : aux.scriptBytes = none := by simp [scriptBytes, hmissing.1, hmissing.2]
      simp [herr, hparent, MissingInput, Accepts, hreach, hmissing, hnone]
    · obtain ⟨b, heq, hb⟩ := checkCoinbase_eq H
        (show aux.vChainMerkleBranch.length ≤ 30 by omega) (fun hv hnil ↦ hmissing ⟨hv, hnil⟩)
        hashAuxBlock nChainId
      rw [heq]
      refine ⟨by simp [hparent, MissingInput, hreach, hmissing], ?_⟩
      simpa [Accepts, hreach] using hb
  · -- the chain id is ours, or reading it leaves the vector
    have hstrict : params.fStrictChainId = true := by
      by_contra hno
      exact hforeign fun hyes ↦ absurd hyes hno
    have hno : ¬ aux.ReachesCoinbase H params nChainId := fun hr ↦ hforeign hr.foreign
    rw [check, if_neg (by simpa using hidx)]
    cases hid : aux.parentBlock.getChainId with
    | error e =>
      have hbad : aux.parentBlock.vectorFormat ∧ aux.parentBlock.vectorRep.length = 4 := by
        by_contra hgood
        obtain ⟨id, hok⟩ := aux.parentBlock.getChainId_returns_iff.mpr hgood
        rw [hid] at hok
        cases hok
      simp [hstrict, ShortParent, hidx, hbad, Accepts, hno]
    | ok id =>
      have hsame : id = nChainId := by
        by_contra hne
        exact hforeign fun _ ↦ ⟨id, hid, hne⟩
      have hgood := aux.parentBlock.getChainId_returns_iff.mp ⟨id, hid⟩
      have hshort : ¬ aux.ShortParent params := fun hs ↦ hgood hs.2.2
      simp [hstrict, hsame, hshort, MissingInput, Accepts, hno]

end CAuxPow

/-! ### The whole check -/

/-- The flags of a header that came off the wire with an auxpow. -/
theorem CBlockHeader.auxpow_of_unserialize {s r : Bytes} {h : CBlockHeader}
    (hread : CBlockHeader.unserialize H s = some (h, r)) :
    (h.auxpow = none ∧ h.isAuxpow = false) ∨
      ∃ aux, h.auxpow = some aux ∧ h.isAuxpow = true ∧
        aux.vectorFormat = (h.getAlgo == .equihash || h.getAlgo == .cryptonight) ∧
        aux.parentBlock.vectorFormat = (h.getAlgo == .cryptonight) := by
  rw [CBlockHeader.unserialize] at hread
  obtain ⟨header, t, -, hread⟩ := bind_eq_some.mp hread
  split at hread
  · next haux =>
    obtain ⟨aux, u, hauxread, hread⟩ := bind_eq_some.mp hread
    obtain ⟨rfl, -⟩ := pure_eq_some.mp hread
    refine .inr ⟨aux, rfl, haux, ?_⟩
    obtain ⟨tx, t₁, htx, hauxread⟩ := bind_eq_some.mp hauxread
    obtain ⟨hashBlock, t₂, -, hauxread⟩ := bind_eq_some.mp hauxread
    obtain ⟨vMerkleBranch, t₃, -, hauxread⟩ := bind_eq_some.mp hauxread
    obtain ⟨nIndex, t₄, -, hauxread⟩ := bind_eq_some.mp hauxread
    obtain ⟨vChain, t₅, -, hauxread⟩ := bind_eq_some.mp hauxread
    obtain ⟨nChainIndex, t₆, -, hauxread⟩ := bind_eq_some.mp hauxread
    obtain ⟨parent, t₇, hparent, hauxread⟩ := bind_eq_some.mp hauxread
    obtain ⟨rfl, -⟩ := pure_eq_some.mp hauxread
    exact ⟨CTransaction.vectorFormat_of_unserialize H htx,
      CPureBlockHeader.vectorFormat_of_unserialize hparent⟩
  · next haux =>
    obtain ⟨rfl, -⟩ := pure_eq_some.mp hread
    exact .inl ⟨rfl, by simpa using haux⟩

/-- The proof-of-work hash faults only on short CryptoNight vectors. -/
theorem CPureBlockHeader.getPoWHash_returns_iff (h : CPureBlockHeader) (algo : Algo) :
    Access.Returns (h.getPoWHash H algo) ↔
      ¬ (algo = .cryptonight ∧ h.vectorFormat ∧ h.vectorRep.length < 43) := by
  cases algo
  case cryptonight =>
    unfold getPoWHash hashCryptonight
    by_cases hv : h.vectorFormat = true
    · by_cases hlen : h.vectorRep.length < 43 <;> simp [hv, hlen]
    · simp [hv]
  all_goals simp [getPoWHash]

/-- The version test that precedes everything else: a header of another merged-mining chain is
refused before its auxpow is looked at. -/
def CBlockHeader.OwnChain (h : CBlockHeader) : Prop :=
  ¬ (3 < h.nVersion.toInt ∧ h.isAuxpow ∧ params.fStrictChainId ∧
    h.nVersion.sshiftRight 16 ≠ params.nAuxpowChainId)

/-- The headers on which `CheckAuxPowProofOfWork` does not return. -/
def CBlockHeader.Faulting (h : CBlockHeader) : Prop :=
  ∃ aux, h.auxpow = some aux ∧ h.OwnChain params ∧
    (aux.ShortParent params ∨ aux.MissingInput H params (h.nVersion.sshiftRight 16) ∨
      (aux.Accepts H params (h.getHash H) (h.nVersion.sshiftRight 16) ∧
        aux.parentBlock.vectorFormat ∧ aux.parentBlock.vectorRep.length < 43))

/-- For every header a peer can send, `CheckAuxPowProofOfWork` accepts or rejects exactly when
the header is not one of the faulting ones. -/
theorem checkAuxPowProofOfWork_returns_iff (verify : EquihashVerifier) {s r : Bytes}
    {h : CBlockHeader} (hread : CBlockHeader.unserialize H s = some (h, r)) :
    Access.Returns (checkAuxPowProofOfWork H verify params h) ↔ ¬ h.Faulting H params := by
  have hp := CBlockHeader.parsed_of_unserialize hread
  rw [checkAuxPowProofOfWork, CPureBlockHeader.getChainId_of_not_vector hp.vectorFormat]
  simp only [Access.ok_bind]
  split
  · next hother =>
    have hno : ¬ h.OwnChain params := fun hown ↦ hown hother
    simp [CBlockHeader.Faulting, hno]
  next hown =>
  rcases CBlockHeader.auxpow_of_unserialize H hread with ⟨hnone, hbit⟩ | ⟨aux, hsome, hbit, -, hvec⟩
  · obtain ⟨powHash, hpow⟩ := (h.getPoWHash_returns_iff H h.getAlgo).mpr (by simp [hp.vectorFormat])
    simp [hnone, hbit, hpow, CBlockHeader.Faulting]
  · obtain ⟨hreturns, haccepts⟩ :=
      aux.check_spec H params (h.getHash H) (h.nVersion.sshiftRight 16)
    simp only [hsome, hbit, Bool.not_true, Bool.false_eq_true, if_false]
    cases hcheck : aux.check H params (h.getHash H) (h.nVersion.sshiftRight 16) with
    | error e =>
      have hbad : ¬ Access.Returns (aux.check H params (h.getHash H)
          (h.nVersion.sshiftRight 16)) := by simp [hcheck]
      have hfault : h.Faulting H params := by
        refine ⟨aux, hsome, hown, ?_⟩
        by_contra hgood
        simp only [not_or] at hgood
        exact hbad (hreturns.mpr ⟨hgood.1, hgood.2.1⟩)
      simp [hfault]
    | ok b =>
      obtain ⟨hshort, hmissing⟩ := hreturns.mp ⟨b, hcheck⟩
      cases b with
      | false =>
        have hno : ¬ aux.Accepts H params (h.getHash H) (h.nVersion.sshiftRight 16) := fun hacc ↦ by
          rw [haccepts.mpr hacc] at hcheck
          cases hcheck
        simp [CBlockHeader.Faulting, hsome, hshort, hmissing, hno]
      | true =>
        have hacc := haccepts.mp hcheck
        have hpow := aux.parentBlock.getPoWHash_returns_iff H h.getAlgo
        have hfault : h.Faulting H params ↔
            aux.parentBlock.vectorFormat ∧ aux.parentBlock.vectorRep.length < 43 := by
          have hown' : h.OwnChain params := hown
          simp [CBlockHeader.Faulting, hsome, hown', hshort, hmissing, hacc]
        simp only [Access.ok_bind, Bool.not_true, Bool.false_eq_true, if_false]
        rw [hfault]
        by_cases hcn : h.getAlgo = .cryptonight
        · have hne : h.getAlgo ≠ .equihash := by simp [hcn]
          rw [if_neg (fun hbad ↦ hne hbad.1)]
          rw [hcn] at hpow
          cases hres : aux.parentBlock.getPoWHash H h.getAlgo with
          | ok powHash =>
            rw [hcn] at hres
            simpa [hres] using hpow
          | error e =>
            rw [hcn] at hres
            simpa [hres] using hpow
        · have hv : aux.parentBlock.vectorFormat = false := by simpa [hvec] using hcn
          obtain ⟨powHash, hres⟩ := hpow.mpr (fun hbad ↦ hcn hbad.1)
          simp only [hv, hres, Access.ok_bind, Bool.false_eq_true, false_and, not_false_iff, iff_true]
          split <;> simp

/-- A CryptoNight auxpow of our chain whose parent header is four bytes long. -/
def shortParentHeader : CBlockHeader :=
  { nVersion := 0x005B0F04
    auxpow := some
      { vectorFormat := true
        keccakHash := true
        hash := keccakHashCBTX toyHashes []
        nIndex := 0
        parentBlock :=
          { isParent := true
            algoParent := some .cryptonight
            vectorFormat := true
            vectorRep := [4, 0, 0, 0] } } }

/-- The 128 bytes such a header is sent as. -/
def shortParentBytes : Bytes := shortParentHeader.serialize.getD []

/-- `checkAuxPowProofOfWork_returns_iff` at a header that came off the wire. -/
theorem checkAuxPowProofOfWork_returns_iff_shortParent :
    Access.Returns (checkAuxPowProofOfWork toyHashes (fun _ _ ↦ true) mainParams
        shortParentHeader) ↔
      ¬ shortParentHeader.Faulting toyHashes mainParams :=
  checkAuxPowProofOfWork_returns_iff toyHashes mainParams (fun _ _ ↦ true)
    (s := shortParentBytes) (r := []) (by decide +kernel)

/-- Its chain id is read past the end of the vector. -/
theorem checkAuxPowProofOfWork_faults :
    shortParentBytes.length = 128 ∧
      CBlockHeader.unserialize toyHashes shortParentBytes = some (shortParentHeader, []) ∧
      checkAuxPowProofOfWork toyHashes (fun _ _ ↦ true) mainParams shortParentHeader =
        .error .outOfRange :=
  ⟨by decide +kernel, by decide +kernel, rfl⟩

end Bitmark
