import Bitmark.Primitives.Pow

/-!
# Merged mining

`CMerkleTx`, `CAuxPow` and `CBlockHeader` (`src/core.h:317–620`) with their wire format,
the merkle branch folds, `CAuxPow::check` and `CheckAuxPowProofOfWork`
(`src/core.cpp:281–684`). Every index into attacker-controlled bytes goes through `Access`,
so that a run that leaves its vector is visible as a fault.
-/

namespace Bitmark

/-- The first position at which `needle` occurs in `hay`: `std::search`, with `none` for the
end iterator. -/
def search (hay needle : Bytes) : Option Nat :=
  if needle.isPrefixOf hay then some 0
  else
    match hay with
    | [] => none
    | _ :: hay => (search hay needle).map (· + 1)

/-- `pchMergedMiningHeader`, `src/core.h:379`. -/
def pchMergedMiningHeader : Bytes := [0xfa, 0xbe, 0x6d, 0x6d]

/-- `CMerkleTx` without its memory-only fields. -/
structure CMerkleTx extends CTransaction where
  hashBlock : Uint256 := 0
  vMerkleBranch : List Uint256 := []
  nIndex : BitVec 32 := -1
deriving DecidableEq, Repr

/-- `CAuxPow`, `src/core.h:387`: its parent header is always marked as a parent. -/
structure CAuxPow extends CMerkleTx where
  vChainMerkleBranch : List Uint256 := []
  nChainIndex : BitVec 32 := 0
  parentBlock : CPureBlockHeader := { isParent := true }
deriving DecidableEq, Repr

/-- `CBlockHeader`, `src/core.h:497`. -/
structure CBlockHeader extends CPureBlockHeader where
  auxpow : Option CAuxPow := none
deriving DecidableEq, Repr

/-! ### Wire format -/

/-- `IMPLEMENT_SERIALIZE` of `CAuxPow` and its base `CMerkleTx`. -/
def CAuxPow.serialize (aux : CAuxPow) : Bytes :=
  aux.toCTransaction.serialize ++ bytes256 aux.hashBlock ++ writeVector bytes256 aux.vMerkleBranch ++
    bytes32 aux.nIndex ++ writeVector bytes256 aux.vChainMerkleBranch ++ bytes32 aux.nChainIndex ++
    aux.parentBlock.serialize

/-- The flags `CBlockHeader` sets on its auxpow before reading or writing it,
`src/core.h:523–531`. -/
def CAuxPow.setFormat (algo : Algo) (aux : CAuxPow) : CAuxPow :=
  { aux with
    vectorFormat := aux.vectorFormat || algo == .equihash || algo == .cryptonight
    keccakHash := aux.keccakHash || algo == .cryptonight
    parentBlock :=
      { aux.parentBlock with
        isParent := true
        algoParent := some algo
        vectorFormat := aux.parentBlock.vectorFormat || algo == .cryptonight } }

/-- `CBlockHeader::Serialize`, `src/core.h:536`; a missing auxpow fails an assertion there. -/
def CBlockHeader.serialize (h : CBlockHeader) : Option Bytes :=
  if h.isAuxpow then
    h.auxpow.map fun aux ↦
      h.toCPureBlockHeader.serialize ++ (aux.setFormat h.getAlgo).serialize
  else some h.toCPureBlockHeader.serialize

variable (H : Hashes)

/-- Deserialize into an auxpow whose format flags are already set. -/
def CAuxPow.unserialize (aux : CAuxPow) : Stream CAuxPow := do
  let tx ← CTransaction.unserialize H aux.toCTransaction
  let hashBlock ← readUint256
  let vMerkleBranch ← readVector readUint256
  let nIndex ← readWord32
  let vChainMerkleBranch ← readVector readUint256
  let nChainIndex ← readWord32
  let parentBlock ← aux.parentBlock.unserialize
  pure { aux with
    toCTransaction := tx
    hashBlock, vMerkleBranch, nIndex, vChainMerkleBranch, nChainIndex, parentBlock }

/-- `CBlockHeader::Unserialize`, `src/core.h:559`. -/
def CBlockHeader.unserialize : Stream CBlockHeader := do
  let pure' ← CPureBlockHeader.unserialize {}
  if pure'.isAuxpow then do
    let aux ← CAuxPow.unserialize H (CAuxPow.setFormat pure'.getAlgo {})
    pure { toCPureBlockHeader := pure', auxpow := some aux }
  else pure { toCPureBlockHeader := pure', auxpow := none }

/-! ### Merkle branches -/

/-- The fold of `CBlock::CheckMerkleBranch` over the remaining branch. -/
def foldMerkleBranch (hash2 : Bytes → Uint256) (hash : Uint256) :
    List Uint256 → BitVec 32 → Uint256
  | [], _ => hash
  | otherside :: branch, nIndex =>
    let hash :=
      if nIndex &&& 1 ≠ 0 then hash2 (bytes256 otherside ++ bytes256 hash)
      else hash2 (bytes256 hash ++ bytes256 otherside)
    foldMerkleBranch hash2 hash branch (nIndex.sshiftRight 1)

/-- `CBlock::CheckMerkleBranch`, `src/core.cpp:281`. -/
def checkMerkleBranch (hash : Uint256) (vMerkleBranch : List Uint256) (nIndex : BitVec 32) :
    Uint256 :=
  if nIndex = -1 then 0 else foldMerkleBranch H.hash hash vMerkleBranch nIndex

/-- `CBlock::CheckMerkleBranchKeccak`, `src/core.cpp:298`. -/
def checkMerkleBranchKeccak (hash : Uint256) (vMerkleBranch : List Uint256) (nIndex : BitVec 32) :
    Uint256 :=
  if nIndex = -1 then 0 else foldMerkleBranch H.keccak hash vMerkleBranch nIndex

/-! ### The auxpow check -/

/-- `1 << h` on `int`. -/
def shiftOne (h : Nat) : Access (BitVec 32) :=
  if h < 31 then .ok ((1 : BitVec 32) <<< h) else .error .shift

/-- `CAuxPow::getExpectedIndex`, `src/core.cpp:563`. -/
def getExpectedIndex (nNonce nChainId : BitVec 32) (h : Nat) : Access (BitVec 32) := do
  let rand := nNonce
  let rand := rand * 1103515245 + 12345
  let rand := rand + nChainId
  let rand := rand * 1103515245 + 12345
  let size ← shiftOne h
  .ok (rand.umod size)

/-- The chain merkle root as it is searched in the coinbase: byte-reversed,
`src/core.cpp:424–427`. -/
def CAuxPow.vchRootHash (aux : CAuxPow) (hashAuxBlock : Uint256) : Bytes :=
  (bytes256 (checkMerkleBranch H hashAuxBlock aux.vChainMerkleBranch aux.nChainIndex)).reverse

/-- The parent merkle root check, `src/core.cpp:456–478`: a free search through `vector_rep`
for CryptoNight parents, equality with the header field for the others. -/
def CAuxPow.inParentTree (aux : CAuxPow) : Bool :=
  let transactionHash := aux.toCTransaction.getCachedHash H
  if aux.parentBlock.vectorFormat then
    let root := checkMerkleBranchKeccak H transactionHash aux.vMerkleBranch aux.nIndex
    (search aux.parentBlock.vectorRep (bytes256 root)).isSome
  else
    checkMerkleBranch H transactionHash aux.vMerkleBranch aux.nIndex = aux.parentBlock.hashMerkleRoot

/-- The bytes searched for the chain merkle root, `src/core.cpp:480–487`; `none` when they are
refused for their size. -/
def CAuxPow.coinbaseScript (aux : CAuxPow) : Access (Option Bytes) :=
  if aux.vectorFormat then
    if aux.vectorRep.length > 1000 then .ok none else .ok (some aux.vectorRep)
  else do
    let txin ← vectorAt aux.vin 0
    .ok (some txin.scriptSig)

/-- Where the chain merkle root has to stand in the coinbase, `src/core.cpp:492–533`: just
after the only merged-mining header, or without one within the first 20 bytes. The result is
the position after the root. -/
def rootPosition (script vchRootHash : Bytes) : Option Nat :=
  match search script vchRootHash with
  | none => none
  | some pc =>
    match search script pchMergedMiningHeader with
    | some pcHead =>
      if (search (script.drop (pcHead + 1)) pchMergedMiningHeader).isSome then none
      else if pcHead + 4 ≠ pc then none
      else some (pc + vchRootHash.length)
    | none => if pc > 20 then none else some (pc + vchRootHash.length)

/-- The tree size and nonce that follow the root, `src/core.cpp:535–557`. -/
def CAuxPow.checkSizeAndNonce (aux : CAuxPow) (script : Bytes) (pc : Nat) (nChainId : BitVec 32) :
    Access Bool :=
  if script.length - pc < 8 then .ok false
  else do
    let nSize ← bytesAt script pc 4
    let merkleHeight := aux.vChainMerkleBranch.length
    let size ← shiftOne merkleHeight
    if word32 nSize ≠ size then .ok false
    else do
      let nNonce ← bytesAt script (pc + 4) 4
      let expectedIndex ← getExpectedIndex (word32 nNonce) nChainId merkleHeight
      .ok (aux.nChainIndex = expectedIndex)

/-- The checks of `CAuxPow::check` from the coinbase bytes on. -/
def CAuxPow.checkCoinbase (aux : CAuxPow) (hashAuxBlock : Uint256) (nChainId : BitVec 32) :
    Access Bool := do
  let script? ← aux.coinbaseScript
  match script? with
  | none => .ok false
  | some script =>
    match rootPosition script (aux.vchRootHash H hashAuxBlock) with
    | none => .ok false
    | some pc => aux.checkSizeAndNonce script pc nChainId

/-- `CAuxPow::check`, `src/core.cpp:400`. -/
def CAuxPow.check (params : CChainParams) (aux : CAuxPow) (hashAuxBlock : Uint256)
    (nChainId : BitVec 32) : Access Bool := do
  if aux.nIndex ≠ 0 then .ok false
  else do
    -- `StrictChainId() && GetChainId() == nChainId` reads the parent only in strict mode
    let sameChain ←
      if params.fStrictChainId then do
        let parentChainId ← aux.parentBlock.getChainId
        .ok (decide (parentChainId = nChainId))
      else .ok false
    if sameChain then .ok false
    else if aux.vChainMerkleBranch.length > 30 then .ok false
    else if aux.parentBlock.vectorFormat ∧ aux.parentBlock.vectorRep.length > 1000 then .ok false
    else if !aux.inParentTree H then .ok false
    else aux.checkCoinbase H hashAuxBlock nChainId

/-- `CheckAuxPowProofOfWork`, `src/core.cpp:619`. -/
def checkAuxPowProofOfWork (verify : EquihashVerifier) (params : CChainParams)
    (block : CBlockHeader) : Access Bool := do
  let algo := block.getAlgo
  let chainId ← block.getChainId
  if 3 < block.nVersion.toInt ∧ block.isAuxpow ∧ params.fStrictChainId ∧
      chainId ≠ params.nAuxpowChainId then .ok false
  else
    match block.auxpow with
    | none =>
      if block.isAuxpow then .ok false
      else do
        let powHash ← block.getPoWHash H algo
        .ok (checkProofOfWork params powHash block.nBits algo)
    | some aux =>
      if !block.isAuxpow then .ok false
      else do
        let ok ← aux.check H params (block.getHash H) chainId
        if !ok then .ok false
        else if algo = .equihash ∧ !checkEquihashSolution verify aux.parentBlock then .ok false
        else do
          let powHash ← aux.parentBlock.getPoWHash H algo
          .ok (checkProofOfWork params powHash block.nBits algo)

end Bitmark
