import Bitmark.Primitives.AuxPow

/-!
# Blocks

`CBlock` of `src/core.h:713` with its merkle tree (`src/core.cpp:246`) and wire format.
-/

namespace Bitmark

/-- `CBlock`. The cached `vMerkleTree` is recomputed from the transactions. -/
structure CBlock extends CBlockHeader where
  vtx : List CTransaction := []
deriving DecidableEq, Repr

/-- `IMPLEMENT_SERIALIZE` of `CBlock`; `none` is the failed assertion of its header. -/
def CBlock.serialize (block : CBlock) : Option Bytes :=
  block.toCBlockHeader.serialize.map (· ++ writeVector CTransaction.serialize block.vtx)

variable (H : Hashes)

/-- The hash of two tree nodes. -/
def hashPair (a b : Uint256) : Uint256 := H.hash (bytes256 a ++ bytes256 b)

/-- One level of the tree from the level below: the last node of an odd level is paired with
itself. -/
def merkleLevel : List Uint256 → List Uint256
  | [] => []
  | [a] => [hashPair H a a]
  | a :: b :: level => hashPair H a b :: merkleLevel level

/-- The levels of the tree from a given one up, concatenated. A level of `n` nodes has at most
`n` levels above it. -/
def merkleLevels : Nat → List Uint256 → List Uint256
  | 0, level => level
  | fuel + 1, level =>
    if 1 < level.length then level ++ merkleLevels fuel (merkleLevel H level) else level

/-- `vMerkleTree` after `CBlock::BuildMerkleTree`. -/
def CBlock.vMerkleTree (block : CBlock) : List Uint256 :=
  merkleLevels H block.vtx.length (block.vtx.map (·.getHash H))

/-- `CBlock::BuildMerkleTree`, `src/core.cpp:246`. -/
def CBlock.buildMerkleTree (block : CBlock) : Uint256 := ((block.vMerkleTree H).getLast?).getD 0

/-- `CBlock::GetTxHash` of every transaction: the level that `vMerkleTree` starts with. -/
def CBlock.txHashes (block : CBlock) : List Uint256 := block.vtx.map (·.getHash H)

end Bitmark
