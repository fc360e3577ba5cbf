import Bitmark.Primitives.Header

/-!
# Targets and proof-of-work checks

The compact difficulty encoding (`src/bignum.h:319`, `src/core.cpp:724`), the weights of the
algorithms and the checks of `src/pow.cpp`, with the chain parameters they read
(`src/chainparams.cpp`).
-/

namespace Bitmark

/-- `CChainParams::Network`. -/
inductive Network where
  | main | testnet | regtest
deriving DecidableEq, Repr

/-- The fields of `CChainParams` that validation reads. -/
structure CChainParams where
  networkID : Network
  hashGenesisBlock : Uint256
  bnProofOfWorkLimit : Int
  nSubsidyHalvingInterval : Nat
  fStrictChainId : Bool := true
  nAuxpowChainId : BitVec 32 := 0x005B
deriving DecidableEq, Repr

/-- `CMainParams`, `src/chainparams.cpp:41`. -/
def mainParams : CChainParams where
  networkID := .main
  hashGenesisBlock := 0xc1fb746e87e89ae75bdec2ef0639a1f6786744639ce3d0ece1dcf979b79137cb
  bnProofOfWorkLimit := 2 ^ 224 - 1
  nSubsidyHalvingInterval := 788000

/-- `CTestNetParams`, `src/chainparams.cpp:144`. -/
def testNetParams : CChainParams where
  networkID := .testnet
  hashGenesisBlock := 0x45ccef675b070c6eae865e1fcd3978253ec52a960af9abbb91bd1d935513e5be
  bnProofOfWorkLimit := 2 ^ 248 - 1
  nSubsidyHalvingInterval := 788000

/-- `CRegTestParams`, `src/chainparams.cpp:220`. -/
def regTestParams : CChainParams where
  networkID := .regtest
  hashGenesisBlock := 0x168329a349fc93768bfb02e536bbe1e1847d77a65764564552122fa9268d8841
  bnProofOfWorkLimit := 2 ^ 255 - 1
  nSubsidyHalvingInterval := 300

/-- `CChainParams::SubsidyInterimInterval`. -/
def CChainParams.subsidyInterimInterval (params : CChainParams) : Nat :=
  params.nSubsidyHalvingInterval / 2

/-! ### Compact targets -/

/-- `CBigNum::SetCompact` and `BoostBigNumFromCompact`. -/
def setCompact (nCompact : BitVec 32) : Int :=
  let nSize := (nCompact >>> 24).toNat
  let nWord := (nCompact &&& 0x007fffff).toNat
  let magnitude := if nSize ≤ 3 then nWord >>> (8 * (3 - nSize)) else nWord <<< (8 * (nSize - 3))
  if nCompact &&& 0x00800000 ≠ 0 then -(magnitude : Int) else magnitude

/-- `CBigNum::getuint256`: the low 256 bits of the magnitude. -/
def getUint256 (x : Int) : Uint256 := BitVec.ofNat 256 x.natAbs

/-- `GetAlgoWeight`, `src/core.cpp:699`. -/
def getAlgoWeight : Algo → Nat
  | .sha256d => 1
  | .argon2 => 4000000
  | .equihash => 8000000
  | .cryptonight => 8000000
  | .yescrypt => 800000
  | _ => 8000

theorem getAlgoWeight_pos (algo : Algo) : 0 < getAlgoWeight algo := by
  cases algo <;> decide

/-- `CheckProofOfWork`, `src/pow.cpp:7`. -/
def checkProofOfWork (params : CChainParams) (hash : Uint256) (nBits : BitVec 32) (algo : Algo) :
    Bool :=
  let bnTarget := setCompact nBits
  if bnTarget ≤ 0 ∨ bnTarget > params.bnProofOfWorkLimit * getAlgoWeight algo then false
  else if hash > getUint256 bnTarget then false
  else true

/-! ### Equihash solutions -/

/-- The verifier of Equihash solutions (`src/equihash.cpp`): it sees the header without its
solution, and the solution. -/
abbrev EquihashVerifier := Bytes → Bytes → Bool

/-- `CEquihashInput` followed by the 256-bit nonce, `src/pow.cpp:41`. -/
def CPureBlockHeader.equihashInput (h : CPureBlockHeader) : Bytes :=
  bytes32 h.nVersion ++ bytes256 h.hashPrevBlock ++ bytes256 h.hashMerkleRoot ++
    bytes256 h.hashReserved ++ bytes32 h.nTime ++ bytes32 h.nBits ++ bytes256 h.nNonce256

/-- `CheckEquihashSolution`, `src/pow.cpp:25`. -/
def checkEquihashSolution (verify : EquihashVerifier) (h : CPureBlockHeader) : Bool :=
  verify h.equihashInput h.nSolution

end Bitmark
