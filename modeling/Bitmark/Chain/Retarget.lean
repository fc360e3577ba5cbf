import Bitmark.Chain.Index

/-!
# Difficulty retargeting

`GetNextWorkRequired` (`src/main.cpp:1624`): a constant on regtest, Bitcoin's daily retarget
before the fork and `DarkGravityWave` (`src/main.cpp:1424`) along each algorithm after it. Big
numbers are `Int`; their division truncates toward zero.
-/

namespace Bitmark

/-- `nTargetTimespan`, `nTargetSpacing` and `DGWtimespan`, `src/main.cpp:1394`. -/
def nTargetTimespan : Int := 24 * 60 * 60
def nTargetSpacing : Int := 2 * 60
def dgwTimespan : Int := 960

/-- `nInterval`. -/
def nInterval : Nat := 720

/-- The number of bytes of a magnitude, `BN_num_bytes`. -/
def numBytes (n : Nat) : Nat := if n = 0 then 0 else Nat.log2 n / 8 + 1

/-- `CBigNum::GetCompact`, `src/bignum.h:338`. -/
def getCompact (x : Int) : BitVec 32 :=
  let nSize := numBytes x.natAbs
  let nCompact : BitVec 32 :=
    if nSize ≤ 3 then BitVec.ofNat 32 (x.natAbs <<< (8 * (3 - nSize)))
    else BitVec.ofNat 32 (x.natAbs >>> (8 * (nSize - 3)))
  let (nCompact, nSize) :=
    if nCompact &&& 0x00800000 ≠ 0 then (nCompact >>> 8, nSize + 1) else (nCompact, nSize)
  nCompact ||| BitVec.ofNat 32 (nSize <<< 24) ||| (if x < 0 then 0x00800000 else 0)

/-! ### After the fork -/

/-- The local variables of the loop of `DarkGravityWave`. -/
structure GravityWave where
  nActualTimespan : Int := 0
  lastBlockTime : Int := 0
  countBlocks : Nat := 0
  pastDifficultyAverage : Int := 0
  lastDifficultyAlgo : Int := 0
  timeSinceLastAlgo : Int := -1
  lastBlockTimeOtherAlgos : Int := 0
  lastInRow : Nat := 0
  lastInRowDone : Bool := false
  nInRow : Nat := 0
  nInRowDone : Bool := false

namespace GravityWave

/-- `PastBlocksMin` and `PastBlocksMax`. -/
def pastBlocks : Nat := 25

/-- A run of blocks of the algorithm ends: it stays counted only from nine on. -/
def endRow (s : GravityWave) : GravityWave :=
  if s.nInRow < 9 then { s with nInRow := 0 } else { s with nInRowDone := true }

/-- The last block before the fork, `src/main.cpp:1457–1474`. -/
def beforeFork (s : GravityWave) (b : CBlockIndex) : GravityWave :=
  let time : Int := b.nTime.toNat
  endRow { s with
    nActualTimespan := if 0 < s.lastBlockTime then s.lastBlockTime - time else s.nActualTimespan
    timeSinceLastAlgo :=
      if 0 < s.lastBlockTimeOtherAlgos ∧ s.timeSinceLastAlgo = -1 then
        s.lastBlockTimeOtherAlgos - time
      else s.timeSinceLastAlgo
    countBlocks := s.countBlocks + 1 }

/-- A block of another algorithm, `src/main.cpp:1481–1491`. -/
def otherAlgo (s : GravityWave) : GravityWave :=
  endRow { s with lastInRowDone := s.lastInRowDone || s.countBlocks ≠ 0 }

/-- A block of the algorithm, `src/main.cpp:1492–1510`. -/
def sameAlgo (s : GravityWave) (b : CBlockIndex) (medianTime : Int) : GravityWave :=
  let target := setCompact b.nBits
  let count := s.countBlocks + 1
  let s :=
    { s with
      lastDifficultyAlgo := if s.countBlocks = 0 then target else s.lastDifficultyAlgo
      countBlocks := count
      nInRow := if s.nInRowDone then s.nInRow else s.nInRow + 1
      lastInRow := if s.lastInRowDone then s.lastInRow else s.lastInRow + 1 }
  if pastBlocks < count then s
  else if count = 1 then
    { s with
      pastDifficultyAverage := target
      timeSinceLastAlgo :=
        if 0 < s.lastBlockTimeOtherAlgos then s.lastBlockTimeOtherAlgos - medianTime
        else s.timeSinceLastAlgo
      lastBlockTime := medianTime }
  else
    { s with
      pastDifficultyAverage := (s.pastDifficultyAverage * (count - 1 : Nat) + target).tdiv count }

/-- The time span is known once the loop stops at a block. -/
def stopAt (s : GravityWave) (medianTime : Int) : GravityWave :=
  if 0 < s.lastBlockTime then { s with nActualTimespan := s.lastBlockTime - medianTime } else s

/-- The loop of `DarkGravityWave`, `src/main.cpp:1455–1527`, with the block it stops at. -/
def loop (algo : Algo) : GravityWave → ChainIndex → GravityWave × ChainIndex
  | s, [] => (s, [])
  | s, b :: pprev =>
    if pprev.length + 1 < nForkHeight then (s, b :: pprev)
    else if !onFork (b :: pprev) then (s.beforeFork b, b :: pprev)
    else
      let medianTime : Int := getMedianTimePast (b :: pprev)
      let s :=
        if s.lastBlockTimeOtherAlgos = 0 then { s with lastBlockTimeOtherAlgos := medianTime } else s
      if getAlgo b.nVersion ≠ algo then loop algo s.otherAlgo pprev
      else
        let s := s.sameAlgo b medianTime
        if pprev.isEmpty ∨ pastBlocks ≤ s.countBlocks then (s.stopAt medianTime, b :: pprev)
        else loop algo s pprev

/-- The blocks of the algorithm in a row behind the window, `src/main.cpp:1533–1540`. -/
def pastInRow (algo : Algo) : ChainIndex → Nat
  | [] => 0
  | b :: pprev =>
    if getAlgo b.nVersion ≠ algo ∨ !onFork (b :: pprev) then 0 else pastInRow algo pprev + 1

end GravityWave

variable (params : CChainParams)

/-- The target for the first block of an algorithm, `src/main.cpp:1590–1614`. -/
def firstTarget (algo : Algo) (nBits : BitVec 32) : Int :=
  let algoWeight : Int := getAlgoWeight algo
  if algo = .scrypt ∨ algo = .sha256d then
    (setCompact nBits * algoWeight).tdiv (8 * getAlgoWeight .scrypt)
  else
    (setCompact (if params.networkID = .testnet then nBits else 0x1d00ffff) * algoWeight).tdiv 128

/-- `DarkGravityWave`, `src/main.cpp:1424`. -/
def darkGravityWave (pindexLast : ChainIndex) (algo : Algo) : BitVec 32 :=
  let limit := params.bnProofOfWorkLimit * getAlgoWeight algo
  if pindexLast.length ≤ GravityWave.pastBlocks then getCompact limit
  else
    let (s, reading) := GravityWave.loop algo {} pindexLast
    let counting := (s.nInRow ≠ 0 ∧ !s.nInRowDone) ∨ (s.lastInRow ≠ 0 ∧ !s.lastInRowDone)
    let past := if counting then GravityWave.pastInRow algo reading.tail else 0
    let lastInRow := if s.lastInRowDone then s.lastInRow else s.lastInRow + past
    let surge := 9 ≤ lastInRow ∧ lastInRow % 9 = 0
    let justHadSurge := 9 ≤ s.nInRow ∨
      (s.nInRow ≠ 0 ∧ past ≠ 0 ∧ 9 ≤ s.nInRow + past ∧ past % 9 ≠ 0)
    let resurrect := 9600 < s.timeSinceLastAlgo
    let bnNew := if justHadSurge ∨ resurrect then s.lastDifficultyAlgo else s.pastDifficultyAverage
    let target : Int := ((s.countBlocks : Int) - 1) * dgwTimespan
    let smultiplier := if resurrect then s.timeSinceLastAlgo.tdiv 9600 else 1
    let actual := if resurrect then 10 * smultiplier * target else s.nActualTimespan
    let actual := if actual < target.tdiv 3 ∨ surge then target.tdiv 3 else actual
    let actual := if target * 3 < actual then smultiplier * target * 3 else actual
    let bnNew :=
      if GravityWave.pastBlocks ≤ s.countBlocks then
        if surge then bnNew.tdiv 3
        else if !justHadSurge then (bnNew * actual).tdiv target
        else bnNew
      else if s.countBlocks = 1 then
        let first := firstTarget params algo ((reading.head?.map (·.nBits)).getD 0)
        if resurrect then first * (smultiplier * 3) else first
      else
        let bnNew := if resurrect then bnNew * (smultiplier * 3) else bnNew
        if surge then bnNew.tdiv 3 else bnNew
    getCompact (min (min bnNew limit) (2 ^ 256 - 1))

/-! ### Before the fork -/

/-- The daily retarget, `src/main.cpp:1637–1700`. -/
def preForkWork (pindexLast : ChainIndex) : BitVec 32 :=
  match pindexLast with
  | [] => getCompact params.bnProofOfWorkLimit
  | last :: pprev =>
    if (pprev.length + 1) % nInterval ≠ 0 then
      if pprev.isEmpty ∧ params.networkID ≠ .main then getCompact params.bnProofOfWorkLimit
      else last.nBits
    else
      let first := (pindexLast[nInterval - 1]?).getD last
      let actual : Int := (last.nTime.toNat : Int) - first.nTime.toNat
      let actual := max actual (nTargetTimespan / 4)
      let actual := min actual (nTargetTimespan * 4)
      let bnNew := (setCompact last.nBits * actual).tdiv nTargetTimespan
      getCompact (min bnNew params.bnProofOfWorkLimit)

/-- `GetNextWorkRequired`, `src/main.cpp:1624`. -/
def getNextWorkRequired (pindexLast : ChainIndex) (algo : Algo) : BitVec 32 :=
  if params.networkID = .regtest then getCompact params.bnProofOfWorkLimit
  else if pindexLast.length < nForkHeight ∨ !isSuperMajority 4 pindexLast 75 100 then
    preForkWork params pindexLast
  else darkGravityWave params pindexLast algo

end Bitmark
