import Mathlib.Data.Finmap
import Bitmark.Lib.SortedMap
import Bitmark.Net.NetAddr

/-!
# The address manager

`CAddrMan` (`src/addrman.h`, `src/addrman.cpp`): addresses in buckets of "new" and "tried" ones, with
an index by network address and a randomly ordered vector of all of them. Every call takes its
random numbers as arguments. The number of "new" buckets is a parameter, as it is on disk.
-/

namespace Bitmark

/-- `ADDRMAN_TRIED_BUCKET_COUNT`, `src/addrman.h:116`. -/
def addrmanTriedBucketCount : Nat := 64

instance : NeZero addrmanTriedBucketCount := ⟨by decide⟩

/-- `ADDRMAN_TRIED_BUCKET_SIZE`. -/
def addrmanTriedBucketSize : Nat := 64

/-- `ADDRMAN_NEW_BUCKET_COUNT`. -/
def addrmanNewBucketCount : Nat := 256

instance : NeZero addrmanNewBucketCount := ⟨by decide⟩

/-- `ADDRMAN_NEW_BUCKET_SIZE`. -/
def addrmanNewBucketSize : Nat := 64

/-- `ADDRMAN_TRIED_BUCKETS_PER_GROUP`. -/
def addrmanTriedBucketsPerGroup : Nat := 4

/-- `ADDRMAN_NEW_BUCKETS_PER_SOURCE_GROUP`. -/
def addrmanNewBucketsPerSourceGroup : Nat := 32

/-- `ADDRMAN_NEW_BUCKETS_PER_ADDRESS`. -/
def addrmanNewBucketsPerAddress : Nat := 4

/-- `ADDRMAN_TRIED_ENTRIES_INSPECT_ON_EVICT`. -/
def addrmanTriedEntriesInspectOnEvict : Nat := 4

/-- `ADDRMAN_HORIZON_DAYS`. -/
def addrmanHorizonDays : Int := 30

/-- `ADDRMAN_RETRIES`. -/
def addrmanRetries : Int := 3

/-- `ADDRMAN_MAX_FAILURES`. -/
def addrmanMaxFailures : Int := 10

/-- `ADDRMAN_MIN_FAIL_DAYS`. -/
def addrmanMinFailDays : Int := 7

/-- `CAddress`, `src/protocol.h:69`, with the defaults of its `Init`. -/
structure CAddress extends CService where
  nServices : BitVec 64 := 1
  nTime : BitVec 32 := 100000000
  nLastTry : BitVec 64 := 0
deriving DecidableEq

/-- `CAddrInfo`, `src/addrman.h:20`, with the defaults of its `Init`. -/
structure CAddrInfo extends CAddress where
  source : CNetAddr
  nLastSuccess : BitVec 64 := 0
  nAttempts : BitVec 32 := 0
  nRefCount : Int := 0
  fInTried : Bool := false
  nRandomPos : Int := -1
deriving DecidableEq

/-- `CAddrInfo(addrIn, addrSource)`. -/
def CAddrInfo.new (addrIn : CAddress) (addrSource : CNetAddr) : CAddrInfo :=
  { addrIn with source := addrSource, nLastTry := 0 }

/-- `uint256::GetLow64`. -/
def getLow64 (h : Uint256) : Nat := h.toNat % 2 ^ 64

namespace CAddrInfo

/-- `GetTriedBucket`, `src/addrman.cpp:12`; `hash` is `Hash` of `src/hash.h`. -/
def getTriedBucket (hash : Bytes → Uint256) (info : CAddrInfo) (nKey : Bytes) :
    Fin addrmanTriedBucketCount :=
  let hash1 := getLow64 (hash (writeBytes nKey ++ writeBytes info.toCService.getKey))
  let hash2 := getLow64 (hash (writeBytes nKey ++ writeBytes info.getGroup ++
    leBytes 8 (hash1 % addrmanTriedBucketsPerGroup)))
  ⟨hash2 % addrmanTriedBucketCount, Nat.mod_lt _ (by decide)⟩

/-- `GetNewBucket`, `src/addrman.cpp:26`. -/
def getNewBucket (hash : Bytes → Uint256) {nBuckets : Nat} [NeZero nBuckets] (info : CAddrInfo)
    (nKey : Bytes) (src : CNetAddr) : Fin nBuckets :=
  let hash1 := getLow64 (hash (writeBytes nKey ++ writeBytes info.getGroup ++
    writeBytes src.getGroup))
  let hash2 := getLow64 (hash (writeBytes nKey ++ writeBytes src.getGroup ++
    leBytes 8 (hash1 % addrmanNewBucketsPerSourceGroup)))
  Fin.ofNat nBuckets hash2

/-- `IsTerrible`, `src/addrman.cpp:40`. -/
def isTerrible (info : CAddrInfo) (nNow : Int) : Bool :=
  if info.nLastTry ≠ 0 ∧ nNow - 60 ≤ info.nLastTry.toInt then false
  else if nNow + 10 * 60 < info.nTime.toNat then true
  else if info.nTime = 0 ∨ addrmanHorizonDays * 86400 < nNow - info.nTime.toNat then true
  else if info.nLastSuccess = 0 ∧ addrmanRetries ≤ info.nAttempts.toInt then true
  else addrmanMinFailDays * 86400 < nNow - info.nLastSuccess.toInt ∧
    addrmanMaxFailures ≤ info.nAttempts.toInt

end CAddrInfo

/-- Where a call cannot go on. -/
inductive AddrFault where
  /-- A failed `assert`. -/
  | assertion
  /-- An index outside its vector. -/
  | outOfRange
  /-- `nIdCount` at the largest `int`. -/
  | overflow
deriving DecidableEq, Repr

/-- A bucket of "new" entries, a `std::set<int>`. -/
abbrev NewBucket := SortedMap Int Unit

/-- `CAddrMan`, `src/addrman.h:153`. -/
structure CAddrMan (nBuckets : Nat) where
  nKey : Bytes
  nIdCount : Int
  mapInfo : SortedMap Int CAddrInfo
  mapAddr : Finmap fun _ : CNetAddr ↦ Int
  vRandom : List Int
  nTried : Int
  vvTried : Fin addrmanTriedBucketCount → List Int
  nNew : Int
  vvNew : Fin nBuckets → NewBucket

/-- `GetRandInt`, `src/util.cpp:202`, for a number that was drawn. -/
def getRandInt (draw nMax : Nat) : Nat := if nMax = 0 then 0 else draw % nMax

/-- `v[pos]`; a negative position converts to one beyond the vector. -/
def elementAt (v : List Int) (pos : Int) : Option Int := if 0 ≤ pos then v[pos.toNat]? else none

namespace CAddrMan

variable {nBuckets : Nat}

/-- `CAddrMan()` with its random key. -/
def empty (nKey : Bytes) : CAddrMan nBuckets where
  nKey := nKey
  nIdCount := 0
  mapInfo := ∅
  mapAddr := ∅
  vRandom := []
  nTried := 0
  vvTried := fun _ ↦ []
  nNew := 0
  vvNew := fun _ ↦ ∅

/-- An `assert`, or a reference to an entry that an assertion covers. -/
def entry (am : CAddrMan nBuckets) (nId : Int) : Except AddrFault CAddrInfo :=
  match am.mapInfo.lookup nId with
  | some info => .ok info
  | none => .error .assertion

/-- `mapInfo[nId] = info`. -/
def setInfo (am : CAddrMan nBuckets) (nId : Int) (info : CAddrInfo) : CAddrMan nBuckets :=
  { am with mapInfo := am.mapInfo.insert nId info }

/-- `Find`, `src/addrman.cpp:83`. -/
def find (am : CAddrMan nBuckets) (addr : CNetAddr) : Option (Int × CAddrInfo) := do
  let nId ← am.mapAddr.lookup addr
  let info ← am.mapInfo.lookup nId
  some (nId, info)

/-- `Create`, `src/addrman.cpp:96`. -/
def create (am : CAddrMan nBuckets) (addr : CAddress) (addrSource : CNetAddr) :
    Except AddrFault (CAddrMan nBuckets × Int × CAddrInfo) :=
  if am.nIdCount = 2 ^ 31 - 1 then .error .overflow
  else
    let nId := am.nIdCount
    let info := { CAddrInfo.new addr addrSource with nRandomPos := am.vRandom.length }
    .ok ({ am with
      nIdCount := am.nIdCount + 1
      mapInfo := am.mapInfo.insert nId info
      mapAddr := am.mapAddr.insert addr.toCNetAddr nId
      vRandom := am.vRandom ++ [nId] }, nId, info)

/-- `SwapRandom`, `src/addrman.cpp:108`. -/
def swapRandom (am : CAddrMan nBuckets) (nRndPos1 nRndPos2 : Int) :
    Except AddrFault (CAddrMan nBuckets) :=
  if nRndPos1 = nRndPos2 then .ok am
  else
    match elementAt am.vRandom nRndPos1, elementAt am.vRandom nRndPos2 with
    | some nId1, some nId2 => do
      let info1 ← am.entry nId1
      let info2 ← am.entry nId2
      let am := am.setInfo nId1 { info1 with nRandomPos := nRndPos2 }
      let am := am.setInfo nId2 { info2 with nRandomPos := nRndPos1 }
      .ok { am with vRandom := (am.vRandom.set nRndPos1.toNat nId2).set nRndPos2.toNat nId1 }
    | _, _ => .error .assertion

/-- The bucket and the candidate of `SelectTried` after some rounds of its loop. -/
structure TriedChoice where
  vTried : List Int
  nOldest : Int := -1
  nOldestPos : Int := -1

/-- `mapInfo[nId].nLastSuccess`, for an identifier that an assertion has covered. -/
def lastSuccess (am : CAddrMan nBuckets) (nId : Int) : Int :=
  match am.mapInfo.lookup nId with
  | some info => info.nLastSuccess.toInt
  | none => 0

/-- One round of the loop of `SelectTried`. -/
def inspectTried (am : CAddrMan nBuckets) (draw : Nat → Nat) (c : TriedChoice) (i : Nat) :
    Except AddrFault TriedChoice :=
  if i < c.vTried.length then
    let nPos := getRandInt (draw i) (c.vTried.length - i) + i
    match c.vTried[nPos]?, c.vTried[i]? with
    | some nTemp, some nFirst =>
      let vTried := (c.vTried.set nPos nFirst).set i nTemp
      if c.nOldest = -1 then .ok ⟨vTried, nTemp, nPos⟩
      else do
        let _ ← am.entry nTemp
        if am.lastSuccess nTemp < am.lastSuccess c.nOldest then .ok ⟨vTried, nTemp, nPos⟩
        else .ok { c with vTried }
    | _, _ => .error .outOfRange
  else .ok c

/-- `SelectTried`, `src/addrman.cpp:128`: the shuffled bucket and the position in it. -/
def selectTried (am : CAddrMan nBuckets) (draw : Nat → Nat) (vTried : List Int) :
    Except AddrFault (List Int × Int) := do
  let c ← (List.range addrmanTriedEntriesInspectOnEvict).foldlM (am.inspectTried draw) { vTried }
  .ok (c.vTried, c.nOldestPos)

/-- What `ShrinkNew` does at both its ends to the entry it has chosen: one reference less, and the
entry itself goes with the last one (`src/addrman.cpp:164–172` and `:193–201`). -/
def dropNew (am : CAddrMan nBuckets) (nUBucket : Fin nBuckets) (nId : Int) :
    Except AddrFault (CAddrMan nBuckets) := do
  let info ← am.entry nId
  let info := { info with nRefCount := info.nRefCount - 1 }
  let am := am.setInfo nId info
  let am ←
    if info.nRefCount = 0 then do
      let am ← am.swapRandom info.nRandomPos (am.vRandom.length - 1)
      .ok { am with
        vRandom := am.vRandom.dropLast
        mapAddr := am.mapAddr.erase info.toCNetAddr
        mapInfo := am.mapInfo.erase nId
        nNew := am.nNew - 1 }
    else .ok am
  .ok { am with vvNew := Function.update am.vvNew nUBucket ((am.vvNew nUBucket).erase nId) }

/-- The first loop of `ShrinkNew`. -/
def findTerrible (am : CAddrMan nBuckets) (nNow : Int) : List Int → Except AddrFault (Option Int)
  | [] => .ok none
  | nId :: vNew => do
    let info ← am.entry nId
    if info.isTerrible nNow then .ok (some nId) else am.findTerrible nNow vNew

/-- The second loop of `ShrinkNew`, from its round `nI`, with the oldest of the entries whose places
were drawn. -/
def pickOldest (am : CAddrMan nBuckets) (n : List Nat) :
    Nat → Int → List Int → Except AddrFault Int
  | _, nOldest, [] => .ok nOldest
  | nI, nOldest, nId :: vNew =>
    if nI ∈ n then
      if nOldest = -1 then am.pickOldest n (nI + 1) nId vNew
      else do
        let info ← am.entry nId
        let infoOldest ← am.entry nOldest
        am.pickOldest n (nI + 1) (if info.nTime < infoOldest.nTime then nId else nOldest) vNew
    else am.pickOldest n (nI + 1) nOldest vNew

/-- `ShrinkNew`, `src/addrman.cpp:152`; `nNow` is `GetAdjustedTime()`. -/
def shrinkNew (am : CAddrMan nBuckets) (nNow : Int) (draw : Nat → Nat) (nUBucket : Fin nBuckets) :
    Except AddrFault (CAddrMan nBuckets × Int) := do
  let vNew := (am.vvNew nUBucket).keys
  match ← am.findTerrible nNow vNew with
  | some nId =>
    let am ← am.dropNew nUBucket nId
    .ok (am, 0)
  | none =>
    let n := (List.range 4).map fun i ↦ getRandInt (draw i) vNew.length
    let nOldest ← am.pickOldest n 0 (-1) vNew
    let am ← am.dropNew nUBucket nOldest
    .ok (am, 1)

/-- The end of `MakeTried`, `src/addrman.cpp:233–261`, when the bucket is full: `nId` takes the place
of an entry that goes back to a "new" bucket. -/
def evictTried (hash : Bytes → Uint256) [NeZero nBuckets] (am : CAddrMan nBuckets)
    (draw : Nat → Nat) (nId : Int) (nOrigin : Fin nBuckets)
    (nKBucket : Fin addrmanTriedBucketCount) : Except AddrFault (CAddrMan nBuckets) := do
  let (vTried, nPos) ← am.selectTried draw (am.vvTried nKBucket)
  match elementAt vTried nPos with
  | none => .error .outOfRange
  | some nIdOld => do
    let infoOld ← am.entry nIdOld
    let nUBucket : Fin nBuckets := infoOld.getNewBucket hash am.nKey infoOld.source
    let am := am.setInfo nIdOld { infoOld with fInTried := false, nRefCount := 1 }
    let nBack := if (am.vvNew nUBucket).keys.length < addrmanNewBucketSize then nUBucket else nOrigin
    .ok { am with
      vvNew := Function.update am.vvNew nBack ((am.vvNew nBack).insert nIdOld ())
      nNew := am.nNew + 1
      vvTried := Function.update am.vvTried nKBucket (vTried.set nPos.toNat nId) }

/-- `MakeTried`, `src/addrman.cpp:206`. -/
def makeTried (hash : Bytes → Uint256) [NeZero nBuckets] (am : CAddrMan nBuckets)
    (draw : Nat → Nat) (nId : Int) (nOrigin : Fin nBuckets) :
    Except AddrFault (CAddrMan nBuckets) := do
  let info ← am.entry nId
  if nId ∉ (am.vvNew nOrigin).keys then .error .assertion
  else
    let nHolding := (List.finRange nBuckets).countP fun b ↦ nId ∈ (am.vvNew b).keys
    let info := { info with nRefCount := info.nRefCount - nHolding }
    if info.nRefCount ≠ 0 then .error .assertion
    else do
      let nKBucket := info.getTriedBucket hash am.nKey
      let am := am.setInfo nId info
      let am := { am with vvNew := fun b ↦ (am.vvNew b).erase nId, nNew := am.nNew - 1 }
      let am ←
        if (am.vvTried nKBucket).length < addrmanTriedBucketSize then
          .ok { am with
            vvTried := Function.update am.vvTried nKBucket (am.vvTried nKBucket ++ [nId])
            nTried := am.nTried + 1 }
        else am.evictTried hash draw nId nOrigin nKBucket
      .ok (am.setInfo nId { info with fInTried := true })

/-- `Good_`, `src/addrman.cpp:264`. The first number drawn is where the search for a bucket of the
entry starts. -/
def good (hash : Bytes → Uint256) [NeZero nBuckets] (am : CAddrMan nBuckets) (draw : Nat → Nat)
    (addr : CService) (nTime : BitVec 64) : Except AddrFault (CAddrMan nBuckets) :=
  match am.find addr.toCNetAddr with
  | none => .ok am
  | some (nId, info) =>
    if info.toCService ≠ addr then .ok am
    else
      let am := am.setInfo nId
        { info with
          nLastSuccess := nTime, nLastTry := nTime, nTime := nTime.setWidth 32, nAttempts := 0 }
      if info.fInTried then .ok am
      else
        let nRnd := getRandInt (draw 0) nBuckets
        let buckets := (List.range nBuckets).map fun n ↦ Fin.ofNat nBuckets (n + nRnd)
        match buckets.find? fun b ↦ nId ∈ (am.vvNew b).keys with
        | none => .ok am
        | some nUBucket => am.makeTried hash (fun i ↦ draw (i + 1)) nId nUBucket

/-- The refresh of a known entry in `Add_`, `src/addrman.cpp:324–331`. -/
def refreshed (info : CAddrInfo) (addr : CAddress) (nTimePenalty nNow : Int) : CAddrInfo :=
  let addrTime : Int := addr.nTime.toNat
  let nUpdateInterval : Int := if nNow - addrTime < 24 * 60 * 60 then 60 * 60 else 24 * 60 * 60
  { info with
    nTime :=
      if addrTime ≠ 0 ∧
          (info.nTime = 0 ∨ (info.nTime.toNat : Int) < addrTime - nUpdateInterval - nTimePenalty)
      then BitVec.ofInt 32 (max 0 (addrTime - nTimePenalty)) else info.nTime
    nServices := info.nServices ||| addr.nServices }

/-- Whether `Add_` goes on to list a known entry in another bucket, `src/addrman.cpp:333–350`. -/
def listsAgain (info : CAddrInfo) (addr : CAddress) (draw : Nat) : Bool :=
  !(addr.nTime = 0 ∨ (info.nTime ≠ 0 ∧ addr.nTime ≤ info.nTime)) && !info.fInTried &&
    info.nRefCount ≠ addrmanNewBucketsPerAddress &&
    (getRandInt draw (2 ^ info.nRefCount.toNat) = 0)

/-- The end of `Add_`, `src/addrman.cpp:358–366`. -/
def listNew (hash : Bytes → Uint256) [NeZero nBuckets] (am : CAddrMan nBuckets)
    (draw : Nat → Nat) (nId : Int) (info : CAddrInfo) (source : CNetAddr) (nNow : Int) :
    Except AddrFault (CAddrMan nBuckets) :=
  let nUBucket : Fin nBuckets := info.getNewBucket hash am.nKey source
  if nId ∈ (am.vvNew nUBucket).keys then .ok am
  else do
    let am := am.setInfo nId { info with nRefCount := info.nRefCount + 1 }
    let am ←
      if (am.vvNew nUBucket).keys.length = addrmanNewBucketSize then
        (·.1) <$> am.shrinkNew nNow draw nUBucket
      else .ok am
    .ok { am with vvNew := Function.update am.vvNew nUBucket ((am.vvNew nUBucket).insert nId ()) }

/-- `Add_`, `src/addrman.cpp:313`; `nNow` is `GetAdjustedTime()`. -/
def add (hash : Bytes → Uint256) [NeZero nBuckets] (am : CAddrMan nBuckets) (draw : Nat → Nat)
    (addr : CAddress) (source : CNetAddr) (nTimePenalty nNow : Int) :
    Except AddrFault (CAddrMan nBuckets × Bool) :=
  if !addr.isRoutable then .ok (am, false)
  else
    match am.find addr.toCNetAddr with
    | some (nId, info) => do
      let info := refreshed info addr nTimePenalty nNow
      let am := am.setInfo nId info
      if listsAgain info addr (draw 0) then
        let am ← am.listNew hash (fun i ↦ draw (i + 1)) nId info source nNow
        .ok (am, false)
      else .ok (am, false)
    | none => do
      let (am, nId, info) ← am.create addr source
      let info :=
        { info with nTime := BitVec.ofInt 32 (max 0 ((info.nTime.toNat : Int) - nTimePenalty)) }
      let am := { am.setInfo nId info with nNew := am.nNew + 1 }
      let am ← am.listNew hash (fun i ↦ draw (i + 1)) nId info source nNow
      .ok (am, true)

/-- `Attempt_`, `src/addrman.cpp:370`. -/
def attempt (am : CAddrMan nBuckets) (addr : CService) (nTime : BitVec 64) : CAddrMan nBuckets :=
  match am.find addr.toCNetAddr with
  | none => am
  | some (nId, info) =>
    if info.toCService ≠ addr then am
    else am.setInfo nId { info with nLastTry := nTime, nAttempts := info.nAttempts + 1 }

/-- `Connected_`, `src/addrman.cpp:509`. -/
def connected (am : CAddrMan nBuckets) (addr : CService) (nTime : BitVec 64) : CAddrMan nBuckets :=
  match am.find addr.toCNetAddr with
  | none => am
  | some (nId, info) =>
    if info.toCService ≠ addr then am
    else if 20 * 60 < nTime.toInt - info.nTime.toNat then
      am.setInfo nId { info with nTime := nTime.setWidth 32 }
    else am

end CAddrMan

end Bitmark
