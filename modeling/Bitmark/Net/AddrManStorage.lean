import Bitmark.Base.Codec
import Bitmark.Net.AddrMan

/-!
# The address manager on disk

The serialization of `CAddrMan` (`src/addrman.h:259–381`). The writer numbers the entries anew, the
"new" ones first; the reader rebuilds everything else from the entries, and the "new" buckets too
when their number has changed. `nVersion` of the format hides the parameter of that name, so that
the version in front of each address is zero.
-/

namespace Bitmark

open Codec

/-! ### Entries -/

/-- A serialized `int`. -/
def writeInt (x : Int) : Bytes := bytes32 (BitVec.ofInt 32 x)

def readInt : Stream Int := BitVec.toInt <$> readWord32

/-- `CNetAddr`, `src/netbase.h:88`. -/
def readNetAddr : Stream CNetAddr := fun s ↦
  if h : 16 ≤ s.length then some (⟨s.take 16, by rw [List.length_take, min_eq_left h]⟩, s.drop 16)
  else none

/-- `CService`, `src/netbase.h:126`: the port is in network order. -/
def CService.write (s : CService) : Bytes := s.ip ++ (leBytes 2 s.port.toNat).reverse

def readService : Stream CService := do
  let addr ← readNetAddr
  let portN ← readBytes 2
  pure { addr with port := BitVec.ofNat 16 (leNat portN.reverse) }

/-- `CAddress` of type `SER_DISK`, `src/protocol.h:77`. -/
def CAddress.write (addr : CAddress) : Bytes :=
  writeInt 0 ++ bytes32 addr.nTime ++ leBytes 8 addr.nServices.toNat ++ addr.toCService.write

def readAddress : Stream CAddress := do
  let _nVersion ← readInt
  let nTime ← readWord32
  let nServices ← readLe 8
  let service ← readService
  pure { service with nServices := BitVec.ofNat 64 nServices, nTime }

/-- `CAddrInfo`, `src/addrman.h:47`. -/
def CAddrInfo.write (info : CAddrInfo) : Bytes :=
  info.toCAddress.write ++ info.source.ip ++ leBytes 8 info.nLastSuccess.toNat ++
    bytes32 info.nAttempts

def readAddrInfo : Stream CAddrInfo := do
  let addr ← readAddress
  let source ← readNetAddr
  let nLastSuccess ← readLe 8
  let nAttempts ← readWord32
  pure { addr with source, nLastSuccess := BitVec.ofNat 64 nLastSuccess, nAttempts }

/-- `CAddrInfo()`. -/
def CAddrInfo.default : CAddrInfo where
  ip := List.replicate 16 0
  size_ip := CNetAddr.size_init
  port := 0
  source := ⟨List.replicate 16 0, CNetAddr.size_init⟩

/-- What the disk keeps of an entry. -/
def CAddrInfo.saved (info : CAddrInfo) : CAddrInfo :=
  { info with nLastTry := 0, nRefCount := 0, fInTried := false, nRandomPos := -1 }

theorem reads_int {x : Int} (hlo : -2 ^ 31 ≤ x) (hhi : x < 2 ^ 31) :
    Reads readInt x (writeInt x) := by
  have hword := (reads_word32 (BitVec.ofInt 32 x)).map BitVec.toInt
  rwa [BitVec.toInt_ofInt, Int.bmod_eq_of_le (by omega) (by omega)] at hword

theorem reads_netAddr (addr : CNetAddr) : Reads readNetAddr addr addr.ip := by
  intro rest
  have hlen := addr.size_ip
  rw [readNetAddr, dif_pos (by rw [List.length_append]; omega)]
  simp [← hlen]

theorem reads_le64 (w : BitVec 64) : Reads (readLe 8) w.toNat (leBytes 8 w.toNat) :=
  reads_le w.isLt

theorem reads_service (s : CService) : Reads readService s s.write := by
  have hport : s.port.toNat < 256 ^ 2 := s.port.isLt
  have hbytes := reads_bytes (leBytes 2 s.port.toNat).reverse
  rw [List.length_reverse, length_leBytes] at hbytes
  refine (reads_netAddr s.toCNetAddr).bind (hbytes.bind_pure ?_)
  rw [List.reverse_reverse, leNat_leBytes, Nat.mod_eq_of_lt hport, BitVec.ofNat_toNat,
    BitVec.setWidth_eq]
  exact Reads.pure s

theorem reads_address (addr : CAddress) :
    Reads readAddress { addr with nLastTry := 0 } addr.write := by
  rw [CAddress.write, List.append_assoc, List.append_assoc]
  refine (reads_int (by decide) (by decide)).bind ((reads_word32 _).bind ((reads_le64 _).bind
    ((reads_service _).bind_pure ?_)))
  rw [BitVec.ofNat_toNat, BitVec.setWidth_eq]
  exact Reads.pure _

theorem reads_addrInfo (info : CAddrInfo) : Reads readAddrInfo info.saved info.write := by
  rw [CAddrInfo.write, List.append_assoc, List.append_assoc]
  refine (reads_address _).bind ((reads_netAddr _).bind ((reads_le64 _).bind
    ((reads_word32 _).bind_pure ?_)))
  rw [BitVec.ofNat_toNat, BitVec.setWidth_eq]
  exact Reads.pure _

namespace CAddrMan

variable {nBuckets : Nat}

/-! ### Writing -/

/-- The first loop of the writer, from the number `nIds` on: the entries it writes, and `mapUnkIds`. -/
def writeNew (nNew : Int) :
    List (Int × CAddrInfo) → Int → SortedMap Int Int → Bytes × SortedMap Int Int
  | [], _, mapUnkIds => ([], mapUnkIds)
  | (nId, info) :: l, nIds, mapUnkIds =>
    if nIds = nNew then ([], mapUnkIds)
    else
      let mapUnkIds := mapUnkIds.insert nId nIds
      if info.nRefCount ≠ 0 then
        let (bs, mapUnkIds) := writeNew nNew l (nIds + 1) mapUnkIds
        (info.write ++ bs, mapUnkIds)
      else writeNew nNew l nIds mapUnkIds

/-- The second loop of the writer. -/
def writeTried (nTried : Int) : List (Int × CAddrInfo) → Int → Bytes
  | [], _ => []
  | (_, info) :: l, nIds =>
    if nIds = nTried then []
    else if info.fInTried then info.write ++ writeTried nTried l (nIds + 1)
    else writeTried nTried l nIds

/-- One round of the last loop of the writer; `mapUnkIds[*it2]` is zero for a number that is not
there. -/
def writeBucket (mapUnkIds : SortedMap Int Int) (vNew : NewBucket) : Bytes :=
  writeInt vNew.keys.length ++
    vNew.keys.flatMap fun nId ↦ writeInt ((mapUnkIds.lookup nId).getD 0)

def serialize (am : CAddrMan nBuckets) : Bytes :=
  let (news, mapUnkIds) := writeNew am.nNew am.mapInfo.entries 0 ∅
  [0] ++ writeBytes am.nKey ++ writeInt am.nNew ++ writeInt am.nTried ++ writeInt nBuckets ++
    news ++ writeTried am.nTried am.mapInfo.entries 0 ++
    (List.finRange nBuckets).flatMap fun b ↦ writeBucket mapUnkIds (am.vvNew b)

/-! ### Reading -/

section Read

variable (hash : Bytes → Uint256) [NeZero nBuckets]

/-- A round of the first loop of the reader, after the entry is read. -/
def placeNew (nUBuckets : Int) (n : Int) (am : CAddrMan nBuckets) (info : CAddrInfo) :
    CAddrMan nBuckets :=
  let info := { info with nRandomPos := am.vRandom.length }
  let am := { am with
    mapInfo := am.mapInfo.insert n info
    mapAddr := am.mapAddr.insert info.toCNetAddr n
    vRandom := am.vRandom ++ [n] }
  if nUBuckets ≠ nBuckets then
    let b : Fin nBuckets := info.getNewBucket hash am.nKey info.source
    { am.setInfo n { info with nRefCount := info.nRefCount + 1 } with
      vvNew := Function.update am.vvNew b ((am.vvNew b).insert n ()) }
  else am

/-- A round of the second loop, with the entries that were lost so far. -/
def placeTried (s : CAddrMan nBuckets × Int) (info : CAddrInfo) : CAddrMan nBuckets × Int :=
  let (am, nLost) := s
  let b := info.getTriedBucket hash am.nKey
  if (am.vvTried b).length < addrmanTriedBucketSize then
    let info := { info with nRandomPos := am.vRandom.length, fInTried := true }
    ({ am with
      vRandom := am.vRandom ++ [am.nIdCount]
      mapInfo := am.mapInfo.insert am.nIdCount info
      mapAddr := am.mapAddr.insert info.toCNetAddr am.nIdCount
      vvTried := Function.update am.vvTried b (am.vvTried b ++ [am.nIdCount])
      nIdCount := am.nIdCount + 1 }, nLost)
  else (am, nLost + 1)

/-- An index of the bucket `b`; `mapInfo[nIndex]` makes an entry that is not there. The bucket is
used only when the number of buckets is the same, so that there is one. The reference to `vvNew[b]`
that the source binds before (`src/addrman.h:364`) also for a bucket the reader does not have, and
then leaves unused, is not modelled. -/
def placeIndex (nUBuckets : Int) (b : Nat) (am : CAddrMan nBuckets) (nIndex : Int) :
    CAddrMan nBuckets :=
  let info := (am.mapInfo.lookup nIndex).getD CAddrInfo.default
  let am := am.setInfo nIndex info
  if nUBuckets = nBuckets ∧ info.nRefCount < addrmanNewBucketsPerAddress then
    let vNew := am.vvNew (Fin.ofNat nBuckets b)
    { am.setInfo nIndex { info with nRefCount := info.nRefCount + 1 } with
      vvNew := Function.update am.vvNew (Fin.ofNat nBuckets b) (vNew.insert nIndex ()) }
  else am

def readNew (nUBuckets : Int) (n : Nat) (am : CAddrMan nBuckets) : Stream (CAddrMan nBuckets) := do
  let info ← readAddrInfo
  pure (placeNew hash nUBuckets n am info)

def readTried (_n : Nat) (s : CAddrMan nBuckets × Int) : Stream (CAddrMan nBuckets × Int) := do
  let info ← readAddrInfo
  pure (placeTried hash s info)

def readIndex (nUBuckets : Int) (b _n : Nat) (am : CAddrMan nBuckets) :
    Stream (CAddrMan nBuckets) := do
  let nIndex ← readInt
  pure (placeIndex nUBuckets b am nIndex)

def readBucket (nUBuckets : Int) (b : Nat) (am : CAddrMan nBuckets) :
    Stream (CAddrMan nBuckets) := do
  let nSize ← readInt
  loop (readIndex nUBuckets b) 0 nSize.toNat am

def deserialize : Stream (CAddrMan nBuckets) := do
  let _nVersion ← readLe 1
  let nKey ← readByteVector
  let nNew ← readInt
  let nTried ← readInt
  let nUBuckets ← readInt
  let am ← loop (readNew hash nUBuckets) 0 nNew.toNat { empty nKey with nNew, nTried }
  let (am, nLost) ← loop (readTried hash) 0 nTried.toNat ({ am with nIdCount := nNew }, 0)
  loop (readBucket nUBuckets) 0 nUBuckets.toNat { am with nTried := am.nTried - nLost }

/-- What is read from a list of "new" and a list of "tried" entries and the indexes of each bucket. -/
def load (nKey : Bytes) (nUBuckets : Int) (news trieds : List CAddrInfo)
    (buckets : List (List Int)) : CAddrMan nBuckets :=
  let am := news.zipIdx.foldl (fun am p ↦ placeNew hash nUBuckets p.2 am p.1.saved)
    { empty nKey with nNew := news.length, nTried := trieds.length }
  let (am, nLost) := trieds.foldl (fun s info ↦ placeTried hash s info.saved)
    ({ am with nIdCount := news.length }, 0)
  buckets.zipIdx.foldl (fun am p ↦ p.1.foldl (placeIndex nUBuckets p.2) am)
    { am with nTried := am.nTried - nLost }

/-- The lists are read in this way. -/
theorem reads_load {nKey : Bytes} {news trieds : List CAddrInfo} {buckets : List (List Int)}
    (hnKey : nKey.length ≤ maxSize) (hnews : (news.length : Int) < 2 ^ 31)
    (htrieds : (trieds.length : Int) < 2 ^ 31) (hbuckets : (buckets.length : Int) < 2 ^ 31)
    (hindexes : ∀ l ∈ buckets, (l.length : Int) < 2 ^ 31 ∧ ∀ k ∈ l, 0 ≤ k ∧ k < 2 ^ 31) :
    Reads (deserialize hash : Stream (CAddrMan nBuckets))
      (load hash nKey buckets.length news trieds buckets)
      ([0] ++ writeBytes nKey ++ writeInt news.length ++ writeInt trieds.length ++
        writeInt buckets.length ++ news.flatMap CAddrInfo.write ++ trieds.flatMap CAddrInfo.write ++
        buckets.flatMap fun l ↦ writeInt l.length ++ l.flatMap writeInt) := by
  have hcount : ∀ n : ℕ, (n : Int) < 2 ^ 31 → Reads readInt (n : Int) (writeInt n) :=
    fun n hn ↦ reads_int (by omega) hn
  simp only [List.append_assoc]
  refine (reads_le (n := 1) (x := 0) (by decide)).bind ((reads_byteVector hnKey).bind
    ((hcount _ hnews).bind ((hcount _ htrieds).bind ((hcount _ hbuckets).bind ?_))))
  have hnew : ∀ n (am : CAddrMan nBuckets), ∀ info ∈ news,
      Reads (readNew hash buckets.length n am) (placeNew hash buckets.length n am info.saved)
        info.write :=
    fun _ _ info _ ↦ (reads_addrInfo info).bind_pure (Reads.pure _)
  have htried : ∀ n (s : CAddrMan nBuckets × Int), ∀ info ∈ trieds,
      Reads (readTried hash n s) (placeTried hash s info.saved) info.write :=
    fun _ _ info _ ↦ (reads_addrInfo info).bind_pure (Reads.pure _)
  have hbucket : ∀ b (am : CAddrMan nBuckets), ∀ l ∈ buckets,
      Reads (readBucket buckets.length b am) (l.foldl (placeIndex buckets.length b) am)
        (writeInt l.length ++ l.flatMap writeInt) := by
    intro b am l hl
    obtain ⟨hlen, hindex⟩ := hindexes l hl
    refine (hcount _ hlen).bind (Reads.loop_const ?_ 0 am)
    intro _ am k hk
    have hk := hindex k hk
    exact (reads_int (by omega) hk.2).bind_pure (Reads.pure _)
  exact (Reads.loop hnew 0 _).bind ((Reads.loop_const htried 0 _).bind (Reads.loop hbucket 0 _))

end Read

end CAddrMan

end Bitmark
