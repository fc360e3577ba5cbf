import Bitmark.Primitives.Transaction

/-!
# Pure block headers

`CPureBlockHeader` of `src/pureheader.h`: the version bits, the three serialized formats, the
block id computed by `GetHash`/`GetHashE` (`src/pureheader.cpp`) and the proof-of-work hash.
A header that is a merged-mining parent carries the flags `isParent` and `algoParent`, set by
the block header that contains it before its bytes are read.
-/

namespace Bitmark

/-- The eight proof-of-work algorithms, `src/pureheader.h:12`. -/
inductive Algo where
  | scrypt | sha256d | yescrypt | argon2 | x17 | lyra2rev2 | equihash | cryptonight
deriving DecidableEq, Repr

/-- `NUM_ALGOS`. -/
def numAlgos : Nat := 8

/-! ### Version bits, `src/pureheader.h:25` -/

def blockVersionAuxpow : Version := (1 : Version) <<< 8
def blockVersionAlgo : Version := (7 : Version) <<< 9
def blockVersionScrypt : Version := (0 : Version) <<< 9
def blockVersionSha256d : Version := (1 : Version) <<< 9
def blockVersionYescrypt : Version := (2 : Version) <<< 9
def blockVersionArgon2 : Version := (3 : Version) <<< 9
def blockVersionX17 : Version := (4 : Version) <<< 9
def blockVersionLyra2rev2 : Version := (5 : Version) <<< 9
def blockVersionEquihash : Version := (6 : Version) <<< 9
def blockVersionCryptonight : Version := (7 : Version) <<< 9
def blockVersionUpdateSsf : Version := (1 : Version) <<< 12

/-- `GetAlgo(int nVersion)`, `src/main.cpp:4910`, and the switch of
`CPureBlockHeader::GetAlgo` and `CBlockIndex::GetAlgo`. -/
def getAlgo (nVersion : Version) : Algo :=
  let bits := nVersion &&& blockVersionAlgo
  if bits = blockVersionSha256d then .sha256d
  else if bits = blockVersionScrypt then .scrypt
  else if bits = blockVersionArgon2 then .argon2
  else if bits = blockVersionX17 then .x17
  else if bits = blockVersionLyra2rev2 then .lyra2rev2
  else if bits = blockVersionEquihash then .equihash
  else if bits = blockVersionCryptonight then .cryptonight
  else if bits = blockVersionYescrypt then .yescrypt
  else .scrypt

/-- `GetBlockVersion`, `src/core.cpp:334`: the base version in the low byte. -/
def getBlockVersion (nVersion : Version) : Nat := (nVersion &&& 255).toNat

/-- `update_ssf`, `src/main.cpp:5004`. -/
def updateSsf (nVersion : Version) : Bool := nVersion &&& blockVersionUpdateSsf ≠ 0

/-- The `IsAuxpow` bit. -/
def isAuxpow (nVersion : Version) : Bool := nVersion &&& blockVersionAuxpow ≠ 0

/-! ### Memory accesses -/

/-- What a run of the code can do instead of returning. -/
inductive Fault where
  /-- An element or byte outside its vector is accessed. -/
  | outOfRange
  /-- `1 << h` with `h` not below the width of `int`. -/
  | shift
  /-- `VARIANT1_CHECK` of `src/cryptonight/crypto/slow-hash.c:67` ends the process. -/
  | variantLength
deriving DecidableEq, Repr

/-- Code that accesses vectors by index. -/
abbrev Access := Except Fault

/-- `v[i]`. -/
def vectorAt {α : Type} (v : List α) (i : Nat) : Access α :=
  match v[i]? with
  | some x => .ok x
  | none => .error .outOfRange

/-- The `n` bytes of `v` from position `pos`, as `memcpy` reads them. -/
def bytesAt (v : Bytes) (pos n : Nat) : Access Bytes :=
  if pos + n ≤ v.length then .ok ((v.drop pos).take n) else .error .outOfRange

theorem vectorAt_of_lt {α : Type} {v : List α} {i : Nat} (h : i < v.length) :
    vectorAt v i = .ok v[i] := by
  simp [vectorAt, h]

theorem bytesAt_of_le {v : Bytes} {pos n : Nat} (h : pos + n ≤ v.length) :
    bytesAt v pos n = .ok ((v.drop pos).take n) := by
  simp [bytesAt, h]

@[simp] theorem Access.ok_bind {α β : Type} (a : α) (f : α → Access β) :
    (Except.ok a >>= f) = f a := rfl

@[simp] theorem Access.error_bind {α β : Type} (e : Fault) (f : α → Access β) :
    (Except.error e >>= f) = Except.error e := rfl

/-- The run returns a value. -/
def Access.Returns {α : Type} (x : Access α) : Prop := ∃ a, x = .ok a

@[simp] theorem Access.returns_ok {α : Type} (a : α) : Access.Returns (.ok a) := ⟨a, rfl⟩

@[simp] theorem Access.not_returns_error {α : Type} (e : Fault) :
    ¬ Access.Returns (.error e : Access α) := by
  rintro ⟨a, h⟩
  cases h

/-! ### Headers -/

/-- `CPureBlockHeader`, `src/pureheader.h:46`; the defaults are those of `SetNull`. -/
structure CPureBlockHeader where
  nVersion : Version := 4
  hashPrevBlock : Uint256 := 0
  hashMerkleRoot : Uint256 := 0
  nTime : BitVec 32 := 0
  nBits : BitVec 32 := 0
  nNonce : BitVec 32 := 0
  nNonce256 : Uint256 := 0
  nSolution : Bytes := []
  hashReserved : Uint256 := 0
  isParent : Bool := false
  algoParent : Option Algo := none
  vectorFormat : Bool := false
  vectorRep : Bytes := []
deriving DecidableEq, Repr

namespace CPureBlockHeader

/-- `CPureBlockHeader::GetAlgo`, `src/pureheader.h:148`. -/
def getAlgo (h : CPureBlockHeader) : Algo :=
  match h.algoParent with
  | some algo => algo
  | none => Bitmark.getAlgo h.nVersion

/-- `CPureBlockHeader::IsAuxpow`. -/
def isAuxpow (h : CPureBlockHeader) : Bool := Bitmark.isAuxpow h.nVersion

/-- The condition under which the reserved field, the 256-bit nonce and the solution are
serialized, `src/pureheader.h:76`. -/
def hasSolution (h : CPureBlockHeader) : Bool :=
  (!h.isParent && h.getAlgo == .equihash) || (h.isParent && h.algoParent == some .equihash)

/-- `IMPLEMENT_SERIALIZE` of `CPureBlockHeader`, `src/pureheader.h:66`. -/
def serialize (h : CPureBlockHeader) : Bytes :=
  if h.vectorFormat then writeBytes h.vectorRep
  else
    bytes32 h.nVersion ++ bytes256 h.hashPrevBlock ++ bytes256 h.hashMerkleRoot ++
      (if h.hasSolution then bytes256 h.hashReserved else []) ++
      bytes32 h.nTime ++ bytes32 h.nBits ++
      (if h.hasSolution then bytes256 h.nNonce256 ++ writeBytes h.nSolution
      else bytes32 h.nNonce)

/-- Read the reserved field where the format has one. -/
def readReserved (h : CPureBlockHeader) : Stream Uint256 :=
  if h.hasSolution then readUint256 else pure h.hashReserved

/-- Read the nonce, in the 256-bit form followed by the solution or in the 32-bit form. -/
def readNonce (h : CPureBlockHeader) : Stream CPureBlockHeader :=
  if h.hasSolution then do
    let nNonce256 ← readUint256
    let nSolution ← readByteVector
    pure { h with nNonce256, nSolution }
  else do
    let nNonce ← readWord32
    pure { h with nNonce }

/-- Deserialize into a header whose format flags are already set. -/
def unserialize (h : CPureBlockHeader) : Stream CPureBlockHeader :=
  if h.vectorFormat then do
    let vectorRep ← readByteVector
    pure { h with vectorRep }
  else do
    let nVersion ← readWord32
    let hashPrevBlock ← readUint256
    let hashMerkleRoot ← readUint256
    let hashReserved ← readReserved { h with nVersion }
    let nTime ← readWord32
    let nBits ← readWord32
    readNonce { h with nVersion, hashPrevBlock, hashMerkleRoot, hashReserved, nTime, nBits }

/-- `CPureBlockHeader::GetChainId`, `src/pureheader.h:180`. In vector format the version word
is assembled from the bytes `vector_rep[4]` down to `vector_rep[1]`. -/
def getChainId (h : CPureBlockHeader) : Access (BitVec 32) :=
  if h.vectorFormat then
    if h.vectorRep.length < 4 then .ok 0
    else do
      let b0 ← vectorAt h.vectorRep 4
      let b1 ← vectorAt h.vectorRep 3
      let b2 ← vectorAt h.vectorRep 2
      let b3 ← vectorAt h.vectorRep 1
      .ok ((word32 [b0, b1, b2, b3]).sshiftRight 16)
  else .ok (h.nVersion.sshiftRight 16)

/-- The 80 bytes of memory from `BEGIN(nVersion)` to `END(nNonce)`. -/
def headerBytes (h : CPureBlockHeader) : Bytes :=
  bytes32 h.nVersion ++ bytes256 h.hashPrevBlock ++ bytes256 h.hashMerkleRoot ++
    bytes32 h.nTime ++ bytes32 h.nBits ++ bytes32 h.nNonce

/-- The buffer `GetHashE` assembles, up to the length it hashes, `src/pureheader.cpp:17`. -/
def hashEBytes (h : CPureBlockHeader) : Bytes :=
  bytes32 h.nVersion ++ bytes256 h.hashPrevBlock ++ bytes256 h.hashMerkleRoot ++
    bytes256 h.hashReserved ++ bytes32 h.nTime ++ bytes32 h.nBits ++ bytes256 h.nNonce256 ++
    (if h.nSolution.length = 1344 then [0xfd, 0x40, 0x05] ++ h.nSolution else [0x00])

/-- The bytes `GetHash` feeds to the hash function, `src/pureheader.cpp:6`. -/
def hashBytes (h : CPureBlockHeader) : Bytes :=
  if h.getAlgo = .equihash then h.hashEBytes
  else if h.getAlgo = .cryptonight ∧ h.vectorFormat then h.vectorRep
  else h.headerBytes

variable (H : Hashes)

/-- `CPureBlockHeader::GetHash`. -/
def getHash (h : CPureBlockHeader) : Uint256 := H.hash h.hashBytes

/-- `CPureBlockHeader::GetHashE`. -/
def getHashE (h : CPureBlockHeader) : Uint256 := H.hash h.hashEBytes

/-- `hash_cryptonight`: variant 1 refuses inputs of fewer than 43 bytes by ending the
process. -/
def hashCryptonight (bs : Bytes) : Access Uint256 :=
  if bs.length < 43 then .error .variantLength else .ok (H.cryptonight bs)

/-- `CPureBlockHeader::GetPoWHash(int algo)`, `src/pureheader.h:202`. -/
def getPoWHash (h : CPureBlockHeader) (algo : Algo) : Access Uint256 :=
  match algo with
  | .sha256d => .ok (h.getHash H)
  | .scrypt => .ok (H.scrypt h.headerBytes)
  | .argon2 => .ok (H.argon2 h.headerBytes)
  | .x17 => .ok (H.x17 h.headerBytes)
  | .lyra2rev2 => .ok (H.lyra2rev2 h.headerBytes)
  | .equihash => .ok (h.getHashE H)
  | .cryptonight =>
    if h.vectorFormat then hashCryptonight H h.vectorRep else hashCryptonight H h.headerBytes
  | .yescrypt => .ok (H.yescrypt h.headerBytes)

end CPureBlockHeader

end Bitmark
