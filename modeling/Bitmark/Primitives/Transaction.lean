import Bitmark.Base.Stream

/-!
# Transactions

`COutPoint`, `CTxIn`, `CTxOut` and `CTransaction` of `src/core.h:43–289`, with the two
serialized forms a transaction has in this code base: the usual one, and the opaque
`vector_rep` used for the coinbase of Equihash and CryptoNight parent blocks.
-/

namespace Bitmark

/-- `COIN`, `src/util.h:39`. -/
def coin : Int := 100000000

/-- `CENT`, `src/util.h:40`. -/
def cent : Int := 1000000

/-- `MAX_MONEY`, `src/core.h:34`. -/
def maxMoney : Int := 28000000 * coin

/-- `MoneyRange`, `src/core.h:35`. -/
def moneyRange (nValue : Int) : Bool := 0 ≤ nValue ∧ nValue ≤ maxMoney

@[simp] theorem moneyRange_iff {n : Int} : moneyRange n = true ↔ 0 ≤ n ∧ n ≤ maxMoney := by
  simp [moneyRange]

/-- A transaction hash and an index into its `vout`. -/
structure COutPoint where
  hash : Uint256
  n : BitVec 32
deriving DecidableEq, Repr

/-- The null outpoint, `COutPoint::SetNull`. -/
def COutPoint.null : COutPoint := ⟨0, -1⟩

/-- `COutPoint::IsNull`. -/
def COutPoint.isNull (o : COutPoint) : Bool := o.hash = 0 ∧ o.n = -1

/-- A transaction output; `nValue` is an `int64_t`. -/
structure CTxOut where
  nValue : Int
  scriptPubKey : Bytes
deriving DecidableEq, Repr

/-- `CTxOut::SetNull`: the value of a spent output. -/
def CTxOut.null : CTxOut := ⟨-1, []⟩

/-- `CTxOut::IsNull`. -/
def CTxOut.isNull (o : CTxOut) : Bool := o.nValue = -1

@[simp] theorem CTxOut.isNull_null : CTxOut.null.isNull = true := rfl

/-- A transaction input. -/
structure CTxIn where
  prevout : COutPoint
  scriptSig : Bytes := []
  nSequence : BitVec 32 := -1
deriving DecidableEq, Repr

/-- `CTxIn::IsFinal`, `src/core.h:172`. -/
def CTxIn.isFinal (txin : CTxIn) : Bool := txin.nSequence = -1

/-- A transaction, with the fields that select its serialized form. The defaults are those
of `CTransaction::SetNull`. -/
structure CTransaction where
  nVersion : BitVec 32 := 1
  vin : List CTxIn := []
  vout : List CTxOut := []
  nLockTime : BitVec 32 := 0
  hash : Uint256 := 0
  vectorFormat : Bool := false
  vectorRep : Bytes := []
  keccakHash : Bool := false
deriving DecidableEq, Repr

/-- `CTransaction::IsCoinBase`, `src/core.h:265`. -/
def CTransaction.isCoinBase (tx : CTransaction) : Bool :=
  match tx.vin with
  | [txin] => txin.prevout.isNull
  | _ => false

/-! ### Serialization -/

/-- `IMPLEMENT_SERIALIZE` of `COutPoint`: its 36 bytes of memory. -/
def COutPoint.serialize (o : COutPoint) : Bytes := bytes256 o.hash ++ bytes32 o.n

/-- `IMPLEMENT_SERIALIZE` of `CTxOut`. -/
def CTxOut.serialize (o : CTxOut) : Bytes := leBytes 8 (toUint64 o.nValue) ++ writeBytes o.scriptPubKey

/-- `IMPLEMENT_SERIALIZE` of `CTxIn`. -/
def CTxIn.serialize (txin : CTxIn) : Bytes :=
  txin.prevout.serialize ++ writeBytes txin.scriptSig ++ bytes32 txin.nSequence

/-- `IMPLEMENT_SERIALIZE` of `CTransaction`, `src/core.h:222`. -/
def CTransaction.serialize (tx : CTransaction) : Bytes :=
  if tx.vectorFormat then writeBytes tx.vectorRep
  else
    bytes32 tx.nVersion ++ writeVector CTxIn.serialize tx.vin ++
      writeVector CTxOut.serialize tx.vout ++ bytes32 tx.nLockTime

/-- Read a `COutPoint`. -/
def COutPoint.read : Stream COutPoint := do
  let hash ← readUint256
  let n ← readWord32
  pure ⟨hash, n⟩

/-- Read a `CTxOut`. -/
def CTxOut.read : Stream CTxOut := do
  let nValue ← readLe 8
  let scriptPubKey ← readByteVector
  pure ⟨toInt64 nValue, scriptPubKey⟩

/-- Read a `CTxIn`. -/
def CTxIn.read : Stream CTxIn := do
  let prevout ← COutPoint.read
  let scriptSig ← readByteVector
  let nSequence ← readWord32
  pure ⟨prevout, scriptSig, nSequence⟩

/-! ### Hash functions -/

/-- The hash functions the node links against. They are parameters: nothing below depends on
how they compute, and where a result needs them not to collide it says on which inputs. -/
structure Hashes where
  /-- Double SHA-256, `Hash` of `src/hash.h:20`. -/
  hash : Bytes → Uint256
  /-- The first 32 bytes of the Keccak state, `KeccakHash` of `src/hash.h:32`. -/
  keccak : Bytes → Uint256
  scrypt : Bytes → Uint256
  argon2 : Bytes → Uint256
  x17 : Bytes → Uint256
  lyra2rev2 : Bytes → Uint256
  yescrypt : Bytes → Uint256
  /-- `cn_slow_hash` with variant 1, `src/hash.cpp:175`. -/
  cryptonight : Bytes → Uint256

/-- The two constant words `KeccakHashCBTX` appends to the inner digest, `src/hash.h:58–63`. -/
def keccakCbtxSuffix : Bytes :=
  [0xbc, 0x36, 0x78, 0x9e, 0x7a, 0x1e, 0x28, 0x14, 0x36, 0x46, 0x42, 0x29, 0x82, 0x8f, 0x81, 0x7d,
    0x66, 0x12, 0xf7, 0xb4, 0x77, 0xd6, 0x65, 0x91, 0xff, 0x96, 0xa9, 0xe0, 0x64, 0xbc, 0xc9, 0x8a]
    ++ List.replicate 32 0

/-- A hash that is easy to compute with: the length and both ends of a string. -/
def toyHash (bs : Bytes) : Uint256 :=
  word256 (leBytes 2 bs.length ++ bs.take 15 ++ bs.drop (bs.length - 15))

/-- Concrete hash functions for examples. -/
def toyHashes : Hashes where
  hash := toyHash
  keccak := toyHash
  scrypt := toyHash
  argon2 := toyHash
  x17 := toyHash
  lyra2rev2 := toyHash
  yescrypt := toyHash
  cryptonight := toyHash

variable (H : Hashes)

/-- `KeccakHashCBTX`, `src/hash.h:43`: the Monero-style hash of a coinbase prefix. -/
def keccakHashCBTX (bs : Bytes) : Uint256 :=
  H.keccak (bytes256 (H.keccak bs) ++ keccakCbtxSuffix)

/-- `CTransaction::GetHash`, `src/core.cpp:76`. -/
def CTransaction.getHash (tx : CTransaction) : Uint256 := H.hash tx.serialize

/-- `CTransaction::GetCachedHash`, `src/core.cpp:81`: the hash kept from deserialization when
there is one. -/
def CTransaction.getCachedHash (tx : CTransaction) : Uint256 :=
  if tx.hash ≠ 0 then tx.hash else tx.getHash H

/-- `CTransaction::UpdateHash`, `src/core.cpp:91`. -/
def CTransaction.updateHash (tx : CTransaction) : CTransaction :=
  { tx with
    hash :=
      if tx.vectorFormat then
        if tx.keccakHash then keccakHashCBTX H tx.vectorRep else H.hash tx.vectorRep
      else tx.getHash H }

/-- Deserialize into a transaction whose format flags are already set. -/
def CTransaction.unserialize (tx : CTransaction) : Stream CTransaction :=
  if tx.vectorFormat then do
    let vectorRep ← readByteVector
    pure (CTransaction.updateHash H { tx with vectorRep })
  else do
    let nVersion ← readWord32
    let vin ← readVector CTxIn.read
    let vout ← readVector CTxOut.read
    let nLockTime ← readWord32
    pure (CTransaction.updateHash H { tx with nVersion, vin, vout, nLockTime })

/-! ### Values -/

/-- `CTransaction::GetValueOut`, `src/core.cpp:128`; `none` is the thrown `runtime_error`. -/
def getValueOutFrom (nValueOut : Int) : List CTxOut → Option Int
  | [] => some nValueOut
  | txout :: vout =>
    let nValueOut := toInt64 (nValueOut + txout.nValue)
    if !moneyRange txout.nValue || !moneyRange nValueOut then none
    else getValueOutFrom nValueOut vout

@[inherit_doc getValueOutFrom]
def CTransaction.getValueOut (tx : CTransaction) : Option Int := getValueOutFrom 0 tx.vout

/-- The sum of a list of output values, without wrap-around. -/
def sumValues (vout : List CTxOut) : Int := (vout.map (·.nValue)).sum

@[simp] theorem sumValues_nil : sumValues [] = 0 := rfl

@[simp] theorem sumValues_cons (o : CTxOut) (vout : List CTxOut) :
    sumValues (o :: vout) = o.nValue + sumValues vout := by
  simp [sumValues]

/-- When `GetValueOut` returns, it returns the true sum, every output is in range and so is
the sum. -/
theorem getValueOutFrom_eq_some {acc v : Int} {vout : List CTxOut} (hacc : moneyRange acc)
    (h : getValueOutFrom acc vout = some v) :
    v = acc + sumValues vout ∧ moneyRange v ∧ ∀ o ∈ vout, moneyRange o.nValue := by
  induction vout generalizing acc with
  | nil =>
    obtain rfl : acc = v := by simpa [getValueOutFrom] using h
    simpa using hacc
  | cons o vout ih =>
    rw [getValueOutFrom] at h
    simp only [Bool.or_eq_true, Bool.not_eq_true', ite_eq_iff, reduceCtorEq, and_false,
      not_or, Bool.not_eq_false, false_or] at h
    obtain ⟨⟨ho, hsum⟩, h⟩ := h
    have hwrap : toInt64 (acc + o.nValue) = acc + o.nValue := by
      rw [moneyRange_iff] at hacc ho
      have hmax : maxMoney = 2800000000000000 := rfl
      exact toInt64_of_range (by omega) (by omega)
    obtain ⟨hv, hrange, hall⟩ := ih hsum h
    refine ⟨?_, hrange, ?_⟩
    · rw [hv, hwrap, sumValues_cons]
      ring
    · simpa using ⟨moneyRange_iff.mp ho, fun x hx ↦ moneyRange_iff.mp (hall x hx)⟩

/-- `GetValueOut` of a transaction is the true sum of its outputs, which are in range. -/
theorem CTransaction.getValueOut_eq_some {tx : CTransaction} {v : Int}
    (h : tx.getValueOut = some v) :
    v = sumValues tx.vout ∧ moneyRange v ∧ ∀ o ∈ tx.vout, moneyRange o.nValue := by
  have := getValueOutFrom_eq_some (by decide) h
  simpa using this

end Bitmark
