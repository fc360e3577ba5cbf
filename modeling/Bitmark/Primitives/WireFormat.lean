import Bitmark.Base.Codec
import Bitmark.Primitives.Block

/-!
# Wire formats

Sizes, writers and readers of transactions, headers and blocks (`src/core.h:40–289`, `386–603`,
`713–775`, `src/pureheader.h:66`). A format is selected by flags outside the bytes and by the
version word, and carries some of the fields; reading gives an object that has these and the
defaults of an empty one. The cached hash of a transaction is computed while reading.
-/

namespace Bitmark

open Codec

/-! ### Inputs and outputs -/

theorem COutPoint.reads (o : COutPoint) : Reads COutPoint.read o o.serialize :=
  (reads_uint256 o.hash).bind ((reads_word32 o.n).bind_pure (Reads.pure o))

theorem COutPoint.canonical : Canonical COutPoint.read COutPoint.serialize fun _ ↦ True := by
  intro s r o h
  obtain ⟨hash, t, hhash, h⟩ := bind_eq_some.mp h
  obtain ⟨n, u, hn, h⟩ := bind_eq_some.mp h
  obtain ⟨rfl, rfl⟩ := pure_eq_some.mp h
  obtain ⟨rfl, -⟩ := canonical_uint256 hhash
  obtain ⟨rfl, -⟩ := canonical_word32 hn
  exact ⟨by rw [COutPoint.serialize, List.append_assoc], trivial⟩

/-- An input whose script can be read. -/
def CTxIn.Readable (txin : CTxIn) : Prop := txin.scriptSig.length ≤ maxSize

instance (txin : CTxIn) : Decidable txin.Readable := inferInstanceAs (Decidable (_ ≤ _))

theorem CTxIn.reads {txin : CTxIn} (h : txin.Readable) : Reads CTxIn.read txin txin.serialize := by
  rw [CTxIn.serialize, List.append_assoc]
  exact txin.prevout.reads.bind
    ((reads_byteVector h).bind ((reads_word32 _).bind_pure (Reads.pure txin)))

theorem CTxIn.canonical : Canonical CTxIn.read CTxIn.serialize CTxIn.Readable := by
  intro s r txin h
  obtain ⟨prevout, t, hprevout, h⟩ := bind_eq_some.mp h
  obtain ⟨scriptSig, u, hscript, h⟩ := bind_eq_some.mp h
  obtain ⟨nSequence, v, hsequence, h⟩ := bind_eq_some.mp h
  obtain ⟨rfl, rfl⟩ := pure_eq_some.mp h
  obtain ⟨rfl, -⟩ := COutPoint.canonical hprevout
  obtain ⟨rfl, hlen⟩ := canonical_byteVector hscript
  obtain ⟨rfl, -⟩ := canonical_word32 hsequence
  exact ⟨by simp only [CTxIn.serialize, List.append_assoc], hlen⟩

/-- An output with an `int64_t` value whose script can be read. -/
def CTxOut.Readable (txout : CTxOut) : Prop :=
  -2 ^ 63 ≤ txout.nValue ∧ txout.nValue < 2 ^ 63 ∧ txout.scriptPubKey.length ≤ maxSize

instance (txout : CTxOut) : Decidable txout.Readable := inferInstanceAs (Decidable (_ ∧ _ ∧ _))

theorem CTxOut.reads {txout : CTxOut} (h : txout.Readable) :
    Reads CTxOut.read txout txout.serialize := by
  obtain ⟨hlo, hhi, hlen⟩ := h
  have hword : toUint64 txout.nValue < 256 ^ 8 := by
    have := Int.emod_lt_of_pos txout.nValue (b := 2 ^ 64) (by decide)
    have := Int.emod_nonneg txout.nValue (b := 2 ^ 64) (by decide)
    unfold toUint64
    omega
  refine (reads_le hword).bind ((reads_byteVector hlen).bind_pure ?_)
  rw [toInt64_toUint64 hlo hhi]
  exact Reads.pure txout

theorem CTxOut.canonical : Canonical CTxOut.read CTxOut.serialize CTxOut.Readable := by
  intro s r txout h
  obtain ⟨nValue, t, hvalue, h⟩ := bind_eq_some.mp h
  obtain ⟨scriptPubKey, u, hscript, h⟩ := bind_eq_some.mp h
  obtain ⟨rfl, rfl⟩ := pure_eq_some.mp h
  obtain ⟨rfl, hlt⟩ := canonical_le 8 hvalue
  obtain ⟨rfl, hlen⟩ := canonical_byteVector hscript
  have hword : toUint64 (toInt64 nValue) = nValue := toUint64_toInt64 (by omega)
  constructor
  · rw [CTxOut.serialize, hword, List.append_assoc]
  · unfold CTxOut.Readable
    dsimp only
    exact ⟨(toInt64_range nValue).1, (toInt64_range nValue).2, hlen⟩

/-- `GetSerializeSize` of a byte vector, `src/serialize.h:519`. -/
def byteVectorSize (bs : Bytes) : Nat := toUint32 (getSizeOfCompactSize bs.length + bs.length)

theorem byteVectorSize_eq (bs : Bytes) : byteVectorSize bs = toUint32 (writeBytes bs).length := by
  rw [byteVectorSize, writeBytes, List.length_append, length_writeCompactSize]

/-- `GetSerializeSize` of an input: its outpoint is 36 bytes of memory. -/
def CTxIn.getSerializeSize (txin : CTxIn) : Nat := toUint32 (36 + byteVectorSize txin.scriptSig + 4)

theorem CTxIn.getSerializeSize_eq (txin : CTxIn) :
    txin.getSerializeSize = toUint32 txin.serialize.length := by
  simp [getSerializeSize, serialize, COutPoint.serialize, byteVectorSize_eq, toUint32]
  omega

/-- `GetSerializeSize` of an output. -/
def CTxOut.getSerializeSize (txout : CTxOut) : Nat := toUint32 (8 + byteVectorSize txout.scriptPubKey)

theorem CTxOut.getSerializeSize_eq (txout : CTxOut) :
    txout.getSerializeSize = toUint32 txout.serialize.length := by
  simp [getSerializeSize, serialize, byteVectorSize_eq]

/-! ### Transactions -/

namespace CTransaction

/-- An empty transaction with the format of another. -/
def format (tx : CTransaction) : CTransaction :=
  { vectorFormat := tx.vectorFormat, keccakHash := tx.keccakHash }

/-- The fields that the format carries. -/
def carried (tx : CTransaction) : CTransaction :=
  if tx.vectorFormat then { tx.format with vectorRep := tx.vectorRep, hash := tx.hash }
  else { tx with vectorRep := [] }

/-- A transaction whose vectors can be read. -/
structure Readable (tx : CTransaction) : Prop where
  vin : tx.vin.length ≤ maxSize ∧ ∀ txin ∈ tx.vin, txin.Readable
  vout : tx.vout.length ≤ maxSize ∧ ∀ txout ∈ tx.vout, txout.Readable
  vectorRep : tx.vectorRep.length ≤ maxSize

variable (H : Hashes)

theorem reads {tx : CTransaction} (h : tx.Readable) :
    Reads (tx.format.unserialize H) (tx.carried.updateHash H) tx.serialize := by
  unfold unserialize serialize carried
  by_cases hformat : tx.vectorFormat = true
  · have hformat' : tx.format.vectorFormat = true := hformat
    rw [if_pos hformat', if_pos hformat, if_pos hformat]
    refine (reads_byteVector h.vectorRep).bind_pure ?_
    have hupdate : updateHash H { tx.format with vectorRep := tx.vectorRep } =
        updateHash H { tx.format with vectorRep := tx.vectorRep, hash := tx.hash } := by
      simp only [updateHash, hformat', if_true]
    rw [hupdate]
    exact Reads.pure _
  · have hformat' : ¬ tx.format.vectorFormat = true := hformat
    rw [if_neg hformat', if_neg hformat, if_neg hformat]
    simp only [List.append_assoc]
    refine (reads_word32 _).bind ?_
    refine (reads_vector h.vin.1 fun txin htxin ↦ CTxIn.reads (h.vin.2 txin htxin)).bind ?_
    refine (reads_vector h.vout.1 fun txout htxout ↦ CTxOut.reads (h.vout.2 txout htxout)).bind ?_
    refine (reads_word32 _).bind_pure ?_
    have hupdate : updateHash H { tx.format with
          nVersion := tx.nVersion, vin := tx.vin, vout := tx.vout, nLockTime := tx.nLockTime } =
        updateHash H { tx with vectorRep := [] } := by
      simp only [updateHash, hformat, format]
      rfl
    rw [hupdate]
    exact Reads.pure _

/-- What is read has the format it was read with, and is what is written. -/
theorem canonical {tx₀ tx : CTransaction} {s r : Bytes} (hformat : tx₀.format = tx₀)
    (h : tx₀.unserialize H s = some (tx, r)) :
    s = tx.serialize ++ r ∧ tx.Readable ∧ tx.format = tx₀ ∧ tx.carried = tx ∧ tx.updateHash H = tx := by
  have hempty : tx₀ = tx₀.format := hformat.symm
  rw [unserialize] at h
  split at h
  · next hvector =>
    obtain ⟨vectorRep, t, hrep, h⟩ := bind_eq_some.mp h
    obtain ⟨rfl, rfl⟩ := pure_eq_some.mp h
    obtain ⟨rfl, hlen⟩ := canonical_byteVector hrep
    refine ⟨?_, ⟨?_, ?_, hlen⟩, hformat, ?_, ?_⟩
    · simp [serialize, updateHash, hvector]
    · rw [hempty]
      exact ⟨Nat.zero_le _, fun _ h ↦ nomatch h⟩
    · rw [hempty]
      exact ⟨Nat.zero_le _, fun _ h ↦ nomatch h⟩
    · rw [hempty]
      simp [carried, format, updateHash, hvector]
    · simp [updateHash, hvector]
  · next hvector =>
    obtain ⟨nVersion, t₁, hversion, h⟩ := bind_eq_some.mp h
    obtain ⟨vin, t₂, hvin, h⟩ := bind_eq_some.mp h
    obtain ⟨vout, t₃, hvout, h⟩ := bind_eq_some.mp h
    obtain ⟨nLockTime, t₄, hlock, h⟩ := bind_eq_some.mp h
    obtain ⟨rfl, rfl⟩ := pure_eq_some.mp h
    obtain ⟨rfl, -⟩ := canonical_word32 hversion
    obtain ⟨rfl, hinputs⟩ := canonical_vector CTxIn.canonical hvin
    obtain ⟨rfl, houtputs⟩ := canonical_vector CTxOut.canonical hvout
    obtain ⟨rfl, -⟩ := canonical_word32 hlock
    refine ⟨?_, ⟨hinputs, houtputs, ?_⟩, hformat, ?_, ?_⟩
    · simp [serialize, updateHash, hvector]
    · rw [hempty]
      exact Nat.zero_le _
    · rw [hempty]
      simp [carried, format, updateHash, hvector]
    · simp [updateHash, hvector, getHash, serialize]

/-- `GetSerializeSize` of a transaction. -/
def getSerializeSize (tx : CTransaction) : Nat :=
  if tx.vectorFormat then byteVectorSize tx.vectorRep
  else
    toUint32 (4 + vectorSize CTxIn.getSerializeSize tx.vin +
      vectorSize CTxOut.getSerializeSize tx.vout + 4)

theorem getSerializeSize_eq (tx : CTransaction) :
    tx.getSerializeSize = toUint32 tx.serialize.length := by
  unfold getSerializeSize serialize
  split
  · exact byteVectorSize_eq tx.vectorRep
  · rw [vectorSize_eq CTxIn.getSerializeSize_eq, vectorSize_eq CTxOut.getSerializeSize_eq]
    simp only [List.length_append, length_bytes32, toUint32]
    omega

end CTransaction

/-! ### Headers -/

namespace CPureBlockHeader

/-- An empty header with the format flags of another. -/
def format (h : CPureBlockHeader) : CPureBlockHeader :=
  { isParent := h.isParent, algoParent := h.algoParent, vectorFormat := h.vectorFormat }

/-- The fields that the format carries: the opaque bytes, or the fields of the algorithm. -/
def carried (h : CPureBlockHeader) : CPureBlockHeader :=
  if h.vectorFormat then { h.format with vectorRep := h.vectorRep }
  else if h.hasSolution then { h with nNonce := 0, vectorRep := [] }
  else { h with hashReserved := 0, nNonce256 := 0, nSolution := [], vectorRep := [] }

/-- A header whose vectors can be read. -/
structure Readable (h : CPureBlockHeader) : Prop where
  nSolution : h.nSolution.length ≤ maxSize
  vectorRep : h.vectorRep.length ≤ maxSize

theorem reads_reserved {h₀ h : CPureBlockHeader} (hsol : h₀.hasSolution = h.hasSolution) :
    Reads h₀.readReserved (if h.hasSolution then h.hashReserved else h₀.hashReserved)
      (if h.hasSolution then bytes256 h.hashReserved else []) := by
  rw [readReserved, hsol]
  split
  · exact reads_uint256 _
  · exact Reads.pure _

theorem reads_nonce {h₀ h : CPureBlockHeader} (hsol : h₀.hasSolution = h.hasSolution)
    (hlen : h.nSolution.length ≤ maxSize) :
    Reads h₀.readNonce
      (if h.hasSolution then { h₀ with nNonce256 := h.nNonce256, nSolution := h.nSolution }
        else { h₀ with nNonce := h.nNonce })
      (if h.hasSolution then bytes256 h.nNonce256 ++ writeBytes h.nSolution
        else bytes32 h.nNonce) := by
  rw [readNonce, hsol]
  split
  · exact (reads_uint256 _).bind ((reads_byteVector hlen).bind_pure (Reads.pure _))
  · exact (reads_word32 _).bind_pure (Reads.pure _)

theorem reads {h : CPureBlockHeader} (hreadable : h.Readable) :
    Reads h.format.unserialize h.carried h.serialize := by
  unfold unserialize serialize
  by_cases hvector : h.vectorFormat = true
  · have hvector' : h.format.vectorFormat = true := hvector
    rw [if_pos hvector', if_pos hvector, carried, if_pos hvector]
    exact (reads_byteVector hreadable.vectorRep).bind_pure (Reads.pure _)
  · have hvector' : ¬ h.format.vectorFormat = true := hvector
    rw [if_neg hvector', if_neg hvector]
    simp only [List.append_assoc]
    refine (reads_word32 _).bind ((reads_uint256 _).bind ((reads_uint256 _).bind ?_))
    have hreserved : Reads (readReserved { h.format with nVersion := h.nVersion })
        (if h.hasSolution then h.hashReserved else 0)
        (if h.hasSolution then bytes256 h.hashReserved else []) := reads_reserved rfl
    refine hreserved.bind ((reads_word32 _).bind ((reads_word32 _).bind ?_))
    let h₀ : CPureBlockHeader :=
      { h.format with
        nVersion := h.nVersion
        hashPrevBlock := h.hashPrevBlock
        hashMerkleRoot := h.hashMerkleRoot
        hashReserved := if h.hasSolution then h.hashReserved else 0
        nTime := h.nTime
        nBits := h.nBits }
    have hsol : h₀.hasSolution = h.hasSolution := rfl
    have hnonce := reads_nonce hsol hreadable.nSolution
    convert hnonce using 1
    rw [carried, if_neg hvector]
    simp only [h₀]
    split <;> rfl

theorem canonical_reserved {h₀ : CPureBlockHeader} {s r : Bytes} {hashReserved : Uint256}
    {sol : Bool} (hsol : h₀.hasSolution = sol)
    (h : h₀.readReserved s = some (hashReserved, r)) :
    s = (if sol then bytes256 hashReserved else []) ++ r ∧
      (sol = false → hashReserved = h₀.hashReserved) := by
  rw [readReserved, hsol] at h
  cases sol with
  | true => exact ⟨(canonical_uint256 h).1, nofun⟩
  | false =>
    obtain ⟨rfl, rfl⟩ := pure_eq_some.mp h
    exact ⟨rfl, fun _ ↦ rfl⟩

theorem canonical_nonce {h₀ h : CPureBlockHeader} {s r : Bytes} {sol : Bool}
    (hread : h₀.readNonce s = some (h, r)) (hsol : h₀.hasSolution = sol) :
    s = (if sol then bytes256 h.nNonce256 ++ writeBytes h.nSolution else bytes32 h.nNonce) ++ r ∧
      if sol then
        h = { h₀ with nNonce256 := h.nNonce256, nSolution := h.nSolution } ∧
          h.nSolution.length ≤ maxSize
      else h = { h₀ with nNonce := h.nNonce } := by
  rw [readNonce, hsol] at hread
  cases sol with
  | true =>
    obtain ⟨nNonce256, t, hnonce, hread⟩ := bind_eq_some.mp hread
    obtain ⟨nSolution, u, hsolution, hread⟩ := bind_eq_some.mp hread
    obtain ⟨rfl, rfl⟩ := pure_eq_some.mp hread
    obtain ⟨rfl, -⟩ := canonical_uint256 hnonce
    obtain ⟨rfl, hlen⟩ := canonical_byteVector hsolution
    rw [if_pos rfl, if_pos rfl, List.append_assoc]
    exact ⟨rfl, rfl, hlen⟩
  | false =>
    obtain ⟨nNonce, t, hnonce, hread⟩ := bind_eq_some.mp hread
    obtain ⟨rfl, rfl⟩ := pure_eq_some.mp hread
    exact ⟨(canonical_word32 hnonce).1, rfl⟩

/-- What is read has the format it was read with, and is what is written. -/
theorem canonical {h₀ h : CPureBlockHeader} {s r : Bytes} (hformat : h₀.format = h₀)
    (hread : h₀.unserialize s = some (h, r)) :
    s = h.serialize ++ r ∧ h.Readable ∧ h.format = h₀ ∧ h.carried = h := by
  obtain ⟨isParent, algoParent, vectorFormat, rfl⟩ : ∃ isParent algoParent vectorFormat,
      h₀ = { isParent, algoParent, vectorFormat } := ⟨_, _, _, hformat.symm⟩
  cases vectorFormat with
  | true =>
    rw [unserialize, if_pos rfl] at hread
    obtain ⟨vectorRep, t, hrep, hread⟩ := bind_eq_some.mp hread
    obtain ⟨rfl, rfl⟩ := pure_eq_some.mp hread
    obtain ⟨rfl, hlen⟩ := canonical_byteVector hrep
    exact ⟨rfl, ⟨Nat.zero_le _, hlen⟩, rfl, rfl⟩
  | false =>
    rw [unserialize, if_neg (by simp)] at hread
    obtain ⟨nVersion, t₁, hversion, hread⟩ := bind_eq_some.mp hread
    obtain ⟨hashPrevBlock, t₂, hprev, hread⟩ := bind_eq_some.mp hread
    obtain ⟨hashMerkleRoot, t₃, hroot, hread⟩ := bind_eq_some.mp hread
    obtain ⟨hashReserved, t₄, hreserved, hread⟩ := bind_eq_some.mp hread
    obtain ⟨nTime, t₅, htime, hread⟩ := bind_eq_some.mp hread
    obtain ⟨nBits, t₆, hbits, hnonce⟩ := bind_eq_some.mp hread
    obtain ⟨sol, hsol⟩ : ∃ sol, hasSolution { nVersion, isParent, algoParent } = sol := ⟨_, rfl⟩
    obtain ⟨rfl, hdefault⟩ := canonical_reserved hsol hreserved
    obtain ⟨rfl, hfields⟩ := canonical_nonce hnonce hsol
    rw [(canonical_word32 hversion).1, (canonical_uint256 hprev).1, (canonical_uint256 hroot).1,
      (canonical_word32 htime).1, (canonical_word32 hbits).1]
    have hsol' : ∀ nNonce nNonce256 nSolution hashReserved, hasSolution
        { nVersion, hashPrevBlock, hashMerkleRoot, nTime, nBits, nNonce, nNonce256, nSolution,
          hashReserved, isParent, algoParent } = sol := fun _ _ _ _ ↦ hsol
    cases sol with
    | true =>
      obtain ⟨hfields, hlen⟩ := hfields
      generalize h.nNonce256 = nNonce256 at hfields ⊢
      generalize h.nSolution = nSolution at hfields hlen ⊢
      subst hfields
      refine ⟨?_, ⟨hlen, Nat.zero_le _⟩, rfl, ?_⟩
      · simp [serialize, hsol']
      · simp [carried, hsol']
    | false =>
      have hfields' : h = _ := hfields
      generalize h.nNonce = nNonce at hfields' ⊢
      obtain rfl := hdefault rfl
      subst hfields'
      refine ⟨?_, ⟨Nat.zero_le _, Nat.zero_le _⟩, rfl, ?_⟩
      · simp [serialize, hsol']
      · simp [carried, hsol']

/-- `GetSerializeSize` of a header. -/
def getSerializeSize (h : CPureBlockHeader) : Nat :=
  if h.vectorFormat then byteVectorSize h.vectorRep
  else
    toUint32 (4 + 32 + 32 + (if h.hasSolution then 32 else 0) + 4 + 4 +
      if h.hasSolution then 32 + byteVectorSize h.nSolution else 4)

theorem getSerializeSize_eq (h : CPureBlockHeader) :
    h.getSerializeSize = toUint32 h.serialize.length := by
  unfold getSerializeSize serialize
  split
  · exact byteVectorSize_eq h.vectorRep
  · split
    · simp only [List.length_append, length_bytes32, length_bytes256, byteVectorSize_eq, toUint32]
      omega
    · simp

end CPureBlockHeader

/-! ### Merged mining data -/

theorem reads_hashes {hashes : List Uint256} (h : hashes.length ≤ maxSize) :
    Reads (readVector readUint256) hashes (writeVector bytes256 hashes) :=
  reads_vector h fun hash _ ↦ reads_uint256 hash

namespace CAuxPow

/-- An empty auxpow with the format flags of another. -/
def format (aux : CAuxPow) : CAuxPow :=
  { toCTransaction := aux.toCTransaction.format, parentBlock := aux.parentBlock.format }

/-- The fields that the format carries. -/
def carried (aux : CAuxPow) : CAuxPow :=
  { aux with
    toCTransaction := aux.toCTransaction.carried
    parentBlock := aux.parentBlock.carried }

/-- The auxpow with the hash of its transaction computed anew. -/
def updateHash (H : Hashes) (aux : CAuxPow) : CAuxPow :=
  { aux with toCTransaction := aux.toCTransaction.updateHash H }

/-- An auxpow whose vectors can be read. -/
structure Readable (aux : CAuxPow) : Prop where
  transaction : aux.toCTransaction.Readable
  vMerkleBranch : aux.vMerkleBranch.length ≤ maxSize
  vChainMerkleBranch : aux.vChainMerkleBranch.length ≤ maxSize
  parentBlock : aux.parentBlock.Readable

/-- The flags of an algorithm are set on an auxpow that has its format. -/
theorem setFormat_eq {aux : CAuxPow} {algo : Algo} (h : aux.format = setFormat algo {}) :
    aux.setFormat algo = aux := by
  have hvector : aux.vectorFormat = (algo == .equihash || algo == .cryptonight) := by
    simpa [format, setFormat, CTransaction.format] using
      congrArg (fun aux : CAuxPow ↦ aux.vectorFormat) h
  have hkeccak : aux.keccakHash = (algo == .cryptonight) := by
    simpa [format, setFormat, CTransaction.format] using
      congrArg (fun aux : CAuxPow ↦ aux.keccakHash) h
  have hparent : aux.parentBlock.isParent = true ∧ aux.parentBlock.algoParent = some algo ∧
      aux.parentBlock.vectorFormat = (algo == .cryptonight) := by
    simpa [format, setFormat, CPureBlockHeader.format] using congrArg CAuxPow.parentBlock h
  obtain ⟨⟨⟨_, _, _, _, _, _, _, _⟩, _, _, _⟩, _, _, ⟨_, _, _, _, _, _, _, _, _, _, _, _, _⟩⟩ := aux
  dsimp only at hvector hkeccak hparent
  simp only [setFormat, hvector, hkeccak, hparent, Bool.or_self, Bool.or_assoc]
  cases algo <;> rfl

variable (H : Hashes)

theorem reads {aux : CAuxPow} (h : aux.Readable) :
    Reads (aux.format.unserialize H) (aux.carried.updateHash H) aux.serialize := by
  unfold unserialize serialize
  simp only [List.append_assoc]
  refine (CTransaction.reads H h.transaction).bind ?_
  refine (reads_uint256 _).bind ((reads_hashes h.vMerkleBranch).bind ((reads_word32 _).bind ?_))
  refine (reads_hashes h.vChainMerkleBranch).bind ((reads_word32 _).bind ?_)
  exact (CPureBlockHeader.reads h.parentBlock).bind_pure (Reads.pure _)

/-- What is read has the format it was read with, and is what is written. -/
theorem canonical {aux₀ aux : CAuxPow} {s r : Bytes} (hformat : aux₀.format = aux₀)
    (h : aux₀.unserialize H s = some (aux, r)) :
    s = aux.serialize ++ r ∧ aux.Readable ∧ aux.format = aux₀ ∧ aux.carried = aux ∧
      aux.updateHash H = aux := by
  have htx₀ : aux₀.toCTransaction.format = aux₀.toCTransaction :=
    congrArg (fun aux : CAuxPow ↦ aux.toCTransaction) hformat
  have hparent₀ : aux₀.parentBlock.format = aux₀.parentBlock := congrArg CAuxPow.parentBlock hformat
  obtain ⟨tx, t₁, htx, h⟩ := bind_eq_some.mp h
  obtain ⟨hashBlock, t₂, hhash, h⟩ := bind_eq_some.mp h
  obtain ⟨vMerkleBranch, t₃, hbranch, h⟩ := bind_eq_some.mp h
  obtain ⟨nIndex, t₄, hindex, h⟩ := bind_eq_some.mp h
  obtain ⟨vChainMerkleBranch, t₅, hchain, h⟩ := bind_eq_some.mp h
  obtain ⟨nChainIndex, t₆, hchainIndex, h⟩ := bind_eq_some.mp h
  obtain ⟨parentBlock, t₇, hparent, h⟩ := bind_eq_some.mp h
  obtain ⟨rfl, rfl⟩ := pure_eq_some.mp h
  obtain ⟨rfl, htxSized, htxFormat, htxCarried, htxHash⟩ := CTransaction.canonical H htx₀ htx
  obtain ⟨rfl, -⟩ := canonical_uint256 hhash
  obtain ⟨rfl, hbranchLen, -⟩ := canonical_vector canonical_uint256 hbranch
  obtain ⟨rfl, -⟩ := canonical_word32 hindex
  obtain ⟨rfl, hchainLen, -⟩ := canonical_vector canonical_uint256 hchain
  obtain ⟨rfl, -⟩ := canonical_word32 hchainIndex
  obtain ⟨rfl, hparentSized, hparentFormat, hparentCarried⟩ :=
    CPureBlockHeader.canonical hparent₀ hparent
  refine ⟨?_, ⟨htxSized, hbranchLen, hchainLen, hparentSized⟩, ?_, ?_, ?_⟩
  · simp only [serialize, List.append_assoc]
  · calc format _ = { toCTransaction := tx.format, parentBlock := parentBlock.format } := rfl
      _ = { toCTransaction := aux₀.toCTransaction.format
            parentBlock := aux₀.parentBlock.format } := by
        rw [htxFormat, hparentFormat, htx₀, hparent₀]
      _ = aux₀ := hformat
  · simp only [carried, htxCarried, hparentCarried]
  · simp only [updateHash, htxHash]

/-- `GetSerializeSize` of an auxpow. -/
def getSerializeSize (aux : CAuxPow) : Nat :=
  toUint32 (aux.toCTransaction.getSerializeSize + 32 + vectorSize (fun _ ↦ 32) aux.vMerkleBranch +
    4 + vectorSize (fun _ ↦ 32) aux.vChainMerkleBranch + 4 + aux.parentBlock.getSerializeSize)

theorem getSerializeSize_eq (aux : CAuxPow) :
    aux.getSerializeSize = toUint32 aux.serialize.length := by
  have hhashes : ∀ hashes : List Uint256,
      vectorSize (fun _ ↦ 32) hashes = toUint32 (writeVector bytes256 hashes).length :=
    vectorSize_eq fun hash ↦ by rw [length_bytes256]; rfl
  simp only [getSerializeSize, serialize, CTransaction.getSerializeSize_eq, hhashes,
    CPureBlockHeader.getSerializeSize_eq, List.length_append, length_bytes32, length_bytes256,
    toUint32]
  omega

end CAuxPow

/-! ### Block headers -/

namespace CBlockHeader

/-- The flags of a header that is no parent. -/
structure Plain (h : CPureBlockHeader) : Prop where
  isParent : h.isParent = false
  algoParent : h.algoParent = none
  vectorFormat : h.vectorFormat = false

/-- A block header whose version word and parts agree: it has no parts that its version does not
select, and an auxpow in the format of its algorithm exactly when the version has the bit. -/
structure Consistent (h : CBlockHeader) : Prop where
  plain : Plain h.toCPureBlockHeader
  carried : h.toCPureBlockHeader.carried = h.toCPureBlockHeader
  isSome_auxpow : h.auxpow.isSome = h.isAuxpow
  auxpow : ∀ aux, h.auxpow = some aux →
    aux.format = CAuxPow.setFormat h.getAlgo {} ∧ aux.carried = aux

/-- A block header whose vectors can be read. -/
structure Readable (h : CBlockHeader) : Prop where
  pure : h.toCPureBlockHeader.Readable
  auxpow : ∀ aux, h.auxpow = some aux → aux.Readable

/-- The header with the hash that its auxpow caches computed anew. -/
def updateHash (H : Hashes) (h : CBlockHeader) : CBlockHeader :=
  { h with auxpow := h.auxpow.map (CAuxPow.updateHash H) }

/-- `CBlockHeader::GetSerializeSize`, `src/core.h:507`; `none` is the failed assertion. -/
def getSerializeSize (h : CBlockHeader) : Option Nat :=
  if h.isAuxpow then
    h.auxpow.map fun aux ↦
      toUint32 (h.toCPureBlockHeader.getSerializeSize + (aux.setFormat h.getAlgo).getSerializeSize)
  else some h.toCPureBlockHeader.getSerializeSize

theorem getSerializeSize_eq (h : CBlockHeader) :
    h.getSerializeSize = h.serialize.map fun bytes ↦ toUint32 bytes.length := by
  unfold getSerializeSize serialize
  split
  · rw [Option.map_map]
    congr 1
    funext aux
    simp [CAuxPow.getSerializeSize_eq, CPureBlockHeader.getSerializeSize_eq]
  · rw [CPureBlockHeader.getSerializeSize_eq]
    rfl

theorem Plain.format {h : CPureBlockHeader} (hplain : Plain h) : h.format = {} := by
  simp [CPureBlockHeader.format, hplain.isParent, hplain.algoParent, hplain.vectorFormat]

variable (H : Hashes)

/-- A consistent header is written, and read back with its cached hash. -/
theorem reads {h : CBlockHeader} (hcons : h.Consistent) (hreadable : h.Readable) :
    ∃ code, h.serialize = some code ∧ Reads (unserialize H) (h.updateHash H) code := by
  have hpure := CPureBlockHeader.reads hreadable.pure
  rw [hcons.plain.format, hcons.carried] at hpure
  unfold serialize unserialize
  by_cases haux : h.isAuxpow = true
  · obtain ⟨aux, hsome⟩ := Option.isSome_iff_exists.mp (hcons.isSome_auxpow.trans haux)
    obtain ⟨hformat, hcarried⟩ := hcons.auxpow aux hsome
    have hread := CAuxPow.reads H (hreadable.auxpow aux hsome)
    rw [hcarried] at hread
    refine ⟨_, by rw [if_pos haux, hsome]; rfl, hpure.bind ?_⟩
    rw [if_pos haux, ← hformat, CAuxPow.setFormat_eq hformat]
    refine hread.bind_pure ?_
    rw [updateHash, hsome]
    exact Reads.pure _
  · have hnone : h.auxpow = none := by
      rw [← Option.not_isSome_iff_eq_none, hcons.isSome_auxpow]
      exact haux
    refine ⟨_, by rw [if_neg haux], hpure.bind_pure ?_⟩
    rw [if_neg haux, updateHash, hnone]
    exact Reads.pure _

/-- What is read is consistent, and is what is written. -/
theorem canonical {h : CBlockHeader} {s r : Bytes} (hread : unserialize H s = some (h, r)) :
    (∃ code, h.serialize = some code ∧ s = code ++ r) ∧ h.Consistent ∧ h.Readable ∧
      h.updateHash H = h := by
  obtain ⟨pure', t, hpure, hrest⟩ := bind_eq_some.mp hread
  obtain ⟨rfl, hreadable, hformat, hcarried⟩ := CPureBlockHeader.canonical rfl hpure
  have hplain : Plain pure' :=
    ⟨congrArg CPureBlockHeader.isParent hformat, congrArg CPureBlockHeader.algoParent hformat,
      congrArg CPureBlockHeader.vectorFormat hformat⟩
  split at hrest
  · next haux =>
    obtain ⟨aux, u, hauxRead, hrest⟩ := bind_eq_some.mp hrest
    obtain ⟨rfl, rfl⟩ := pure_eq_some.mp hrest
    obtain ⟨rfl, hauxSized, hauxFormat, hauxCarried, hauxHash⟩ := CAuxPow.canonical H rfl hauxRead
    refine ⟨⟨pure'.serialize ++ aux.serialize, ?_, by rw [List.append_assoc]⟩,
      ⟨hplain, hcarried, haux.symm, ?_⟩, ⟨hreadable, ?_⟩, ?_⟩
    · rw [serialize, if_pos haux, Option.map_some, CAuxPow.setFormat_eq hauxFormat]
    · rintro _ ⟨⟩
      exact ⟨hauxFormat, hauxCarried⟩
    · rintro _ ⟨⟩
      exact hauxSized
    · rw [updateHash, Option.map_some, hauxHash]
  · next haux =>
    obtain ⟨rfl, rfl⟩ := pure_eq_some.mp hrest
    refine ⟨⟨pure'.serialize, ?_, rfl⟩, ⟨hplain, hcarried, ?_, nofun⟩, ⟨hreadable, nofun⟩, rfl⟩
    · rw [serialize, if_neg haux]
    · exact (Bool.not_eq_true _ ▸ haux).symm

end CBlockHeader

/-! ### Blocks -/

namespace CBlock

variable (H : Hashes)

/-- `CBlock::Unserialize`, `src/core.h:733`. -/
def unserialize : Stream CBlock := do
  let header ← CBlockHeader.unserialize H
  let vtx ← readVector (CTransaction.unserialize H {})
  pure { toCBlockHeader := header, vtx }

/-- `CBlock::GetSerializeSize`; `none` is the failed assertion of the header. -/
def getSerializeSize (block : CBlock) : Option Nat :=
  block.toCBlockHeader.getSerializeSize.map fun nSize ↦
    toUint32 (nSize + vectorSize CTransaction.getSerializeSize block.vtx)

/-- A block with a consistent header and transactions in the ordinary format. -/
structure Consistent (block : CBlock) : Prop where
  header : block.toCBlockHeader.Consistent
  vtx : ∀ tx ∈ block.vtx, tx.format = {} ∧ tx.carried = tx

/-- A block whose vectors can be read. -/
structure Readable (block : CBlock) : Prop where
  header : block.toCBlockHeader.Readable
  vtx : block.vtx.length ≤ maxSize ∧ ∀ tx ∈ block.vtx, tx.Readable

/-- The block with the hashes that its transactions cache computed anew. -/
def updateHash (block : CBlock) : CBlock :=
  { block with
    toCBlockHeader := block.toCBlockHeader.updateHash H
    vtx := block.vtx.map (CTransaction.updateHash H) }

theorem getSerializeSize_eq (block : CBlock) :
    block.getSerializeSize = block.serialize.map fun bytes ↦ toUint32 bytes.length := by
  rw [getSerializeSize, serialize, CBlockHeader.getSerializeSize_eq, Option.map_map,
    Option.map_map]
  congr 1
  funext code
  simp [vectorSize_eq CTransaction.getSerializeSize_eq]

theorem reads_vtx {vtx : List CTransaction} (hlen : vtx.length ≤ maxSize)
    (h : ∀ tx ∈ vtx, tx.Readable ∧ tx.format = {} ∧ tx.carried = tx) :
    Reads (readVector (CTransaction.unserialize H {})) (vtx.map (CTransaction.updateHash H))
      (writeVector CTransaction.serialize vtx) := by
  have hwrite : writeVector CTransaction.serialize vtx =
      writeVector CTransaction.serialize (vtx.map (CTransaction.updateHash H)) := by
    rw [writeVector, writeVector, List.length_map, List.flatMap_map]
    rfl
  rw [hwrite]
  refine reads_vector (by rwa [List.length_map]) fun tx' htx' ↦ ?_
  obtain ⟨tx, htx, rfl⟩ := List.mem_map.mp htx'
  obtain ⟨hreadable, hformat, hcarried⟩ := h tx htx
  have hread := CTransaction.reads H hreadable
  rwa [hformat, hcarried] at hread

/-- A consistent block is written, and read back with its cached hashes. -/
theorem reads {block : CBlock} (hcons : block.Consistent) (hreadable : block.Readable) :
    ∃ code, block.serialize = some code ∧ Reads (unserialize H) (block.updateHash H) code := by
  obtain ⟨code, hcode, hread⟩ := CBlockHeader.reads H hcons.header hreadable.header
  refine ⟨_, by rw [serialize, hcode]; rfl, hread.bind ?_⟩
  refine (reads_vtx H hreadable.vtx.1 fun tx htx ↦ ?_).bind_pure (Reads.pure _)
  exact ⟨hreadable.vtx.2 tx htx, hcons.vtx tx htx⟩

/-- What is read is consistent, and is what is written. -/
theorem canonical {block : CBlock} {s r : Bytes} (hread : unserialize H s = some (block, r)) :
    (∃ code, block.serialize = some code ∧ s = code ++ r) ∧ block.Consistent ∧ block.Readable ∧
      block.updateHash H = block := by
  obtain ⟨header, t, hheader, hread⟩ := bind_eq_some.mp hread
  obtain ⟨vtx, u, hvtx, hread⟩ := bind_eq_some.mp hread
  obtain ⟨rfl, rfl⟩ := pure_eq_some.mp hread
  obtain ⟨⟨code, hcode, rfl⟩, hcons, hreadable, hhash⟩ := CBlockHeader.canonical H hheader
  have htx : Canonical (CTransaction.unserialize H {}) CTransaction.serialize fun tx ↦
      tx.Readable ∧ tx.format = {} ∧ tx.carried = tx ∧ tx.updateHash H = tx :=
    fun _ _ _ h ↦ CTransaction.canonical H rfl h
  obtain ⟨rfl, hlen, hall⟩ := canonical_vector htx hvtx
  refine ⟨⟨_, by rw [serialize, hcode]; rfl, by rw [List.append_assoc]⟩, ⟨hcons, fun tx htx ↦ ?_⟩,
    ⟨hreadable, hlen, fun tx htx ↦ (hall tx htx).1⟩, ?_⟩
  · exact ⟨(hall tx htx).2.1, (hall tx htx).2.2.1⟩
  · have hvtx' : vtx.map (CTransaction.updateHash H) = vtx :=
      (List.map_congr_left fun tx htx ↦ (hall tx htx).2.2.2).trans (List.map_id _)
    rw [updateHash, hhash, hvtx']

end CBlock

/-! ### The round trip -/

/-- Consistent headers and blocks of readable size are written with the size that is announced and
read back as they are, up to the hashes that transactions cache; what is read from a string is
written as that string. -/
theorem wireFormat_roundTrip (H : Hashes) :
    (∀ h : CBlockHeader, h.Consistent → h.Readable →
      ∃ code, h.serialize = some code ∧ h.getSerializeSize = some (toUint32 code.length) ∧
        Reads (CBlockHeader.unserialize H) (h.updateHash H) code) ∧
    (∀ block : CBlock, block.Consistent → block.Readable →
      ∃ code, block.serialize = some code ∧ block.getSerializeSize = some (toUint32 code.length) ∧
        Reads (CBlock.unserialize H) (block.updateHash H) code) ∧
    (∀ (s r : Bytes) (h : CBlockHeader), CBlockHeader.unserialize H s = some (h, r) →
      ∃ code, h.serialize = some code ∧ s = code ++ r) ∧
    ∀ (s r : Bytes) (block : CBlock), CBlock.unserialize H s = some (block, r) →
      ∃ code, block.serialize = some code ∧ s = code ++ r := by
  refine ⟨fun h hcons hreadable ↦ ?_, fun block hcons hreadable ↦ ?_, fun s r h hread ↦ ?_,
    fun s r block hread ↦ ?_⟩
  · obtain ⟨code, hcode, hread⟩ := CBlockHeader.reads H hcons hreadable
    refine ⟨code, hcode, ?_, hread⟩
    rw [CBlockHeader.getSerializeSize_eq, hcode]
    rfl
  · obtain ⟨code, hcode, hread⟩ := CBlock.reads H hcons hreadable
    refine ⟨code, hcode, ?_, hread⟩
    rw [CBlock.getSerializeSize_eq, hcode]
    rfl
  · exact (CBlockHeader.canonical H hread).1
  · exact (CBlock.canonical H hread).1

/-- A CryptoNight block whose parent is an opaque string. -/
def sampleMergedBlock : CBlock where
  nVersion := blockVersionCryptonight ||| blockVersionAuxpow ||| 4
  nNonce := 7
  auxpow := some
    { vectorFormat := true
      keccakHash := true
      vectorRep := [1, 2, 3]
      vMerkleBranch := [5]
      nIndex := 0
      parentBlock :=
        { isParent := true
          algoParent := some .cryptonight
          vectorFormat := true
          vectorRep := [4, 5] } }
  vtx := [{ vin := [⟨.null, [0x51], -1⟩], vout := [⟨50 * coin, [0x51]⟩] }]

theorem wireFormat_roundTrip_sample :
    ∃ code, sampleMergedBlock.serialize = some code ∧
      sampleMergedBlock.getSerializeSize = some (toUint32 code.length) ∧
      Reads (CBlock.unserialize toyHashes) (sampleMergedBlock.updateHash toyHashes) code := by
  refine (wireFormat_roundTrip toyHashes).2.1 sampleMergedBlock
    ⟨⟨⟨rfl, rfl, rfl⟩, rfl, rfl, ?_⟩, ?_⟩ ⟨⟨⟨by decide, by decide⟩, ?_⟩, ⟨by decide, ?_⟩⟩
  · rintro _ ⟨⟩
    exact ⟨rfl, rfl⟩
  · simp only [sampleMergedBlock, List.mem_singleton, forall_eq]
    exact ⟨rfl, rfl⟩
  · rintro _ ⟨⟩
    exact ⟨⟨by decide, by decide, by decide⟩, by decide, by decide, ⟨by decide, by decide⟩⟩
  · simp only [sampleMergedBlock, List.mem_singleton, forall_eq]
    refine ⟨?_, ?_, by decide⟩
    · exact ⟨by decide, by decide⟩
    · exact ⟨by decide, by decide⟩

private theorem run_bind {α β : Type} {m : Stream α} {f : α → Stream β} {a : α} {code : Bytes}
    (h : Reads m a code) (rest : Bytes) : (m >>= f) (code ++ rest) = f a rest := by
  change ((m (code ++ rest)).bind _) = _
  rw [h rest]
  rfl

private theorem CPureBlockHeader.readNonce_of_hasSolution {h : CPureBlockHeader}
    (hsol : h.hasSolution = true) :
    h.readNonce = (do
      let nNonce256 ← readUint256
      let nSolution ← readByteVector
      pure { h with nNonce256, nSolution } : Stream CPureBlockHeader) :=
  if_pos hsol

/-- A solution above the size limit is not read back. -/
theorem CPureBlockHeader.unserialize_of_oversized {h : CPureBlockHeader}
    (hvector : h.vectorFormat = false) (hsol : h.hasSolution = true)
    (hlo : maxSize < h.nSolution.length) (hhi : h.nSolution.length < 2 ^ 64) :
    h.format.unserialize h.serialize = none := by
  have hlong : readByteVector (writeBytes h.nSolution) = none := by
    change (readCompactSize (writeCompactSize h.nSolution.length ++ h.nSolution)).bind _ = none
    rw [readCompactSize_eq_none hlo hhi]
    rfl
  have hreserved : Reads (readReserved { h.format with nVersion := h.nVersion })
      h.hashReserved (bytes256 h.hashReserved) := by
    have hsol' : hasSolution { h.format with nVersion := h.nVersion } = h.hasSolution := rfl
    have hread := reads_reserved hsol'
    rwa [if_pos hsol, if_pos hsol] at hread
  have hplain : ¬ h.vectorFormat = true := by simp [hvector]
  have hplain' : ¬ h.format.vectorFormat = true := hplain
  unfold serialize unserialize
  rw [if_neg hplain, if_neg hplain', if_pos hsol, if_pos hsol]
  simp only [List.append_assoc]
  rw [run_bind (reads_word32 _), run_bind (reads_uint256 _), run_bind (reads_uint256 _),
    run_bind hreserved, run_bind (reads_word32 _), run_bind (reads_word32 _),
    readNonce_of_hasSolution]
  · rw [run_bind (reads_uint256 _)]
    change (readByteVector (writeBytes h.nSolution)).bind _ = none
    rw [hlong]
    rfl
  · exact hsol

/-- An Equihash header with a given solution. -/
def equihashHeader (nSolution : Bytes) : CBlockHeader where
  nVersion := blockVersionEquihash ||| 4
  nSolution := nSolution

private theorem isAuxpow_equihash : isAuxpow (blockVersionEquihash ||| 4) = false := by decide

private theorem getAlgo_equihash : getAlgo (blockVersionEquihash ||| 4) = .equihash := by decide

theorem equihashHeader_hasSolution (nSolution : Bytes) :
    (equihashHeader nSolution).hasSolution = true := by
  simp only [equihashHeader, CPureBlockHeader.hasSolution, CPureBlockHeader.getAlgo,
    getAlgo_equihash]
  rfl

theorem equihashHeader_consistent (nSolution : Bytes) : (equihashHeader nSolution).Consistent := by
  refine ⟨⟨rfl, rfl, rfl⟩, ?_, isAuxpow_equihash.symm, nofun⟩
  have hplain : ¬ (equihashHeader nSolution).vectorFormat = true := Bool.false_ne_true
  rw [CPureBlockHeader.carried, if_neg hplain, if_pos (equihashHeader_hasSolution nSolution)]
  rfl

theorem equihashHeader_not_read {nSolution : Bytes} (hlo : maxSize < nSolution.length)
    (hhi : nSolution.length < 2 ^ 64) :
    ∃ code, (equihashHeader nSolution).serialize = some code ∧
      CBlockHeader.unserialize toyHashes code = none := by
  have hnone := CPureBlockHeader.unserialize_of_oversized
    (h := (equihashHeader nSolution).toCPureBlockHeader) rfl (equihashHeader_hasSolution nSolution)
    hlo hhi
  refine ⟨(equihashHeader nSolution).toCPureBlockHeader.serialize, ?_, ?_⟩
  · rw [CBlockHeader.serialize, if_neg]
    exact Bool.eq_false_iff.mp isAuxpow_equihash
  · change ((CPureBlockHeader.unserialize {} _).bind _) = _
    rw [show CPureBlockHeader.unserialize {} _ = none from hnone]
    rfl

/-- A solution of `MAX_SIZE + 1` zero bytes. -/
def oversizedSolution : Bytes := List.replicate (maxSize + 1) 0

theorem length_oversizedSolution : oversizedSolution.length = maxSize + 1 := List.length_replicate

/-- Its header is consistent, and what it writes cannot be read. -/
theorem oversizedHeader_not_read :
    (equihashHeader oversizedSolution).Consistent ∧
      ∃ code, (equihashHeader oversizedSolution).serialize = some code ∧
        CBlockHeader.unserialize toyHashes code = none := by
  refine ⟨equihashHeader_consistent _, equihashHeader_not_read ?_ ?_⟩
  · rw [length_oversizedSolution]
    exact Nat.lt_succ_self maxSize
  · rw [length_oversizedSolution]
    unfold maxSize
    omega

end Bitmark
