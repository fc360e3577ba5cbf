import Bitmark.MergedMining.Totality
import Bitmark.Merkle.Branch

/-!
# What a parent proof of work commits to

A parent block certifies an auxiliary hash through a chain of commitments: its proof-of-work
bytes hold the root of its transaction tree, the tree holds a coinbase, the coinbase holds the
root of the chain merkle tree followed by a size and a nonce that fix the slot. The links that
do not bind are the free search for the root in a CryptoNight parent, an Equihash coinbase of
the length of two hashes, and a coinbase without the merged-mining header.
-/

namespace Bitmark

/-! ### Reading a list of elements -/

theorem readMany_spec {α : Type} {read : Stream α} {n : Nat} {s r : Bytes} {xs : List α}
    (h : readMany read n s = some (xs, r)) :
    xs.length = n ∧ ∀ x ∈ xs, ∃ s' r', read s' = some (x, r') := by
  induction n generalizing s r xs with
  | zero =>
    obtain ⟨rfl, -⟩ := pure_eq_some.mp h
    simp
  | succ n ih =>
    obtain ⟨x, t, hx, h⟩ := bind_eq_some.mp h
    obtain ⟨rest, t', hrest, h⟩ := bind_eq_some.mp h
    obtain ⟨rfl, -⟩ := pure_eq_some.mp h
    obtain ⟨hlen, hall⟩ := ih hrest
    refine ⟨by simp [hlen], ?_⟩
    simp only [List.forall_mem_cons]
    exact ⟨⟨_, _, hx⟩, hall⟩

/-- A compact size that was read is at most `maxSize`. -/
theorem readCompactSize_le {s r : Bytes} {n : Nat} (h : readCompactSize s = some (n, r)) :
    n ≤ maxSize := by
  rw [readCompactSize] at h
  obtain ⟨chSize, u, -, h⟩ := bind_eq_some.mp h
  obtain ⟨m, v, -, h⟩ := bind_eq_some.mp h
  obtain ⟨_, w, hreq, h⟩ := bind_eq_some.mp h
  obtain ⟨rfl, -⟩ := pure_eq_some.mp h
  simp only [require, Option.ite_none_right_eq_some, decide_eq_true_eq] at hreq
  exact hreq.1

/-- The inputs and input scripts of a transaction are short enough for a 64-bit size. -/
def CTransaction.Sized (tx : CTransaction) : Prop :=
  tx.vin.length < 2 ^ 64 ∧ ∀ txin ∈ tx.vin, txin.scriptSig.length < 2 ^ 64

/-- Every transaction read from a stream is of that kind, and keeps the hash that
`UpdateHash` computed. -/
theorem CTransaction.sized_of_unserialize {H : Hashes} {s r : Bytes} {tx₀ tx : CTransaction}
    (hread : CTransaction.unserialize H tx₀ s = some (tx, r)) (h₀ : tx₀.vin = []) :
    tx.Sized ∧ tx.keccakHash = tx₀.keccakHash ∧ tx = CTransaction.updateHash H tx := by
  rw [CTransaction.unserialize] at hread
  split at hread
  · next hv =>
    obtain ⟨vectorRep, t₁, -, hread⟩ := bind_eq_some.mp hread
    obtain ⟨rfl, -⟩ := pure_eq_some.mp hread
    refine ⟨?_, rfl, ?_⟩
    · simp [Sized, updateHash, h₀]
    · simp [updateHash, hv]
  · next hv =>
    obtain ⟨nVersion, t₁, -, hread⟩ := bind_eq_some.mp hread
    obtain ⟨vin, t₂, hvin, hread⟩ := bind_eq_some.mp hread
    obtain ⟨vout, t₃, -, hread⟩ := bind_eq_some.mp hread
    obtain ⟨nLockTime, t₄, -, hread⟩ := bind_eq_some.mp hread
    obtain ⟨rfl, -⟩ := pure_eq_some.mp hread
    obtain ⟨n, u, hn, hmany⟩ := bind_eq_some.mp hvin
    obtain ⟨hlen, hall⟩ := readMany_spec hmany
    have hmax := readCompactSize_le hn
    have hsize : maxSize < 2 ^ 64 := by decide
    refine ⟨⟨?_, fun txin htxin ↦ ?_⟩, rfl, ?_⟩
    · simp only [updateHash, hlen]
      omega
    · obtain ⟨s', r', htx⟩ := hall txin htxin
      obtain ⟨prevout, v₁, -, htx⟩ := bind_eq_some.mp htx
      obtain ⟨scriptSig, v₂, hscript, htx⟩ := bind_eq_some.mp htx
      obtain ⟨nSequence, v₃, -, htx⟩ := bind_eq_some.mp htx
      obtain ⟨rfl, -⟩ := pure_eq_some.mp htx
      have := readByteVector_length hscript
      dsimp only
      omega
    · simp [updateHash, hv, getHash, serialize]

/-! ### Searching -/

/-- What `std::search` finds stands at the position it returns. -/
theorem search_spec {hay needle : Bytes} {i : Nat} (h : search hay needle = some i) :
    (hay.drop i).take needle.length = needle := by
  induction hay generalizing i with
  | nil =>
    rw [search] at h
    split at h
    · next hp =>
      obtain rfl : 0 = i := by simpa using h
      simp [List.prefix_nil.mp (List.isPrefixOf_iff_prefix.mp hp)]
    · simp at h
  | cons x hay ih =>
    rw [search] at h
    split at h
    · next hp =>
      obtain rfl : 0 = i := by simpa using h
      exact (List.prefix_iff_eq_take.mp (List.isPrefixOf_iff_prefix.mp hp)).symm
    · simp only [Option.map_eq_some_iff] at h
      obtain ⟨j, hj, rfl⟩ := h
      simpa using ih hj

/-- An accepted root stands just before the returned position, and where the merged-mining
header tells when there is one. -/
theorem rootPosition_spec {script root : Bytes} {pc : Nat}
    (h : rootPosition script root = some pc) :
    ∃ pos, search script root = some pos ∧ pc = pos + root.length ∧
      ∀ pcHead, search script pchMergedMiningHeader = some pcHead → pos = pcHead + 4 := by
  unfold rootPosition at h
  cases hpos : search script root with
  | none => simp [hpos] at h
  | some pos =>
    rw [hpos] at h
    refine ⟨pos, rfl, ?_⟩
    cases hhead : search script pchMergedMiningHeader with
    | none =>
      simp only [hhead] at h
      split at h
      · cases h
      · exact ⟨(Option.some.inj h).symm, by simp⟩
    | some pcHead =>
      simp only [hhead] at h
      split at h
      · cases h
      split at h
      · cases h
      · next hne =>
        refine ⟨(Option.some.inj h).symm, fun p hp ↦ ?_⟩
        obtain rfl := Option.some.inj hp
        omega

/-! ### Auxpows read from the wire -/

variable (H : Hashes) (params : CChainParams)

namespace CAuxPow

/-- The auxpow was read from some byte string as part of a header of this algorithm. -/
def ReadFor (algo : Algo) (aux : CAuxPow) : Prop :=
  ∃ s r, CAuxPow.unserialize H (CAuxPow.setFormat algo {}) s = some (aux, r)

/-- What reading from the wire guarantees. -/
structure Wire (algo : Algo) (aux : CAuxPow) : Prop where
  vectorFormat : aux.vectorFormat = (algo == .equihash || algo == .cryptonight)
  keccakHash : aux.keccakHash = (algo == .cryptonight)
  parentVector : aux.parentBlock.vectorFormat = (algo == .cryptonight)
  sized : aux.toCTransaction.Sized
  hash : aux.toCTransaction = CTransaction.updateHash H aux.toCTransaction

theorem ReadFor.wire {algo : Algo} {aux : CAuxPow} (h : aux.ReadFor H algo) : aux.Wire H algo := by
  obtain ⟨s, r, h⟩ := h
  obtain ⟨tx, t₁, htx, h⟩ := bind_eq_some.mp h
  obtain ⟨hashBlock, t₂, -, h⟩ := bind_eq_some.mp h
  obtain ⟨vMerkleBranch, t₃, -, h⟩ := bind_eq_some.mp h
  obtain ⟨nIndex, t₄, -, h⟩ := bind_eq_some.mp h
  obtain ⟨vChain, t₅, -, h⟩ := bind_eq_some.mp h
  obtain ⟨nChainIndex, t₆, -, h⟩ := bind_eq_some.mp h
  obtain ⟨parent, t₇, hparent, h⟩ := bind_eq_some.mp h
  obtain ⟨rfl, -⟩ := pure_eq_some.mp h
  obtain ⟨hsized, hkeccak, hhash⟩ := CTransaction.sized_of_unserialize htx rfl
  exact ⟨CTransaction.vectorFormat_of_unserialize H htx, hkeccak,
    CPureBlockHeader.vectorFormat_of_unserialize hparent, hsized, hhash⟩

/-- The strings the check gives to the double SHA-256: the coinbase in its serialized forms and
the inner nodes of both branches. -/
def hashInputs (aux : CAuxPow) (hashAuxBlock : Uint256) : Set Bytes :=
  {b | b = aux.toCTransaction.serialize ∨ b = aux.vectorRep ∨
    b ∈ MerklePath.inputs joinHashes H.hash (aux.toCTransaction.getCachedHash H)
      (merkleSteps aux.vMerkleBranch 0) ∨
    b ∈ MerklePath.inputs joinHashes H.hash hashAuxBlock
      (merkleSteps aux.vChainMerkleBranch aux.nChainIndex)}

/-- The strings the check gives to Keccak. -/
def keccakInputs (aux : CAuxPow) : Set Bytes :=
  {b | b = aux.vectorRep ∨ b = bytes256 (H.keccak aux.vectorRep) ++ keccakCbtxSuffix ∨
    b ∈ MerklePath.inputs joinHashes H.keccak (aux.toCTransaction.getCachedHash H)
      (merkleSteps aux.vMerkleBranch 0)}

end CAuxPow

/-- The bytes of a parent header whose proof-of-work hash is compared with the target. -/
def CPureBlockHeader.powBytes (h : CPureBlockHeader) (algo : Algo) : Bytes :=
  match algo with
  | .equihash => h.hashEBytes
  | .cryptonight => if h.vectorFormat then h.vectorRep else h.headerBytes
  | _ => h.headerBytes

/-- Parents with the same proof-of-work bytes have the same transaction root, or in vector
format the same bytes. -/
theorem CPureBlockHeader.root_of_powBytes {a b : CPureBlockHeader} {algo : Algo}
    (ha : a.vectorFormat = (algo == .cryptonight)) (hb : b.vectorFormat = (algo == .cryptonight))
    (h : a.powBytes algo = b.powBytes algo) :
    if algo = .cryptonight then a.vectorRep = b.vectorRep
    else a.hashMerkleRoot = b.hashMerkleRoot := by
  cases algo
  case cryptonight => simpa [powBytes, ha, hb] using h
  case equihash => simpa using (hashEBytes_inj h).2.2.1
  all_goals simpa using (headerBytes_inj h).2.2.1

/-! ### The coinbase -/

/-- The serialized form of a transaction with an input determines the script of its first
input. -/
theorem CTransaction.scriptSig_of_serialize_eq {a b : CTransaction} {x y : CTxIn}
    {xs ys : List CTxIn} (ha : a.vectorFormat = false) (hb : b.vectorFormat = false)
    (hsa : a.Sized) (hsb : b.Sized) (hx : a.vin = x :: xs) (hy : b.vin = y :: ys)
    (h : a.serialize = b.serialize) : x.scriptSig = y.scriptSig := by
  simp only [serialize, ha, hb, Bool.false_eq_true, if_false, writeVector, List.append_assoc] at h
  obtain ⟨-, h⟩ := List.append_inj h (by simp)
  obtain ⟨-, h⟩ := writeCompactSize_append_inj hsa.1 hsb.1 h
  simp only [hx, hy, List.flatMap_cons, CTxIn.serialize, COutPoint.serialize,
    List.append_assoc] at h
  obtain ⟨-, h⟩ := List.append_inj h (by simp)
  obtain ⟨-, h⟩ := List.append_inj h (by simp)
  exact (writeBytes_append_inj (hsa.2 x (by simp [hx])) (hsb.2 y (by simp [hy])) h).1

/-- A serialized transaction is longer than the script of its first input. -/
theorem CTransaction.length_serialize_gt {tx : CTransaction} {x : CTxIn} {xs : List CTxIn}
    (hv : tx.vectorFormat = false) (hx : tx.vin = x :: xs) :
    x.scriptSig.length + 48 ≤ tx.serialize.length := by
  simp only [serialize, hv, Bool.false_eq_true, if_false, writeVector, hx, List.flatMap_cons,
    CTxIn.serialize, COutPoint.serialize, writeBytes, List.length_append, length_bytes32,
    length_bytes256]
  omega

namespace CAuxPow

/-- What makes two auxpows over one parent proof of work commit to one auxiliary hash: they lead
to the same transaction root in a CryptoNight parent; their coinbase bytes hash to something
other than the value that stands for no hash; in an Equihash parent the coinbase on the shorter
branch does not have the length of two hashes; and without a merged-mining header both chain
roots start at one position. -/
structure SameWork (a b : CAuxPow) (h₁ h₂ : Uint256) : Prop where
  parentRoot : a.parentBlock.vectorFormat →
    checkMerkleBranchKeccak H (a.toCTransaction.getCachedHash H) a.vMerkleBranch 0 =
      checkMerkleBranchKeccak H (b.toCTransaction.getCachedHash H) b.vMerkleBranch 0
  coinbaseHash : a.vectorFormat → a.hash ≠ 0 ∧ b.hash ≠ 0
  coinbaseLength : a.vectorFormat → a.keccakHash = false →
    (a.vMerkleBranch.length < b.vMerkleBranch.length → a.vectorRep.length ≠ 64) ∧
      (b.vMerkleBranch.length < a.vMerkleBranch.length → b.vectorRep.length ≠ 64)
  rootStart : ∀ script, a.scriptBytes = some script →
    (search script pchMergedMiningHeader).isSome ∨
      search script (a.vchRootHash H h₁) = search script (b.vchRootHash H h₂)

/-- The string a coinbase is hashed from, for each of the three formats. -/
def leafInput (aux : CAuxPow) : Bytes :=
  if aux.vectorFormat then
    if aux.keccakHash then bytes256 (H.keccak aux.vectorRep) ++ keccakCbtxSuffix
    else aux.vectorRep
  else aux.toCTransaction.serialize

/-- The hash function of the parent's transaction tree. -/
def treeHash (aux : CAuxPow) : Bytes → Uint256 :=
  if aux.parentBlock.vectorFormat then H.keccak else H.hash

/-- The cached hash of a coinbase from the wire is the hash of that string. -/
theorem getCachedHash_eq {algo : Algo} {aux : CAuxPow} (hw : aux.Wire H algo)
    (hne : aux.vectorFormat → aux.hash ≠ 0) :
    aux.toCTransaction.getCachedHash H = aux.treeHash H (aux.leafInput H) := by
  have hhash := congrArg CTransaction.hash hw.hash
  have hv := hw.vectorFormat
  have hk := hw.keccakHash
  have hp := hw.parentVector
  unfold CTransaction.getCachedHash treeHash leafInput
  cases hvec : aux.vectorFormat with
  | false =>
    have hcn : (algo == Algo.cryptonight) = false := by
      rw [hvec] at hv
      simpa using (Bool.or_eq_false_iff.mp hv.symm).2
    simp only [CTransaction.updateHash, hvec, Bool.false_eq_true, if_false] at hhash
    simp only [hp, hcn, Bool.false_eq_true, if_false, hhash, CTransaction.getHash, ite_self]
  | true =>
    simp only [CTransaction.updateHash, hvec, if_true] at hhash
    rw [if_pos (hne hvec), hhash]
    simp only [if_true, hp, hk]
    cases algo == Algo.cryptonight <;> rfl

/-- The strings hashed on the way from the coinbase to the parent's transaction root. -/
def treeInputs (aux : CAuxPow) : Set Bytes :=
  {b | b = aux.leafInput H ∨
    b ∈ MerklePath.inputs joinHashes (aux.treeHash H) (aux.toCTransaction.getCachedHash H)
      (merkleSteps aux.vMerkleBranch 0)}

/-- They are among the strings the check hashes with the function of the tree. -/
theorem treeInputs_subset {algo : Algo} {aux : CAuxPow} (hw : aux.Wire H algo) (h : Uint256) :
    aux.treeInputs H ⊆
      if aux.parentBlock.vectorFormat then aux.keccakInputs H else aux.hashInputs H h := by
  have hv := hw.vectorFormat
  have hk := hw.keccakHash
  have hp := hw.parentVector
  intro b hb
  unfold treeInputs treeHash leafInput at hb
  rw [hk, hv] at hb
  rw [hp] at hb ⊢
  by_cases hcn : algo = .cryptonight
  · simp only [hcn, beq_self_eq_true, Bool.or_true, if_true, Set.mem_ofPred_eq] at hb ⊢
    exact hb.elim (fun h ↦ .inr (.inl h)) fun h ↦ .inr (.inr h)
  · have hne : (algo == Algo.cryptonight) = false := by simpa using hcn
    simp only [hne, Bool.or_false, Bool.false_eq_true, if_false, Set.mem_ofPred_eq] at hb ⊢
    rcases hb with hb | hb
    · by_cases heq : (algo == Algo.equihash) = true
      · exact .inr (.inl (by simpa [heq] using hb))
      · exact .inl (by simpa [heq] using hb)
    · exact .inr (.inr (.inl hb))

/-- Accepted auxpows over one parent proof of work lead to one transaction root. -/
theorem tree_root_eq {algo : Algo} {a b : CAuxPow} {nChainId : BitVec 32} {h₁ h₂ : Uint256}
    (hwa : a.Wire H algo) (hwb : b.Wire H algo)
    (hpow : a.parentBlock.powBytes algo = b.parentBlock.powBytes algo)
    (hra : a.ReachesCoinbase H params nChainId) (hrb : b.ReachesCoinbase H params nChainId)
    (hsame : a.SameWork H b h₁ h₂) :
    MerklePath.climb joinHashes (a.treeHash H) (a.toCTransaction.getCachedHash H)
        (merkleSteps a.vMerkleBranch 0) =
      MerklePath.climb joinHashes (a.treeHash H) (b.toCTransaction.getCachedHash H)
        (merkleSteps b.vMerkleBranch 0) := by
  have hroot := CPureBlockHeader.root_of_powBytes hwa.parentVector hwb.parentVector hpow
  have hne : (0 : BitVec 32) ≠ -1 := by decide
  simp only [← foldMerkleBranch_eq_climb]
  by_cases hcn : algo = .cryptonight
  · have hva : a.parentBlock.vectorFormat = true := by simpa [hcn] using hwa.parentVector
    have hfold := hsame.parentRoot hva
    simpa [checkMerkleBranchKeccak, treeHash, hva] using hfold
  · have hva : a.parentBlock.vectorFormat = false := by
      rw [hwa.parentVector]
      simpa using hcn
    have hvb : b.parentBlock.vectorFormat = false := by
      rw [hwb.parentVector]
      simpa using hcn
    have hina := hra.inTree
    have hinb := hrb.inTree
    rw [if_neg hcn] at hroot
    simp only [inParentTree, hva, hvb, hra.generate, hrb.generate, Bool.false_eq_true, if_false,
      decide_eq_true_eq, checkMerkleBranch, if_neg hne] at hina hinb
    simp only [treeHash, hva, Bool.false_eq_true, if_false]
    rw [hina, hinb, hroot]

/-- The string a coinbase is hashed from cannot be taken for an inner node. -/
theorem length_leafInput_ne {aux : CAuxPow} {h : Uint256} {nChainId : BitVec 32}
    {script : Bytes} (hscript : aux.scriptBytes = some script)
    (hcommit : aux.CommitsTo H h nChainId script)
    (hlen : aux.vectorFormat → aux.keccakHash = false → aux.vectorRep.length ≠ 64) :
    (aux.leafInput H).length ≠ 64 := by
  unfold leafInput
  split
  · next hv =>
    split
    · have hsuffix : keccakCbtxSuffix.length = 64 := by decide
      simp [hsuffix]
    · next hk => exact hlen hv (by simpa using hk)
  · next hv =>
    have hv' : aux.vectorFormat = false := by simpa using hv
    obtain ⟨pc, hpos, hle, -⟩ := hcommit
    obtain ⟨pos, -, hpc, -⟩ := rootPosition_spec hpos
    have hroot : (aux.vchRootHash H h).length = 32 := by simp [vchRootHash]
    simp only [scriptBytes, hv', Bool.false_eq_true, if_false, Option.map_eq_some_iff] at hscript
    obtain ⟨x, hx, rfl⟩ := hscript
    obtain ⟨xs, hvin⟩ : ∃ xs, aux.vin = x :: xs := by
      cases hvin : aux.vin with
      | nil => simp [hvin] at hx
      | cons y ys =>
        rw [hvin, List.head?_cons, Option.some.injEq] at hx
        exact ⟨ys, by rw [hx]⟩
    have := CTransaction.length_serialize_gt hv' hvin
    omega

/-- Auxpows with one coinbase string show the check the same script. -/
theorem scriptBytes_eq {algo : Algo} {a b : CAuxPow} {sa sb : Bytes}
    (hwa : a.Wire H algo) (hwb : b.Wire H algo)
    (hinj : Set.InjOn H.keccak {b' | b' = a.vectorRep ∨ b' = b.vectorRep})
    (hsa : a.scriptBytes = some sa) (hsb : b.scriptBytes = some sb)
    (hleaf : a.leafInput H = b.leafInput H) : sa = sb := by
  have hvv : b.vectorFormat = a.vectorFormat := hwb.vectorFormat.trans hwa.vectorFormat.symm
  have hkk : b.keccakHash = a.keccakHash := hwb.keccakHash.trans hwa.keccakHash.symm
  unfold leafInput at hleaf
  unfold scriptBytes at hsa hsb
  rw [hvv] at hsb hleaf
  rw [hkk] at hleaf
  cases hv : a.vectorFormat with
  | true =>
    have hrep : a.vectorRep = b.vectorRep := by
      simp only [hv, if_true] at hleaf
      split at hleaf
      · obtain ⟨hinner, -⟩ := List.append_inj hleaf (by simp)
        exact hinj (.inl rfl) (.inr rfl) (bytes256_inj hinner)
      · exact hleaf
    simp only [hv, if_true, ← hrep] at hsa hsb
    exact Option.some.inj (hsa.symm.trans hsb)
  | false =>
    simp only [hv, Bool.false_eq_true, if_false] at hleaf hsa hsb
    cases hva : a.vin with
    | nil => simp [hva] at hsa
    | cons x xs =>
      cases hvb : b.vin with
      | nil => simp [hvb] at hsb
      | cons y ys =>
        simp only [hva, hvb, List.head?_cons, Option.map_some, Option.some.injEq] at hsa hsb
        rw [← hsa, ← hsb]
        exact CTransaction.scriptSig_of_serialize_eq hv (hvv.trans hv) hwa.sized hwb.sized hva hvb
          hleaf

/-- Coinbases that lead to one transaction root are hashed from one string. -/
theorem leafInput_eq {algo : Algo} {a b : CAuxPow} {nChainId : BitVec 32} {h₁ h₂ : Uint256}
    {sa sb : Bytes} (hwa : a.Wire H algo) (hwb : b.Wire H algo)
    (hpow : a.parentBlock.powBytes algo = b.parentBlock.powBytes algo)
    (hra : a.ReachesCoinbase H params nChainId) (hrb : b.ReachesCoinbase H params nChainId)
    (hsa : a.scriptBytes = some sa) (hsb : b.scriptBytes = some sb)
    (hca : a.CommitsTo H h₁ nChainId sa) (hcb : b.CommitsTo H h₂ nChainId sb)
    (hinj : Set.InjOn (a.treeHash H) (a.treeInputs H ∪ b.treeInputs H))
    (hsame : a.SameWork H b h₁ h₂) : a.leafInput H = b.leafInput H := by
  have hroot := tree_root_eq H params hwa hwb hpow hra hrb hsame
  have htree : b.treeHash H = a.treeHash H := by
    unfold treeHash
    rw [hwa.parentVector, hwb.parentVector]
  have hvv : b.vectorFormat = a.vectorFormat := hwb.vectorFormat.trans hwa.vectorFormat.symm
  have hkk : b.keccakHash = a.keccakHash := hwb.keccakHash.trans hwa.keccakHash.symm
  have hcacheA := getCachedHash_eq H hwa fun hv ↦ (hsame.coinbaseHash hv).1
  have hcacheB := getCachedHash_eq H hwb fun hv ↦ (hsame.coinbaseHash (hvv ▸ hv)).2
  have hmemA : ∀ s ∈ MerklePath.inputs joinHashes (a.treeHash H) (a.toCTransaction.getCachedHash H)
      (merkleSteps a.vMerkleBranch 0), s ∈ a.treeInputs H ∪ b.treeInputs H :=
    fun s hs ↦ .inl (.inr hs)
  have hmemB : ∀ s ∈ MerklePath.inputs joinHashes (a.treeHash H) (b.toCTransaction.getCachedHash H)
      (merkleSteps b.vMerkleBranch 0), s ∈ a.treeInputs H ∪ b.treeInputs H :=
    fun s hs ↦ .inr (.inr (by rwa [htree]))
  have hleafA : a.leafInput H ∈ a.treeInputs H ∪ b.treeInputs H := .inl (.inl rfl)
  have hleafB : b.leafInput H ∈ a.treeInputs H ∪ b.treeInputs H := .inr (.inl rfl)
  rw [htree] at hcacheB
  rcases lt_trichotomy a.vMerkleBranch.length b.vMerkleBranch.length with hlt | heq | hgt
  · obtain ⟨s, hs, ⟨u, v, rfl⟩, hx⟩ := MerklePath.leaf_eq_hash_of_shorter joinHashes_inj hinj
      (merkleSteps_zero _) (merkleSteps_zero _) hmemA hmemB hroot (by simpa using hlt)
    have hinner := hinj hleafA (hmemB _ hs) (hcacheA.symm.trans hx)
    refine absurd (by rw [hinner, length_joinHashes]) (length_leafInput_ne H hsa hca fun hv hk ↦ ?_)
    exact (hsame.coinbaseLength hv hk).1 hlt
  · have hcache := MerklePath.climb_inj joinHashes_inj hinj (merkleSteps_sides heq 0) hmemA hmemB
      hroot
    exact hinj hleafA hleafB (by rw [← hcacheA, ← hcacheB, hcache])
  · obtain ⟨s, hs, ⟨u, v, rfl⟩, hx⟩ := MerklePath.leaf_eq_hash_of_shorter joinHashes_inj hinj
      (merkleSteps_zero _) (merkleSteps_zero _) hmemB hmemA hroot.symm (by simpa using hgt)
    have hinner := hinj hleafB (hmemA _ hs) (hcacheB.symm.trans hx)
    refine absurd (by rw [hinner, length_joinHashes]) (length_leafInput_ne H hsb hcb fun hv hk ↦ ?_)
    exact (hsame.coinbaseLength (hvv ▸ hv) (hkk ▸ hk)).2 hgt

theorem toNat_one_shiftLeft {h : Nat} (hh : h ≤ 30) :
    ((1 : BitVec 32) <<< h).toNat = 2 ^ h := by
  have hpow : (2 : Nat) ^ h ≤ 2 ^ 30 := Nat.pow_le_pow_right (by omega) hh
  have hone : (1 : BitVec 32).toNat = 1 := by decide
  rw [BitVec.toNat_shiftLeft, Nat.shiftLeft_eq, hone, one_mul]
  exact Nat.mod_eq_of_lt (by omega)

/-- The slot index a check accepts is never the index that stands for none. -/
theorem expectedIndex_ne {h : Nat} (hh : h ≤ 30) (nNonce nChainId : BitVec 32) :
    expectedIndex nNonce nChainId h ≠ -1 := by
  intro heq
  have hpow : (2 : Nat) ^ h ≤ 2 ^ 30 := Nat.pow_le_pow_right (by omega) hh
  have hval := congrArg BitVec.toNat heq
  rw [expectedIndex, BitVec.umod_eq, BitVec.toNat_umod, toNat_one_shiftLeft hh] at hval
  have hlt := Nat.mod_lt (((nNonce * 1103515245 + 12345 + nChainId) * 1103515245 + 12345).toNat)
    (show 0 < 2 ^ h by positivity)
  have hmax : (-1 : BitVec 32).toNat = 2 ^ 32 - 1 := by decide
  omega

/-- From one script, roots that start at one position commit to one auxiliary hash. -/
theorem hash_eq_of_commitsTo {a b : CAuxPow} {h₁ h₂ : Uint256} {nChainId : BitVec 32}
    {script : Bytes} (hba : a.vChainMerkleBranch.length ≤ 30)
    (hbb : b.vChainMerkleBranch.length ≤ 30)
    (hinj : Set.InjOn H.hash (a.hashInputs H h₁ ∪ b.hashInputs H h₂))
    (hca : a.CommitsTo H h₁ nChainId script) (hcb : b.CommitsTo H h₂ nChainId script)
    (hstart : (search script pchMergedMiningHeader).isSome ∨
      search script (a.vchRootHash H h₁) = search script (b.vchRootHash H h₂)) : h₁ = h₂ := by
  obtain ⟨pc₁, hpos₁, -, hsize₁, hidx₁⟩ := hca
  obtain ⟨pc₂, hpos₂, -, hsize₂, hidx₂⟩ := hcb
  obtain ⟨pos₁, hsearch₁, hpc₁, hhead₁⟩ := rootPosition_spec hpos₁
  obtain ⟨pos₂, hsearch₂, hpc₂, hhead₂⟩ := rootPosition_spec hpos₂
  have hlen₁ : (a.vchRootHash H h₁).length = 32 := by simp [vchRootHash]
  have hlen₂ : (b.vchRootHash H h₂).length = 32 := by simp [vchRootHash]
  have hpos : pos₁ = pos₂ := by
    rcases hstart with hheader | heq
    · obtain ⟨pcHead, hh⟩ := Option.isSome_iff_exists.mp hheader
      rw [hhead₁ pcHead hh, hhead₂ pcHead hh]
    · rw [hsearch₁, hsearch₂] at heq
      exact Option.some.inj heq
  have hpc : pc₁ = pc₂ := by omega
  -- the root read at this position, the tree size and the index are the same
  have hroot : a.vchRootHash H h₁ = b.vchRootHash H h₂ := by
    have h1 := search_spec hsearch₁
    have h2 := search_spec hsearch₂
    rw [hlen₁] at h1
    rw [hlen₂] at h2
    rw [← h1, ← h2, hpos]
  have hbranch : a.vChainMerkleBranch.length = b.vChainMerkleBranch.length := by
    rw [hpc, hsize₂] at hsize₁
    have hval := congrArg BitVec.toNat hsize₁
    rw [toNat_one_shiftLeft hba, toNat_one_shiftLeft hbb] at hval
    exact Nat.pow_right_injective (le_refl 2) hval.symm
  have hindex : a.nChainIndex = b.nChainIndex := by
    rw [hidx₁, hidx₂, hpc, hbranch]
  have hne₁ : a.nChainIndex ≠ -1 := by
    rw [hidx₁]
    exact expectedIndex_ne hba _ _
  have hne₂ : b.nChainIndex ≠ -1 := hindex ▸ hne₁
  have hfold : checkMerkleBranch H h₁ a.vChainMerkleBranch a.nChainIndex =
      checkMerkleBranch H h₂ b.vChainMerkleBranch b.nChainIndex :=
    bytes256_inj (List.reverse_injective hroot)
  rw [checkMerkleBranch, checkMerkleBranch, if_neg hne₁, if_neg hne₂, foldMerkleBranch_eq_climb,
    foldMerkleBranch_eq_climb] at hfold
  refine MerklePath.climb_inj joinHashes_inj hinj ?_ (fun s hs ↦ .inl (.inr (.inr (.inr hs))))
    (fun s hs ↦ .inr (.inr (.inr (.inr hs)))) hfold
  rw [← hindex]
  exact merkleSteps_sides hbranch _

/-- Two auxpows over one parent proof of work that `CAuxPow::check` accepts for one chain id
certify one auxiliary hash, when the links that do not bind by themselves are the same. -/
theorem check_unique {algo : Algo} {a b : CAuxPow} {nChainId : BitVec 32} {h₁ h₂ : Uint256}
    (hreada : a.ReadFor H algo) (hreadb : b.ReadFor H algo)
    (hpow : a.parentBlock.powBytes algo = b.parentBlock.powBytes algo)
    (hhash : Set.InjOn H.hash (a.hashInputs H h₁ ∪ b.hashInputs H h₂))
    (hkeccak : Set.InjOn H.keccak (a.keccakInputs H ∪ b.keccakInputs H))
    (ha : a.check H params h₁ nChainId = .ok true)
    (hb : b.check H params h₂ nChainId = .ok true)
    (hsame : a.SameWork H b h₁ h₂) : h₁ = h₂ := by
  have hwa := hreada.wire
  have hwb := hreadb.wire
  obtain ⟨hra, sa, hsa, hca⟩ := (a.check_spec H params h₁ nChainId).2.mp ha
  obtain ⟨hrb, sb, hsb, hcb⟩ := (b.check_spec H params h₂ nChainId).2.mp hb
  have hpp : b.parentBlock.vectorFormat = a.parentBlock.vectorFormat :=
    hwb.parentVector.trans hwa.parentVector.symm
  have htree : Set.InjOn (a.treeHash H) (a.treeInputs H ∪ b.treeInputs H) := by
    have hsub := Set.union_subset_union (treeInputs_subset H hwa h₁) (treeInputs_subset H hwb h₂)
    rw [hpp] at hsub
    unfold treeHash
    split at hsub
    · next hv => simpa [hv] using hkeccak.mono hsub
    · next hv => simpa [hv] using hhash.mono hsub
  have hleaf := leafInput_eq H params hwa hwb hpow hra hrb hsa hsb hca hcb htree hsame
  have hreps : Set.InjOn H.keccak {b' | b' = a.vectorRep ∨ b' = b.vectorRep} := by
    refine hkeccak.mono ?_
    rintro s (rfl | rfl)
    · exact .inl (.inl rfl)
    · exact .inr (.inl rfl)
  obtain rfl := scriptBytes_eq H hwa hwb hreps hsa hsb hleaf
  exact hash_eq_of_commitsTo H hra.branch hrb.branch hhash hca hcb (hsame.rootStart _ hsa)

end CAuxPow

/-! ### One CryptoNight parent for two blocks -/

/-- A coinbase prefix that commits to `h` as the only leaf of a chain merkle tree. -/
def committingScript (h : Uint256) : Bytes :=
  pchMergedMiningHeader ++ (bytes256 h).reverse ++ [1, 0, 0, 0] ++ [0, 0, 0, 0]

/-- The transaction root of a CryptoNight parent whose only transaction has this coinbase. -/
def committingRoot (h : Uint256) : Bytes := bytes256 (keccakHashCBTX toyHashes (committingScript h))

/-- An auxpow for `h` whose parent is an arbitrary byte string. -/
def cryptonightAuxPow (h : Uint256) (parent : Bytes) : CAuxPow :=
  { vectorFormat := true
    keccakHash := true
    vectorRep := committingScript h
    hash := keccakHashCBTX toyHashes (committingScript h)
    nIndex := 0
    parentBlock :=
      { isParent := true
        algoParent := some .cryptonight
        vectorFormat := true
        vectorRep := parent } }

/-- Two block hashes that differ in their leading byte. -/
def firstHash : Uint256 := (1 : Uint256) <<< 248
def secondHash : Uint256 := (2 : Uint256) <<< 248

/-- The strings the check of such an auxpow gives to Keccak. -/
def keccakStrings (h : Uint256) : List Bytes :=
  [committingScript h, bytes256 (toyHash (committingScript h)) ++ keccakCbtxSuffix]

/-- The strings it gives to the double SHA-256. -/
def hashStrings (h : Uint256) : List Bytes :=
  [writeBytes (committingScript h), committingScript h]

theorem keccakInputs_cryptonightAuxPow (h : Uint256) (parent : Bytes) :
    ∀ b ∈ (cryptonightAuxPow h parent).keccakInputs toyHashes, b ∈ keccakStrings h := by
  rintro b (rfl | rfl | hb)
  · simp [cryptonightAuxPow, keccakStrings]
  · simp [cryptonightAuxPow, toyHashes, keccakStrings]
  · simp [cryptonightAuxPow, merkleSteps, MerklePath.inputs] at hb

theorem hashInputs_cryptonightAuxPow (h : Uint256) (parent : Bytes) :
    ∀ b ∈ (cryptonightAuxPow h parent).hashInputs toyHashes h, b ∈ hashStrings h := by
  rintro b (rfl | rfl | hb | hb)
  · simp [cryptonightAuxPow, CTransaction.serialize, hashStrings]
  · simp [cryptonightAuxPow, hashStrings]
  · simp [cryptonightAuxPow, merkleSteps, MerklePath.inputs] at hb
  · simp [cryptonightAuxPow, merkleSteps, MerklePath.inputs] at hb

/-- A hash that tells apart the strings of two lists is injective on what they contain. -/
theorem injOn_union_of_lists {f : Bytes → Uint256} {S T : Set Bytes} {l m : List Bytes}
    (hS : ∀ b ∈ S, b ∈ l) (hT : ∀ b ∈ T, b ∈ m)
    (hf : ∀ x ∈ l ++ m, ∀ y ∈ l ++ m, f x = f y → x = y) : Set.InjOn f (S ∪ T) := by
  have hmem : ∀ b ∈ S ∪ T, b ∈ l ++ m := by
    rintro b (hb | hb)
    · exact List.mem_append_left _ (hS b hb)
    · exact List.mem_append_right _ (hT b hb)
  exact fun x hx y hy ↦ hf x (hmem x hx) y (hmem y hy)

/-- The auxpow for `firstHash` with another block named in a field that is never checked. -/
def renamedAuxPow : CAuxPow :=
  { cryptonightAuxPow firstHash (committingRoot firstHash) with hashBlock := secondHash }

/-- `CAuxPow.check_unique` at two auxpows over one parent. -/
theorem CAuxPow.check_unique_renamed :
    renamedAuxPow ≠ cryptonightAuxPow firstHash (committingRoot firstHash) ∧
      renamedAuxPow.check toyHashes mainParams firstHash 0x5B = .ok true ∧
      (cryptonightAuxPow firstHash (committingRoot firstHash)).check toyHashes mainParams
        ((1 : Uint256) <<< 248) 0x5B = .ok true ∧ firstHash = (1 : Uint256) <<< 248 := by
  have hread : renamedAuxPow.ReadFor toyHashes .cryptonight :=
    ⟨renamedAuxPow.serialize, [], by decide +kernel⟩
  have hread' : (cryptonightAuxPow firstHash (committingRoot firstHash)).ReadFor toyHashes
      .cryptonight :=
    ⟨(cryptonightAuxPow firstHash (committingRoot firstHash)).serialize, [], by decide +kernel⟩
  have hcheck : renamedAuxPow.check toyHashes mainParams firstHash 0x5B = .ok true := by
    decide +kernel
  have hcheck' : (cryptonightAuxPow firstHash (committingRoot firstHash)).check toyHashes mainParams
      ((1 : Uint256) <<< 248) 0x5B = .ok true := by decide +kernel
  have hsame : renamedAuxPow.SameWork toyHashes
      (cryptonightAuxPow firstHash (committingRoot firstHash)) firstHash ((1 : Uint256) <<< 248) :=
    ⟨fun _ ↦ rfl, fun _ ↦ by decide, fun _ hk ↦ absurd hk (by decide), fun _ _ ↦ .inr rfl⟩
  refine ⟨by decide, hcheck, hcheck', CAuxPow.check_unique toyHashes mainParams hread hread' rfl
    ?_ ?_ hcheck hcheck' hsame⟩
  · exact injOn_union_of_lists (hashInputs_cryptonightAuxPow firstHash (committingRoot firstHash))
      (hashInputs_cryptonightAuxPow _ _) (by decide)
  · exact injOn_union_of_lists (keccakInputs_cryptonightAuxPow firstHash (committingRoot firstHash))
      (keccakInputs_cryptonightAuxPow _ _) (by decide)

/-- A CryptoNight parent that holds two transaction roots. -/
def reusedParent : Bytes := committingRoot firstHash ++ committingRoot secondHash

/-- The proof of work of that parent certifies two blocks: both auxpows can be read from the
wire and pass `CAuxPow::check` for our chain id, and no two of the strings hashed on the way
collide. -/
theorem check_not_unique :
    ((cryptonightAuxPow firstHash reusedParent).ReadFor toyHashes .cryptonight ∧
        (cryptonightAuxPow secondHash reusedParent).ReadFor toyHashes .cryptonight) ∧
      Set.InjOn toyHashes.hash
        ((cryptonightAuxPow firstHash reusedParent).hashInputs toyHashes firstHash ∪
          (cryptonightAuxPow secondHash reusedParent).hashInputs toyHashes secondHash) ∧
      Set.InjOn toyHashes.keccak
        ((cryptonightAuxPow firstHash reusedParent).keccakInputs toyHashes ∪
          (cryptonightAuxPow secondHash reusedParent).keccakInputs toyHashes) ∧
      (cryptonightAuxPow firstHash reusedParent).parentBlock.powBytes .cryptonight =
        (cryptonightAuxPow secondHash reusedParent).parentBlock.powBytes .cryptonight ∧
      (cryptonightAuxPow firstHash reusedParent).check toyHashes mainParams firstHash 0x5B =
        .ok true ∧
      (cryptonightAuxPow secondHash reusedParent).check toyHashes mainParams secondHash 0x5B =
        .ok true ∧
      firstHash ≠ secondHash := by
  refine ⟨⟨⟨(cryptonightAuxPow firstHash reusedParent).serialize, [], by decide +kernel⟩,
    ⟨(cryptonightAuxPow secondHash reusedParent).serialize, [], by decide +kernel⟩⟩, ?_, ?_, rfl,
    by decide, by decide, by decide⟩
  · exact injOn_union_of_lists (hashInputs_cryptonightAuxPow _ _)
      (hashInputs_cryptonightAuxPow _ _) (by decide)
  · exact injOn_union_of_lists (keccakInputs_cryptonightAuxPow _ _)
      (keccakInputs_cryptonightAuxPow _ _) (by decide)

end Bitmark
