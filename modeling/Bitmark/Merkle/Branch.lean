import Bitmark.Lib.MerklePath
import Bitmark.Merkle.Root

/-!
# Branches of the merkle tree

`CBlock::GetMerkleBranch` (`src/core.cpp:265`) walks the levels in `vMerkleTree` and takes the
sibling of each node on the way to the root; `CheckMerkleBranch` comes back to the root with them,
and from no other leaf.
-/

namespace Bitmark

/-- The loop of `GetMerkleBranch`, at a level of `nSize` nodes that starts at `j`. -/
def merkleBranchLoop (vMerkleTree : List Uint256) (nSize nIndex j : ℕ) : List Uint256 :=
  if 1 < nSize then
    vMerkleTree.getD (j + min (nIndex ^^^ 1) (nSize - 1)) 0 ::
      merkleBranchLoop vMerkleTree ((nSize + 1) / 2) (nIndex / 2) (j + nSize)
  else []
  termination_by nSize

/-! ### Merkle branches as paths -/

/-- The string hashed for an inner node. -/
def joinHashes (a b : Uint256) : Bytes := bytes256 a ++ bytes256 b

theorem joinHashes_inj (a b c d : Uint256) (h : joinHashes a b = joinHashes c d) :
    a = c ∧ b = d := by
  obtain ⟨hl, hr⟩ := List.append_inj h (by simp)
  exact ⟨bytes256_inj hl, bytes256_inj hr⟩

@[simp] theorem length_joinHashes (a b : Uint256) : (joinHashes a b).length = 64 := by
  simp [joinHashes]

/-- The steps of a merkle branch; the bits of the index tell the sides. -/
def merkleSteps : List Uint256 → BitVec 32 → List (MerklePath.Step Uint256)
  | [], _ => []
  | otherside :: branch, nIndex =>
    ⟨nIndex &&& 1 ≠ 0, otherside⟩ :: merkleSteps branch (nIndex.sshiftRight 1)

@[simp] theorem length_merkleSteps (branch : List Uint256) (nIndex : BitVec 32) :
    (merkleSteps branch nIndex).length = branch.length := by
  induction branch generalizing nIndex with
  | nil => rfl
  | cons otherside branch ih => simp [merkleSteps, ih]

/-- The fold of `CheckMerkleBranch` climbs the path of the branch. -/
theorem foldMerkleBranch_eq_climb (hash2 : Bytes → Uint256) (hash : Uint256)
    (branch : List Uint256) (nIndex : BitVec 32) :
    foldMerkleBranch hash2 hash branch nIndex =
      MerklePath.climb joinHashes hash2 hash (merkleSteps branch nIndex) := by
  induction branch generalizing hash nIndex with
  | nil => rfl
  | cons otherside branch ih =>
    rw [foldMerkleBranch, merkleSteps, MerklePath.climb, ih]
    congr 1
    simp only [MerklePath.preimage, joinHashes, decide_eq_true_eq]
    split <;> rfl

/-- Branches of one length climbed from one index have the same sides. -/
theorem merkleSteps_sides {a b : List Uint256} (hlen : a.length = b.length) (nIndex : BitVec 32) :
    (merkleSteps a nIndex).map MerklePath.Step.siblingLeft =
      (merkleSteps b nIndex).map MerklePath.Step.siblingLeft := by
  induction a generalizing b nIndex with
  | nil =>
    obtain rfl : b = [] := List.length_eq_zero_iff.mp hlen.symm
    rfl
  | cons x a ih =>
    cases b with
    | nil => simp at hlen
    | cons y b => simp [merkleSteps, ih (by simpa using hlen)]

/-- From index zero every sibling stands on the right. -/
theorem merkleSteps_zero (branch : List Uint256) :
    ∀ s ∈ merkleSteps branch 0, s.siblingLeft = false := by
  induction branch with
  | nil => simp [merkleSteps]
  | cons x branch ih =>
    simp only [merkleSteps, List.forall_mem_cons]
    exact ⟨by decide, ih⟩

variable (H : Hashes)

/-- `GetMerkleBranch`. -/
def CBlock.getMerkleBranch (block : CBlock) (nIndex : ℕ) : List Uint256 :=
  merkleBranchLoop (block.vMerkleTree H) block.vtx.length nIndex 0

/-! ### Indices -/

theorem ofNat_and_one_ne_zero_iff (n : ℕ) : BitVec.ofNat 32 n &&& 1 ≠ 0 ↔ n % 2 = 1 := by
  have hone : (1 : BitVec 32).toNat = 2 ^ 1 - 1 := rfl
  have hand : (BitVec.ofNat 32 n &&& 1).toNat = n % 2 := by
    rw [BitVec.toNat_and, hone, Nat.and_two_pow_sub_one_eq_mod, BitVec.toNat_ofNat]
    omega
  rw [Ne, ← BitVec.toNat_inj, hand]
  change ¬ n % 2 = 0 ↔ _
  omega

theorem sshiftRight_ofNat {n : ℕ} (h : n < 2 ^ 31) :
    (BitVec.ofNat 32 n).sshiftRight 1 = BitVec.ofNat 32 (n / 2) := by
  have hmsb : (BitVec.ofNat 32 n).msb = false := by
    rw [BitVec.msb_eq_decide, decide_eq_false_iff_not, BitVec.toNat_ofNat]
    omega
  rw [BitVec.sshiftRight_eq_of_msb_false hmsb]
  apply BitVec.eq_of_toNat_eq
  rw [BitVec.toNat_ushiftRight, BitVec.toNat_ofNat, BitVec.toNat_ofNat, Nat.shiftRight_eq_div_pow]
  omega

/-! ### Back to the root -/

/-- One step towards the root: a node and its sibling are joined on the side the index tells. -/
theorem joined_sibling {level : List Uint256} {i : ℕ} (hi : i < level.length)
    (htwo : 1 < level.length) :
    (if BitVec.ofNat 32 i &&& 1 ≠ 0 then
        H.hash (bytes256 (level.getD (min (i ^^^ 1) (level.length - 1)) 0) ++
          bytes256 (level.getD i 0))
      else
        H.hash (bytes256 (level.getD i 0) ++
          bytes256 (level.getD (min (i ^^^ 1) (level.length - 1)) 0))) =
      (PairTree.up (hashPair H) level).getD (i / 2) 0 := by
  have hwidth : i / 2 < PairTree.width level.length (0 + 1) := by
    rw [PairTree.width_succ, PairTree.width_zero]
    omega
  have hnode := (PairTree.nodeAt_succ (hashPair H) 0 level hwidth).2
  simp only [PairTree.nodeAt, PairTree.level, PairTree.width_zero] at hnode
  rw [hnode, hashPair]
  rcases Nat.even_or_odd i with heven | hodd
  · have hmod : i % 2 = 0 := Nat.even_iff.mp heven
    have hself : 2 * (i / 2) = i := by omega
    rw [if_neg (by rw [ofNat_and_one_ne_zero_iff]; omega), Nat.xor_one_of_even heven, hself]
  · have hmod : i % 2 = 1 := Nat.odd_iff.mp hodd
    have hleft : min (i - 1) (level.length - 1) = 2 * (i / 2) := by omega
    have hself : min (2 * (i / 2) + 1) (level.length - 1) = i := by omega
    rw [if_pos ((ofNat_and_one_ne_zero_iff i).mpr hmod), Nat.xor_one_of_odd hodd, hleft, hself]

theorem foldMerkleBranch_loop {fuel : ℕ} {level pre : List Uint256} {i : ℕ} (hi : i < level.length)
    (hint : i < 2 ^ 31) (hfuel : level.length ≤ fuel) :
    foldMerkleBranch H.hash (level.getD i 0)
        (merkleBranchLoop (pre ++ merkleLevels H fuel level) level.length i pre.length)
        (BitVec.ofNat 32 i) =
      PairTree.root (hashPair H) 0 level := by
  induction fuel generalizing level pre i with
  | zero => omega
  | succ fuel ih =>
    rw [merkleBranchLoop]
    split
    case isTrue htwo =>
      have hlength : (PairTree.up (hashPair H) level).length = (level.length + 1) / 2 :=
        PairTree.length_up _ level
      have hsibling : (pre ++ merkleLevels H (fuel + 1) level).getD
            (pre.length + min (i ^^^ 1) (level.length - 1)) 0 =
          level.getD (min (i ^^^ 1) (level.length - 1)) 0 := by
        rw [merkleLevels, if_pos htwo, List.getD_append_right _ _ _ _ (Nat.le_add_right _ _),
          Nat.add_sub_cancel_left, List.getD_append _ _ _ _ (by omega)]
      have hrest : pre ++ merkleLevels H (fuel + 1) level =
          (pre ++ level) ++ merkleLevels H fuel (PairTree.up (hashPair H) level) := by
        rw [merkleLevels, if_pos htwo, merkleLevel_eq_up, List.append_assoc]
      rw [hsibling, foldMerkleBranch, joined_sibling H hi htwo, sshiftRight_ofNat (by omega), hrest,
        ← hlength, ← List.length_append,
        ih (by omega) (by omega) (by omega), PairTree.root_up _ _ htwo]
    case isFalse hone =>
      obtain ⟨a, rfl⟩ := List.length_eq_one_iff.mp (by omega : level.length = 1)
      obtain rfl : i = 0 := by
        rw [List.length_singleton] at hi
        omega
      rfl

/-- The branch of a transaction leads from its hash to the root of its block. -/
theorem checkMerkleBranch_getMerkleBranch (block : CBlock) {tx : CTransaction} {i : ℕ}
    (hi : block.vtx[i]? = some tx) (hint : i < 2 ^ 31) :
    checkMerkleBranch H (tx.getHash H) (block.getMerkleBranch H i) (BitVec.ofNat 32 i) =
      block.buildMerkleTree H := by
  obtain ⟨hlt, -⟩ := List.getElem?_eq_some_iff.mp hi
  have hlength : (block.txHashes H).length = block.vtx.length := List.length_map _
  have hindex : BitVec.ofNat 32 i ≠ -1 := by
    intro h
    have := congrArg BitVec.toNat h
    rw [BitVec.toNat_ofNat] at this
    change i % 2 ^ 32 = 2 ^ 32 - 1 at this
    omega
  have hleaf : (block.txHashes H).getD i 0 = tx.getHash H := by
    rw [List.getD_eq_getElem?_getD, CBlock.txHashes, List.getElem?_map, hi]
    rfl
  have hroot := @foldMerkleBranch_loop H _ _ [] i (hlength ▸ hlt) hint le_rfl
  rw [hleaf, List.nil_append, hlength] at hroot
  rw [checkMerkleBranch, if_neg hindex,
    CBlock.buildMerkleTree_eq H (List.ne_nil_of_length_pos (by omega))]
  exact hroot

/-! ### From one leaf only -/

/-- The strings that `CheckMerkleBranch` hashes. -/
def merkleBranchStrings (hash : Uint256) (vMerkleBranch : List Uint256) (nIndex : BitVec 32) :
    Set Bytes :=
  {s | s ∈ MerklePath.inputs joinHashes H.hash hash (merkleSteps vMerkleBranch nIndex)}

/-- Two hashes that a branch leads to one root are equal. -/
theorem checkMerkleBranch_inj {hash hash' : Uint256} {vMerkleBranch : List Uint256}
    {nIndex : BitVec 32} (hindex : nIndex ≠ -1)
    (hinj : Set.InjOn H.hash (merkleBranchStrings H hash vMerkleBranch nIndex ∪
      merkleBranchStrings H hash' vMerkleBranch nIndex))
    (hroot : checkMerkleBranch H hash vMerkleBranch nIndex =
      checkMerkleBranch H hash' vMerkleBranch nIndex) : hash = hash' := by
  rw [checkMerkleBranch, checkMerkleBranch, if_neg hindex, if_neg hindex, foldMerkleBranch_eq_climb,
    foldMerkleBranch_eq_climb] at hroot
  exact MerklePath.climb_inj joinHashes_inj hinj rfl (fun b hb ↦ .inl hb) (fun b hb ↦ .inr hb) hroot

/-- For every block and every transaction of it, the branch leads from the hash of the transaction
to the root of the block, and from no other hash, where the hash function does not collide on the
strings of the two checks. An index is an `int`. -/
theorem checkMerkleBranch_iff (block : CBlock) {nIndex : BitVec 32} {tx : CTransaction}
    (hindex : 0 ≤ nIndex.toInt) (htx : block.vtx[nIndex.toInt.toNat]? = some tx) :
    let vMerkleBranch := block.getMerkleBranch H nIndex.toInt.toNat
    checkMerkleBranch H (tx.getHash H) vMerkleBranch nIndex = block.buildMerkleTree H ∧
      ∀ hash, Set.InjOn H.hash (merkleBranchStrings H hash vMerkleBranch nIndex ∪
          merkleBranchStrings H (tx.getHash H) vMerkleBranch nIndex) →
        checkMerkleBranch H hash vMerkleBranch nIndex = block.buildMerkleTree H →
          hash = tx.getHash H := by
  have hroot : checkMerkleBranch H (tx.getHash H) (block.getMerkleBranch H nIndex.toInt.toNat)
      nIndex = block.buildMerkleTree H := by
    have hint := nIndex.toInt_lt
    have hself : BitVec.ofNat 32 nIndex.toInt.toNat = nIndex := by
      rw [← BitVec.ofInt_natCast, Int.toNat_of_nonneg hindex, BitVec.ofInt_toInt]
    have hcheck := checkMerkleBranch_getMerkleBranch H block htx (by omega)
    rwa [hself] at hcheck
  refine ⟨hroot, fun hash hinj hcheck ↦ ?_⟩
  refine checkMerkleBranch_inj H ?_ hinj (hcheck.trans hroot.symm)
  rintro rfl
  exact absurd hindex (by decide)

/-- `checkMerkleBranch_iff` for the second transaction of a block of two. -/
theorem checkMerkleBranch_iff_second :
    let txid := CTransaction.getHash toyHashes { nLockTime := 2 }
    let vMerkleBranch := twoTxBlock.getMerkleBranch toyHashes 1
    checkMerkleBranch toyHashes txid vMerkleBranch 1 = twoTxBlock.buildMerkleTree toyHashes ∧
      checkMerkleBranch toyHashes 5 vMerkleBranch 1 ≠ twoTxBlock.buildMerkleTree toyHashes := by
  intro txid vMerkleBranch
  have hindex : 0 ≤ (1 : BitVec 32).toInt := by decide
  have htx : twoTxBlock.vtx[(1 : BitVec 32).toInt.toNat]? = some { nLockTime := 2 } := rfl
  let left := CTransaction.getHash toyHashes { nLockTime := 1 }
  have hbranch : twoTxBlock.getMerkleBranch toyHashes (1 : BitVec 32).toInt.toNat = [left] := by
    rw [CBlock.getMerkleBranch, merkleBranchLoop, if_pos (by decide), merkleBranchLoop,
      if_neg (by decide)]
    rfl
  -- one string is hashed in each check
  have hstrings : ∀ hash, ∀ s ∈ merkleBranchStrings toyHashes hash [left] 1,
      s = joinHashes left hash := fun hash s hs ↦ List.mem_singleton.mp hs
  have hdiffer : toyHashes.hash (joinHashes left 5) ≠ toyHashes.hash (joinHashes left txid) := by
    decide
  obtain ⟨hroot, honly⟩ := checkMerkleBranch_iff toyHashes twoTxBlock hindex htx
  refine ⟨hroot, fun hcheck ↦ absurd (honly 5 ?_ hcheck) (by decide)⟩
  rw [hbranch]
  rintro s (hs | hs) t (ht | ht) heq
  · rw [hstrings _ s hs, hstrings _ t ht]
  · rw [hstrings _ s hs, hstrings _ t ht] at heq
    exact absurd heq hdiffer
  · rw [hstrings _ s hs, hstrings _ t ht] at heq
    exact absurd heq.symm hdiffer
  · rw [hstrings _ s hs, hstrings _ t ht]

end Bitmark
