import Bitmark.Merkle.PartialTree

/-!
# What a partial merkle tree proves

A peer chooses the number of transactions, the bits and the hashes of a `CPartialMerkleTree`.
Whatever it chooses, a tree with the root of a block lists nodes of the block's own merkle tree,
and with the block's number of transactions it lists transaction ids in order. With another number
the leaves beyond the width of the block's tree repeat the nodes at its edge, so that one id can be
listed twice: `TraverseAndExtract` does not compare the two children of a node.
-/

namespace Bitmark

variable (H : Hashes)

/-- The positions of the leaves that a message marks as matched. -/
def CPartialMerkleTree.markedLeaves (pmt : CPartialMerkleTree) : List Nat :=
  match pmt.read with
  | some (t, _, _) => t.marks (treeHeight pmt.nTransactions.toNat)
  | none => []

/-- The strings that are hashed for a message. -/
def CPartialMerkleTree.merkleStrings (pmt : CPartialMerkleTree) : Set Bytes :=
  {s | ∃ t bits hashes, pmt.read = some (t, bits, hashes) ∧
    ∃ p ∈ t.joined (hashPair H), nodeBytes p = s}

/-- The position, in the level of a block's tree as far below the root as the leaves of the
message, of the node that leaf `o` of the message stands for. -/
def CPartialMerkleTree.leafNode (pmt : CPartialMerkleTree) (block : CBlock) (o : Nat) : Nat :=
  let height := treeHeight pmt.nTransactions.toNat
  PartialTree.source block.vtx.length (treeHeight block.vtx.length - height) height 0 o

/-- For every block with distinct transaction hashes and every message with its root: with the
block's number of transactions the matches are transaction hashes of the block, in order and
without repetition, and with any number no match is listed twice exactly when no two marked leaves
stand for one node. The hash is assumed not to collide on the strings of the two trees, and no
transaction hash of the block to be the hash of one of them. -/
theorem extractMatches_sound {block : CBlock} {pmt : CPartialMerkleTree} (hne : block.vtx ≠ [])
    (hunique : (block.txHashes H).Nodup)
    (hinj : Set.InjOn H.hash (block.merkleStrings H ∪ pmt.merkleStrings H))
    (hleaf : ∀ txid ∈ block.txHashes H, ∀ s ∈ block.merkleStrings H ∪ pmt.merkleStrings H,
      txid ≠ H.hash s)
    (hok : (pmt.extractMatches H).2 ≠ 0)
    (hroot : (pmt.extractMatches H).2 = block.buildMerkleTree H) :
    (pmt.nTransactions.toNat = block.vtx.length →
        (pmt.extractMatches H).1.Sublist (block.txHashes H) ∧ (pmt.extractMatches H).1.Nodup) ∧
      ((pmt.extractMatches H).1.Nodup ↔ ∀ o ∈ pmt.markedLeaves, ∀ o' ∈ pmt.markedLeaves,
        pmt.leafNode block o = pmt.leafNode block o' → o = o') := by
  obtain ⟨t, bits, hashes, hread, hextract⟩ := read_of_extractMatches H hok
  have hids : block.txHashes H ≠ [] := by simpa [CBlock.txHashes] using hne
  have hcount : (block.txHashes H).length = block.vtx.length := by simp [CBlock.txHashes]
  let S := PairTree.Joined (hashPair H) (block.txHashes H) ∪ {p | p ∈ t.joined (hashPair H)}
  have hstrings : nodeBytes '' S ⊆ block.merkleStrings H ∪ pmt.merkleStrings H := by
    rintro _ ⟨p, hp | hp, rfl⟩
    · exact .inl (Set.mem_image_of_mem _ hp)
    · exact .inr ⟨t, bits, hashes, hread, p, hp, rfl⟩
  have hpair := injOn_hashPair H (hinj.mono hstrings)
  have hnode : ∀ txid ∈ block.txHashes H, ∀ p ∈ S, txid ≠ hashPair H p.1 p.2 :=
    fun txid htxid p hp ↦ hleaf txid htxid _ (hstrings (Set.mem_image_of_mem nodeBytes hp))
  have hshape := (PartialTree.read_eq_some hread).1
  rw [hextract, CBlock.buildMerkleTree_eq H hne] at hroot
  have hmarks : pmt.markedLeaves = t.marks (treeHeight pmt.nTransactions.toNat) := by
    rw [CPartialMerkleTree.markedLeaves, hread]
  rw [hextract, hmarks]
  constructor
  · intro heq
    rw [heq, ← hcount, treeHeight_eq] at hshape
    have hsub := PartialTree.marked_sublist hpair Set.subset_union_left hids hshape
      (fun p hp ↦ Set.mem_union_right _ hp) hroot
    exact ⟨hsub, hunique.sublist hsub⟩
  · have hiff := PartialTree.nodup_marked_iff hpair Set.subset_union_left hnode hunique hids hshape
      (fun p hp ↦ Set.mem_union_right _ hp) hroot
    rw [hcount, PairTree.height, hcount, ← treeHeight_eq] at hiff
    exact hiff

/-! ### Two messages -/

/-- Blocks of transactions that differ in their lock times. -/
def lockTimeBlock (nLockTimes : List (BitVec 32)) : CBlock :=
  { vtx := nLockTimes.map fun nLockTime ↦ { nLockTime } }

/-- The strings of a small tree, level by level. -/
private theorem merkleStrings_subset (block : CBlock) (h : Nat) {strings : List Bytes}
    (hheight : PairTree.height (block.txHashes H) = h)
    (hlevels : ((List.range h).flatMap fun k ↦
      (PairTree.joins (PairTree.level (hashPair H) (block.txHashes H) k)).map nodeBytes) = strings) :
    ∀ s ∈ block.merkleStrings H, s ∈ strings := by
  rintro s ⟨p, ⟨k, hk, hp⟩, rfl⟩
  rw [hheight] at hk
  rw [← hlevels, List.mem_flatMap]
  exact ⟨k, List.mem_range.mpr hk, List.mem_map_of_mem hp⟩

/-- The strings of a small message. -/
private theorem messageStrings_subset (pmt : CPartialMerkleTree) (t : PartialTree Uint256)
    {strings : List Bytes} {rest : List Bool × List Uint256}
    (hread : pmt.read = some (t, rest)) (hjoined : (t.joined (hashPair H)).map nodeBytes = strings) :
    ∀ s ∈ pmt.merkleStrings H, s ∈ strings := by
  rintro s ⟨t', bits, hashes, hread', p, hp, rfl⟩
  obtain ⟨rfl, -⟩ := Prod.mk.inj (Option.some.inj (hread.symm.trans hread'))
  rw [← hjoined]
  exact List.mem_map_of_mem hp

/-- The assumptions on the hash, for finitely many strings. -/
private theorem hash_assumptions {block : CBlock} {pmt : CPartialMerkleTree} {strings : List Bytes}
    (hblock : ∀ s ∈ block.merkleStrings H, s ∈ strings)
    (hpmt : ∀ s ∈ pmt.merkleStrings H, s ∈ strings)
    (hinj : ∀ s ∈ strings, ∀ t ∈ strings, H.hash s = H.hash t → s = t)
    (hleaf : ∀ s ∈ strings, H.hash s ∉ block.txHashes H) :
    Set.InjOn H.hash (block.merkleStrings H ∪ pmt.merkleStrings H) ∧
      ∀ txid ∈ block.txHashes H, ∀ s ∈ block.merkleStrings H ∪ pmt.merkleStrings H,
        txid ≠ H.hash s := by
  have hall : ∀ s ∈ block.merkleStrings H ∪ pmt.merkleStrings H, s ∈ strings := by
    rintro s (hs | hs)
    · exact hblock s hs
    · exact hpmt s hs
  constructor
  · intro s hs t ht heq
    exact hinj s (hall s hs) t (hall t ht) heq
  · rintro txid htxid s hs rfl
    exact hleaf s (hall s hs) htxid

/-- The message for a block of two transactions that matches the second. -/
def secondMatched : CPartialMerkleTree :=
  { nTransactions := 2
    vBits := [true, false, true, false, false, false, false, false]
    vHash := (lockTimeBlock [1, 2]).txHashes toyHashes }

/-- `extractMatches_sound` at that block and message. -/
theorem extractMatches_sound_two :
    (secondMatched.nTransactions.toNat = (lockTimeBlock [1, 2]).vtx.length →
        (secondMatched.extractMatches toyHashes).1.Sublist ((lockTimeBlock [1, 2]).txHashes toyHashes) ∧
          (secondMatched.extractMatches toyHashes).1.Nodup) ∧
      ((secondMatched.extractMatches toyHashes).1.Nodup ↔
        ∀ o ∈ secondMatched.markedLeaves, ∀ o' ∈ secondMatched.markedLeaves,
          secondMatched.leafNode (lockTimeBlock [1, 2]) o =
            secondMatched.leafNode (lockTimeBlock [1, 2]) o' → o = o') := by
  let ids := (lockTimeBlock [1, 2]).txHashes toyHashes
  let t := PartialTree.node (.stored false (ids.getD 0 0)) (.stored true (ids.getD 1 0))
  have hassume := hash_assumptions toyHashes
    (merkleStrings_subset toyHashes (lockTimeBlock [1, 2]) 1 (by decide) rfl)
    (messageStrings_subset toyHashes secondMatched t rfl rfl) (by decide)
    (by decide)
  exact extractMatches_sound toyHashes (by decide) (by decide) hassume.1 hassume.2
    (by decide) (by decide)

/-- A message for a block of three transactions that claims four and matches the last two leaves:
both are the third transaction. -/
def repeatedLeaf : CPartialMerkleTree :=
  let ids := (lockTimeBlock [1, 2, 3]).txHashes toyHashes
  { nTransactions := 4
    vBits := [true, false, true, true, true, false, false, false]
    vHash := [hashPair toyHashes (ids.getD 0 0) (ids.getD 1 0), ids.getD 2 0, ids.getD 2 0] }

/-- The message has the root of the block and lists one transaction twice, although the hash does
not collide and the transactions are distinct. -/
theorem extractMatches_repeats :
    ((lockTimeBlock [1, 2, 3]).txHashes toyHashes).Nodup ∧
      Set.InjOn toyHashes.hash ((lockTimeBlock [1, 2, 3]).merkleStrings toyHashes ∪
        repeatedLeaf.merkleStrings toyHashes) ∧
      (∀ txid ∈ (lockTimeBlock [1, 2, 3]).txHashes toyHashes,
        ∀ s ∈ (lockTimeBlock [1, 2, 3]).merkleStrings toyHashes ∪
          repeatedLeaf.merkleStrings toyHashes, txid ≠ toyHashes.hash s) ∧
      CPartialMerkleTree.unserialize repeatedLeaf.serialize = some (repeatedLeaf, []) ∧
      (repeatedLeaf.extractMatches toyHashes).2 ≠ 0 ∧
      (repeatedLeaf.extractMatches toyHashes).2 =
        (lockTimeBlock [1, 2, 3]).buildMerkleTree toyHashes ∧
      ¬ (repeatedLeaf.extractMatches toyHashes).1.Nodup := by
  let ids := (lockTimeBlock [1, 2, 3]).txHashes toyHashes
  let t := PartialTree.node (.stored false (hashPair toyHashes (ids.getD 0 0) (ids.getD 1 0)))
    (.node (.stored true (ids.getD 2 0)) (.stored true (ids.getD 2 0)))
  let leaves := nodeBytes (ids.getD 0 0, ids.getD 1 0)
  let edge := nodeBytes (ids.getD 2 0, ids.getD 2 0)
  let top := nodeBytes (hashPair toyHashes (ids.getD 0 0) (ids.getD 1 0),
    hashPair toyHashes (ids.getD 2 0) (ids.getD 2 0))
  have hblock : ∀ s ∈ (lockTimeBlock [1, 2, 3]).merkleStrings toyHashes, s ∈ [leaves, edge, top] :=
    merkleStrings_subset toyHashes (lockTimeBlock [1, 2, 3]) 2 (by decide) rfl
  have hmessage : ∀ s ∈ repeatedLeaf.merkleStrings toyHashes, s ∈ [edge, top].reverse :=
    messageStrings_subset toyHashes repeatedLeaf t rfl rfl
  have hassume := hash_assumptions toyHashes hblock
    (fun s hs ↦ List.mem_cons_of_mem leaves (List.mem_reverse.mp (hmessage s hs)))
    (by decide) (by decide)
  exact ⟨by decide +kernel, hassume.1, hassume.2, by decide +kernel, by decide +kernel,
    by decide, by decide⟩

end Bitmark
