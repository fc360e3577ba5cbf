import Bitmark.Lib.PairTree
import Bitmark.Primitives.Block

/-!
# The merkle root

`CBlock::BuildMerkleTree` (`src/core.cpp:246`) pairs the last node of an odd level with itself, so
blocks that repeat transactions can share a root. The check of `CheckBlock` for unique transaction
hashes (`src/main.cpp:2897`) leaves a root with one list of hashes only.
-/

namespace Bitmark

variable (H : Hashes)

/-- The 64 bytes that are hashed for a node of the tree. -/
def nodeBytes (p : Uint256 × Uint256) : Bytes := bytes256 p.1 ++ bytes256 p.2

theorem nodeBytes_inj {p q : Uint256 × Uint256} (h : nodeBytes p = nodeBytes q) : p = q := by
  obtain ⟨h₁, h₂⟩ := List.append_inj h (by simp)
  exact Prod.ext (bytes256_inj h₁) (bytes256_inj h₂)

/-- A hash function that does not collide on the strings of some nodes does not collide on the
nodes. -/
theorem injOn_hashPair {S : Set (Uint256 × Uint256)} (h : Set.InjOn H.hash (nodeBytes '' S)) :
    Set.InjOn (fun p : Uint256 × Uint256 ↦ hashPair H p.1 p.2) S := by
  intro p hp q hq heq
  exact nodeBytes_inj (h (Set.mem_image_of_mem _ hp) (Set.mem_image_of_mem _ hq) heq)

theorem merkleLevel_eq_up (level : List Uint256) :
    merkleLevel H level = PairTree.up (hashPair H) level := by
  induction level using merkleLevel.induct with
  | case1 => rfl
  | case2 a => rfl
  | case3 a b level ih => rw [merkleLevel, ih, PairTree.up, PairTree.up, PairTree.joins, List.map_cons]

/-- The levels end in the root. -/
theorem getLast?_merkleLevels {fuel : Nat} {level : List Uint256} (hne : level ≠ [])
    (hfuel : level.length ≤ fuel) :
    (merkleLevels H fuel level).getLast? = some (PairTree.root (hashPair H) 0 level) := by
  induction fuel generalizing level with
  | zero => exact absurd (List.length_eq_zero_iff.mp (by omega)) hne
  | succ fuel ih =>
    rw [merkleLevels]
    split
    · next hlen =>
      have hup : PairTree.up (hashPair H) level ≠ [] := by
        intro hnil
        have := congrArg List.length hnil
        rw [PairTree.length_up, List.length_nil] at this
        omega
      have hlast := ih hup (by rw [PairTree.length_up]; omega)
      rw [merkleLevel_eq_up, List.getLast?_append, hlast, PairTree.root_up _ _ hlen]
      rfl
    · next hlen =>
      obtain ⟨a, rfl⟩ := List.length_eq_one_iff.mp
        (show level.length = 1 by have := List.length_pos_iff.mpr hne; omega)
      rfl

/-- What `BuildMerkleTree` returns for the transaction hashes it starts with. -/
def merkleRoot (vTxid : List Uint256) : Uint256 :=
  ((merkleLevels H vTxid.length vTxid).getLast?).getD 0

theorem merkleRoot_eq {vTxid : List Uint256} (hne : vTxid ≠ []) :
    merkleRoot H vTxid = PairTree.root (hashPair H) 0 vTxid := by
  rw [merkleRoot, getLast?_merkleLevels H hne le_rfl]
  rfl

/-- `BuildMerkleTree` is the root over the transaction hashes. -/
theorem CBlock.buildMerkleTree_eq {block : CBlock} (hne : block.vtx ≠ []) :
    block.buildMerkleTree H = PairTree.root (hashPair H) 0 (block.txHashes H) := by
  have hhashes : block.txHashes H ≠ [] := by simpa [txHashes] using hne
  have hlen : block.vtx.length = (block.txHashes H).length := by simp [txHashes]
  rw [buildMerkleTree, vMerkleTree, ← txHashes, hlen]
  exact merkleRoot_eq H hhashes

/-- The strings that `BuildMerkleTree` hashes. -/
def CBlock.merkleStrings (block : CBlock) : Set Bytes :=
  nodeBytes '' PairTree.Joined (hashPair H) (block.txHashes H)

/-- For every two nonempty lists of transactions without repeated hashes, one root means one list
of hashes, also for lists of different lengths. The hash is assumed not to collide on the strings
of the two trees, and no transaction hash to be the hash of one of them. -/
theorem buildMerkleTree_binds {b₁ b₂ : CBlock} (hne₁ : b₁.vtx ≠ []) (hne₂ : b₂.vtx ≠ [])
    (hunique₁ : (b₁.txHashes H).Nodup) (hunique₂ : (b₂.txHashes H).Nodup)
    (hinj : Set.InjOn H.hash (b₁.merkleStrings H ∪ b₂.merkleStrings H))
    (hleaf : ∀ txid ∈ b₁.txHashes H ++ b₂.txHashes H,
      ∀ s ∈ b₁.merkleStrings H ∪ b₂.merkleStrings H, txid ≠ H.hash s)
    (hroot : b₁.buildMerkleTree H = b₂.buildMerkleTree H) : b₁.txHashes H = b₂.txHashes H := by
  unfold CBlock.merkleStrings at hinj hleaf
  rw [← Set.image_union] at hinj hleaf
  have hnode : ∀ txid ∈ b₁.txHashes H ++ b₂.txHashes H,
      ∀ p ∈ PairTree.Joined (hashPair H) (b₁.txHashes H) ∪
        PairTree.Joined (hashPair H) (b₂.txHashes H), txid ≠ hashPair H p.1 p.2 :=
    fun txid htxid p hp ↦ hleaf txid htxid _ (Set.mem_image_of_mem nodeBytes hp)
  rw [CBlock.buildMerkleTree_eq H hne₁, CBlock.buildMerkleTree_eq H hne₂] at hroot
  exact PairTree.root_binds (injOn_hashPair H hinj) 0 Set.subset_union_left Set.subset_union_right
    hunique₁ hunique₂ (by simpa [CBlock.txHashes] using hne₁) (by simpa [CBlock.txHashes] using hne₂)
    (fun a ha ↦ hnode a (List.mem_append_left _ ha))
    (fun a ha ↦ hnode a (List.mem_append_right _ ha)) hroot

/-- A block of two transactions. -/
def twoTxBlock : CBlock := { vtx := [{ nLockTime := 1 }, { nLockTime := 2 }] }

/-- A block with the same transactions on another day. -/
def laterTwoTxBlock : CBlock := { twoTxBlock with nTime := 86400, nNonce := 7 }

/-- `buildMerkleTree_binds` at two blocks of two transactions. -/
theorem buildMerkleTree_binds_two :
    twoTxBlock ≠ laterTwoTxBlock ∧
      twoTxBlock.buildMerkleTree toyHashes = laterTwoTxBlock.buildMerkleTree toyHashes ∧
      twoTxBlock.txHashes toyHashes = laterTwoTxBlock.txHashes toyHashes := by
  let only := nodeBytes ((twoTxBlock.txHashes toyHashes)[0]!, (twoTxBlock.txHashes toyHashes)[1]!)
  have hstrings : ∀ s ∈ twoTxBlock.merkleStrings toyHashes, s = only := by
    rintro s ⟨p, ⟨k, hk, hp⟩, rfl⟩
    obtain rfl : k = 0 := by
      have hheight : PairTree.height (twoTxBlock.txHashes toyHashes) = 1 := by decide
      omega
    rw [List.mem_singleton.mp hp]
    rfl
  have hleaves : (twoTxBlock.txHashes toyHashes).all (· ≠ toyHashes.hash only) = true := by
    decide
  have hboth : ∀ s ∈ twoTxBlock.merkleStrings toyHashes ∪ laterTwoTxBlock.merkleStrings toyHashes,
      s = only := fun s hs ↦ hs.elim (hstrings s) (hstrings s)
  refine ⟨by decide, rfl, buildMerkleTree_binds toyHashes (by decide) (by decide) (by decide)
    (by decide) ?_ ?_ rfl⟩
  · intro s hs t ht _
    rw [hboth s hs, hboth t ht]
  · intro txid htxid s hs
    have hmem : txid ∈ twoTxBlock.txHashes toyHashes :=
      (List.mem_append.mp htxid).elim (fun h ↦ h) (fun h ↦ h)
    rw [hboth s hs]
    simpa using List.all_eq_true.mp hleaves txid hmem

end Bitmark
