import Bitmark.Base.HashOrder
import Bitmark.Consensus.AcceptBlock
import Bitmark.Lib.SortedMap
import Bitmark.Lib.SortedMultimap
import Bitmark.Lib.Walk

/-!
# Orphan blocks

A block whose parent is not in the index waits in `mapOrphanBlocks`, and under the hash of its
parent in `mapOrphanBlocksByPrev`, until `ProcessBlock` has accepted the parent
(`src/main.cpp:1161–1199` and `3039–3134`).
-/

namespace Bitmark

/-- `COrphanBlock`, with the block that `vchBlock` is read back as. -/
structure COrphanBlock where
  hashBlock : Uint256
  hashPrev : Uint256
  block : CBlock
deriving DecidableEq

/-- The index, which has each block with its ancestors, and the two maps of orphans. -/
structure BlockStore where
  mapBlockIndex : SortedMap Uint256 ChainIndex := ∅
  mapOrphanBlocks : SortedMap Uint256 COrphanBlock := ∅
  mapOrphanBlocksByPrev : SortedMultimap Uint256 COrphanBlock := ∅

/-- What `AcceptBlock` meets outside the index. -/
structure AcceptEnv where
  node : Node
  /-- `FindBlockPos` and `WriteBlockToDisk` succeed. -/
  writesBlock : CBlock → Bool := fun _ ↦ true
  /-- `WriteBlockIndex` and `ActivateBestChain` succeed, once the block is in the index. -/
  activates : CBlock → Bool := fun _ ↦ true

/-- `Checkpoints::GetLastCheckpoint`, `src/checkpoints.cpp:150`, as the height of the block. -/
def Node.getLastCheckpoint (node : Node) (mapBlockIndex : SortedMap Uint256 ChainIndex) :
    Option ℕ :=
  (node.checkpoints.reverse.findSome? fun c ↦ mapBlockIndex.lookup c.2).map (·.length - 1)

namespace AcceptEnv

/-- The rules of `AcceptBlock`, which genesis is exempt from. -/
def acceptRules (env : AcceptEnv) (block : CBlock) (state : CValidationState)
    (mapBlockIndex : SortedMap Uint256 ChainIndex) : Verdict Unit :=
  if block.getHash env.node.hashes = env.node.params.hashGenesisBlock then .accept ()
  else
    match mapBlockIndex.lookup block.hashPrevBlock with
    | none => .refuse (state.doS 10 0 "bad-prevblk")
    | some pindexPrev =>
      env.node.contextCheck block state pindexPrev (env.node.getLastCheckpoint mapBlockIndex)

/-- `AcceptBlock`, `src/main.cpp:2916`: what it returns, and the index with what `AddToBlockIndex`
puts in. The entry stays there when the block then fails to be activated. -/
def acceptBlock (env : AcceptEnv) (block : CBlock) (state : CValidationState)
    (mapBlockIndex : SortedMap Uint256 ChainIndex) :
    Option (Bool × SortedMap Uint256 ChainIndex) :=
  let hash := block.getHash env.node.hashes
  if (mapBlockIndex.lookup hash).isSome then some (false, mapBlockIndex)
  else
    match env.acceptRules block state mapBlockIndex with
    | .abort => none
    | .refuse _ => some (false, mapBlockIndex)
    | .accept _ =>
      if env.writesBlock block then
        some (env.activates block, mapBlockIndex.insert hash
          (block.indexEntry env.node.hashes ::
            (mapBlockIndex.lookup block.hashPrevBlock).getD []))
      else some (false, mapBlockIndex)

end AcceptEnv

namespace BlockStore

/-- `DEFAULT_MAX_ORPHAN_BLOCKS`. -/
def defaultMaxOrphanBlocks : Int := 750

/-- The parent of an orphan, when it is an orphan as well. -/
def orphanParent (s : BlockStore) (hash : Uint256) : Option Uint256 :=
  match s.mapOrphanBlocks.lookup hash with
  | none => none
  | some o => (s.mapOrphanBlocks.lookup o.hashPrev).map fun _ ↦ o.hashPrev

/-- `GetOrphanRoot`, or `none` when its loop does not end. -/
def getOrphanRoot (s : BlockStore) (hash : Uint256) : Option Uint256 :=
  Walk.walk s.orphanParent s.mapOrphanBlocks.keys.length hash

/-- The loop of `PruneOrphanBlocks` from an entry to one that no orphan depends on, or `none` when
it does not end. -/
def orphanLeaf (s : BlockStore) (it : Uint256 × COrphanBlock) : Option (Uint256 × COrphanBlock) :=
  Walk.walk (fun it ↦ s.mapOrphanBlocksByPrev.find it.2.hashBlock)
    s.mapOrphanBlocksByPrev.entries.length it

/-- Take an orphan out of both maps. -/
def eraseOrphan (s : BlockStore) (it : Uint256 × COrphanBlock) : BlockStore :=
  { s with
    mapOrphanBlocksByPrev := s.mapOrphanBlocksByPrev.eraseEntry it
    mapOrphanBlocks := s.mapOrphanBlocks.erase it.2.hashBlock }

/-- `PruneOrphanBlocks` with the value of `-maxorphanblocks` and of `insecure_rand`: the orphan it
removes and what it leaves. -/
def pruneOrphanBlocks (s : BlockStore) (maxOrphanBlocks : Int) (rand : ℕ) :
    Option (Option COrphanBlock × BlockStore) :=
  if s.mapOrphanBlocksByPrev.size ≤ (max 0 maxOrphanBlocks).toNat then some (none, s)
  else do
    let it ← s.mapOrphanBlocksByPrev.entries[rand % s.mapOrphanBlocksByPrev.size]?
    let it ← s.orphanLeaf it
    some (some it.2, s.eraseOrphan it)

/-- Put an orphan into both maps. -/
def addOrphan (s : BlockStore) (o : COrphanBlock) : BlockStore :=
  { s with
    mapOrphanBlocks := s.mapOrphanBlocks.insert o.hashBlock o
    mapOrphanBlocksByPrev := s.mapOrphanBlocksByPrev.insert o.hashPrev o }

/-- `AcceptBlock` for the orphans that wait for one block, with what it returns for each. They leave
`mapOrphanBlocks`. -/
def offerAll (s : BlockStore) (env : AcceptEnv) :
    List COrphanBlock → Option (BlockStore × List (COrphanBlock × Bool))
  | [] => some (s, [])
  | o :: os =>
    match env.acceptBlock o.block {} s.mapBlockIndex with
    | none => none
    | some (accepted, mapBlockIndex) =>
      (offerAll { s with mapBlockIndex, mapOrphanBlocks := s.mapOrphanBlocks.erase o.hashBlock }
        env os).map fun r ↦ (r.1, (o, accepted) :: r.2)

/-- The hashes of the accepted ones, which go into the work queue. -/
def acceptedHashes (offers : List (COrphanBlock × Bool)) : List Uint256 :=
  (offers.filter (·.2)).map (·.1.hashBlock)

theorem offerAll_shape {s s' : BlockStore} {env : AcceptEnv} {os : List COrphanBlock}
    {offers : List (COrphanBlock × Bool)} (h : s.offerAll env os = some (s', offers)) :
    offers.map (·.1) = os ∧ s'.mapOrphanBlocksByPrev = s.mapOrphanBlocksByPrev := by
  induction os generalizing s s' offers with
  | nil =>
    obtain ⟨rfl, rfl⟩ := Prod.mk.inj (Option.some.inj h)
    exact ⟨rfl, rfl⟩
  | cons o os ih =>
    rw [offerAll] at h
    split at h
    case h_1 => cases h
    case h_2 accepted mapBlockIndex hacc =>
      obtain ⟨⟨t, later⟩, hrest, heq⟩ := Option.map_eq_some_iff.mp h
      obtain ⟨rfl, rfl⟩ := Prod.mk.inj heq
      obtain ⟨hmap, hprev⟩ := ih hrest
      rw [List.map_cons, hmap, hprev]
      exact ⟨rfl, rfl⟩

theorem length_acceptedHashes_le (offers : List (COrphanBlock × Bool)) :
    (acceptedHashes offers).length ≤ (offers.map (·.1)).length := by
  rw [acceptedHashes, List.length_map, List.length_map]
  exact List.length_filter_le _ _

/-- Those that waited for a block leave `mapOrphanBlocksByPrev` after they have been offered. -/
def afterOffers (s : BlockStore) (hashPrev : Uint256) : BlockStore :=
  { s with mapOrphanBlocksByPrev := s.mapOrphanBlocksByPrev.eraseKey hashPrev }

/-- The work queue of `ProcessBlock`: the orphans that wait for its first block are offered, and the
accepted ones go to its end. -/
def offerOrphans (env : AcceptEnv) (vWorkQueue : List Uint256) (s : BlockStore) :
    Option (BlockStore × List (COrphanBlock × Bool)) :=
  match vWorkQueue with
  | [] => some (s, [])
  | hashPrev :: vWorkQueue =>
    match h : s.offerAll env (s.mapOrphanBlocksByPrev.equalRange hashPrev) with
    | none => none
    | some (s', offers) =>
      (offerOrphans env (vWorkQueue ++ acceptedHashes offers) (s'.afterOffers hashPrev)).map
        fun r ↦ (r.1, offers ++ r.2)
termination_by s.mapOrphanBlocksByPrev.size + vWorkQueue.length
decreasing_by
  obtain ⟨hoffers, hprev⟩ := offerAll_shape h
  have hsize := SortedMultimap.size_eraseKey s.mapOrphanBlocksByPrev hashPrev
  have hle := length_acceptedHashes_le offers
  rw [hoffers] at hle
  have hleft : (s'.afterOffers hashPrev).mapOrphanBlocksByPrev =
      s.mapOrphanBlocksByPrev.eraseKey hashPrev := by
    rw [← hprev]
    rfl
  rw [hleft, List.length_append, List.length_cons]
  omega

end BlockStore

/-- A call of `ProcessBlock`. -/
structure ProcessCall where
  env : AcceptEnv
  block : CBlock
  state : CValidationState := {}
  /-- There is a node to request the parents from. -/
  pfrom : Bool := true
  /-- What `insecure_rand` returns. -/
  rand : ℕ := 0

/-- The hash of the block. -/
def ProcessCall.hash (c : ProcessCall) : Uint256 := c.block.getHash c.env.node.hashes

/-- `CheckBlock` does not return, or `AcceptBlock` does not for some block. -/
def ProcessCall.Aborts (c : ProcessCall) : Prop :=
  c.env.node.checkBlock c.block c.state true true = .abort ∨
    ∃ block state mapBlockIndex, c.env.acceptBlock block state mapBlockIndex = none

/-- What `ProcessBlock` returns and leaves, the orphan it removed, the block it asked the peer to go
up to, and the orphans it offered to `AcceptBlock` with what that returned. -/
structure Processed where
  result : Bool
  store : BlockStore
  pruned : Option COrphanBlock := none
  hashEnd : Option Uint256 := none
  offers : List (COrphanBlock × Bool) := []

namespace BlockStore

/-- The branch of `ProcessBlock` for a block without its parent. -/
def keepOrphan (s : BlockStore) (maxOrphanBlocks : Int) (c : ProcessCall) : Option Processed :=
  if c.pfrom then do
    let (pruned, s) ← s.pruneOrphanBlocks maxOrphanBlocks c.rand
    let s := s.addOrphan ⟨c.hash, c.block.hashPrevBlock, c.block⟩
    let hashEnd ← s.getOrphanRoot c.hash
    some { result := true, store := s, pruned, hashEnd }
  else some { result := true, store := s }

/-- The branch of `ProcessBlock` for a block with its parent. -/
def acceptAndOffer (s : BlockStore) (c : ProcessCall) : Option Processed := do
  let (accepted, mapBlockIndex) ← c.env.acceptBlock c.block c.state s.mapBlockIndex
  let s := { s with mapBlockIndex }
  if accepted then
    let (s, offers) ← offerOrphans c.env [c.hash] s
    some { result := true, store := s, offers }
  else some { result := false, store := s }

/-- `ProcessBlock`, `src/main.cpp:3039`. It does not return where `CheckBlock` or `AcceptBlock` does
not. -/
def processBlock (s : BlockStore) (maxOrphanBlocks : Int) (c : ProcessCall) : Option Processed :=
  if (s.mapBlockIndex.lookup c.hash).isSome then some { result := false, store := s }
  else if (s.mapOrphanBlocks.lookup c.hash).isSome then some { result := false, store := s }
  else
    match c.env.node.checkBlock c.block c.state true true with
    | .abort => none
    | .refuse _ => some { result := false, store := s }
    | .accept _ =>
      if c.block.hashPrevBlock ≠ 0 ∧ s.mapBlockIndex.lookup c.block.hashPrevBlock = none then
        s.keepOrphan maxOrphanBlocks c
      else s.acceptAndOffer c

/-- The store after a sequence of calls. -/
def processBlocks (s : BlockStore) (maxOrphanBlocks : Int) : List ProcessCall → Option BlockStore
  | [] => some s
  | c :: calls => do
    let r ← s.processBlock maxOrphanBlocks c
    r.store.processBlocks maxOrphanBlocks calls

/-! ### The two maps -/

/-- An orphan is stored. -/
def Stores (s : BlockStore) (o : COrphanBlock) : Prop :=
  s.mapOrphanBlocks.lookup o.hashBlock = some o

/-- The two maps have the same orphans, each made from its block, under the hash of the block and
once under the hash of its parent. -/
structure Paired (H : Hashes) (s : BlockStore) : Prop where
  keyed : ∀ hash o, s.mapOrphanBlocks.lookup hash = some o → o.hashBlock = hash
  made : ∀ o, s.Stores o → o.hashBlock = o.block.getHash H ∧ o.hashPrev = o.block.hashPrevBlock
  byPrev : ∀ it, it ∈ s.mapOrphanBlocksByPrev.entries ↔ it.1 = it.2.hashPrev ∧ s.Stores it.2
  nodup : s.mapOrphanBlocksByPrev.entries.Nodup

variable {H : Hashes} {s s' t : BlockStore} {env : AcceptEnv} {maxOrphanBlocks : Int}

theorem paired_empty (mapBlockIndex : SortedMap Uint256 ChainIndex) :
    Paired H { mapBlockIndex } where
  keyed hash o h := by cases h
  made o h := by cases h
  byPrev it := by
    constructor
    · intro h
      cases h
    · rintro ⟨-, h⟩
      cases h
  nodup := List.nodup_nil

theorem Paired.congr (h : s.Paired H) (horphans : t.mapOrphanBlocks = s.mapOrphanBlocks)
    (hprev : t.mapOrphanBlocksByPrev = s.mapOrphanBlocksByPrev) : t.Paired H where
  keyed hash o ho := h.keyed hash o (horphans ▸ ho)
  made o ho := h.made o (by rw [Stores, ← horphans]; exact ho)
  byPrev it := by
    rw [hprev, h.byPrev, Stores, Stores, horphans]
  nodup := hprev ▸ h.nodup

theorem Paired.stores (h : s.Paired H) {hash : Uint256} {o : COrphanBlock}
    (ho : s.mapOrphanBlocks.lookup hash = some o) : s.Stores o := by
  obtain rfl := h.keyed hash o ho
  exact ho

/-- The orphans under the hash of a parent. -/
theorem Paired.mem_equalRange (h : s.Paired H) {hashPrev : Uint256} {o : COrphanBlock} :
    o ∈ s.mapOrphanBlocksByPrev.equalRange hashPrev ↔ o.hashPrev = hashPrev ∧ s.Stores o := by
  rw [SortedMultimap.mem_equalRange, h.byPrev]
  exact and_congr_left' eq_comm

theorem stores_eraseOrphan {it : Uint256 × COrphanBlock} {o : COrphanBlock} :
    (s.eraseOrphan it).Stores o ↔ o.hashBlock ≠ it.2.hashBlock ∧ s.Stores o := by
  rw [Stores, eraseOrphan, SortedMap.lookup_erase]
  split
  case isTrue heq => simp [heq]
  case isFalse hne => simp [hne, Stores]

theorem Paired.eraseOrphan (h : s.Paired H) {it : Uint256 × COrphanBlock}
    (hit : it ∈ s.mapOrphanBlocksByPrev.entries) : (s.eraseOrphan it).Paired H where
  keyed hash o ho := by
    rw [BlockStore.eraseOrphan, SortedMap.lookup_erase] at ho
    split at ho
    · cases ho
    · exact h.keyed hash o ho
  made o ho := h.made o (stores_eraseOrphan.mp ho).2
  byPrev it' := by
    obtain ⟨hkey, hstored⟩ := (h.byPrev it).mp hit
    rw [BlockStore.eraseOrphan, SortedMultimap.mem_eraseEntry h.nodup, h.byPrev]
    change _ ↔ _ ∧ (s.eraseOrphan it).Stores it'.2
    rw [stores_eraseOrphan]
    constructor
    · rintro ⟨hne, hkey', hstored'⟩
      refine ⟨hkey', ?_, hstored'⟩
      intro heq
      -- the hash of a block selects its orphan, and the orphan its parent
      have horphan : it'.2 = it.2 := by
        rw [Stores, heq, hstored] at hstored'
        exact (Option.some.inj hstored').symm
      exact hne (Prod.ext (by rw [hkey', hkey, horphan]) horphan)
    · rintro ⟨hkey', hne, hstored'⟩
      exact ⟨fun heq ↦ hne (by rw [heq]), hkey', hstored'⟩
  nodup := SortedMultimap.nodup_eraseEntry h.nodup it

theorem stores_addOrphan {o o' : COrphanBlock}
    (hnew : s.mapOrphanBlocks.lookup o.hashBlock = none) :
    (s.addOrphan o).Stores o' ↔ o' = o ∨ s.Stores o' := by
  rw [Stores, addOrphan, SortedMap.lookup_insert, Stores]
  split
  case isTrue heq =>
    rw [heq, hnew]
    simp [eq_comm]
  case isFalse hne =>
    refine (or_iff_right ?_).symm
    rintro rfl
    exact hne rfl

theorem Paired.addOrphan (h : s.Paired H) {o : COrphanBlock}
    (hnew : s.mapOrphanBlocks.lookup o.hashBlock = none)
    (hmade : o.hashBlock = o.block.getHash H ∧ o.hashPrev = o.block.hashPrevBlock) :
    (s.addOrphan o).Paired H where
  keyed hash o' ho' := by
    rw [BlockStore.addOrphan, SortedMap.lookup_insert] at ho'
    split at ho'
    case isTrue heq =>
      obtain rfl := Option.some.inj ho'
      exact heq.symm
    case isFalse => exact h.keyed hash o' ho'
  made o' ho' := by
    rcases (stores_addOrphan hnew).mp ho' with rfl | ho'
    · exact hmade
    · exact h.made o' ho'
  byPrev it := by
    rw [stores_addOrphan hnew, BlockStore.addOrphan, SortedMultimap.mem_insert, h.byPrev]
    constructor
    · rintro (rfl | ⟨hkey, hstored⟩)
      · exact ⟨rfl, .inl rfl⟩
      · exact ⟨hkey, .inr hstored⟩
    · rintro ⟨hkey, heq | hstored⟩
      · exact .inl (Prod.ext (by rw [hkey, heq]) heq)
      · exact .inr ⟨hkey, hstored⟩
  nodup := by
    apply SortedMultimap.nodup_insert h.nodup
    intro hmem
    have hstored := ((h.byPrev _).mp hmem).2
    rw [Stores, hnew] at hstored
    cases hstored

/-! ### Chains of orphans -/

/-- The hashes of blocks rank above those of their parents. -/
def Ranked (rank : Uint256 → ℕ) (s : BlockStore) : Prop :=
  ∀ o, s.Stores o → rank o.hashPrev < rank o.hashBlock

variable {rank : Uint256 → ℕ}

/-- `GetOrphanRoot` comes to an end. -/
theorem isSome_getOrphanRoot (h : s.Paired H) (hrank : s.Ranked rank) (hash : Uint256) :
    (s.getOrphanRoot hash).isSome := by
  apply Walk.isSome_walk (P := fun _ ↦ True) rank _ _ trivial
  intro a b _ hnext
  unfold orphanParent at hnext
  split at hnext
  next => cases hnext
  next o ho =>
    obtain ⟨o', ho', rfl⟩ := Option.map_eq_some_iff.mp hnext
    have hlt := hrank o (h.stores ho)
    rw [h.keyed a o ho] at hlt
    exact ⟨trivial, SortedMap.mem_keys.mpr ⟨o', ho'⟩, hlt⟩

/-- No orphan builds on this one. -/
def Childless (s : BlockStore) (o : COrphanBlock) : Prop :=
  ∀ o', s.Stores o' → o'.hashPrev ≠ o.hashBlock

/-- The loop of `PruneOrphanBlocks` comes to an orphan that no other one builds on. -/
theorem exists_orphanLeaf (h : s.Paired H) (hrank : s.Ranked rank) {it : Uint256 × COrphanBlock}
    (hit : it ∈ s.mapOrphanBlocksByPrev.entries) :
    ∃ leaf, s.orphanLeaf it = some leaf ∧ leaf ∈ s.mapOrphanBlocksByPrev.entries ∧
      s.Childless leaf.2 := by
  have hnext : ∀ a b : Uint256 × COrphanBlock,
      s.mapOrphanBlocksByPrev.find a.2.hashBlock = some b →
      b ∈ s.mapOrphanBlocksByPrev.entries ∧ rank a.2.hashBlock < rank b.2.hashBlock := by
    intro a b hb
    obtain ⟨hmem, hkey⟩ := SortedMultimap.mem_of_find hb
    obtain ⟨hprev, hstored⟩ := (h.byPrev b).mp hmem
    have hlt := hrank b.2 hstored
    rw [← hprev, hkey] at hlt
    exact ⟨hmem, hlt⟩
  have hsome : (s.orphanLeaf it).isSome :=
    Walk.isSome_walk (P := fun _ ↦ True)
      (fun it : Uint256 × COrphanBlock ↦ OrderDual.toDual (rank it.2.hashBlock)) _
      (fun a b _ hb ↦ ⟨trivial, hnext a b hb⟩) trivial
  obtain ⟨leaf, hleaf⟩ := Option.isSome_iff_exists.mp hsome
  obtain ⟨hmem, hlast⟩ := Walk.walk_eq_some (fun a b _ hb ↦ (hnext a b hb).1) hit hleaf
  refine ⟨leaf, hleaf, hmem, ?_⟩
  intro o ho hprev
  exact SortedMultimap.find_eq_none.mp hlast o ((h.byPrev _).mpr ⟨hprev.symm, ho⟩)

/-- `PruneOrphanBlocks` ends, and does nothing or removes an orphan that no other one builds on. -/
theorem exists_pruneOrphanBlocks (h : s.Paired H) (hrank : s.Ranked rank) (maxOrphanBlocks : Int)
    (rand : ℕ) :
    (s.mapOrphanBlocksByPrev.size ≤ (max 0 maxOrphanBlocks).toNat ∧
      s.pruneOrphanBlocks maxOrphanBlocks rand = some (none, s)) ∨
    ∃ leaf ∈ s.mapOrphanBlocksByPrev.entries, s.Childless leaf.2 ∧
      s.pruneOrphanBlocks maxOrphanBlocks rand = some (some leaf.2, s.eraseOrphan leaf) := by
  unfold pruneOrphanBlocks
  by_cases hsize : s.mapOrphanBlocksByPrev.size ≤ (max 0 maxOrphanBlocks).toNat
  · exact .inl ⟨hsize, if_pos hsize⟩
  · have hlt : rand % s.mapOrphanBlocksByPrev.size < s.mapOrphanBlocksByPrev.entries.length :=
      Nat.mod_lt _ (by omega)
    obtain ⟨leaf, hleaf, hmem, hchildless⟩ :=
      exists_orphanLeaf h hrank (List.getElem_mem hlt)
    refine .inr ⟨leaf, hmem, hchildless, ?_⟩
    rw [if_neg hsize, List.getElem?_eq_getElem hlt]
    change (s.orphanLeaf _ >>= _) = _
    rw [hleaf]
    rfl

end BlockStore

end Bitmark
