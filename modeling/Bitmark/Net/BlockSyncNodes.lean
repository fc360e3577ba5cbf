import Bitmark.Net.BlockSync

/-!
# What the two nodes of a download do

For each call of the server and of the client what it leaves and what it sends, when the client's
chain is the beginning of the server's.
-/

namespace Bitmark

variable {β Hash : Type} {T : BlockTree β Hash} {t : β} {i j k n : ℕ}

/-! ### The blocks of a branch -/

/-- The block of the branch with this tip at a height. -/
def blockAt (T : BlockTree β Hash) (t : β) (k : ℕ) : β := T.tree.ancestorAt t k

/-- Its hash. -/
def hashAt (T : BlockTree β Hash) (t : β) (k : ℕ) : Hash := T.getBlockHash (blockAt T t k)

theorem nHeight_blockAt (h : k ≤ T.nHeight t) : T.nHeight (blockAt T t k) = k :=
  T.tree.height_ancestorAt h

theorem blockAt_top : blockAt T t (T.nHeight t) = t := T.tree.ancestorAt_self t

theorem isAncestor_blockAt (T : BlockTree β Hash) (t : β) (k : ℕ) :
    T.tree.IsAncestor (blockAt T t k) t := T.tree.isAncestor_ancestorAt t k

theorem blockAt_inj (hi : i ≤ T.nHeight t) (hj : j ≤ T.nHeight t) :
    blockAt T t i = blockAt T t j ↔ i = j := by
  constructor
  · intro h
    rw [← nHeight_blockAt hi, h, nHeight_blockAt hj]
  · rintro rfl
    rfl

theorem hashAt_inj (hi : i ≤ T.nHeight t) (hj : j ≤ T.nHeight t) :
    hashAt T t i = hashAt T t j ↔ i = j :=
  T.getBlockHash_injective.eq_iff.trans (blockAt_inj hi hj)

theorem pprev_blockAt (h : k < T.nHeight t) :
    T.pprev (blockAt T t (k + 1)) = some (blockAt T t k) := by
  have hheight : T.nHeight (blockAt T t (k + 1)) = k + 1 := nHeight_blockAt h
  cases hp : T.pprev (blockAt T t (k + 1)) with
  | none =>
    have hzero : T.nHeight (blockAt T t (k + 1)) = 0 := T.tree.parent_eq_none_iff.mp hp
    omega
  | some p =>
    have hpheight : T.nHeight p = k := by
      have hstep := T.nHeight_pprev hp
      omega
    have hparent : T.tree.IsAncestor p (blockAt T t (k + 1)) := T.tree.isAncestor_parent hp
    have hp : T.tree.ancestorAt t (T.nHeight p) = p :=
      (hparent.trans (isAncestor_blockAt T t _)).ancestorAt_eq
    rw [blockAt, ← hpheight, hp]

/-- Only the block after a height has the block at this height as its parent. -/
theorem pprev_tip_eq_iff (h : k ≤ T.nHeight t) :
    T.pprev t = some (blockAt T t k) ↔ k + 1 = T.nHeight t := by
  constructor
  · intro hp
    rw [T.nHeight_pprev hp, nHeight_blockAt h]
  · intro hk
    have hp := pprev_blockAt (T := T) (t := t) (k := k) (by omega)
    rwa [hk, blockAt_top] at hp

/-- The hashes of the blocks at these heights. -/
abbrev hashesAt (T : BlockTree β Hash) (t : β) (ks : List ℕ) : List Hash := ks.map (hashAt T t)

theorem hashAt_mem_hashesAt {ks : List ℕ} (hk : k ≤ T.nHeight t) (hks : ∀ i ∈ ks, i ≤ T.nHeight t) :
    hashAt T t k ∈ hashesAt T t ks ↔ k ∈ ks := by
  rw [List.mem_map]
  constructor
  · rintro ⟨i, hi, heq⟩
    rwa [← (hashAt_inj (hks i hi) hk).mp heq]
  · intro h
    exact ⟨k, h, rfl⟩

theorem nodup_hashesAt {ks : List ℕ} (hnodup : ks.Nodup) (hks : ∀ i ∈ ks, i ≤ T.nHeight t) :
    (hashesAt T t ks).Nodup :=
  hnodup.map_on fun i hi j hj heq ↦ (hashAt_inj (hks i hi) (hks j hj)).mp heq

variable [DecidableEq β] [DecidableEq Hash] [Zero Hash]

/-! ### The server -/

/-- The server has the branch, and has announced only blocks up to a height. -/
structure SyncServer.Serves (s : SyncServer T) (t : β) (announced : ℕ) : Prop where
  tip : s.chainActive.tip = some t
  knows : s.chainActive.Knows s.mapBlockIndex
  known : ∀ hash ∈ s.setInventoryKnown.queue, ∃ k ≤ announced, hash = hashAt T t k

namespace SyncServer

variable {s : SyncServer T}

omit [DecidableEq Hash] in
theorem Serves.contains (h : s.Serves t n) (k : ℕ) :
    s.chainActive.contains (blockAt T t k) = true :=
  s.chainActive.contains_iff.mpr ⟨t, h.tip, isAncestor_blockAt T t k⟩

omit [DecidableEq Hash] in
theorem Serves.next (h : s.Serves t n) (hk : k ≤ T.nHeight t) :
    s.chainActive.next (blockAt T t k) =
      if k < T.nHeight t then some (blockAt T t (k + 1)) else none := by
  rw [CChain.next, h.contains, if_pos rfl, nHeight_blockAt hk, ← Nat.cast_succ,
    CChain.entryAt_natCast, h.tip]
  rfl

omit [DecidableEq Hash] in
theorem Serves.not_known (h : s.Serves t n) (hn : n < k) (hk : k ≤ T.nHeight t) :
    hashAt T t k ∉ s.setInventoryKnown.queue := by
  intro hmem
  obtain ⟨i, hi, heq⟩ := h.known _ hmem
  have hsame := (hashAt_inj hk (hi.trans (hn.le.trans hk))).mp heq
  omega

/-- The inventory for `getblocks`: the blocks up to the one before `hashStop`, or to the limit. -/
theorem Serves.getBlocksLoop (h : s.Serves t n) {hashStop : Hash} {k e nLimit : ℕ} (hn : n ≤ k)
    (hk : k ≤ e) (he : e ≤ T.nHeight t)
    (hbefore : ∀ i, k < i → i ≤ e → hashAt T t i ≠ hashStop)
    (hstop : e < T.nHeight t → hashAt T t (e + 1) = hashStop) (hlimit : 0 < nLimit) :
    getBlocksLoop hashStop nLimit (if k < T.nHeight t then some (blockAt T t (k + 1)) else none) s =
      { s with
        vInventoryToSend := s.vInventoryToSend ++
          hashesAt T t (List.range' (k + 1) (min e (k + nLimit) - k))
        hashContinue := if k + nLimit ≤ e then hashAt T t (k + nLimit) else s.hashContinue } := by
  induction nLimit generalizing k s with
  | zero => exact absurd hlimit (Nat.lt_irrefl 0)
  | succ nLimit ih =>
    by_cases hke : k = e
    · subst hke
      have hsub : min k (k + (nLimit + 1)) - k = 0 := by omega
      rw [hsub, if_neg (show ¬ k + (nLimit + 1) ≤ k by omega)]
      simp only [List.range'_zero, List.map_nil, List.append_nil]
      by_cases hlt : k < T.nHeight t
      · rw [if_pos hlt, SyncServer.getBlocksLoop]
        exact if_pos (hstop hlt)
      · rw [if_neg hlt, SyncServer.getBlocksLoop]
    · have hlt : k < T.nHeight t := by omega
      have hhash : T.getBlockHash (blockAt T t (k + 1)) = hashAt T t (k + 1) := rfl
      have hne := hbefore (k + 1) (by omega) (by omega)
      have hpush : s.pushInventory (hashAt T t (k + 1)) =
          { s with vInventoryToSend := s.vInventoryToSend ++ [hashAt T t (k + 1)] } :=
        if_neg (h.not_known (by omega) (by omega))
      rw [if_pos hlt, SyncServer.getBlocksLoop, hhash, if_neg hne, hpush]
      by_cases hzero : nLimit = 0
      · subst hzero
        have hsub : min e (k + (0 + 1)) - k = 1 := by omega
        rw [hsub, if_pos (show k + (0 + 1) ≤ e by omega)]
        rfl
      · have hserves : SyncServer.Serves
            { s with vInventoryToSend := s.vInventoryToSend ++ [hashAt T t (k + 1)] } t n :=
          ⟨h.tip, h.knows, h.known⟩
        have hrest := ih hserves (show n ≤ k + 1 by omega) (by omega)
          (fun i hi ↦ hbefore i (by omega)) (by omega)
        have hsub : min e (k + (nLimit + 1)) - k = min e (k + 1 + nLimit) - (k + 1) + 1 := by omega
        have hlast : k + 1 + nLimit = k + (nLimit + 1) := by omega
        dsimp only
        rw [if_neg hzero, h.next (show k + 1 ≤ T.nHeight t from hlt), hrest, hsub,
          List.range'_succ, hlast]
        simp only [hashesAt, List.map_cons, List.append_assoc, List.singleton_append]

omit [DecidableEq β] [Zero Hash] in
/-- The inventory that is sent, when it is new and fits into a message. -/
theorem inventoryLoop_eq {hashes vInv : List Hash} {setInventoryKnown : Mruset Hash}
    (hnodup : hashes.Nodup) (hnew : ∀ hash ∈ hashes, hash ∉ setInventoryKnown.queue)
    (hlength : vInv.length + hashes.length < 1000) :
    ∃ known : Mruset Hash, (inventoryLoop hashes setInventoryKnown vInv :
        Mruset Hash × List (SyncMessage β Hash)) =
        (known, if (vInv ++ hashes).isEmpty then [] else [.inv (vInv ++ hashes)]) ∧
      ∀ hash ∈ known.queue, hash ∈ hashes ∨ hash ∈ setInventoryKnown.queue := by
  induction hashes generalizing setInventoryKnown vInv with
  | nil =>
    refine ⟨setInventoryKnown, ?_, fun hash h ↦ .inr h⟩
    rw [inventoryLoop, List.append_nil]
  | cons hash hashes ih =>
    rw [List.nodup_cons] at hnodup
    rw [List.forall_mem_cons] at hnew
    rw [List.length_cons] at hlength
    have hfresh : ∀ hash' ∈ hashes, hash' ∉ (setInventoryKnown.insert hash).queue := by
      intro hash' hmem hknown
      rcases Mruset.mem_of_mem_insert hknown with rfl | hknown
      · exact hnodup.1 hmem
      · exact hnew.2 hash' hmem hknown
    have hshort : (vInv ++ [hash]).length + hashes.length < 1000 := by
      rw [List.length_append, List.length_singleton]
      omega
    obtain ⟨known, hloop, hknown⟩ := ih hnodup.2 hfresh hshort
    refine ⟨known, ?_, fun hash' hmem ↦ ?_⟩
    · rw [inventoryLoop, if_neg hnew.1, if_neg (by omega), hloop, List.append_assoc,
        List.singleton_append]
    · rcases hknown hash' hmem with hin | hin
      · exact .inl (List.mem_cons_of_mem hash hin)
      · rcases Mruset.mem_of_mem_insert hin with rfl | hin
        · exact .inl List.mem_cons_self
        · exact .inr hin

/-- The block that is asked for is sent, and the tip announced where the batch ends. -/
theorem Serves.serve (h : s.Serves t n) (k : ℕ) :
    s.serve (hashAt T t k) =
      if hashAt T t k = s.hashContinue then
        ({ s with hashContinue := 0 },
          [.block (blockAt T t k), .inv [hashAt T t (T.nHeight t)]])
      else (s, [.block (blockAt T t k)]) := by
  have hfound : s.mapBlockIndex (hashAt T t k) = some (blockAt T t k) :=
    h.knows.chain (h.contains k)
  have hsends : s.sends (blockAt T t k) = true := by
    unfold sends
    split
    · rw [h.contains k, Bool.or_true]
    · rfl
  have htop : hashAt T t (T.nHeight t) = T.getBlockHash t := by rw [hashAt, blockAt_top]
  unfold SyncServer.serve
  rw [hfound, htop]
  dsimp only
  rw [hsends, if_pos rfl, h.tip]
  rfl

end SyncServer

/-! ### The client -/

omit [DecidableEq Hash] [Zero Hash] in
/-- A peer that has the start of a locator finds it. -/
theorem exists_locator (C : CChain T) (start : β) :
    ∃ locator, C.getLocator (2 ^ 31) (some start) = some locator ∧
      ∀ (C' : CChain T) (mapBlockIndex : Hash → Option β), C'.Knows mapBlockIndex →
        C'.contains start = true → C'.findFork mapBlockIndex locator = some start := by
  obtain ⟨m, -, -, hlocator⟩ := @CChain.getLocator_eq _ _ _ _ C start (some start) rfl
  refine ⟨_, hlocator (2 ^ 31) (Nat.lt_of_succ_lt (T.nHeight_lt start)), ?_⟩
  intro C' mapBlockIndex hknows hcontains
  have hfirst : CChain.locatorEntry T start 0 = start := T.tree.ancestorAt_self start
  rw [CChain.findFork_map hknows, CChain.locatorBlocks, List.range_succ_eq_map, List.map_cons,
    hfirst, List.find?_cons_of_pos hcontains]
  rfl

/-- The client has the blocks of the branch up to a height. -/
structure SyncClient.Has (c : SyncClient T) (t : β) (n : ℕ) : Prop where
  le : n ≤ T.nHeight t
  tip : c.chainActive.tip = some (blockAt T t n)
  index : ∀ k ≤ T.nHeight t, blockAt T t k ∈ c.mapBlockIndex ↔ k ≤ n
  work : ∀ {b p}, T.pprev b = some p → c.nChainWork p < c.nChainWork b

/-- Besides, it may have the tip of the branch as its only orphan. -/
structure SyncClient.Stands (c : SyncClient T) (t : β) (n : ℕ) (orphan : Bool) : Prop extends
  c.Has t n where
  orphans : c.mapOrphanBlocks = if orphan then [t] else []
  orphan_lt : orphan = true → n + 1 < T.nHeight t

namespace SyncClient

variable {c : SyncClient T} {orphan : Bool}

omit [DecidableEq Hash] in
/-- The next block becomes the tip. -/
theorem Has.add (h : c.Has t n) (hn : n < T.nHeight t) :
    (c.addToBlockIndex (blockAt T t (n + 1))).Has t (n + 1) where
  le := hn
  tip := by
    have hmore : c.nChainWork (blockAt T t n) < c.nChainWork (blockAt T t (n + 1)) :=
      h.work (pprev_blockAt hn)
    simp only [addToBlockIndex, h.tip, Option.all_some, hmore, decide_true, if_true,
      CChain.tip_setTip]
  index := by
    intro k hk
    change blockAt T t k ∈ blockAt T t (n + 1) :: c.mapBlockIndex ↔ _
    rw [List.mem_cons, blockAt_inj hk hn, h.index k hk]
    omega
  work := h.work

omit [DecidableEq β] [DecidableEq Hash] in
theorem Has.congr {c' : SyncClient T} (h : c.Has t n) (hchain : c'.chainActive = c.chainActive)
    (hindex : c'.mapBlockIndex = c.mapBlockIndex) (hwork : c'.nChainWork = c.nChainWork) :
    c'.Has t n :=
  ⟨h.le, hchain ▸ h.tip, hindex ▸ h.index, hwork ▸ h.work⟩

/-- The blocks and chain of the client change, and its requests stay. -/
def WithBlocks (c c' : SyncClient T) : Prop :=
  ∃ chainActive mapBlockIndex mapOrphanBlocks,
    c' = { c with chainActive, mapBlockIndex, mapOrphanBlocks }

omit [DecidableEq β] [DecidableEq Hash] in
theorem tip_notMem (h : c.Has t n) (hn : n < T.nHeight t) : t ∉ c.mapBlockIndex := by
  have htop := h.index _ le_rfl
  rw [blockAt_top] at htop
  exact mt htop.mp (by omega)

omit [DecidableEq Hash] in
theorem connectOrphans_nil (fuel : ℕ) (b : β) (h : c.mapOrphanBlocks = []) :
    connectOrphans (fuel + 1) [b] c = { c with mapOrphanBlocks := [] } := by
  rw [connectOrphans, h]
  cases fuel <;> rfl

/-- The next block is accepted, and when it is the parent of the orphan, so is the orphan. -/
theorem Stands.processNext (h : c.Stands t n orphan) (hn : n < T.nHeight t) :
    ∃ c', c.processBlock (blockAt T t (n + 1)) = (c', []) ∧ WithBlocks c c' ∧
      if orphan = true ∧ n + 2 = T.nHeight t then c'.Stands t (T.nHeight t) false
      else c'.Stands t (n + 1) orphan := by
  have hnew : blockAt T t (n + 1) ∉ c.mapBlockIndex := mt (h.index (n + 1) hn).mp (by omega)
  have horphan : blockAt T t (n + 1) ∉ c.mapOrphanBlocks := by
    rw [h.orphans]
    split
    case isTrue ho =>
      have hlt := h.orphan_lt ho
      rw [List.mem_singleton]
      intro heq
      have hheight := congrArg T.nHeight heq
      rw [nHeight_blockAt hn] at hheight
      omega
    case isFalse => exact List.not_mem_nil
  have hparent : blockAt T t n ∈ c.mapBlockIndex := (h.index n h.le).mpr le_rfl
  have hadd := h.toHas.add hn
  rw [processBlock, if_neg (not_or.mpr ⟨hnew, horphan⟩), pprev_blockAt hn, Option.all_some,
    if_pos (decide_eq_true hparent)]
  refine ⟨_, rfl, ?_⟩
  have horphans := h.orphans
  cases orphan with
  | false =>
    rw [if_neg Bool.false_ne_true] at horphans
    rw [if_neg (fun hand ↦ Bool.false_ne_true hand.1), horphans]
    have hsame : (c.addToBlockIndex (blockAt T t (n + 1))).mapOrphanBlocks = [] := horphans
    rw [connectOrphans_nil _ _ hsame]
    exact ⟨⟨_, _, _, rfl⟩, hadd.congr rfl rfl rfl, rfl, fun ho ↦ absurd ho Bool.false_ne_true⟩
  | true =>
    rw [if_pos rfl] at horphans
    have hlt := h.orphan_lt rfl
    have hsame : (c.addToBlockIndex (blockAt T t (n + 1))).mapOrphanBlocks = [t] := horphans
    have hiff : T.pprev t = some (blockAt T t (n + 1)) ↔ n + 2 = T.nHeight t := pprev_tip_eq_iff hn
    rw [horphans]
    by_cases hend : n + 2 = T.nHeight t
    · rw [if_pos ⟨rfl, hend⟩]
      have hp := hiff.mpr hend
      have htop : blockAt T t (n + 2) = t := by rw [hend, blockAt_top]
      have hloop : connectOrphans ([t].length + 1) [blockAt T t (n + 1)]
          (c.addToBlockIndex (blockAt T t (n + 1))) =
          connectOrphans (0 + 1) [t] (addToBlockIndex
            { c.addToBlockIndex (blockAt T t (n + 1)) with mapOrphanBlocks := [] } t) := by
        rw [connectOrphans, hsame]
        simp [hp]
      have hbare : ({ c.addToBlockIndex (blockAt T t (n + 1)) with
          mapOrphanBlocks := [] } : SyncClient T).Has t (n + 1) := hadd.congr rfl rfl rfl
      have htip := hbare.add (show n + 1 < T.nHeight t by omega)
      rw [show n + 1 + 1 = n + 2 from rfl, htop, hend] at htip
      rw [hloop, connectOrphans_nil _ _ rfl]
      exact ⟨⟨_, _, _, rfl⟩, htip.congr rfl rfl rfl, rfl, fun ho ↦ absurd ho Bool.false_ne_true⟩
    · rw [if_neg fun hand ↦ hend hand.2]
      have hp := mt hiff.mp hend
      have hloop : connectOrphans ([t].length + 1) [blockAt T t (n + 1)]
          (c.addToBlockIndex (blockAt T t (n + 1))) =
          { c.addToBlockIndex (blockAt T t (n + 1)) with mapOrphanBlocks := [t] } := by
        rw [connectOrphans, hsame]
        simp [hp, connectOrphans]
      rw [hloop]
      exact ⟨⟨_, _, _, rfl⟩, hadd.congr rfl rfl rfl, rfl, fun _ ↦ by omega⟩

omit [DecidableEq Hash] [Zero Hash] in
theorem getOrphanRoot_self (T : BlockTree β Hash) (t : β) : getOrphanRoot T [t] t = t := by
  rw [getOrphanRoot]
  split
  · rfl
  · next p hp =>
    refine if_neg fun hmem ↦ ?_
    have hheight := T.nHeight_pprev hp
    rw [List.mem_singleton.mp hmem] at hheight
    omega

/-- The tip is kept as an orphan, and its root is itself. -/
theorem Stands.processTip (h : c.Stands t n false) (hn : n + 1 < T.nHeight t) :
    c.processBlock t =
      { c with mapOrphanBlocks := [t] }.pushGetBlocks (some (blockAt T t n))
        (hashAt T t (T.nHeight t)) := by
  have horphans : c.mapOrphanBlocks = [] := h.orphans
  obtain ⟨m, hm⟩ : ∃ m, m + 1 = T.nHeight t := ⟨T.nHeight t - 1, by omega⟩
  have hp : T.pprev t = some (blockAt T t m) := (pprev_tip_eq_iff (by omega)).mpr hm
  have hmissing : blockAt T t m ∉ c.mapBlockIndex := mt (h.index m (by omega)).mp (by omega)
  have hnotin : ¬ (t ∈ c.mapBlockIndex ∨ t ∈ c.mapOrphanBlocks) := by
    rw [horphans, not_or]
    exact ⟨tip_notMem h.toHas (by omega), List.not_mem_nil⟩
  have hno : ¬ (decide (blockAt T t m ∈ c.mapBlockIndex) = true) := by
    rw [decide_eq_true_eq]
    exact hmissing
  rw [processBlock, if_neg hnotin, hp, Option.all_some, if_neg hno, horphans]
  dsimp only [List.nil_append]
  rw [getOrphanRoot_self, h.tip, hashAt, blockAt_top]

/-- An announced block that is above the tip is new. -/
theorem Stands.receiveInv_new (h : c.Stands t n orphan) (hn : n < k) (hk : k ≤ T.nHeight t)
    (htop : orphan = true → k ≠ T.nHeight t) :
    c.receiveInv (hashAt T t k) = (c.addBlockToQueue (hashAt T t k), []) := by
  have horphan : c.mapOrphanBlocks.find? (T.getBlockHash · = hashAt T t k) = none := by
    rw [h.orphans, List.find?_eq_none]
    intro b hb
    rw [decide_eq_true_eq]
    intro heq
    split at hb
    case isTrue ho =>
      obtain rfl := List.mem_singleton.mp hb
      have hsame : blockAt T b (T.nHeight b) = blockAt T b k :=
        blockAt_top.trans (T.getBlockHash_injective heq)
      exact htop ho ((blockAt_inj le_rfl hk).mp hsame).symm
    case isFalse => cases hb
  have hindex : c.mapBlockIndex.any (T.getBlockHash · = hashAt T t k) = false := by
    rw [List.any_eq_false]
    intro b hb
    rw [decide_eq_true_eq]
    intro heq
    have hsame : b = blockAt T t k := T.getBlockHash_injective heq
    rw [hsame, h.index k hk] at hb
    omega
  rw [receiveInv, horphan]
  dsimp only
  rw [hindex, if_neg Bool.false_ne_true]

/-- The tip is announced to a client that has it. -/
theorem Stands.receiveInv_tip (h : c.Stands t (T.nHeight t) orphan) :
    c.receiveInv (hashAt T t (T.nHeight t)) = (c, []) := by
  have hno : orphan = false := by
    cases orphan with
    | false => rfl
    | true => exact absurd (h.orphan_lt rfl) (by omega)
  have horphans : c.mapOrphanBlocks = [] := by
    rw [h.orphans, hno, if_neg Bool.false_ne_true]
  have hindex : c.mapBlockIndex.any (T.getBlockHash · = hashAt T t (T.nHeight t)) = true := by
    rw [List.any_eq_true]
    exact ⟨blockAt T t (T.nHeight t), (h.index _ le_rfl).mpr le_rfl, decide_eq_true rfl⟩
  rw [receiveInv, horphans, List.find?_nil]
  dsimp only
  rw [hindex, if_pos rfl]

/-- The tip is announced to a client that keeps it as an orphan. -/
theorem Stands.receiveInv_orphan (h : c.Stands t n true) :
    c.receiveInv (hashAt T t (T.nHeight t)) =
      c.pushGetBlocks (some (blockAt T t n)) (hashAt T t (T.nHeight t)) := by
  have horphans : c.mapOrphanBlocks = [t] := h.orphans
  have htop : T.getBlockHash t = hashAt T t (T.nHeight t) := by rw [hashAt, blockAt_top]
  rw [receiveInv, horphans, List.find?_cons, decide_eq_true htop]
  dsimp only
  rw [getOrphanRoot_self, h.tip, htop]

/-- The blocks of a batch go into the queue. -/
theorem receiveInvs_eq {hashes : List Hash}
    (hnew : ∀ hash ∈ hashes, ∀ queue, { c with vBlocksToDownload := queue }.receiveInv hash =
      ({ c with vBlocksToDownload := queue }.addBlockToQueue hash, []))
    (hnodup : hashes.Nodup) (hflight : c.vBlocksInFlight = []) {queue : List Hash}
    (hqueue : ∀ hash ∈ hashes, hash ∉ queue) :
    { c with vBlocksToDownload := queue }.receiveInvs hashes =
      ({ c with vBlocksToDownload := queue ++ hashes }, []) := by
  induction hashes generalizing queue with
  | nil => rw [receiveInvs, List.append_nil]
  | cons hash hashes ih =>
    rw [List.nodup_cons] at hnodup
    rw [List.forall_mem_cons] at hnew hqueue
    have hadd : { c with vBlocksToDownload := queue }.addBlockToQueue hash =
        { c with vBlocksToDownload := queue ++ [hash] } := by
      refine if_neg (not_or.mpr ⟨hqueue.1, ?_⟩)
      rw [hflight]
      exact List.not_mem_nil
    have hrest := @ih hnew.2 hnodup.2 (queue ++ [hash]) (by
      intro hash' hmem hin
      rcases List.mem_append.mp hin with hin | hin
      · exact hqueue.2 hash' hmem hin
      · rw [List.mem_singleton.mp hin] at hmem
        exact hnodup.1 hmem)
    rw [receiveInvs, hnew.1 queue, hadd]
    dsimp only
    rw [hrest, List.append_assoc, List.singleton_append, List.append_nil]

omit [Zero Hash] in
/-- What is requested is the beginning of the queue. -/
theorem requestLoop_eq {queue flight : List Hash} (hnodup : (flight ++ queue).Nodup) :
    ∃ i, requestLoop queue flight = (queue.drop i, flight ++ queue.take i, queue.take i) ∧
      (queue ≠ [] → flight.length < 128 → 0 < i) := by
  induction queue generalizing flight with
  | nil => exact ⟨0, by rw [requestLoop]; simp, fun h ↦ absurd rfl h⟩
  | cons hash queue ih =>
    rw [requestLoop]
    split
    case isTrue hroom =>
      have hnotin : hash ∉ flight := by
        intro hmem
        exact (List.nodup_append.mp hnodup).2.2 hash hmem hash List.mem_cons_self rfl
      have hmoved : (flight ++ [hash] ++ queue).Nodup := by
        rw [List.append_assoc]
        exact hnodup
      obtain ⟨i, hloop, -⟩ := ih hmoved
      refine ⟨i + 1, ?_, fun _ _ ↦ Nat.succ_pos i⟩
      rw [List.erase_of_not_mem hnotin, hloop, List.take_succ_cons, List.drop_succ_cons,
        List.append_assoc, List.singleton_append]
    case isFalse hfull =>
      refine ⟨0, ?_, fun _ hroom ↦ absurd hroom hfull⟩
      rw [List.drop_zero, List.take_zero, List.append_nil]

/-- The client waits for an answer. Its tip was at this height when it asked last. -/
structure Waits (c : SyncClient T) (t : β) (asked n : ℕ) (orphan : Bool) : Prop extends
  c.Stands t n orphan where
  started : c.fStartSync = false
  first : c.pindexLastGetBlocksBegin = some (blockAt T t asked)
  last : n < T.nHeight t → c.hashLastGetBlocksEnd =
    if orphan then hashAt T t (T.nHeight t) else 0
  asked_le : asked ≤ n

/-- A locator that finds the tip of the client. -/
def Finds (T : BlockTree β Hash) (locator : List Hash) (b : β) : Prop :=
  ∀ (C : CChain T) (mapBlockIndex : Hash → Option β), C.Knows mapBlockIndex →
    C.contains b = true → C.findFork mapBlockIndex locator = some b

/-- A request that is not the last one again. -/
theorem Stands.ask (h : c.Stands t n orphan) (hstart : c.fStartSync = false) {hashEnd : Hash}
    (hend : hashEnd = if orphan then hashAt T t (T.nHeight t) else 0)
    (hother : c.pindexLastGetBlocksBegin ≠ some (blockAt T t n) ∨
      c.hashLastGetBlocksEnd ≠ hashEnd) :
    ∃ c' locator, c.pushGetBlocks (some (blockAt T t n)) hashEnd =
        (c', [.getblocks locator hashEnd]) ∧
      c'.Waits t n n orphan ∧ Finds T locator (blockAt T t n) ∧
      c'.vBlocksToDownload = c.vBlocksToDownload ∧ c'.vBlocksInFlight = c.vBlocksInFlight := by
  obtain ⟨locator, hlocator, hfinds⟩ := exists_locator c.chainActive (blockAt T t n)
  have hnot : ¬ (some (blockAt T t n) = c.pindexLastGetBlocksBegin ∧
      hashEnd = c.hashLastGetBlocksEnd) := by
    rintro ⟨hfirst, hlast⟩
    exact hother.elim (· hfirst.symm) (· hlast.symm)
  refine ⟨{ c with
    pindexLastGetBlocksBegin := some (blockAt T t n), hashLastGetBlocksEnd := hashEnd }, locator,
    by rw [pushGetBlocks, if_neg hnot, hlocator]; rfl, ?_, hfinds, rfl, rfl⟩
  exact ⟨⟨h.toHas.congr rfl rfl rfl, h.orphans, h.orphan_lt⟩, hstart, rfl, fun _ ↦ hend, le_rfl⟩

end SyncClient

end Bitmark
