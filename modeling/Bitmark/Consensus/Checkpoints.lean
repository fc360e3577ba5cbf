import Bitmark.Consensus.OrphanRelease

/-!
# Checkpoints

`AcceptBlock` (`src/main.cpp:2916`) refuses a block at the height of a checkpoint with another hash,
and a block below the last checkpoint that the index has. So whatever `ProcessBlock` is called with,
the branches of the index share what is below a checkpoint, and once the node has a checkpoint
its index grows on top of it only.
-/

namespace Bitmark

/-- The index grows by a block that it does not have, on an entry and by the rules of
`AcceptBlock`. -/
inductive IndexGrows (H : Hashes) (checkpoints : List (ℕ × Uint256)) :
    SortedMap Uint256 ChainIndex → SortedMap Uint256 ChainIndex → Prop
  | refl (m : SortedMap Uint256 ChainIndex) : IndexGrows H checkpoints m m
  | insert {m m' : SortedMap Uint256 ChainIndex} {node : Node} {block : CBlock}
    {state : CValidationState} {pindexPrev : ChainIndex} (hgrows : IndexGrows H checkpoints m m')
    (hhashes : node.hashes = H) (hcheckpoints : node.checkpoints = checkpoints)
    (hnew : m'.lookup (block.getHash H) = none)
    (hprev : m'.lookup block.hashPrevBlock = some pindexPrev)
    (haccept : node.contextCheck block state pindexPrev (node.getLastCheckpoint m') = .accept ()) :
    IndexGrows H checkpoints m
      (m'.insert (block.getHash H) (block.indexEntry H :: pindexPrev))

namespace IndexGrows

variable {H : Hashes} {checkpoints : List (ℕ × Uint256)} {m m' t : SortedMap Uint256 ChainIndex}

theorem trans (h : IndexGrows H checkpoints m m') (h' : IndexGrows H checkpoints m' t) :
    IndexGrows H checkpoints m t := by
  induction h' with
  | refl => exact h
  | insert _ hhashes hcheckpoints hnew hprev haccept ih =>
    exact .insert ih hhashes hcheckpoints hnew hprev haccept

/-- An entry stays as it is. -/
theorem lookup_eq_some (h : IndexGrows H checkpoints m m') {hash : Uint256} {p : ChainIndex}
    (hlookup : m.lookup hash = some p) : m'.lookup hash = some p := by
  induction h with
  | refl => exact hlookup
  | insert _ _ _ hnew _ _ ih =>
    rw [SortedMap.lookup_insert]
    split
    case isTrue heq =>
      rw [← heq, ih] at hnew
      cases hnew
    case isFalse => exact ih

end IndexGrows

/-! ### The calls of `ProcessBlock` -/

/-- The network, the hash functions and the checkpoints of a call. -/
structure ProcessCall.Follows (c : ProcessCall) (H : Hashes) (hashGenesisBlock : Uint256)
    (checkpoints : List (ℕ × Uint256)) : Prop where
  hashes : c.env.node.hashes = H
  genesis : c.env.node.params.hashGenesisBlock = hashGenesisBlock
  checkpoints : c.env.node.checkpoints = checkpoints

section Calls

variable {H : Hashes} {hashGenesisBlock : Uint256} {checkpoints : List (ℕ × Uint256)}
  {m m' : SortedMap Uint256 ChainIndex} {c : ProcessCall} {s s' : BlockStore} {root : ChainIndex}

/-- Where the index has genesis, `AcceptBlock` leaves it or puts a block on an entry. -/
theorem ProcessCall.Follows.acceptBlock (hc : c.Follows H hashGenesisBlock checkpoints)
    (hroot : m.lookup hashGenesisBlock = some root) {block : CBlock} {state : CValidationState}
    {accepted : Bool} (h : c.env.acceptBlock block state m = some (accepted, m')) :
    IndexGrows H checkpoints m m' := by
  unfold AcceptEnv.acceptBlock at h
  rw [hc.hashes] at h
  dsimp only at h
  split at h
  case isTrue =>
    obtain ⟨-, rfl⟩ := Prod.mk.inj (Option.some.inj h)
    exact .refl m
  case isFalse hdup =>
    have hnew : m.lookup (block.getHash H) = none := Option.not_isSome_iff_eq_none.mp hdup
    have hne : block.getHash c.env.node.hashes ≠ c.env.node.params.hashGenesisBlock := by
      rw [hc.hashes, hc.genesis]
      intro heq
      rw [heq, hroot] at hnew
      cases hnew
    rw [AcceptEnv.acceptRules, if_neg hne] at h
    cases hprev : m.lookup block.hashPrevBlock with
    | none =>
      rw [hprev] at h
      obtain ⟨-, rfl⟩ := Prod.mk.inj (Option.some.inj h)
      exact .refl m
    | some pindexPrev =>
      rw [hprev] at h
      dsimp only at h
      split at h
      · cases h
      · obtain ⟨-, rfl⟩ := Prod.mk.inj (Option.some.inj h)
        exact .refl m
      · next haccept =>
        split at h
        · obtain ⟨-, rfl⟩ := Prod.mk.inj (Option.some.inj h)
          exact .insert (.refl m) hc.hashes hc.checkpoints hnew hprev haccept
        · obtain ⟨-, rfl⟩ := Prod.mk.inj (Option.some.inj h)
          exact .refl m

open BlockStore

theorem ProcessCall.Follows.offerAll (hc : c.Follows H hashGenesisBlock checkpoints)
    (hroot : s.mapBlockIndex.lookup hashGenesisBlock = some root) {os : List COrphanBlock}
    {offers : List (COrphanBlock × Bool)} (h : s.offerAll c.env os = some (s', offers)) :
    IndexGrows H checkpoints s.mapBlockIndex s'.mapBlockIndex := by
  induction os generalizing s offers with
  | nil =>
    obtain ⟨rfl, -⟩ := Prod.mk.inj (Option.some.inj h)
    exact .refl _
  | cons o os ih =>
    rw [BlockStore.offerAll] at h
    split at h
    case h_1 => cases h
    case h_2 accepted mapBlockIndex hacc =>
      obtain ⟨⟨t, later⟩, hrest, heq⟩ := Option.map_eq_some_iff.mp h
      obtain ⟨rfl, -⟩ := Prod.mk.inj heq
      have hgrows := hc.acceptBlock hroot hacc
      exact hgrows.trans (ih (hgrows.lookup_eq_some hroot) hrest)

theorem ProcessCall.Follows.offerOrphans (hc : c.Follows H hashGenesisBlock checkpoints)
    {vWorkQueue : List Uint256} (hroot : s.mapBlockIndex.lookup hashGenesisBlock = some root)
    {offers : List (COrphanBlock × Bool)}
    (h : BlockStore.offerOrphans c.env vWorkQueue s = some (s', offers)) :
    IndexGrows H checkpoints s.mapBlockIndex s'.mapBlockIndex := by
  induction vWorkQueue, s using BlockStore.offerOrphans.induct c.env generalizing s' offers with
  | case1 s =>
    rw [BlockStore.offerOrphans] at h
    obtain ⟨rfl, -⟩ := Prod.mk.inj (Option.some.inj h)
    exact .refl _
  | case2 s hashPrev vWorkQueue hnone =>
    rw [BlockStore.offerOrphans] at h
    split at h
    next => cases h
    next heq => rw [hnone] at heq; cases heq
  | case3 s hashPrev vWorkQueue t first hfirst ih =>
    rw [BlockStore.offerOrphans] at h
    split at h
    next heq => rw [hfirst] at heq; cases heq
    next t' first' heq =>
      obtain ⟨rfl, rfl⟩ := Prod.mk.inj (Option.some.inj (hfirst.symm.trans heq))
      obtain ⟨⟨r, later⟩, hlater, heq'⟩ := Option.map_eq_some_iff.mp h
      obtain ⟨rfl, -⟩ := Prod.mk.inj heq'
      have hgrows := hc.offerAll hroot hfirst
      exact hgrows.trans (ih (hgrows.lookup_eq_some hroot) hlater)

theorem mapBlockIndex_pruneOrphanBlocks {maxOrphanBlocks : Int} {rand : ℕ}
    {pruned : Option COrphanBlock}
    (h : s.pruneOrphanBlocks maxOrphanBlocks rand = some (pruned, s')) :
    s'.mapBlockIndex = s.mapBlockIndex := by
  unfold BlockStore.pruneOrphanBlocks at h
  split at h
  · obtain ⟨-, rfl⟩ := Prod.mk.inj (Option.some.inj h)
    rfl
  · obtain ⟨it, -, h⟩ := Option.bind_eq_some_iff.mp h
    obtain ⟨leaf, -, h⟩ := Option.bind_eq_some_iff.mp h
    obtain ⟨-, rfl⟩ := Prod.mk.inj (Option.some.inj h)
    rfl

/-- An orphan does not enter the index. -/
theorem mapBlockIndex_keepOrphan {maxOrphanBlocks : Int} {r : Processed}
    (h : s.keepOrphan maxOrphanBlocks c = some r) : r.store.mapBlockIndex = s.mapBlockIndex := by
  unfold BlockStore.keepOrphan at h
  split at h
  · obtain ⟨⟨pruned, t⟩, hprune, h⟩ := Option.bind_eq_some_iff.mp h
    obtain ⟨hashEnd, -, h⟩ := Option.bind_eq_some_iff.mp h
    obtain rfl := Option.some.inj h
    exact (mapBlockIndex_pruneOrphanBlocks hprune :)
  · obtain rfl := Option.some.inj h
    rfl

theorem ProcessCall.Follows.processBlock (hc : c.Follows H hashGenesisBlock checkpoints)
    (hroot : s.mapBlockIndex.lookup hashGenesisBlock = some root) {maxOrphanBlocks : Int}
    {r : Processed} (h : s.processBlock maxOrphanBlocks c = some r) :
    IndexGrows H checkpoints s.mapBlockIndex r.store.mapBlockIndex := by
  unfold BlockStore.processBlock at h
  split at h
  · obtain rfl := Option.some.inj h
    exact .refl _
  split at h
  · obtain rfl := Option.some.inj h
    exact .refl _
  split at h
  · cases h
  · obtain rfl := Option.some.inj h
    exact .refl _
  split at h
  · rw [mapBlockIndex_keepOrphan h]
    exact .refl _
  · obtain ⟨⟨accepted, mapBlockIndex⟩, hacc, h⟩ := Option.bind_eq_some_iff.mp h
    have hgrows := hc.acceptBlock hroot hacc
    dsimp only at h
    split at h
    · obtain ⟨⟨t, offers⟩, hoffers, h⟩ := Option.bind_eq_some_iff.mp h
      obtain rfl := Option.some.inj h
      exact hgrows.trans (hc.offerOrphans (hgrows.lookup_eq_some hroot) hoffers)
    · obtain rfl := Option.some.inj h
      exact hgrows

theorem indexGrows_processBlocks {calls : List ProcessCall} {maxOrphanBlocks : Int}
    (hcalls : ∀ c ∈ calls, c.Follows H hashGenesisBlock checkpoints)
    (hroot : s.mapBlockIndex.lookup hashGenesisBlock = some root)
    (h : s.processBlocks maxOrphanBlocks calls = some s') :
    IndexGrows H checkpoints s.mapBlockIndex s'.mapBlockIndex := by
  induction calls generalizing s with
  | nil =>
    obtain rfl := Option.some.inj h
    exact .refl _
  | cons c calls ih =>
    rw [List.forall_mem_cons] at hcalls
    obtain ⟨r, hcall, h⟩ := Option.bind_eq_some_iff.mp h
    have hgrows := hcalls.1.processBlock hroot hcall
    exact hgrows.trans (ih hcalls.2 (hgrows.lookup_eq_some hroot) h)

end Calls

/-! ### The branches of the index -/

/-- Each entry is under its hash, on another entry and at no checkpoint with another hash. Only
genesis is on nothing. -/
def Rooted (hashGenesisBlock : Uint256) (checkpoints : List (ℕ × Uint256))
    (m : SortedMap Uint256 ChainIndex) : Prop :=
  ∀ hash p, m.lookup hash = some p → ∃ b q, p = b :: q ∧ b.blockHash = hash ∧
    (q = [] ∧ hash = hashGenesisBlock ∨
      (∃ hash', m.lookup hash' = some q) ∧ ∀ cp ∈ checkpoints, cp.1 = q.length → cp.2 = hash)

/-- The blocks of the checkpoints that the index has are at their heights. -/
def Placed (checkpoints : List (ℕ × Uint256)) (m : SortedMap Uint256 ChainIndex) : Prop :=
  ∀ cp ∈ checkpoints, ∀ r, m.lookup cp.2 = some r → r.length = cp.1 + 1

section Branches

variable {H : Hashes} {hashGenesisBlock : Uint256} {checkpoints : List (ℕ × Uint256)}
  {m m' : SortedMap Uint256 ChainIndex} {node : Node} {cp : ℕ × Uint256} {hash : Uint256}
  {p r : ChainIndex}

theorem rooted_genesis {b : CBlockIndex} (hb : b.blockHash = hashGenesisBlock) :
    Rooted hashGenesisBlock checkpoints (SortedMap.insert ∅ hashGenesisBlock [b]) := by
  intro hash p h
  rw [SortedMap.lookup_insert] at h
  split at h
  case isTrue heq =>
    obtain rfl := Option.some.inj h
    exact ⟨b, [], rfl, hb.trans heq.symm, .inl ⟨rfl, heq⟩⟩
  case isFalse => cases h

theorem checkCheckpoint_eq_true (hsorted : node.checkpoints.Pairwise fun a b ↦ a.1 < b.1)
    (hcp : cp ∈ node.checkpoints) (h : node.checkCheckpoint cp.1 hash = true) : cp.2 = hash := by
  have hnodup : (node.checkpoints.map (·.1)).Nodup :=
    List.pairwise_map.mpr (hsorted.imp fun hlt ↦ hlt.ne)
  unfold Node.checkCheckpoint at h
  cases hfind : node.checkpoints.find? (·.1 = cp.1) with
  | none =>
    have hall := List.find?_eq_none.mp hfind cp hcp
    exact absurd (decide_eq_true rfl) hall
  | some found =>
    have hheight : found.1 = cp.1 := of_decide_eq_true (List.find?_some hfind :)
    have hmem := List.mem_of_find?_eq_some hfind
    rw [hfind, Option.all_some, decide_eq_true_eq] at h
    rw [← h, List.inj_on_of_nodup_map hnodup hmem hcp hheight]

theorem exists_findSome?_reverse (hsorted : checkpoints.Pairwise fun a b ↦ a.1 < b.1)
    (hplaced : Placed checkpoints m) (hcp : cp ∈ checkpoints) (hlookup : m.lookup cp.2 = some r) :
    ∃ q, checkpoints.reverse.findSome? (fun c ↦ m.lookup c.2) = some q ∧ cp.1 < q.length := by
  induction checkpoints using List.reverseRecOn with
  | nil => cases hcp
  | append_singleton checkpoints last ih =>
    rw [List.pairwise_append] at hsorted
    rw [List.reverse_append, List.reverse_singleton, List.singleton_append, List.findSome?_cons]
    cases hlast : m.lookup last.2 with
    | some q =>
      have hlength := hplaced last (List.mem_append_right _ List.mem_cons_self) q hlast
      refine ⟨q, rfl, ?_⟩
      rcases List.mem_append.mp hcp with hcp | hcp
      · have hlt := hsorted.2.2 cp hcp last List.mem_cons_self
        omega
      · obtain rfl := List.mem_singleton.mp hcp
        omega
    | none =>
      have hbefore : cp ∈ checkpoints := by
        refine (List.mem_append.mp hcp).resolve_right fun hcp ↦ ?_
        rw [List.mem_singleton.mp hcp, hlast] at hlookup
        cases hlookup
      exact ih hsorted.1 (fun cp hcp ↦ hplaced cp (List.mem_append_left _ hcp)) hbefore

/-- The last checkpoint of the index is not below any other one that the index has. -/
theorem le_getLastCheckpoint (hsorted : node.checkpoints.Pairwise fun a b ↦ a.1 < b.1)
    (hplaced : Placed node.checkpoints m) (hcp : cp ∈ node.checkpoints)
    (hlookup : m.lookup cp.2 = some r) :
    ∃ nHeight, node.getLastCheckpoint m = some nHeight ∧ cp.1 ≤ nHeight := by
  obtain ⟨q, hq, hlt⟩ := exists_findSome?_reverse hsorted hplaced hcp hlookup
  exact ⟨q.length - 1, by rw [Node.getLastCheckpoint, hq, Option.map_some], by omega⟩

/-- A branch of the index that goes beyond a height has an entry at this height. -/
theorem Rooted.exists_suffix (h : Rooted hashGenesisBlock checkpoints m)
    (hlookup : m.lookup hash = some p) {n : ℕ} (hn : n < p.length) :
    ∃ hash' r, m.lookup hash' = some r ∧ r.length = n + 1 ∧ r <:+ p := by
  induction p generalizing hash with
  | nil => cases hn
  | cons b q ih =>
    rcases Nat.lt_succ_iff_lt_or_eq.mp hn with hlt | rfl
    · obtain ⟨b', q', heq, -, ⟨rfl, -⟩ | ⟨⟨hash', hprev⟩, -⟩⟩ := h hash _ hlookup
      · obtain ⟨-, rfl⟩ := List.cons.inj heq
        cases hlt
      · obtain ⟨-, rfl⟩ := List.cons.inj heq
        obtain ⟨hash'', r, hr, hlength, hsuffix⟩ := ih hprev hlt
        exact ⟨hash'', r, hr, hlength, hsuffix.trans (List.suffix_cons b q)⟩
    · exact ⟨hash, b :: q, hlookup, rfl, List.suffix_rfl⟩

/-- Two entries at the height of a checkpoint, or at the height of genesis, are the same. -/
theorem Rooted.eq_of_length (h : Rooted hashGenesisBlock checkpoints m) (hcp : cp ∈ checkpoints)
    {hash' : Uint256} (hlookup : m.lookup hash = some p) (hlookup' : m.lookup hash' = some r)
    (hp : p.length = cp.1 + 1) (hr : r.length = cp.1 + 1) : p = r := by
  have hsame : hash = hash' := by
    obtain ⟨b, q, rfl, -, hq⟩ := h hash p hlookup
    obtain ⟨b', q', rfl, -, hq'⟩ := h hash' r hlookup'
    rw [List.length_cons, Nat.add_right_cancel_iff] at hp hr
    rcases hq with ⟨rfl, rfl⟩ | ⟨⟨prev, hprev⟩, hcheck⟩
    · obtain rfl : q' = [] := List.eq_nil_of_length_eq_zero (hr.trans hp.symm)
      rcases hq' with ⟨-, rfl⟩ | ⟨⟨prev', hprev'⟩, -⟩
      · rfl
      · obtain ⟨_, _, hnil, -⟩ := h prev' [] hprev'
        cases hnil
    · rcases hq' with ⟨rfl, rfl⟩ | ⟨-, hcheck'⟩
      · obtain rfl : q = [] := List.eq_nil_of_length_eq_zero (hp.trans hr.symm)
        obtain ⟨_, _, hnil, -⟩ := h prev [] hprev
        cases hnil
      · exact (hcheck cp hcp hp.symm).symm.trans (hcheck' cp hcp hr.symm)
  rw [hsame, hlookup'] at hlookup
  exact (Option.some.inj hlookup).symm

/-- What `AcceptBlock` lets through at the height of a checkpoint is its block. -/
theorem Rooted.grows (h : Rooted hashGenesisBlock checkpoints m)
    (hsorted : checkpoints.Pairwise fun a b ↦ a.1 < b.1) (hgrows : IndexGrows H checkpoints m m') :
    Rooted hashGenesisBlock checkpoints m' := by
  induction hgrows with
  | refl => exact h
  | @insert m' node block state pindexPrev hgrows hhashes hcheckpoints hnew hprev haccept ih =>
    have hkeep : ∀ {hash' : Uint256} {q : ChainIndex}, m'.lookup hash' = some q →
        (m'.insert (block.getHash H) (block.indexEntry H :: pindexPrev)).lookup hash' = some q := by
      intro hash' q hq
      exact (IndexGrows.insert (.refl m') hhashes hcheckpoints hnew hprev haccept).lookup_eq_some hq
    intro hash p hlookup
    rw [SortedMap.lookup_insert] at hlookup
    split at hlookup
    case isTrue heq =>
      obtain rfl := Option.some.inj hlookup
      refine ⟨_, pindexPrev, rfl, heq.symm, .inr ⟨⟨_, hkeep hprev⟩, ?_⟩⟩
      intro cp hcp hheight
      simp only [Node.contextCheck, Verdict.bind_eq_accept, Verdict.check_eq_accept] at haccept
      obtain ⟨_, -, _, -, _, -, _, hcheck, -⟩ := haccept
      rw [← hheight, hhashes] at hcheck
      rw [heq]
      rw [← hcheckpoints] at hsorted hcp
      exact checkCheckpoint_eq_true hsorted hcp hcheck
    case isFalse =>
      obtain ⟨b, q, rfl, hb, hq⟩ := ih hash p hlookup
      refine ⟨b, q, rfl, hb, hq.imp_right (And.imp_left ?_)⟩
      rintro ⟨hash', hq'⟩
      exact ⟨hash', hkeep hq'⟩

/-- What is added once the index has a checkpoint is added on top of it. -/
theorem Rooted.extends (h : Rooted hashGenesisBlock checkpoints m)
    (hsorted : checkpoints.Pairwise fun a b ↦ a.1 < b.1) (hgrows : IndexGrows H checkpoints m m')
    (hplaced : Placed checkpoints m') (hcp : cp ∈ checkpoints) (hr : m.lookup cp.2 = some r)
    (hlookup : m'.lookup hash = some p) (hnew : m.lookup hash = none) : r <:+ p ∧ r ≠ p := by
  induction hgrows generalizing hash p with
  | refl =>
    rw [hlookup] at hnew
    cases hnew
  | @insert m' node block state pindexPrev hgrows hhashes hcheckpoints hfresh hprev haccept ih =>
    have hstep := IndexGrows.insert (.refl m') hhashes hcheckpoints hfresh hprev haccept
    have hbefore : Placed checkpoints m' := fun cp hcp r hr ↦
      hplaced cp hcp r (hstep.lookup_eq_some hr)
    rw [SortedMap.lookup_insert] at hlookup
    split at hlookup
    case isFalse => exact ih hbefore hlookup hnew
    case isTrue heq =>
      obtain rfl := Option.some.inj hlookup
      have hr' := hgrows.lookup_eq_some hr
      have hlength := hbefore cp hcp r hr'
      subst hcheckpoints
      obtain ⟨nHeight, hlast, hle⟩ := le_getLastCheckpoint hsorted hbefore hcp hr'
      simp only [Node.contextCheck, Verdict.bind_eq_accept, Verdict.check_eq_accept] at haccept
      obtain ⟨_, -, _, -, _, -, _, hcheck, _, hheight, -⟩ := haccept
      rw [hlast, Option.all_some, decide_eq_true_eq] at hheight
      -- at the height of the checkpoint it would be the checkpoint, which the index has
      have hlt : cp.1 < pindexPrev.length := by
        refine lt_of_le_of_ne (hle.trans hheight) fun hsame ↦ ?_
        rw [← hsame, hhashes] at hcheck
        rw [← checkCheckpoint_eq_true hsorted hcp hcheck, hr'] at hfresh
        cases hfresh
      obtain ⟨hash', r', hlookup', hlength', hsuffix⟩ :=
        (h.grows hsorted hgrows).exists_suffix hprev hlt
      obtain rfl := (h.grows hsorted hgrows).eq_of_length hcp hlookup' hr' hlength' hlength
      refine ⟨hsuffix.trans (List.suffix_cons _ _), fun hsame ↦ ?_⟩
      have hshort := hsuffix.length_le
      rw [hsame, List.length_cons] at hshort
      omega

end Branches

open BlockStore in
/-- Whatever `ProcessBlock` is called with, every branch of the index that goes beyond a checkpoint
goes through its block, and what is added after the node has a checkpoint is on top of it. -/
theorem checkpoints_final {H : Hashes} {hashGenesisBlock : Uint256}
    {checkpoints : List (ℕ × Uint256)} (hsorted : checkpoints.Pairwise fun a b ↦ a.1 < b.1)
    {genesis : CBlockIndex} (hgenesis : genesis.blockHash = hashGenesisBlock)
    {calls later : List ProcessCall} {maxOrphanBlocks : Int} {s t : BlockStore}
    (hcalls : ∀ c ∈ calls ++ later, c.Follows H hashGenesisBlock checkpoints)
    (hrun : processBlocks { mapBlockIndex := SortedMap.insert ∅ hashGenesisBlock [genesis] }
      maxOrphanBlocks calls = some s)
    (hlater : s.processBlocks maxOrphanBlocks later = some t)
    (hplaced : Placed checkpoints t.mapBlockIndex) :
    (∀ cp ∈ checkpoints, 0 < cp.1 → ∀ hash p, t.mapBlockIndex.lookup hash = some p →
      cp.1 < p.length → ∃ r, t.mapBlockIndex.lookup cp.2 = some r ∧ r <:+ p) ∧
    ∀ cp ∈ checkpoints, ∀ r, s.mapBlockIndex.lookup cp.2 = some r →
      ∀ hash p, t.mapBlockIndex.lookup hash = some p → s.mapBlockIndex.lookup hash = none →
        r <:+ p ∧ r ≠ p := by
  rw [List.forall_mem_append] at hcalls
  have hroot : (SortedMap.insert ∅ hashGenesisBlock [genesis]).lookup hashGenesisBlock =
      some [genesis] := by
    rw [SortedMap.lookup_insert, if_pos rfl]
  have hfirst := indexGrows_processBlocks hcalls.1 hroot hrun
  have hsecond := indexGrows_processBlocks hcalls.2 (hfirst.lookup_eq_some hroot) hlater
  have hs := (rooted_genesis hgenesis).grows hsorted hfirst
  have ht := hs.grows hsorted hsecond
  constructor
  · intro cp hcp hpos hash p hlookup hlt
    obtain ⟨hash', r, hr, hlength, hsuffix⟩ := ht.exists_suffix hlookup hlt
    obtain ⟨b, q, rfl, -, ⟨rfl, -⟩ | ⟨-, hcheck⟩⟩ := ht hash' r hr
    · rw [List.length_singleton] at hlength
      omega
    · rw [List.length_cons, Nat.add_right_cancel_iff] at hlength
      rw [hcheck cp hcp hlength.symm]
      exact ⟨_, hr, hsuffix⟩
  · intro cp hcp r hr hash p hlookup hnew
    exact hs.extends hsorted hsecond hplaced hcp hr hlookup hnew

/-! ### A checkpoint at height one -/

/-- The call for the block of the checkpoint. -/
def checkpointCall : ProcessCall where
  env := { node := { minerNode minerParams ⟨4, 1, 0⟩ with checkpoints := [(1, 2)] } }
  block := minedBlock minerParams [firstEntry] ⟨4, 1, 0⟩

/-- The branch with it. -/
def checkpointTip : ChainIndex := [checkpointCall.block.indexEntry minerHashes, firstEntry]

/-- The call for a block on top of it. -/
def aboveCall : ProcessCall where
  env := { node := { minerNode minerParams ⟨4, 2, 0⟩ with checkpoints := [(1, 2)] } }
  block := minedBlock minerParams checkpointTip ⟨4, 2, 0⟩

open BlockStore in
/-- The block of the checkpoint is accepted, and the next one on top of it. -/
theorem checkpoints_final_sample : ∃ s t,
    processBlocks { mapBlockIndex := SortedMap.insert ∅ minerParams.hashGenesisBlock [firstEntry] }
        defaultMaxOrphanBlocks [checkpointCall] = some s ∧
      s.processBlocks defaultMaxOrphanBlocks [aboveCall] = some t ∧
      s.mapBlockIndex.lookup 2 = some checkpointTip ∧ (t.mapBlockIndex.lookup 3).isSome ∧
      ∀ hash p, t.mapBlockIndex.lookup hash = some p → s.mapBlockIndex.lookup hash = none →
        checkpointTip <:+ p ∧ checkpointTip ≠ p := by
  have hrun : ((processBlocks
      { mapBlockIndex := SortedMap.insert ∅ minerParams.hashGenesisBlock [firstEntry] }
      defaultMaxOrphanBlocks [checkpointCall]).bind fun s ↦
        (s.processBlocks defaultMaxOrphanBlocks [aboveCall]).map fun t ↦
          (s.mapBlockIndex.lookup 2, t.mapBlockIndex.lookup 2,
            (t.mapBlockIndex.lookup 3).isSome)) =
      some (some checkpointTip, some checkpointTip, true) := by decide +kernel
  obtain ⟨s, hs, hrun⟩ := Option.bind_eq_some_iff.mp hrun
  obtain ⟨t, ht, hrun⟩ := Option.map_eq_some_iff.mp hrun
  simp only [Prod.mk.injEq] at hrun
  obtain ⟨hcheckpoint, hkept, habove⟩ := hrun
  have hcalls : ∀ c ∈ [checkpointCall] ++ [aboveCall],
      c.Follows minerHashes minerParams.hashGenesisBlock [(1, 2)] := by
    rw [List.singleton_append, List.forall_mem_cons, List.forall_mem_singleton]
    exact ⟨⟨rfl, rfl, rfl⟩, ⟨rfl, rfl, rfl⟩⟩
  have hplaced : Placed [(1, 2)] t.mapBlockIndex := by
    intro cp hcp r hr
    obtain rfl := List.mem_singleton.mp hcp
    obtain rfl := Option.some.inj (hkept.symm.trans hr)
    rfl
  have hgenesis : firstEntry.blockHash = minerParams.hashGenesisBlock := rfl
  have hfinal := checkpoints_final (List.pairwise_singleton _ _) hgenesis hcalls hs ht hplaced
  exact ⟨s, t, hs, ht, hcheckpoint, habove,
    hfinal.2 (1, 2) List.mem_cons_self checkpointTip hcheckpoint⟩

end Bitmark
