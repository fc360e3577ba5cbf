import Bitmark.Consensus.ForkActivation
import Bitmark.Consensus.OrphanBlocks

/-!
# The release of orphan blocks

When `ProcessBlock` accepts a block, the orphans that waited for it are offered to `AcceptBlock`, as
are those that waited for the accepted ones. No orphan is left whose parent is in the index,
unless a block got there and was not activated.
-/

namespace Bitmark

/-- Every block that is put into the index is activated. -/
def AcceptEnv.ActivatesNew (env : AcceptEnv) (m m' : SortedMap Uint256 ChainIndex) : Prop :=
  ∀ block : CBlock, m.lookup (block.getHash env.node.hashes) = none →
    (m'.lookup (block.getHash env.node.hashes)).isSome → env.activates block = true

namespace BlockStore

variable {H : Hashes} {s s' t : BlockStore} {env : AcceptEnv} {maxOrphanBlocks : Int}
  {rank : Uint256 → ℕ}

/-! ### The orphans of an accepted block -/

/-- The orphans to offer once the blocks of a work queue are accepted: those that wait for one of
them, or for an accepted one of these. -/
inductive Offerable (s : BlockStore) (accepted : COrphanBlock → Prop) (vWorkQueue : List Uint256) :
    COrphanBlock → Prop
  | child {o : COrphanBlock} (hstored : s.Stores o) (hprev : o.hashPrev ∈ vWorkQueue) :
    Offerable s accepted vWorkQueue o
  | descendant {o o' : COrphanBlock} (hparent : Offerable s accepted vWorkQueue o)
    (haccepted : accepted o) (hstored : s.Stores o') (hprev : o'.hashPrev = o.hashBlock) :
    Offerable s accepted vWorkQueue o'

theorem lookup_offerAll {os : List COrphanBlock} {offers : List (COrphanBlock × Bool)}
    (h : s.offerAll env os = some (s', offers)) (hash : Uint256) :
    s'.mapOrphanBlocks.lookup hash =
      if ∃ o ∈ os, o.hashBlock = hash then none else s.mapOrphanBlocks.lookup hash := by
  induction os generalizing s offers with
  | nil =>
    obtain ⟨rfl, rfl⟩ := Prod.mk.inj (Option.some.inj h)
    simp
  | cons o os ih =>
    rw [offerAll] at h
    split at h
    case h_1 => cases h
    case h_2 accepted mapBlockIndex hacc =>
      obtain ⟨⟨t, later⟩, hrest, heq⟩ := Option.map_eq_some_iff.mp h
      obtain ⟨rfl, rfl⟩ := Prod.mk.inj heq
      rw [ih hrest, SortedMap.lookup_erase]
      simp only [List.exists_mem_cons_iff]
      by_cases hos : ∃ o ∈ os, o.hashBlock = hash
      · rw [if_pos hos, if_pos (.inr hos)]
      · rw [if_neg hos]
        simp only [or_iff_left hos]
        by_cases heq : hash = o.hashBlock
        · rw [if_pos heq, if_pos heq.symm]
        · rw [if_neg heq, if_neg fun heq' ↦ heq heq'.symm]

/-- The orphans of one block leave both maps when they are offered. -/
theorem Paired.afterOffers (h : s.Paired H) {hashPrev : Uint256}
    {offers : List (COrphanBlock × Bool)}
    (hoffers : s.offerAll env (s.mapOrphanBlocksByPrev.equalRange hashPrev) = some (s', offers)) :
    (s'.afterOffers hashPrev).Paired H ∧
      ∀ o, (s'.afterOffers hashPrev).Stores o ↔ s.Stores o ∧ o.hashPrev ≠ hashPrev := by
  obtain ⟨-, hprevs⟩ := offerAll_shape hoffers
  have hstores : ∀ o, (s'.afterOffers hashPrev).Stores o ↔ s.Stores o ∧ o.hashPrev ≠ hashPrev := by
    intro o
    have hbatch : s.Stores o →
        ((∃ o' ∈ s.mapOrphanBlocksByPrev.equalRange hashPrev, o'.hashBlock = o.hashBlock) ↔
          o.hashPrev = hashPrev) := by
      intro ho
      constructor
      · rintro ⟨o', ho', heq⟩
        obtain ⟨hkey, hstored⟩ := h.mem_equalRange.mp ho'
        rw [Stores, heq, ho] at hstored
        rw [Option.some.inj hstored, hkey]
      · intro hkey
        exact ⟨o, h.mem_equalRange.mpr ⟨hkey, ho⟩, rfl⟩
    change s'.mapOrphanBlocks.lookup o.hashBlock = some o ↔ _
    rw [lookup_offerAll hoffers]
    split
    case isTrue hwaits => simpa using fun ho ↦ (hbatch ho).mp hwaits
    case isFalse hnot =>
      refine (and_iff_left_of_imp ?_).symm
      intro ho hkey
      exact hnot ((hbatch ho).mpr hkey)
  refine ⟨⟨?_, ?_, ?_, ?_⟩, hstores⟩
  · intro hash o ho
    change s'.mapOrphanBlocks.lookup hash = some o at ho
    rw [lookup_offerAll hoffers] at ho
    split at ho
    · cases ho
    · exact h.keyed hash o ho
  · intro o ho
    exact h.made o ((hstores o).mp ho).1
  · intro it
    rw [hstores, BlockStore.afterOffers, SortedMultimap.mem_eraseKey, hprevs, h.byPrev, and_assoc]
    apply and_congr_right
    intro hkey
    rw [hkey]
  · rw [BlockStore.afterOffers, hprevs]
    exact SortedMultimap.nodup_eraseKey h.nodup hashPrev

/-- What the work queue of `ProcessBlock` does to the orphans. -/
structure Offered (H : Hashes) (vWorkQueue : List Uint256) (s s' : BlockStore)
    (offers : List (COrphanBlock × Bool)) : Prop where
  paired : s'.Paired H
  nodup : (offers.map (·.1)).Nodup
  offerable : ∀ o, o ∈ offers.map (·.1) ↔ s.Offerable (fun o ↦ (o, true) ∈ offers) vWorkQueue o
  stores : ∀ o, s'.Stores o ↔ s.Stores o ∧ o ∉ offers.map (·.1)
  size : s'.mapOrphanBlocksByPrev.size ≤ s.mapOrphanBlocksByPrev.size

theorem mem_acceptedHashes {offers : List (COrphanBlock × Bool)} {hash : Uint256} :
    hash ∈ acceptedHashes offers ↔ ∃ o, (o, true) ∈ offers ∧ o.hashBlock = hash := by
  rw [acceptedHashes, List.mem_map]
  constructor
  · rintro ⟨⟨o, accepted⟩, hmem, rfl⟩
    obtain ⟨hmem, rfl⟩ := List.mem_filter.mp hmem
    exact ⟨o, hmem, rfl⟩
  · rintro ⟨o, hmem, rfl⟩
    exact ⟨(o, true), List.mem_filter.mpr ⟨hmem, rfl⟩, rfl⟩

theorem Offerable.stores {accepted : COrphanBlock → Prop} {vWorkQueue : List Uint256}
    {o : COrphanBlock} (h : s.Offerable accepted vWorkQueue o) : s.Stores o := by
  cases h with
  | child hstored _ => exact hstored
  | descendant _ _ hstored _ => exact hstored

/-- The orphans that are left to offer after those of one block. -/
theorem Offerable.of_afterOffers {first later : List (COrphanBlock × Bool)} {hashPrev : Uint256}
    {vWorkQueue : List Uint256}
    (hfirst : ∀ o, o ∈ first.map (·.1) ↔ o.hashPrev = hashPrev ∧ s.Stores o)
    (hstores : ∀ o, t.Stores o → s.Stores o) {o : COrphanBlock}
    (h : t.Offerable (fun o ↦ (o, true) ∈ later) (vWorkQueue ++ acceptedHashes first) o) :
    s.Offerable (fun o ↦ (o, true) ∈ first ++ later) (hashPrev :: vWorkQueue) o := by
  induction h with
  | child hstored hprev =>
    rcases List.mem_append.mp hprev with hprev | hprev
    · exact .child (hstores _ hstored) (List.mem_cons_of_mem _ hprev)
    · obtain ⟨o, ho, heq⟩ := mem_acceptedHashes.mp hprev
      obtain ⟨hkey, hstored'⟩ := (hfirst o).mp (List.mem_map_of_mem (f := (·.1)) ho)
      apply Offerable.descendant _ _ (hstores _ hstored) heq.symm
      · exact .child hstored' (hkey ▸ List.mem_cons_self)
      · exact List.mem_append_left _ ho
  | descendant _ haccepted hstored hprev ih =>
    exact .descendant ih (List.mem_append_right _ haccepted) (hstores _ hstored) hprev

theorem Paired.offerOrphans {vWorkQueue : List Uint256} (h : s.Paired H)
    {offers : List (COrphanBlock × Bool)}
    (hoffers : BlockStore.offerOrphans env vWorkQueue s = some (s', offers)) :
    Offered H vWorkQueue s s' offers := by
  induction vWorkQueue, s using BlockStore.offerOrphans.induct env generalizing s' offers with
  | case1 s =>
    rw [BlockStore.offerOrphans] at hoffers
    obtain ⟨rfl, rfl⟩ := Prod.mk.inj (Option.some.inj hoffers)
    refine ⟨h, List.nodup_nil, ?_, by simp, le_rfl⟩
    intro o
    refine iff_of_false List.not_mem_nil fun ho ↦ ?_
    induction ho with
    | child _ hprev => cases hprev
    | descendant _ _ _ _ ih => exact ih
  | case2 s hashPrev vWorkQueue hnone =>
    rw [BlockStore.offerOrphans] at hoffers
    split at hoffers
    next => cases hoffers
    next heq => rw [hnone] at heq; cases heq
  | case3 s hashPrev vWorkQueue t first hfirst ih =>
    rw [BlockStore.offerOrphans] at hoffers
    split at hoffers
    next heq => rw [hfirst] at heq; cases heq
    next t' first' heq =>
      obtain ⟨rfl, rfl⟩ := Prod.mk.inj (Option.some.inj (hfirst.symm.trans heq))
      obtain ⟨⟨r, later⟩, hlater, heq'⟩ := Option.map_eq_some_iff.mp hoffers
      simp only [Prod.mk.injEq] at heq'
      obtain ⟨rfl, rfl⟩ := heq'
      obtain ⟨hpaired, hstores⟩ := h.afterOffers hfirst
      have hrest := ih hpaired hlater
      obtain ⟨hbatch, hprevs⟩ := offerAll_shape hfirst
      have hmem : ∀ o, o ∈ first.map (·.1) ↔ o.hashPrev = hashPrev ∧ s.Stores o := by
        intro o
        rw [hbatch, h.mem_equalRange]
      have hlaterStores : ∀ o, o ∈ later.map (·.1) → (t.afterOffers hashPrev).Stores o :=
        fun o ho ↦ ((hrest.offerable o).mp ho).stores
      constructor
      · exact hrest.paired
      · rw [List.map_append, hbatch]
        apply (SortedMultimap.nodup_equalRange h.nodup hashPrev).append hrest.nodup
        intro o ho ho'
        exact ((hstores o).mp (hlaterStores o ho')).2 (h.mem_equalRange.mp ho).1
      · intro o
        rw [List.map_append, List.mem_append]
        constructor
        · rintro (ho | ho)
          · obtain ⟨hkey, hstored⟩ := (hmem o).mp ho
            exact .child hstored (hkey ▸ List.mem_cons_self)
          · exact ((hrest.offerable o).mp ho).of_afterOffers hmem fun o ho ↦ ((hstores o).mp ho).1
        · intro ho
          -- an orphan that does not wait for the first block of the queue is still there
          induction ho with
          | @child o hstored hprev =>
            by_cases hkey : o.hashPrev = hashPrev
            · exact .inl ((hmem o).mpr ⟨hkey, hstored⟩)
            · have hqueue := (List.mem_cons.mp hprev).resolve_left hkey
              exact .inr ((hrest.offerable o).mpr
                (.child ((hstores o).mpr ⟨hstored, hkey⟩) (List.mem_append_left _ hqueue)))
          | @descendant o o' _ haccepted hstored hprev _ =>
            by_cases hkey : o'.hashPrev = hashPrev
            · exact .inl ((hmem o').mpr ⟨hkey, hstored⟩)
            · have hleft := (hstores o').mpr ⟨hstored, hkey⟩
              apply Or.inr ((hrest.offerable o').mpr _)
              rcases List.mem_append.mp haccepted with hnow | hlater
              · have hqueue := mem_acceptedHashes.mpr ⟨o, hnow, hprev.symm⟩
                exact .child hleft (List.mem_append_right _ hqueue)
              · have hoffered := (hrest.offerable o).mp (List.mem_map_of_mem (f := (·.1)) hlater)
                exact .descendant hoffered hlater hleft hprev
      · intro o
        rw [hrest.stores, hstores, List.map_append, List.mem_append, not_or, hmem]
        constructor
        · rintro ⟨⟨hstored, hkey⟩, hnot⟩
          exact ⟨hstored, fun ho ↦ hkey ho.1, hnot⟩
        · rintro ⟨hstored, hfirst, hnot⟩
          exact ⟨⟨hstored, fun hkey ↦ hfirst ⟨hkey, hstored⟩⟩, hnot⟩
      · have hsize := SortedMultimap.size_eraseKey s.mapOrphanBlocksByPrev hashPrev
        have hle := hrest.size
        have hleft : (t.afterOffers hashPrev).mapOrphanBlocksByPrev =
            s.mapOrphanBlocksByPrev.eraseKey hashPrev := by
          rw [← hprevs]
          rfl
        rw [hleft] at hle
        omega

/-! ### The index -/

/-- `AcceptBlock` returns false and leaves the index, or puts a new block into it and returns
whether it is activated. -/
theorem acceptBlock_eq_some {block : CBlock} {state : CValidationState} {accepted : Bool}
    {m m' : SortedMap Uint256 ChainIndex}
    (h : env.acceptBlock block state m = some (accepted, m')) :
    (accepted = false ∧ m' = m) ∨
      (accepted = env.activates block ∧ m.lookup (block.getHash env.node.hashes) = none ∧
        ∃ pindex, m' = m.insert (block.getHash env.node.hashes) pindex) := by
  unfold AcceptEnv.acceptBlock at h
  dsimp only at h
  split at h
  case isTrue =>
    obtain ⟨rfl, rfl⟩ := Prod.mk.inj (Option.some.inj h)
    exact .inl ⟨rfl, rfl⟩
  case isFalse hnew =>
    split at h
    next => cases h
    next =>
      obtain ⟨rfl, rfl⟩ := Prod.mk.inj (Option.some.inj h)
      exact .inl ⟨rfl, rfl⟩
    next =>
      split at h
      · obtain ⟨rfl, rfl⟩ := Prod.mk.inj (Option.some.inj h)
        exact .inr ⟨rfl, Option.not_isSome_iff_eq_none.mp hnew, _, rfl⟩
      · obtain ⟨rfl, rfl⟩ := Prod.mk.inj (Option.some.inj h)
        exact .inl ⟨rfl, rfl⟩

/-- The index keeps the blocks it has. -/
def IndexKept (m m' : SortedMap Uint256 ChainIndex) : Prop :=
  ∀ hash, (m.lookup hash).isSome → (m'.lookup hash).isSome

namespace IndexKept

variable {m m' m₁ m₂ : SortedMap Uint256 ChainIndex}

theorem refl (m : SortedMap Uint256 ChainIndex) : IndexKept m m := fun _ h ↦ h

theorem trans (h : IndexKept m m₁) (h' : IndexKept m₁ m') : IndexKept m m' :=
  fun hash hin ↦ h' hash (h hash hin)

theorem eq_none (h : IndexKept m m') {hash : Uint256} (hnone : m'.lookup hash = none) :
    m.lookup hash = none := by
  by_contra hin
  have hsome := h hash (Option.isSome_iff_ne_none.mpr hin)
  rw [hnone] at hsome
  cases hsome

theorem activatesNew (hbefore : IndexKept m m₁) (hafter : IndexKept m₂ m')
    (h : env.ActivatesNew m m') : env.ActivatesNew m₁ m₂ :=
  fun block hnew hin ↦ h block (hbefore.eq_none hnew) (hafter _ hin)

end IndexKept

theorem indexKept_acceptBlock {block : CBlock} {state : CValidationState} {accepted : Bool}
    {m m' : SortedMap Uint256 ChainIndex}
    (h : env.acceptBlock block state m = some (accepted, m')) : IndexKept m m' := by
  rcases acceptBlock_eq_some h with ⟨-, rfl⟩ | ⟨-, -, pindex, rfl⟩
  · exact .refl m'
  · intro hash hin
    rw [SortedMap.lookup_insert]
    split
    · rfl
    · exact hin

theorem indexKept_offerAll {os : List COrphanBlock} {offers : List (COrphanBlock × Bool)}
    (h : s.offerAll env os = some (s', offers)) : IndexKept s.mapBlockIndex s'.mapBlockIndex := by
  induction os generalizing s offers with
  | nil =>
    obtain ⟨rfl, rfl⟩ := Prod.mk.inj (Option.some.inj h)
    exact .refl _
  | cons o os ih =>
    rw [offerAll] at h
    split at h
    case h_1 => cases h
    case h_2 accepted mapBlockIndex hacc =>
      obtain ⟨⟨t, later⟩, hrest, heq⟩ := Option.map_eq_some_iff.mp h
      obtain ⟨rfl, rfl⟩ := Prod.mk.inj heq
      exact (indexKept_acceptBlock hacc).trans (ih hrest)

theorem indexKept_offerOrphans {vWorkQueue : List Uint256} {offers : List (COrphanBlock × Bool)}
    (hoffers : BlockStore.offerOrphans env vWorkQueue s = some (s', offers)) :
    IndexKept s.mapBlockIndex s'.mapBlockIndex := by
  induction vWorkQueue, s using BlockStore.offerOrphans.induct env generalizing s' offers with
  | case1 s =>
    rw [BlockStore.offerOrphans] at hoffers
    obtain ⟨rfl, rfl⟩ := Prod.mk.inj (Option.some.inj hoffers)
    exact .refl _
  | case2 s hashPrev vWorkQueue hnone =>
    rw [BlockStore.offerOrphans] at hoffers
    split at hoffers
    next => cases hoffers
    next heq => rw [hnone] at heq; cases heq
  | case3 s hashPrev vWorkQueue t first hfirst ih =>
    rw [BlockStore.offerOrphans] at hoffers
    split at hoffers
    next heq => rw [hfirst] at heq; cases heq
    next t' first' heq =>
      obtain ⟨rfl, rfl⟩ := Prod.mk.inj (Option.some.inj (hfirst.symm.trans heq))
      obtain ⟨⟨r, later⟩, hlater, heq'⟩ := Option.map_eq_some_iff.mp hoffers
      obtain ⟨rfl, -⟩ := Prod.mk.inj heq'
      exact (indexKept_offerAll hfirst).trans (ih hlater)

/-- A block that is put into the index is accepted, when it is activated. -/
theorem isSome_of_acceptBlock {block : CBlock} {state : CValidationState} {accepted : Bool}
    {m m' : SortedMap Uint256 ChainIndex} (hactivates : env.ActivatesNew m m')
    (h : env.acceptBlock block state m = some (accepted, m')) {hash : Uint256}
    (hin : (m'.lookup hash).isSome) :
    (m.lookup hash).isSome ∨ (accepted = true ∧ hash = block.getHash env.node.hashes) := by
  rcases acceptBlock_eq_some h with ⟨-, rfl⟩ | ⟨haccepted, hnew, pindex, rfl⟩
  · exact .inl hin
  · rw [SortedMap.lookup_insert] at hin
    split at hin
    case isTrue heq =>
      have hactive : env.activates block = true := by
        apply hactivates block hnew
        rw [SortedMap.lookup_insert_self]
        rfl
      exact .inr ⟨haccepted.trans hactive, heq⟩
    case isFalse => exact .inl hin

theorem isSome_of_offerAll {os : List COrphanBlock} {offers : List (COrphanBlock × Bool)}
    (hactivates : env.ActivatesNew s.mapBlockIndex s'.mapBlockIndex)
    (hmade : ∀ o ∈ os, o.hashBlock = o.block.getHash env.node.hashes)
    (h : s.offerAll env os = some (s', offers)) {hash : Uint256}
    (hin : (s'.mapBlockIndex.lookup hash).isSome) :
    (s.mapBlockIndex.lookup hash).isSome ∨ hash ∈ acceptedHashes offers := by
  induction os generalizing s offers with
  | nil =>
    obtain ⟨rfl, rfl⟩ := Prod.mk.inj (Option.some.inj h)
    exact .inl hin
  | cons o os ih =>
    rw [List.forall_mem_cons] at hmade
    rw [offerAll] at h
    split at h
    case h_1 => cases h
    case h_2 accepted mapBlockIndex hacc =>
      obtain ⟨⟨t, later⟩, hrest, heq⟩ := Option.map_eq_some_iff.mp h
      obtain ⟨rfl, rfl⟩ := Prod.mk.inj heq
      have hfirst : env.ActivatesNew s.mapBlockIndex mapBlockIndex :=
        (IndexKept.refl _).activatesNew (indexKept_offerAll hrest) hactivates
      have hothers : env.ActivatesNew mapBlockIndex t.mapBlockIndex :=
        (indexKept_acceptBlock hacc).activatesNew (.refl _) hactivates
      rcases ih hothers hmade.2 hrest with hbefore | hlater
      · rcases isSome_of_acceptBlock hfirst hacc hbefore with hold | ⟨rfl, rfl⟩
        · exact .inl hold
        · exact .inr (mem_acceptedHashes.mpr ⟨o, List.mem_cons_self, hmade.1⟩)
      · obtain ⟨o', ho', heq'⟩ := mem_acceptedHashes.mp hlater
        exact .inr (mem_acceptedHashes.mpr ⟨o', List.mem_cons_of_mem _ ho', heq'⟩)

/-- The index grows by the accepted orphans only, when what is put into it is activated. -/
theorem isSome_of_offerOrphans {vWorkQueue : List Uint256}
    {offers : List (COrphanBlock × Bool)}
    (hactivates : env.ActivatesNew s.mapBlockIndex s'.mapBlockIndex)
    (h : s.Paired env.node.hashes)
    (hoffers : BlockStore.offerOrphans env vWorkQueue s = some (s', offers)) {hash : Uint256}
    (hin : (s'.mapBlockIndex.lookup hash).isSome) :
    (s.mapBlockIndex.lookup hash).isSome ∨ hash ∈ acceptedHashes offers := by
  induction vWorkQueue, s using BlockStore.offerOrphans.induct env generalizing s' offers with
  | case1 s =>
    rw [BlockStore.offerOrphans] at hoffers
    obtain ⟨rfl, rfl⟩ := Prod.mk.inj (Option.some.inj hoffers)
    exact .inl hin
  | case2 s hashPrev vWorkQueue hnone =>
    rw [BlockStore.offerOrphans] at hoffers
    split at hoffers
    next => cases hoffers
    next heq => rw [hnone] at heq; cases heq
  | case3 s hashPrev vWorkQueue t first hfirst ih =>
    rw [BlockStore.offerOrphans] at hoffers
    split at hoffers
    next heq => rw [hfirst] at heq; cases heq
    next t' first' heq =>
      obtain ⟨rfl, rfl⟩ := Prod.mk.inj (Option.some.inj (hfirst.symm.trans heq))
      obtain ⟨⟨r, later⟩, hlater, heq'⟩ := Option.map_eq_some_iff.mp hoffers
      simp only [Prod.mk.injEq] at heq'
      obtain ⟨rfl, rfl⟩ := heq'
      have hmade : ∀ o ∈ s.mapOrphanBlocksByPrev.equalRange hashPrev,
          o.hashBlock = o.block.getHash env.node.hashes :=
        fun o ho ↦ (h.made o (h.mem_equalRange.mp ho).2).1
      have hhashes : acceptedHashes (first ++ later) =
          acceptedHashes first ++ acceptedHashes later := by
        rw [acceptedHashes, List.filter_append, List.map_append]
        rfl
      have hbatch : env.ActivatesNew s.mapBlockIndex t.mapBlockIndex :=
        (IndexKept.refl _).activatesNew (indexKept_offerOrphans hlater :) hactivates
      have hqueue : env.ActivatesNew t.mapBlockIndex r.mapBlockIndex :=
        (indexKept_offerAll hfirst).activatesNew (.refl _) hactivates
      rw [hhashes, List.mem_append]
      rcases ih hqueue (h.afterOffers hfirst).1 hlater hin with hbefore | hlater
      · exact (isSome_of_offerAll hbatch hmade hfirst hbefore).imp_right .inl
      · exact .inr (.inr hlater)

/-! ### One call -/

variable {c : ProcessCall} {r : Processed}

/-- What one call of `ProcessBlock` does. -/
inductive CallCase (s : BlockStore) (maxOrphanBlocks : Int) (c : ProcessCall) (r : Processed) : Prop
  /-- Nothing changes. -/
  | unchanged (hstore : r.store = s) (hpruned : r.pruned = none)
    (hresult : r.result = true → s.mapBlockIndex.lookup c.hash = none)
  /-- The block is kept as an orphan. -/
  | kept (t : BlockStore) (hindex : s.mapBlockIndex.lookup c.hash = none)
    (hnew : s.mapOrphanBlocks.lookup c.hash = none)
    (hparent : s.mapBlockIndex.lookup c.block.hashPrevBlock = none)
    (hprune : s.pruneOrphanBlocks maxOrphanBlocks c.rand = some (r.pruned, t))
    (hstore : r.store = t.addOrphan ⟨c.hash, c.block.hashPrevBlock, c.block⟩)
  /-- `AcceptBlock` fails. -/
  | refused (mapBlockIndex : SortedMap Uint256 ChainIndex)
    (haccept : c.env.acceptBlock c.block c.state s.mapBlockIndex = some (false, mapBlockIndex))
    (hpruned : r.pruned = none) (hresult : r.result = false)
    (hstore : r.store = { s with mapBlockIndex })
  /-- `AcceptBlock` succeeds, and the orphans that waited for the block are offered to it. -/
  | accepted (mapBlockIndex : SortedMap Uint256 ChainIndex)
    (haccept : c.env.acceptBlock c.block c.state s.mapBlockIndex = some (true, mapBlockIndex))
    (hpruned : r.pruned = none)
    (hoffers : offerOrphans c.env [c.hash] { s with mapBlockIndex } = some (r.store, r.offers))

theorem processBlock_cases (h : s.processBlock maxOrphanBlocks c = some r) :
    CallCase s maxOrphanBlocks c r := by
  unfold processBlock at h
  split at h
  case isTrue hindex =>
    obtain rfl := Option.some.inj h
    exact .unchanged rfl rfl fun hresult ↦ by cases hresult
  case isFalse hindex =>
    rw [Bool.not_eq_true, Option.isSome_eq_false_iff, Option.isNone_iff_eq_none] at hindex
    split at h
    case isTrue =>
      obtain rfl := Option.some.inj h
      exact .unchanged rfl rfl fun _ ↦ hindex
    case isFalse hnew =>
      rw [Bool.not_eq_true, Option.isSome_eq_false_iff, Option.isNone_iff_eq_none] at hnew
      split at h
      next => cases h
      next =>
        obtain rfl := Option.some.inj h
        exact .unchanged rfl rfl fun _ ↦ hindex
      next =>
        split at h
        case isTrue hparent =>
          unfold keepOrphan at h
          split at h
          case isTrue =>
            obtain ⟨⟨pruned, t⟩, hprune, h⟩ := Option.bind_eq_some_iff.mp h
            obtain ⟨hashEnd, -, h⟩ := Option.bind_eq_some_iff.mp h
            obtain rfl := Option.some.inj h
            exact .kept t hindex hnew hparent.2 hprune rfl
          case isFalse =>
            obtain rfl := Option.some.inj h
            exact .unchanged rfl rfl fun _ ↦ hindex
        case isFalse =>
          obtain ⟨⟨accepted, mapBlockIndex⟩, haccept, h⟩ := Option.bind_eq_some_iff.mp h
          cases accepted with
          | true =>
            obtain ⟨⟨t, offers⟩, hoffers, h⟩ := Option.bind_eq_some_iff.mp h
            obtain rfl := Option.some.inj h
            exact .accepted mapBlockIndex haccept rfl hoffers
          | false =>
            obtain rfl := Option.some.inj h
            exact .refused mapBlockIndex haccept rfl rfl rfl

/-- What holds of the orphans after every call. -/
structure Kept (H : Hashes) (rank : Uint256 → ℕ) (maxOrphanBlocks : Int) (s : BlockStore) :
    Prop where
  paired : s.Paired H
  ranked : s.Ranked rank
  size : s.mapOrphanBlocksByPrev.size ≤ (max 0 maxOrphanBlocks).toNat + 1

theorem kept_empty (mapBlockIndex : SortedMap Uint256 ChainIndex) :
    Kept H rank maxOrphanBlocks { mapBlockIndex } where
  paired := paired_empty mapBlockIndex
  ranked o ho := by cases ho
  size := Nat.zero_le _

theorem Kept.congr (h : s.Kept H rank maxOrphanBlocks)
    (horphans : t.mapOrphanBlocks = s.mapOrphanBlocks)
    (hprev : t.mapOrphanBlocksByPrev = s.mapOrphanBlocksByPrev) :
    t.Kept H rank maxOrphanBlocks where
  paired := h.paired.congr horphans hprev
  ranked o ho := h.ranked o (by rw [Stores, ← horphans]; exact ho)
  size := hprev ▸ h.size

/-- After `PruneOrphanBlocks` there is room for one more orphan. -/
theorem Kept.pruneOrphanBlocks (h : s.Kept H rank maxOrphanBlocks) {rand : ℕ}
    {pruned : Option COrphanBlock}
    (hprune : s.pruneOrphanBlocks maxOrphanBlocks rand = some (pruned, t)) :
    t.Paired H ∧ (∀ o, t.Stores o → s.Stores o) ∧
      t.mapOrphanBlocksByPrev.size ≤ (max 0 maxOrphanBlocks).toNat ∧
      t.mapBlockIndex = s.mapBlockIndex ∧
      ∀ o, pruned = some o → s.Stores o ∧ s.Childless o := by
  rcases exists_pruneOrphanBlocks h.paired h.ranked maxOrphanBlocks rand with
    ⟨hsize, heq⟩ | ⟨leaf, hmem, hchildless, heq⟩
  · obtain ⟨rfl, rfl⟩ := Prod.mk.inj (Option.some.inj (hprune.symm.trans heq))
    exact ⟨h.paired, fun o ho ↦ ho, hsize, rfl, fun o ho ↦ by cases ho⟩
  · obtain ⟨rfl, rfl⟩ := Prod.mk.inj (Option.some.inj (hprune.symm.trans heq))
    refine ⟨h.paired.eraseOrphan hmem, fun o ho ↦ (stores_eraseOrphan.mp ho).2, ?_, rfl, ?_⟩
    · have hsize := SortedMultimap.size_eraseEntry hmem
      have hle := h.size
      change (s.mapOrphanBlocksByPrev.eraseEntry leaf).size ≤ _
      omega
    · intro o ho
      obtain rfl := Option.some.inj ho
      exact ⟨((h.paired.byPrev leaf).mp hmem).2, hchildless⟩

theorem Kept.addOrphan (h : t.Paired H) (hrank : t.Ranked rank)
    (hsize : t.mapOrphanBlocksByPrev.size ≤ (max 0 maxOrphanBlocks).toNat)
    (hnew : t.mapOrphanBlocks.lookup c.hash = none) (hhashes : c.env.node.hashes = H)
    (hblock : rank c.block.hashPrevBlock < rank c.hash) :
    (t.addOrphan ⟨c.hash, c.block.hashPrevBlock, c.block⟩).Kept H rank maxOrphanBlocks where
  paired := h.addOrphan hnew ⟨by rw [ProcessCall.hash, hhashes], rfl⟩
  ranked o ho := by
    rcases (stores_addOrphan hnew).mp ho with rfl | ho
    · exact hblock
    · exact hrank o ho
  size := by
    rw [BlockStore.addOrphan, SortedMultimap.size_insert]
    omega

/-- `ProcessBlock` drops only an orphan that no other one builds on. -/
theorem Kept.of_pruned (h : s.Kept H rank maxOrphanBlocks)
    (hcall : s.processBlock maxOrphanBlocks c = some r) (o : COrphanBlock)
    (ho : r.pruned = some o) : s.Stores o ∧ s.Childless o := by
  cases processBlock_cases hcall with
  | unchanged _ hpruned _ =>
    rw [hpruned] at ho
    cases ho
  | kept t _ _ _ hprune _ =>
    obtain ⟨-, -, -, -, hchildless⟩ := h.pruneOrphanBlocks hprune
    exact hchildless o ho
  | refused _ _ hpruned _ _ =>
    rw [hpruned] at ho
    cases ho
  | accepted _ _ hpruned _ =>
    rw [hpruned] at ho
    cases ho

theorem lookup_eq_none_of_stores (ht : t.Paired H) (hstores : ∀ o, t.Stores o → s.Stores o)
    {hash : Uint256} (hnew : s.mapOrphanBlocks.lookup hash = none) :
    t.mapOrphanBlocks.lookup hash = none := by
  cases ho : t.mapOrphanBlocks.lookup hash with
  | none => rfl
  | some o =>
    have hstored := hstores o (ht.stores ho)
    rw [Stores, ht.keyed hash o ho, hnew] at hstored
    cases hstored

theorem Kept.processBlock (h : s.Kept H rank maxOrphanBlocks) (hhashes : c.env.node.hashes = H)
    (hblock : rank c.block.hashPrevBlock < rank c.hash)
    (hcall : s.processBlock maxOrphanBlocks c = some r) : r.store.Kept H rank maxOrphanBlocks := by
  cases processBlock_cases hcall with
  | unchanged hstore => exact hstore ▸ h
  | kept t hindex hnew hparent hprune hstore =>
    obtain ⟨hpaired, hstores, hsize, -, -⟩ := h.pruneOrphanBlocks hprune
    rw [hstore]
    exact Kept.addOrphan hpaired (fun o ho ↦ h.ranked o (hstores o ho)) hsize
      (lookup_eq_none_of_stores hpaired hstores hnew) hhashes hblock
  | refused mapBlockIndex haccept hpruned hresult hstore => exact hstore ▸ h.congr rfl rfl
  | accepted mapBlockIndex haccept hpruned hoffers =>
    have hbefore : Kept H rank maxOrphanBlocks { s with mapBlockIndex } := h.congr rfl rfl
    have hoffered := hbefore.paired.offerOrphans hoffers
    constructor
    · exact hoffered.paired
    · exact fun o ho ↦ hbefore.ranked o ((hoffered.stores o).mp ho).1
    · exact hoffered.size.trans hbefore.size

/-- The loops of `ProcessBlock` end: it returns when `CheckBlock` and `AcceptBlock` do. -/
theorem Kept.isSome_keepOrphan (h : s.Kept H rank maxOrphanBlocks)
    (hhashes : c.env.node.hashes = H) (hblock : rank c.block.hashPrevBlock < rank c.hash)
    (hnew : s.mapOrphanBlocks.lookup c.hash = none) : (s.keepOrphan maxOrphanBlocks c).isSome := by
  unfold keepOrphan
  split
  case isFalse => rfl
  case isTrue =>
    obtain ⟨⟨pruned, t⟩, hprune⟩ :
        ∃ p, s.pruneOrphanBlocks maxOrphanBlocks c.rand = some p := by
      rcases exists_pruneOrphanBlocks h.paired h.ranked maxOrphanBlocks c.rand with
        ⟨-, heq⟩ | ⟨leaf, -, -, heq⟩
      · exact ⟨_, heq⟩
      · exact ⟨_, heq⟩
    obtain ⟨hpaired, hstores, hsize, -, -⟩ := h.pruneOrphanBlocks hprune
    have hadded := Kept.addOrphan hpaired (fun o ho ↦ h.ranked o (hstores o ho)) hsize
      (lookup_eq_none_of_stores hpaired hstores hnew) hhashes hblock
    obtain ⟨hashEnd, hroot⟩ := Option.isSome_iff_exists.mp
      (isSome_getOrphanRoot hadded.paired hadded.ranked c.hash)
    rw [hprune]
    change ((BlockStore.getOrphanRoot _ c.hash).bind _).isSome
    rw [hroot]
    rfl

theorem exists_of_offerAll_eq_none {os : List COrphanBlock} (h : s.offerAll env os = none) :
    ∃ block state mapBlockIndex, env.acceptBlock block state mapBlockIndex = none := by
  induction os generalizing s with
  | nil => cases h
  | cons o os ih =>
    rw [offerAll] at h
    split at h
    case h_1 hnone => exact ⟨_, _, _, hnone⟩
    case h_2 => exact ih (Option.map_eq_none_iff.mp h)

theorem exists_of_offerOrphans_eq_none {vWorkQueue : List Uint256}
    (h : BlockStore.offerOrphans env vWorkQueue s = none) :
    ∃ block state mapBlockIndex, env.acceptBlock block state mapBlockIndex = none := by
  induction vWorkQueue, s using BlockStore.offerOrphans.induct env with
  | case1 s =>
    rw [BlockStore.offerOrphans] at h
    cases h
  | case2 s hashPrev vWorkQueue hnone => exact exists_of_offerAll_eq_none hnone
  | case3 s hashPrev vWorkQueue t first hfirst ih =>
    rw [BlockStore.offerOrphans] at h
    split at h
    next heq => rw [hfirst] at heq; cases heq
    next t' first' heq =>
      obtain ⟨rfl, rfl⟩ := Prod.mk.inj (Option.some.inj (hfirst.symm.trans heq))
      exact ih (Option.map_eq_none_iff.mp h)

theorem Kept.aborts_of_eq_none (h : s.Kept H rank maxOrphanBlocks)
    (hhashes : c.env.node.hashes = H) (hblock : rank c.block.hashPrevBlock < rank c.hash)
    (hnone : s.processBlock maxOrphanBlocks c = none) : c.Aborts := by
  unfold BlockStore.processBlock at hnone
  split at hnone
  case isTrue => cases hnone
  case isFalse hindex =>
    split at hnone
    case isTrue => cases hnone
    case isFalse hnew =>
      rw [Bool.not_eq_true, Option.isSome_eq_false_iff, Option.isNone_iff_eq_none] at hnew
      split at hnone
      next habort => exact .inl habort
      next => cases hnone
      next =>
        split at hnone
        case isTrue =>
          have hsome := h.isSome_keepOrphan hhashes hblock hnew
          rw [hnone] at hsome
          cases hsome
        case isFalse =>
          right
          cases haccept : c.env.acceptBlock c.block c.state s.mapBlockIndex with
          | none => exact ⟨_, _, _, haccept⟩
          | some p =>
            obtain ⟨accepted, mapBlockIndex⟩ := p
            have hrest := Option.bind_eq_none_iff.mp hnone _ haccept
            cases accepted with
            | false => cases hrest
            | true =>
              cases hoffers : offerOrphans c.env [c.hash] { s with mapBlockIndex } with
              | none => exact exists_of_offerOrphans_eq_none hoffers
              | some q => cases Option.bind_eq_none_iff.mp hrest q hoffers

/-! ### What waits, and what is offered -/

/-- No orphan has its parent in the index. -/
def Waiting (s : BlockStore) : Prop :=
  ∀ o, s.Stores o → s.mapBlockIndex.lookup o.hashPrev = none

theorem Waiting.processBlock (hwaiting : s.Waiting) (h : s.Kept H rank maxOrphanBlocks)
    (hhashes : c.env.node.hashes = H)
    (hactivates : c.env.ActivatesNew s.mapBlockIndex r.store.mapBlockIndex)
    (hcall : s.processBlock maxOrphanBlocks c = some r) : r.store.Waiting := by
  cases processBlock_cases hcall with
  | unchanged hstore => exact hstore ▸ hwaiting
  | kept t hindex hnew hparent hprune hstore =>
    obtain ⟨hpaired, hstores, -, hsame, -⟩ := h.pruneOrphanBlocks hprune
    rw [hstore]
    intro o ho
    change t.mapBlockIndex.lookup o.hashPrev = none
    rw [hsame]
    rcases (stores_addOrphan (lookup_eq_none_of_stores hpaired hstores hnew)).mp ho with rfl | ho
    · exact hparent
    · exact hwaiting o (hstores o ho)
  | refused mapBlockIndex haccept hpruned hresult hstore =>
    rw [hstore] at hactivates ⊢
    intro o ho
    rcases acceptBlock_eq_some haccept with ⟨-, hsame⟩ | ⟨hfalse, hnew, pindex, rfl⟩
    · change mapBlockIndex.lookup o.hashPrev = none
      rw [hsame]
      exact hwaiting o ho
    · have hactive : c.env.activates c.block = true := by
        apply hactivates c.block hnew
        rw [SortedMap.lookup_insert_self]
        rfl
      rw [hactive] at hfalse
      cases hfalse
  | accepted mapBlockIndex haccept hpruned hoffers =>
    have hpaired : Paired H { s with mapBlockIndex } := h.paired.congr rfl rfl
    have hoffered := hpaired.offerOrphans hoffers
    intro o ho
    obtain ⟨hstored, hleft⟩ := (hoffered.stores o).mp ho
    by_contra hparent
    -- an orphan whose parent is in the index now had to be offered
    apply hleft
    apply (hoffered.offerable o).mpr
    subst hhashes
    have hown : c.env.ActivatesNew s.mapBlockIndex mapBlockIndex :=
      (IndexKept.refl _).activatesNew (indexKept_offerOrphans hoffers :) hactivates
    have hothers : c.env.ActivatesNew mapBlockIndex r.store.mapBlockIndex :=
      (indexKept_acceptBlock haccept).activatesNew (.refl _) hactivates
    rcases isSome_of_offerOrphans hothers hpaired hoffers (Option.ne_none_iff_isSome.mp hparent)
      with hbefore | hlater
    · rcases isSome_of_acceptBlock hown haccept hbefore with hold | ⟨-, heq⟩
      · have hnone : s.mapBlockIndex.lookup o.hashPrev = none := hwaiting o hstored
        rw [hnone] at hold
        cases hold
      · exact .child hstored (heq ▸ List.mem_cons_self)
    · obtain ⟨o', ho', heq⟩ := mem_acceptedHashes.mp hlater
      have hparent' := (hoffered.offerable o').mp (List.mem_map_of_mem (f := (·.1)) ho')
      exact .descendant hparent' ho' hstored heq.symm

/-- What `ProcessBlock` does about the orphans when it accepts a block. -/
structure OffersWaiting (s : BlockStore) (hash : Uint256) (r : Processed) : Prop where
  once : (r.offers.map (·.1)).Nodup
  offerable : ∀ o, o ∈ r.offers.map (·.1) ↔
    s.Offerable (fun o ↦ (o, true) ∈ r.offers) [hash] o
  leaves : ∀ o, s.Stores o →
    (o.hashPrev = hash ∨ ∃ o', (o', true) ∈ r.offers ∧ o.hashPrev = o'.hashBlock) →
    ¬ r.store.Stores o

theorem Kept.offersWaiting (h : s.Kept H rank maxOrphanBlocks)
    (hcall : s.processBlock maxOrphanBlocks c = some r)
    (hin : (r.store.mapBlockIndex.lookup c.hash).isSome) (hresult : r.result = true) :
    s.OffersWaiting c.hash r := by
  cases processBlock_cases hcall with
  | unchanged hstore hpruned hnone =>
    rw [hstore, hnone hresult] at hin
    cases hin
  | kept t hindex hnew hparent hprune hstore =>
    obtain ⟨-, -, -, hsame, -⟩ := h.pruneOrphanBlocks hprune
    rw [hstore] at hin
    change (t.mapBlockIndex.lookup c.hash).isSome at hin
    rw [hsame, hindex] at hin
    cases hin
  | refused mapBlockIndex haccept hpruned hfalse hstore =>
    rw [hfalse] at hresult
    cases hresult
  | accepted mapBlockIndex haccept hpruned hoffers =>
    have hpaired : Paired H { s with mapBlockIndex } := h.paired.congr rfl rfl
    have hoffered := hpaired.offerOrphans hoffers
    have hofferable : ∀ o, o ∈ r.offers.map (·.1) ↔
        s.Offerable (fun o ↦ (o, true) ∈ r.offers) [c.hash] o := by
      intro o
      rw [hoffered.offerable]
      constructor
      · intro ho
        induction ho with
        | child hstored hprev => exact .child hstored hprev
        | descendant _ haccepted hstored hprev ih => exact .descendant ih haccepted hstored hprev
      · intro ho
        induction ho with
        | child hstored hprev => exact .child hstored hprev
        | descendant _ haccepted hstored hprev ih => exact .descendant ih haccepted hstored hprev
    refine ⟨hoffered.nodup, hofferable, ?_⟩
    intro o hstored hparent hleft
    apply ((hoffered.stores o).mp hleft).2
    rw [hofferable]
    rcases hparent with heq | ⟨o', ho', heq⟩
    · exact .child hstored (heq ▸ List.mem_cons_self)
    · exact .descendant ((hofferable o').mp (List.mem_map_of_mem (f := (·.1)) ho')) ho' hstored heq

/-! ### Runs -/

/-- In each call of a run every block that is put into the index is activated. -/
def ActivatesIndexed (s : BlockStore) (maxOrphanBlocks : Int) : List ProcessCall → Prop
  | [] => True
  | c :: calls => ∀ r, s.processBlock maxOrphanBlocks c = some r →
    c.env.ActivatesNew s.mapBlockIndex r.store.mapBlockIndex ∧
      r.store.ActivatesIndexed maxOrphanBlocks calls

theorem kept_processBlocks {calls : List ProcessCall}
    (hcalls : ∀ c ∈ calls, c.env.node.hashes = H ∧ rank c.block.hashPrevBlock < rank c.hash)
    (h : s.Kept H rank maxOrphanBlocks)
    (hrun : s.processBlocks maxOrphanBlocks calls = some t) :
    t.Kept H rank maxOrphanBlocks ∧
      ∀ later, s.ActivatesIndexed maxOrphanBlocks (calls ++ later) → s.Waiting →
        t.Waiting ∧ t.ActivatesIndexed maxOrphanBlocks later := by
  induction calls generalizing s with
  | nil =>
    obtain rfl := Option.some.inj hrun
    exact ⟨h, fun _ hactivates hwaiting ↦ ⟨hwaiting, hactivates⟩⟩
  | cons c calls ih =>
    rw [List.forall_mem_cons] at hcalls
    obtain ⟨⟨hhashes, hblock⟩, hcalls⟩ := hcalls
    obtain ⟨r, hcall, hrest⟩ := Option.bind_eq_some_iff.mp hrun
    obtain ⟨hkept, hwaiting⟩ := ih hcalls (h.processBlock hhashes hblock hcall) hrest
    refine ⟨hkept, ?_⟩
    intro later hactivates hs
    obtain ⟨hnew, hrest⟩ := hactivates r hcall
    exact hwaiting later hrest (hs.processBlock h hhashes hnew hcall)

end BlockStore

/-- No block of a run is its own ancestor, which hashes without collisions guarantee. -/
def Acyclic (H : Hashes) (blocks : List CBlock) : Prop :=
  ∃ rank : Uint256 → ℕ, ∀ block ∈ blocks, rank block.hashPrevBlock < rank (block.getHash H)

open BlockStore in
/-- After any calls of `ProcessBlock`, a further one returns unless `CheckBlock` or `AcceptBlock`
does not. It leaves two maps that agree and hold at most one orphan more than allowed, removes only
an orphan that no other one builds on, and when it accepts the block offers each orphan to offer
once. No orphan has its parent in the index while every block that is put there is activated. -/
theorem orphanBlocks_kept {H : Hashes} {maxOrphanBlocks : Int}
    {mapBlockIndex : SortedMap Uint256 ChainIndex} {calls : List ProcessCall} {c : ProcessCall}
    {s : BlockStore} (hhashes : ∀ c' ∈ calls ++ [c], c'.env.node.hashes = H)
    (hacyclic : Acyclic H ((calls ++ [c]).map (·.block)))
    (hrun : processBlocks { mapBlockIndex } maxOrphanBlocks calls = some s) :
    (s.processBlock maxOrphanBlocks c = none → c.Aborts) ∧
    ∀ r, s.processBlock maxOrphanBlocks c = some r →
      r.store.Paired H ∧
      r.store.mapOrphanBlocksByPrev.size ≤ (max 0 maxOrphanBlocks).toNat + 1 ∧
      (∀ hash, (r.store.getOrphanRoot hash).isSome) ∧
      (∀ rand, (r.store.pruneOrphanBlocks maxOrphanBlocks rand).isSome) ∧
      (∀ o, r.pruned = some o → s.Stores o ∧ s.Childless o) ∧
      ((r.store.mapBlockIndex.lookup c.hash).isSome → r.result = true →
        s.OffersWaiting c.hash r) ∧
      (ActivatesIndexed { mapBlockIndex } maxOrphanBlocks (calls ++ [c]) → r.store.Waiting) := by
  obtain ⟨rank, hrank⟩ := hacyclic
  have hcalls : ∀ c' ∈ calls ++ [c],
      c'.env.node.hashes = H ∧ rank c'.block.hashPrevBlock < rank c'.hash := by
    intro c' hc'
    refine ⟨hhashes c' hc', ?_⟩
    rw [ProcessCall.hash, hhashes c' hc']
    exact hrank c'.block (List.mem_map_of_mem (f := (·.block)) hc')
  rw [List.forall_mem_append, List.forall_mem_singleton] at hcalls
  obtain ⟨hearlier, hown, hblock⟩ := hcalls
  obtain ⟨hkept, hwaiting⟩ := kept_processBlocks hearlier (kept_empty mapBlockIndex) hrun
  refine ⟨hkept.aborts_of_eq_none hown hblock, ?_⟩
  intro r hcall
  have hafter := hkept.processBlock hown hblock hcall
  refine ⟨hafter.paired, hafter.size, isSome_getOrphanRoot hafter.paired hafter.ranked, ?_,
    hkept.of_pruned hcall, hkept.offersWaiting hcall, ?_⟩
  · intro rand
    rcases exists_pruneOrphanBlocks hafter.paired hafter.ranked maxOrphanBlocks rand with
      ⟨-, heq⟩ | ⟨leaf, -, -, heq⟩
    · rw [heq]
      rfl
    · rw [heq]
      rfl
  · intro hactivates
    have hempty : Waiting { mapBlockIndex } := fun o ho ↦ by cases ho
    obtain ⟨hwait, hlast⟩ := hwaiting [c] hactivates hempty
    exact hwait.processBlock hkept hown (hlast r hcall).1 hcall

/-! ### A stored orphan of an indexed block -/

namespace BlockStore

variable {c : ProcessCall} {m : SortedMap Uint256 ChainIndex}

/-- The first block that comes before its parent. -/
theorem processBlock_first (hcheck : c.env.node.checkBlock c.block c.state true true = .accept ())
    (hpfrom : c.pfrom = true) (hindex : m.lookup c.hash = none)
    (hprev : c.block.hashPrevBlock ≠ 0) (hparent : m.lookup c.block.hashPrevBlock = none)
    (hne : c.block.hashPrevBlock ≠ c.hash) (maxOrphanBlocks : Int) :
    processBlock { mapBlockIndex := m } maxOrphanBlocks c = some
      { result := true
        store := addOrphan { mapBlockIndex := m } ⟨c.hash, c.block.hashPrevBlock, c.block⟩
        hashEnd := some c.hash } := by
  have hprune : pruneOrphanBlocks { mapBlockIndex := m } maxOrphanBlocks c.rand =
      some (none, { mapBlockIndex := m }) := if_pos (Nat.zero_le _)
  have hroot : (addOrphan { mapBlockIndex := m }
      ⟨c.hash, c.block.hashPrevBlock, c.block⟩).getOrphanRoot c.hash = some c.hash := by
    have hlast : (addOrphan { mapBlockIndex := m }
        ⟨c.hash, c.block.hashPrevBlock, c.block⟩).orphanParent c.hash = none := by
      rw [orphanParent, addOrphan, SortedMap.lookup_insert_self]
      dsimp only
      rw [SortedMap.lookup_insert_of_ne _ _ hne]
      rfl
    rw [getOrphanRoot]
    change Walk.walk _ 1 c.hash = _
    rw [Walk.walk, hlast]
  have hnew : (∅ : SortedMap Uint256 COrphanBlock).lookup c.hash = none := rfl
  rw [processBlock, hindex, hnew, hcheck]
  simp only [Option.isSome_none, Bool.false_eq_true, if_false]
  rw [if_pos ⟨hprev, hparent⟩, keepOrphan, if_pos hpfrom, hprune]
  change (getOrphanRoot _ c.hash).bind _ = _
  rw [hroot]
  rfl

/-- A block that is put into the index and not activated. -/
theorem processBlock_failed {s : BlockStore} {pindexPrev : ChainIndex}
    (hcheck : c.env.node.checkBlock c.block c.state true true = .accept ())
    (hindex : s.mapBlockIndex.lookup c.hash = none)
    (hnew : s.mapOrphanBlocks.lookup c.hash = none)
    (hparent : s.mapBlockIndex.lookup c.block.hashPrevBlock = some pindexPrev)
    (hrules : c.env.acceptRules c.block c.state s.mapBlockIndex = .accept ())
    (hwrites : c.env.writesBlock c.block = true) (hactivates : c.env.activates c.block = false)
    (maxOrphanBlocks : Int) :
    processBlock s maxOrphanBlocks c = some
      { result := false
        store := { s with
          mapBlockIndex := s.mapBlockIndex.insert c.hash
            (c.block.indexEntry c.env.node.hashes :: pindexPrev) } } := by
  have haccept : c.env.acceptBlock c.block c.state s.mapBlockIndex =
      some (false, s.mapBlockIndex.insert c.hash
        (c.block.indexEntry c.env.node.hashes :: pindexPrev)) := by
    have hindex' : s.mapBlockIndex.lookup (c.block.getHash c.env.node.hashes) = none := hindex
    rw [AcceptEnv.acceptBlock, hindex', hrules, hparent]
    simp only [Option.isSome_none, Bool.false_eq_true, if_false, hwrites, if_true, hactivates]
    rfl
  rw [processBlock, hindex, hnew, hcheck]
  simp only [Option.isSome_none, Bool.false_eq_true, if_false]
  rw [if_neg (by rw [hparent]; simp), acceptAndOffer, haccept]
  rfl

end BlockStore

theorem offered_minerParams {p : ChainIndex} (hlength : p.length < 2 ^ 31) {nVersion : Version}
    (hversion : isAuxpow nVersion = false ∧ getAlgo nVersion = .scrypt) (nTime : BitVec 32) :
    (⟨nVersion, nTime, 0⟩ : Mined).Offered minerParams p where
  auxpow := hversion.1
  algo := .inl hversion.2
  work := by
    rw [getNextWorkRequired_minerParams, hversion.2]
    decide
  height := hlength
  range := (by decide : moneyRange 0 = true)

/-- Genesis with the id that these networks give it. -/
def firstEntry : CBlockIndex := ⟨minerParams.hashGenesisBlock, 4, 0, 0x207fffff, 0, 0⟩

/-- The first block after genesis, and one on top of it. -/
def lateParent : CBlock := minedBlock minerParams [firstEntry] ⟨4, 1, 0⟩
def lostChild : CBlock :=
  minedBlock minerParams [lateParent.indexEntry minerHashes, firstEntry] ⟨4, 2, 0⟩

/-- The calls for them. The block on top arrives first. -/
def lostChildCall : ProcessCall where
  env := { node := minerNode minerParams ⟨4, 2, 0⟩ }
  block := lostChild

def lateParentCall : ProcessCall where
  env := { node := minerNode minerParams ⟨4, 2, 0⟩ }
  block := lateParent

/-- The orphan that waits for its parent. -/
def lostOrphan : COrphanBlock := ⟨3, 2, lostChild⟩

open BlockStore in
/-- The block on top waits, and is offered and leaves when its parent is accepted. -/
theorem orphanBlocks_kept_lostChild : ∃ s r,
    processBlocks { mapBlockIndex := SortedMap.insert ∅ minerParams.hashGenesisBlock [firstEntry] }
        defaultMaxOrphanBlocks [lostChildCall] = some s ∧
      s.Stores lostOrphan ∧
      s.processBlock defaultMaxOrphanBlocks lateParentCall = some r ∧
      r.offers = [(lostOrphan, true)] ∧ s.OffersWaiting lateParentCall.hash r ∧
      ¬ r.store.Stores lostOrphan ∧ r.store.Paired minerHashes ∧ r.store.Waiting := by
  have hrun : ((processBlocks
      { mapBlockIndex := SortedMap.insert ∅ minerParams.hashGenesisBlock [firstEntry] }
      defaultMaxOrphanBlocks [lostChildCall]).bind fun s ↦
        (s.processBlock defaultMaxOrphanBlocks lateParentCall).map fun r ↦
          (s.mapOrphanBlocks.lookup lostOrphan.hashBlock, r.result, r.offers,
            (r.store.mapBlockIndex.lookup lateParentCall.hash).isSome)) =
      some (some lostOrphan, true, [(lostOrphan, true)], true) := by decide +kernel
  obtain ⟨s, hs, hrun⟩ := Option.bind_eq_some_iff.mp hrun
  obtain ⟨r, hr, hrun⟩ := Option.map_eq_some_iff.mp hrun
  simp only [Prod.mk.injEq] at hrun
  obtain ⟨hstored, hresult, hoffers, hin⟩ := hrun
  have hhashes : ∀ c ∈ [lostChildCall] ++ [lateParentCall], c.env.node.hashes = minerHashes := by
    rw [List.singleton_append, List.forall_mem_cons, List.forall_mem_singleton]
    exact ⟨rfl, rfl⟩
  have hacyclic : Acyclic minerHashes
      (([lostChildCall] ++ [lateParentCall]).map ProcessCall.block) := by
    refine ⟨BitVec.toNat, ?_⟩
    rw [List.singleton_append, List.map_cons, List.map_cons, List.map_nil, List.forall_mem_cons,
      List.forall_mem_singleton]
    decide +kernel
  have hactivates : ActivatesIndexed
      { mapBlockIndex := SortedMap.insert ∅ minerParams.hashGenesisBlock [firstEntry] }
      defaultMaxOrphanBlocks ([lostChildCall] ++ [lateParentCall]) :=
    fun _ _ ↦ ⟨fun _ _ _ ↦ rfl, fun _ _ ↦ ⟨fun _ _ _ ↦ rfl, trivial⟩⟩
  obtain ⟨hpaired, -, -, -, -, hoffered, hwaiting⟩ :=
    (orphanBlocks_kept hhashes hacyclic hs).2 r hr
  have hwaits := hoffered hin hresult
  refine ⟨s, r, hs, hstored, hr, hoffers, hwaits, hwaits.leaves lostOrphan hstored (.inl ?_),
    hpaired, hwaiting hactivates⟩
  decide +kernel

/-- A block of version 3, and one on top of it, after 201 blocks of version 4. -/
def oldVersion : Mined := ⟨3, 202, 0⟩
def afterOldVersion : Mined := ⟨4, 203, 0⟩

/-- The block of version 3 on a chain. -/
def oldBlock (p : ChainIndex) : CBlock := minedBlock minerParams p oldVersion

/-- The chain with it. -/
def oldTip (p : ChainIndex) : ChainIndex := (oldBlock p).indexEntry minerHashes :: p

/-- The call for the block on top of it, which arrives first. -/
def childCall (p : ChainIndex) : ProcessCall where
  env := { node := minerNode minerParams afterOldVersion }
  block := minedBlock minerParams (oldTip p) afterOldVersion

/-- The call for the block of version 3, which is not activated. -/
def oldCall (p : ChainIndex) : ProcessCall where
  env := { node := minerNode minerParams oldVersion, activates := fun _ ↦ false }
  block := oldBlock p

open BlockStore in
/-- Once the fork is active a block of version 3 is put into the index, and `ConnectBlock` fails
without a mark on the state, so `ActivateBestChain` and `AcceptBlock` fail. The orphan that waited
for the block stays stored. -/
theorem orphanBlocks_stuck : ∃ p view issued s o,
    AcceptedChain minerHashes minerParams p view issued ∧
      (minerNode minerParams oldVersion).connectBlock (oldBlock p) {} (oldTip p) view false =
        .refuse {} ∧
      Acyclic minerHashes ([childCall p, oldCall p].map (·.block)) ∧
      processBlocks { mapBlockIndex := SortedMap.insert ∅ (oldBlock p).hashPrevBlock p }
        defaultMaxOrphanBlocks [childCall p, oldCall p] = some s ∧
      s.Stores o ∧ (s.mapBlockIndex.lookup o.hashPrev).isSome := by
  have hplan : Plan minerParams 0x207fffff stayingOnFork 200 := plan_stayingOnFork (by decide)
  obtain ⟨p, view, issued, hp⟩ := hplan.exists_planned rfl (by decide)
  have hlength : p.length = 201 := hp.length
  have hlengthTip : (oldTip p).length = 202 := by rw [oldTip, List.length_cons, hlength]
  have hold : oldVersion.Offered minerParams p :=
    offered_minerParams (by rw [hlength]; decide) (by decide) 202
  have hafter : afterOldVersion.Offered minerParams (oldTip p) :=
    offered_minerParams (by rw [hlengthTip]; decide) (by decide) 203
  have hhash : (oldCall p).hash = 202 := by
    refine hold.getHash.trans ?_
    rw [hlength]
    rfl
  have hhashChild : (childCall p).hash = 203 := by
    refine hafter.getHash.trans ?_
    rw [hlengthTip]
    rfl
  have hprevChild : (childCall p).block.hashPrevBlock = 202 := hhash
  have hprev : (oldBlock p).hashPrevBlock = 201 := by
    rw [oldBlock, minedBlock]
    dsimp only
    rw [hp.head, hlength]
    rfl
  have hfork : onFork (oldTip p) = true := by
    have hnext : onFork (⟨0, 4, 0, 0, 0, 0⟩ :: p) = true := by
      rw [← headerOnly.onFork_apply, HeaderMap.apply_cons, hp.headers]
      decide +kernel
    rw [onFork_cons_iff] at hnext
    exact (onFork_cons_iff _ _).mpr hnext
  have hrefuse : (minerNode minerParams oldVersion).connectBlock (oldBlock p) {} (oldTip p) view
      false = .refuse {} := by
    have hcheck : (minerNode minerParams oldVersion).checkBlock (oldBlock p) {} true true =
        .accept () := hold.checkBlock {}
    have hrules : versionRules (oldBlock p).nVersion (oldTip p) = false := by
      rw [versionRules, hfork]
      rfl
    unfold Node.connectBlock
    rw [Bool.not_false, hcheck, hrules]
    rfl
  have hacyclic : Acyclic minerHashes ([childCall p, oldCall p].map ProcessCall.block) := by
    refine ⟨BitVec.toNat, ?_⟩
    rw [List.map_cons, List.map_cons, List.map_nil, List.forall_mem_cons,
      List.forall_mem_singleton]
    change BitVec.toNat (childCall p).block.hashPrevBlock < (childCall p).hash.toNat ∧
      BitVec.toNat (oldBlock p).hashPrevBlock < (oldCall p).hash.toNat
    rw [hhashChild, hprevChild, hhash, hprev]
    decide
  have hlookup : ∀ hash : Uint256, hash ≠ 201 →
      (SortedMap.insert ∅ (oldBlock p).hashPrevBlock p).lookup hash = none := by
    intro hash hne
    rw [hprev, SortedMap.lookup_insert_of_ne _ _ hne]
    rfl
  -- the child is kept as an orphan
  have hfirst := processBlock_first (c := childCall p) (hafter.checkBlock {}) rfl
    (hlookup _ (by rw [hhashChild]; decide)) (by rw [hprevChild]; decide)
    (hlookup _ (by rw [hprevChild]; decide)) (by rw [hprevChild, hhashChild]; decide)
    defaultMaxOrphanBlocks
  generalize hkept : addOrphan _ _ = t at hfirst
  have hstored : t.mapOrphanBlocks.lookup 203 =
      some ⟨(childCall p).hash, (childCall p).block.hashPrevBlock, (childCall p).block⟩ := by
    rw [← hkept, addOrphan, ← hhashChild]
    exact SortedMap.lookup_insert_self _ _ _
  have hothers : t.mapOrphanBlocks.lookup 202 = none := by
    have hne : (202 : Uint256) ≠ (childCall p).hash := by
      rw [hhashChild]
      decide
    rw [← hkept, addOrphan, SortedMap.lookup_insert_of_ne _ _ hne]
    rfl
  have hsame : t.mapBlockIndex = SortedMap.insert ∅ (oldBlock p).hashPrevBlock p := by
    rw [← hkept]
    rfl
  -- its parent gets into the index
  have hrules : (oldCall p).env.acceptRules (oldBlock p) {} t.mapBlockIndex = .accept () := by
    have hne : (oldBlock p).getHash (oldCall p).env.node.hashes ≠
        (oldCall p).env.node.params.hashGenesisBlock := by
      change (oldCall p).hash ≠ 1
      rw [hhash]
      decide
    rw [AcceptEnv.acceptRules, if_neg hne, hsame, SortedMap.lookup_insert_self]
    exact contextCheck_minedBlock hold hp.accepted.ne_nil
      (fun e he ↦ Nat.lt_of_le_of_lt (hp.time e he) (by decide)) (by decide) (.inl (by decide))
  have hparent : t.mapBlockIndex.lookup (oldBlock p).hashPrevBlock = some p := by
    rw [hsame]
    exact SortedMap.lookup_insert_self _ _ _
  have hsecond := processBlock_failed (c := oldCall p) (s := t)
    (hold.checkBlock {}) (by rw [hsame]; exact hlookup _ (by rw [hhash]; decide))
    (by rw [hhash]; exact hothers) hparent hrules rfl rfl defaultMaxOrphanBlocks
  obtain ⟨u, hu, horphans, hindexed⟩ : ∃ u,
      processBlock t defaultMaxOrphanBlocks (oldCall p) = some { result := false, store := u } ∧
        u.mapOrphanBlocks = t.mapOrphanBlocks ∧
        (u.mapBlockIndex.lookup (oldCall p).hash).isSome := by
    refine ⟨_, hsecond, rfl, ?_⟩
    rw [SortedMap.lookup_insert_self]
    rfl
  have hrun : processBlocks { mapBlockIndex := SortedMap.insert ∅ (oldBlock p).hashPrevBlock p }
      defaultMaxOrphanBlocks [childCall p, oldCall p] = some u := by
    rw [processBlocks, hfirst]
    change processBlocks t defaultMaxOrphanBlocks [oldCall p] = _
    rw [processBlocks, hu]
    rfl
  refine ⟨p, view, issued, u, ⟨(childCall p).hash, (childCall p).block.hashPrevBlock,
    (childCall p).block⟩, hp.accepted, hrefuse, hacyclic, hrun, ?_, ?_⟩
  · rw [Stores, horphans, hhashChild, hstored, hhashChild]
  · rw [hprevChild, ← hhash]
    exact hindexed

end Bitmark
