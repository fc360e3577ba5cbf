import Bitmark.Mempool.Removal

/-!
# What pooled inputs spend

Every input of the pool spends an output of a pooled transaction or, where the id it names is not
pooled, an output that is available below the pool. How adding, removing and confirming
transactions keep this so.
-/

namespace Bitmark

namespace CTxMemPool

variable {H : Hashes} {root : CTransaction → Prop} {pool pool' : CTxMemPool} {tx : CTransaction}
  {txs : List CTransaction} {avail avail' : Uint256 → Nat → Prop} {occurs : CTransaction → Prop}

/-- An outpoint that can be spent: of a pooled transaction, or available below the pool. -/
def Provides (H : Hashes) (pool : CTxMemPool) (avail : Uint256 → Nat → Prop)
    (outpoint : COutPoint) : Prop :=
  (∃ parent, pool.lookup outpoint.hash = some parent ∧
    ((txLedger H).outputs parent.tx outpoint.n.toNat).isSome) ∨
  (pool.lookup outpoint.hash = none ∧ avail outpoint.hash outpoint.n.toNat)

/-- Every pooled input spends something that can be spent. -/
def Supplied (H : Hashes) (pool : CTxMemPool) (avail : Uint256 → Nat → Prop) : Prop :=
  ∀ hash entry, pool.lookup hash = some entry → ∀ txin ∈ entry.tx.vin,
    pool.Provides H avail txin.prevout

/-- No pooled transaction is in the ledger. -/
def Apart (H : Hashes) (pool : CTxMemPool) (txs : List CTransaction) : Prop :=
  ∀ hash, (pool.lookup hash).isSome → hash ∉ txs.map fun tx ↦ tx.getHash H

/-- The pool fits on top of a ledger: its maps agree, and nothing in it is confirmed or spends an
outpoint that a confirmed transaction spends. -/
structure Fits (H : Hashes) (occurs : CTransaction → Prop) (pool : CTxMemPool)
    (txs : List CTransaction) : Prop where
  indexed : pool.Indexed H
  occur : AllOccur occurs pool
  apart : pool.Apart H txs
  unspent : ∀ hash entry, pool.lookup hash = some entry → ∀ txin ∈ entry.tx.vin,
    ¬ (txLedger H).Spent txs txin.prevout.hash txin.prevout.n.toNat

/-- An output of the ledger is available. -/
def Available (H : Hashes) (txs : List CTransaction) (hash : Uint256) (n : Nat) : Prop :=
  ∃ o, (txLedger H).Unspent txs hash n o

theorem supplied_empty : Supplied H empty avail := by
  intro hash entry hentry
  simp [lookup, empty] at hentry

theorem fits_empty : Fits H occurs empty txs where
  indexed := indexed_empty
  occur hash entry hentry := by simp [lookup, empty] at hentry
  apart hash hin := by simp [lookup, empty] at hin
  unspent hash entry hentry := by simp [lookup, empty] at hentry

theorem length_of_outputs {tx : CTransaction} {n : Nat} (h : ((txLedger H).outputs tx n).isSome) :
    n < tx.vout.length := by
  by_contra hn
  rw [← txLedger_outputs H tx 0, CCoins.unspent_ofTransaction,
    List.getElem?_eq_none (Nat.le_of_not_lt hn)] at h
  cases h

/-- What is available may grow, and matters only for ids outside the pool that inputs name. -/
theorem Supplied.mono (h : pool.Supplied H avail)
    (hmono : ∀ hash entry, pool.lookup hash = some entry → ∀ txin ∈ entry.tx.vin,
      pool.lookup txin.prevout.hash = none → avail txin.prevout.hash txin.prevout.n.toNat →
      avail' txin.prevout.hash txin.prevout.n.toNat) : pool.Supplied H avail' := by
  intro hash entry hentry txin hmem
  refine (h hash entry hentry txin hmem).imp_right ?_
  rintro ⟨hnone, havail⟩
  exact ⟨hnone, hmono hash entry hentry txin hmem hnone havail⟩

/-- What is left after a removal is still supplied. -/
theorem Supplied.cut (h : pool.Supplied H avail) (hindexed : pool.Indexed H)
    (hcut : Cut H root pool pool') : pool'.Supplied H avail := by
  intro hash entry hentry txin hmem
  rcases h hash entry (hcut.kept hash entry hentry) txin hmem with
    ⟨parent, hparent, hout⟩ | ⟨hnone, havail⟩
  · cases hleft : pool'.lookup txin.prevout.hash with
    | none =>
      have hkey := hindexed.key _ parent hparent
      exact absurd ⟨txin, hmem, hkey.symm, length_of_outputs hout⟩
        (hcut.closed hash entry _ parent hentry ⟨hparent, hleft⟩)
    | some e =>
      rw [hcut.kept _ e hleft] at hparent
      obtain rfl := Option.some.inj hparent
      exact .inl ⟨e, hleft, hout⟩
  · refine .inr ⟨?_, havail⟩
    cases hleft : pool'.lookup txin.prevout.hash with
    | none => rfl
    | some e =>
      rw [hcut.kept _ e hleft] at hnone
      cases hnone

/-- Taking transactions out of a pool leaves one that fits. -/
theorem Fits.kept (h : Fits H occurs pool txs) (hindexed : pool'.Indexed H)
    (hkept : ∀ hash entry, pool'.lookup hash = some entry → pool.lookup hash = some entry) :
    Fits H occurs pool' txs where
  indexed := hindexed
  occur hash entry hentry := h.occur hash entry (hkept hash entry hentry)
  apart hash hin := by
    obtain ⟨e, he⟩ := Option.isSome_iff_exists.mp hin
    exact h.apart hash (by rw [hkept hash e he]; rfl)
  unspent hash entry hentry := h.unspent hash entry (hkept hash entry hentry)

theorem Fits.cut (h : Fits H occurs pool txs) (hcut : Cut H root pool pool') :
    Fits H occurs pool' txs :=
  h.kept hcut.indexed hcut.kept

/-- Taking the newest transactions off the ledger leaves the pool fitting. -/
theorem Fits.of_append {pre : List CTransaction} (h : Fits H occurs pool (pre ++ txs)) :
    Fits H occurs pool txs where
  indexed := h.indexed
  occur := h.occur
  apart hash hin hmem := by
    refine h.apart hash hin ?_
    rw [List.map_append]
    exact List.mem_append_right _ hmem
  unspent hash entry hentry txin hmem := by
    rintro ⟨t, ht, hspends⟩
    exact h.unspent hash entry hentry txin hmem ⟨t, List.mem_append_right _ ht, hspends⟩

theorem Fits.tail {t : CTransaction} (h : Fits H occurs pool (t :: txs)) :
    Fits H occurs pool txs :=
  @Fits.of_append H pool txs occurs [t] h

/-! ### Adding -/

theorem lookup_addUnchecked (pool : CTxMemPool) (hash k : Uint256) (entry : CTxMemPoolEntry) :
    (pool.addUnchecked hash entry).lookup k = if k = hash then some entry else pool.lookup k := by
  unfold addUnchecked lookup
  by_cases hk : k = hash
  · rw [if_pos hk, hk, Finmap.lookup_insert]
  · rw [if_neg hk, Finmap.lookup_insert_of_ne _ hk]

/-- A new transaction takes the place of what was available under its id. -/
theorem Supplied.addUnchecked (h : pool.Supplied H avail) {entry : CTxMemPoolEntry}
    {hash : Uint256} (hprovides : ∀ txin ∈ entry.tx.vin, pool.Provides H avail txin.prevout)
    (houtputs : ∀ n, avail hash n → ((txLedger H).outputs entry.tx n).isSome)
    (hnew : pool.lookup hash = none) :
    (pool.addUnchecked hash entry).Supplied H fun k n ↦ k ≠ hash ∧ avail k n := by
  have hlift : ∀ txin : CTxIn, pool.Provides H avail txin.prevout →
      (pool.addUnchecked hash entry).Provides H (fun k n ↦ k ≠ hash ∧ avail k n) txin.prevout := by
    rintro txin (⟨parent, hparent, hout⟩ | ⟨hnone, havail⟩)
    · refine .inl ⟨parent, ?_, hout⟩
      rw [lookup_addUnchecked, if_neg]
      · exact hparent
      · intro heq
        rw [heq, hnew] at hparent
        cases hparent
    · by_cases heq : txin.prevout.hash = hash
      · refine .inl ⟨entry, by rw [lookup_addUnchecked, if_pos heq], houtputs _ ?_⟩
        rw [← heq]
        exact havail
      · exact .inr ⟨by rw [lookup_addUnchecked, if_neg heq]; exact hnone, heq, havail⟩
  intro k e he txin hmem
  rw [lookup_addUnchecked] at he
  split at he
  · obtain rfl := Option.some.inj he
    exact hlift txin (hprovides txin hmem)
  · exact hlift txin (h k e he txin hmem)

/-! ### Confirming -/

theorem mem_vin_of_mem_spends {txin : CTxIn} (h : txin ∈ tx.spends) : txin ∈ tx.vin := by
  unfold CTransaction.spends at h
  split at h
  · cases h
  · exact h

/-- Removing the transaction alone leaves the maps in step. -/
theorem remove_single_spec (hids : TxIds H occurs) (hoccur : AllOccur occurs pool)
    (htx : occurs tx) (hindexed : pool.Indexed H) :
    ∃ mid, pool.remove H tx false = some mid ∧ mid.Indexed H ∧
      ∀ k, mid.lookup k = if k = tx.getHash H then none else pool.lookup k := by
  refine ⟨_, remove_single pool tx, ?_⟩
  cases hentry : pool.lookup (tx.getHash H) with
  | none =>
    rw [CTxMemPool.exists, hentry, if_neg (by simp)]
    refine ⟨hindexed, fun k ↦ ?_⟩
    split
    · next hk => rw [hk, hentry]
    · rfl
  | some entry =>
    rw [CTxMemPool.exists, hentry, Option.isSome_some, if_pos rfl]
    have hid := hindexed.key _ entry hentry
    exact ⟨hindexed.takeOut hentry (hids.vin_eq htx (hoccur _ entry hentry) hid.symm),
      fun k ↦ lookup_takeOut pool _ k tx⟩

/-- What is left of a pool when a transaction is confirmed: neither it nor what conflicts with it. -/
structure Confirmed (H : Hashes) (pool : CTxMemPool) (tx : CTransaction) (pool' : CTxMemPool) :
    Prop where
  indexed : pool'.Indexed H
  kept : ∀ k e, pool'.lookup k = some e → k ≠ tx.getHash H ∧ pool.lookup k = some e
  free : ∀ k e, pool'.lookup k = some e → ∀ txin ∈ tx.spends, ∀ txin' ∈ e.tx.vin,
    ¬ (txin.prevout.hash = txin'.prevout.hash ∧ txin.prevout.n.toNat = txin'.prevout.n.toNat)
  closed : ∀ k e parent, pool'.lookup k = some e → ∀ txin ∈ e.tx.vin,
    txin.prevout.hash ≠ tx.getHash H → pool.lookup txin.prevout.hash = some parent →
    txin.prevout.n.toNat < parent.tx.vout.length → pool'.lookup txin.prevout.hash = some parent

/-- `ConnectTip` on one transaction of its block. -/
theorem exists_confirmed (hids : TxIds H occurs) (hoccur : AllOccur occurs pool) (htx : occurs tx)
    (hindexed : pool.Indexed H) : ∃ mid pool', pool.remove H tx false = some mid ∧
      mid.removeConflicts H tx = some pool' ∧ Confirmed H pool tx pool' := by
  obtain ⟨mid, hremove, hindexedMid, hmid⟩ := remove_single_spec hids hoccur htx hindexed
  have hleft : ∀ k e, mid.lookup k = some e → k ≠ tx.getHash H ∧ pool.lookup k = some e := by
    intro k e he
    rw [hmid] at he
    split at he
    · cases he
    · next hk => exact ⟨hk, he⟩
  have hoccurMid : AllOccur occurs mid := fun k e he ↦ hoccur k e (hleft k e he).2
  obtain ⟨pool', hconflicts, hcut, hnone⟩ :=
    removeConflicts_cut tx hids hindexedMid hoccurMid
  refine ⟨mid, pool', hremove, hconflicts, hcut.indexed,
    fun k e he ↦ hleft k e (hcut.kept k e he), ?_, ?_⟩
  · rintro k e he txin hspends txin' hmem ⟨hhash, hn⟩
    obtain ⟨hk, hin⟩ := hleft k e (hcut.kept k e he)
    have hprevout : txin.prevout = txin'.prevout := by
      rw [show txin.prevout = ⟨txin.prevout.hash, txin.prevout.n⟩ from rfl, hhash,
        BitVec.eq_of_toNat_eq hn]
    refine hnone k e he ⟨?_, txin, mem_vin_of_mem_spends hspends, ?_⟩
    · by_contra hsame
      rw [Bool.not_eq_false] at hsame
      have hid := hids.getHash_of_beq (hoccur k e hin) htx hsame
      exact hk ((hindexed.key k e hin).symm.trans hid)
    · rw [hprevout]
      exact List.mem_map_of_mem hmem
  · intro k e parent he txin hmem htxid hparent hn
    have hparentMid : mid.lookup txin.prevout.hash = some parent := by
      rw [hmid, if_neg htxid]
      exact hparent
    cases hleft' : pool'.lookup txin.prevout.hash with
    | none =>
      have hkey := hindexed.key _ parent hparent
      exact absurd ⟨txin, hmem, hkey.symm, hn⟩ (hcut.closed k e _ parent he ⟨hparentMid, hleft'⟩)
    | some e' =>
      rw [hcut.kept _ e' hleft'] at hparentMid
      exact hparentMid

/-- The pool fits on top of the ledger with the confirmed transaction. -/
theorem Fits.confirmed (h : Fits H occurs pool txs) (hconfirmed : Confirmed H pool tx pool') :
    Fits H occurs pool' (tx :: txs) where
  indexed := hconfirmed.indexed
  occur k e he := h.occur k e (hconfirmed.kept k e he).2
  apart k hin := by
    obtain ⟨e, he⟩ := Option.isSome_iff_exists.mp hin
    obtain ⟨hk, hpooled⟩ := hconfirmed.kept k e he
    rw [List.map_cons, List.mem_cons, not_or]
    exact ⟨hk, h.apart k (by rw [hpooled]; rfl)⟩
  unspent k e he txin hmem := by
    rw [LedgerFormat.spent_cons, not_or]
    refine ⟨?_, h.unspent k e (hconfirmed.kept k e he).2 txin hmem⟩
    intro hspent
    obtain ⟨txin', hspends, heq⟩ := List.mem_map.mp hspent
    exact hconfirmed.free k e he txin' hspends txin hmem (Prod.mk.inj heq)

/-- What spent the confirmed transaction finds its outputs in the ledger. -/
theorem Supplied.confirmed (h : pool.Supplied H (Available H txs)) (hids : TxIds H occurs)
    (hfits : Fits H occurs pool txs) (htx : occurs tx) (hvalid : (txLedger H).Valid (tx :: txs))
    (hconfirmed : Confirmed H pool tx pool') : pool'.Supplied H (Available H (tx :: txs)) := by
  have hgone : ∀ k, pool.lookup k = none ∨ k = tx.getHash H → pool'.lookup k = none := by
    intro k hk
    cases hleft : pool'.lookup k with
    | none => rfl
    | some e =>
      obtain ⟨hne, hin⟩ := hconfirmed.kept k e hleft
      rcases hk with hnone | heq
      · rw [hnone] at hin
        cases hin
      · exact absurd heq hne
  intro k e he txin hmem
  rcases h k e (hconfirmed.kept k e he).2 txin hmem with ⟨parent, hparent, hout⟩ | ⟨hnone, o, ho⟩
  · by_cases htxid : txin.prevout.hash = tx.getHash H
    · -- the parent is the confirmed transaction
      have hid := (hfits.indexed.key _ parent hparent).trans htxid
      rw [hids.outputs_eq (hfits.occur _ parent hparent) htx hid] at hout
      obtain ⟨o, ho⟩ := Option.isSome_iff_exists.mp hout
      exact .inr ⟨hgone _ (.inr htxid), o, hvalid.unspent_cons.mpr (.inl ⟨htxid, ho⟩)⟩
    · exact .inl ⟨parent, hconfirmed.closed k e parent he txin hmem htxid hparent
        (length_of_outputs hout), hout⟩
  · refine .inr ⟨hgone _ (.inl hnone), o, hvalid.unspent_cons.mpr (.inr ⟨?_, ho, ?_⟩)⟩
    · intro heq
      exact hvalid.fresh (heq ▸ ho.1.mem_ids)
    · intro hspent
      obtain ⟨txin', hspends, heq⟩ := List.mem_map.mp hspent
      exact hconfirmed.free k e he txin' hspends txin hmem (Prod.mk.inj heq)

/-! ### The assertions of `check` -/

/-- A pool in step, supplied from the unspent outputs of a view, passes `check`. -/
theorem Supplied.check {view : CCoinsViewCache} (hindexed : pool.Indexed H)
    (h : pool.Supplied H fun hash n ↦ (view.unspent hash n).isSome) : pool.check H view = true := by
  rw [CTxMemPool.check, Bool.and_eq_true, Finmap.all_eq_true_iff, Finmap.all_eq_true_iff]
  constructor
  · intro hash entry hentry
    rw [List.all_eq_true]
    rintro ⟨txin, i⟩ hmem
    have hi : entry.tx.vin[i]? = some txin := List.mem_zipIdx_iff_getElem?.mp hmem
    rw [checkInput, Bool.and_eq_true, beq_iff_eq]
    constructor
    · rcases h hash entry hentry txin (List.mem_of_getElem? hi) with
        ⟨parent, hparent, hout⟩ | ⟨hnone, havail⟩
      · rw [hparent]
        rw [← txLedger_outputs H parent.tx 0, CCoins.unspent_ofTransaction] at hout
        cases ho : parent.tx.vout[txin.prevout.n.toNat]? with
        | none =>
          rw [ho] at hout
          cases hout
        | some o =>
          rw [ho, Option.bind_some] at hout
          split at hout
          · cases hout
          · obtain ⟨o', ho'⟩ := Option.isSome_iff_exists.mp hout
            simp only [ho, (unspentOf_eq_some.mp ho').1, Bool.not_false]
      · rw [hnone]
        obtain ⟨o, ho⟩ := Option.isSome_iff_exists.mp havail
        obtain ⟨coins, hcoins, ho⟩ := Option.bind_eq_some_iff.mp ho
        rw [hcoins, Option.any_some, CCoins.isAvailable_eq_isSome, ho]
        rfl
    · exact (hindexed.next _ _).mpr ⟨entry, hentry, by rw [hi]; rfl⟩
  · intro outpoint it hit
    obtain ⟨entry, hentry, hpoint⟩ := (hindexed.next _ _).mp hit
    rw [hentry, Option.any_some, Bool.and_eq_true, decide_eq_true_eq, beq_iff_eq]
    exact ⟨hindexed.key _ entry hentry, hpoint⟩

end CTxMemPool

end Bitmark
