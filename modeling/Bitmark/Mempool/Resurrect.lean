import Bitmark.Mempool.Consistency

/-!
# Disconnected transactions

Which transactions of a disconnected block are in the pool afterwards. `DisconnectBlock` leaves a
pruned entry in the coin cache for a transaction it takes back, and `AcceptToMemoryPool` takes such
an entry for the transaction itself, unless the cache was flushed in between.
-/

namespace Bitmark

/-- A transaction that can be pooled again: each input is an unspent output of the chain or an
output of a pooled transaction, and it meets the policy of the node. -/
structure Eligible (node : Node) (policy : Policy) (coins : CCoinsViewCache)
    (pindexPrev : ChainIndex) (nHeight : Nat) (pool : CTxMemPool) (tx : CTransaction) : Prop where
  not_coinbase : tx.isCoinBase = false
  inputs : ∀ txin ∈ tx.vin,
    (∃ o, coins.unspent txin.prevout.hash txin.prevout.n.toNat = some o) ∨
    ∃ parent, pool.lookup txin.prevout.hash = some parent ∧
      ((txLedger node.hashes).outputs parent.tx txin.prevout.n.toNat).isSome
  checked : checkTransaction tx {} = .accept ()
  standard : policy.isMain = true → policy.isStandardTx tx = none
  policy : ∃ entry, node.poolEntry policy {} tx false false (pool.inputView coins.flushed tx)
    pindexPrev nHeight = .accept entry

/-- A transaction of the disconnected block that is eligible when its turn comes, with the earlier
ones of the block offered already. -/
def Offered (node : Node) (policy : Policy) (s s' : TipState) (tx : CTransaction) : Prop :=
  ∃ block blockundo pre post pool, s.blocks.head? = some (block, blockundo) ∧
    block.vtx = pre ++ tx :: post ∧
    pre.foldlM (node.resurrectTx policy s'.coins s.pindex.tail (s.pindex.length - 1)) s.pool =
      some pool ∧
    Eligible node policy s'.coins s.pindex.tail (s.pindex.length - 1) pool tx

/-! ### What disconnecting leaves in the cache -/

section Residue

variable {H : Hashes} {state : CValidationState} {nHeight : Int} {s s' : Undoing}
  {tx : CTransaction} {txid : Uint256}

theorem haveCoins_setCoins (view : CCoinsViewCache) (txid txid' : Uint256) (coins : CCoins) :
    (view.setCoins txid coins).haveCoins txid' = true ↔
      view.haveCoins txid' = true ∨ txid' = txid := by
  unfold CCoinsViewCache.haveCoins
  by_cases h : txid' = txid
  · rw [h, CCoinsViewCache.getCoins_setCoins_self]
    simp
  · rw [CCoinsViewCache.getCoins_setCoins_of_ne _ h]
    simp [h]

theorem haveCoins_restoreInput {txin : CTxIn} {undo : CTxInUndo}
    (h : restoreInput s txin undo = .accept s') : s'.view.haveCoins txid = true ↔
      s.view.haveCoins txid = true ∨ txid = txin.prevout.hash := by
  unfold restoreInput at h
  dsimp only at h
  obtain ⟨coins, -, h⟩ := Verdict.bind_eq_accept.mp h
  obtain rfl := Verdict.accept.inj h
  exact haveCoins_setCoins _ _ _ _

theorem haveCoins_restoreInputs {records : List (CTxIn × CTxInUndo)}
    (h : records.foldlM (fun s l ↦ restoreInput s l.1 l.2) s = .accept s') :
    s'.view.haveCoins txid = true ↔
      s.view.haveCoins txid = true ∨ ∃ l ∈ records, txid = l.1.prevout.hash := by
  induction records generalizing s with
  | nil =>
    cases h
    simp
  | cons l records ih =>
    rw [List.foldlM_cons] at h
    obtain ⟨mid, hmid, h⟩ := Verdict.bind_eq_accept.mp h
    rw [ih h, haveCoins_restoreInput hmid, List.exists_mem_cons_iff, or_assoc]

theorem haveCoins_removeOutputs : (removeOutputs s tx nHeight (tx.getHash H)).view.haveCoins txid =
    true ↔ s.view.haveCoins txid = true := by
  unfold removeOutputs
  dsimp only
  split
  · next hhave =>
    rw [haveCoins_setCoins]
    constructor
    · rintro (h | rfl)
      · exact h
      · exact hhave
    · exact .inl
  · exact Iff.rfl

theorem haveCoins_disconnectTx {txundo : Option CTxUndo}
    (h : disconnectTx H state nHeight s tx txundo = .accept s') : s'.view.haveCoins txid = true ↔
      s.view.haveCoins txid = true ∨ (txundo.isSome ∧ ∃ txin ∈ tx.vin, txid = txin.prevout.hash) := by
  unfold disconnectTx at h
  cases txundo with
  | none =>
    obtain rfl := Verdict.accept.inj h
    rw [haveCoins_removeOutputs]
    simp
  | some u =>
    obtain ⟨_, hlength, h⟩ := Verdict.bind_eq_accept.mp h
    rw [Verdict.check_eq_accept, decide_eq_true_eq] at hlength
    rw [haveCoins_restoreInputs h, haveCoins_removeOutputs]
    have hfst : (tx.vin.zip u).map Prod.fst = tx.vin := List.map_fst_zip hlength.ge
    have hspent : (∃ l ∈ (tx.vin.zip u).reverse, txid = l.1.prevout.hash) ↔
        ∃ txin ∈ tx.vin, txid = txin.prevout.hash := by
      conv_rhs => rw [← hfst]
      simp
    rw [hspent]
    simp

theorem haveCoins_disconnectTxs {pairs : List (CTransaction × Option CTxUndo)}
    (h : pairs.foldlM (fun s l ↦ disconnectTx H state nHeight s l.1 l.2) s = .accept s') :
    s'.view.haveCoins txid = true ↔ s.view.haveCoins txid = true ∨
      ∃ l ∈ pairs, l.2.isSome ∧ ∃ txin ∈ l.1.vin, txid = txin.prevout.hash := by
  induction pairs generalizing s with
  | nil =>
    cases h
    simp
  | cons l pairs ih =>
    rw [List.foldlM_cons] at h
    obtain ⟨mid, hmid, h⟩ := Verdict.bind_eq_accept.mp h
    rw [ih h, haveCoins_disconnectTx hmid, List.exists_mem_cons_iff, or_assoc]

/-- After a block is disconnected the view has an entry where it had one, and for every
transaction an input of the block names. -/
theorem haveCoins_disconnectBlock {block : CBlock} {pindex : ChainIndex} {blockundo : List CTxUndo}
    {view : CCoinsViewCache} (hchecked : block.Checked H)
    (h : disconnectBlock H block state pindex blockundo view = .accept s) :
    s.view.haveCoins txid = true ↔ view.haveCoins txid = true ∨
      ∃ tx ∈ block.vtx, ∃ txin ∈ tx.spends, txid = txin.prevout.hash := by
  unfold disconnectBlock at h
  split at h
  · obtain ⟨-, -, h⟩ := Verdict.bind_eq_accept.mp h
    obtain ⟨_, hlength, h⟩ := Verdict.bind_eq_accept.mp h
    obtain ⟨mid, hloop, h⟩ := Verdict.bind_eq_accept.mp h
    obtain rfl := Verdict.accept.inj h
    rw [Verdict.check_eq_accept, decide_eq_true_eq] at hlength
    have hmid : mid.view.haveCoins txid = true ↔ _ := haveCoins_disconnectTxs hloop
    obtain ⟨cb, vtx, hvtx, hcb, hrest⟩ := hchecked.coinbase
    rw [hvtx, List.length_cons, Nat.add_right_cancel_iff] at hlength
    have hfst : (vtx.zip (blockundo.map some)).map Prod.fst = vtx :=
      List.map_fst_zip (by rw [List.length_map, hlength])
    have hsome : ∀ l ∈ vtx.zip (blockundo.map some), l.2.isSome := by
      intro l hl
      obtain ⟨u, -, hu⟩ := List.mem_map.mp (List.of_mem_zip hl).2
      rw [← hu]
      rfl
    change mid.view.haveCoins txid = true ↔ _
    rw [hmid]
    refine or_congr_right ?_
    rw [hvtx, List.zip_cons_cons]
    constructor
    · rintro ⟨l, hl, hl2, txin, hmem, heq⟩
      rw [List.mem_reverse, List.mem_cons] at hl
      rcases hl with rfl | hl
      · cases hl2
      · have hl1 : l.1 ∈ vtx := (List.of_mem_zip hl).1
        refine ⟨l.1, List.mem_cons_of_mem _ hl1, txin, ?_, heq⟩
        rw [spends_of_not_coinbase (hrest _ hl1)]
        exact hmem
    · rintro ⟨tx, htx, txin, hmem, heq⟩
      rcases List.mem_cons.mp htx with rfl | htx
      · rw [spends_of_coinbase hcb] at hmem
        cases hmem
      · rw [spends_of_not_coinbase (hrest tx htx)] at hmem
        rw [← hfst] at htx
        obtain ⟨l, hl, rfl⟩ := List.mem_map.mp htx
        exact ⟨l, List.mem_reverse.mpr (List.mem_cons_of_mem _ hl), hsome l hl, txin, hmem, heq⟩
  · cases h

end Residue

/-! ### The turns of the transactions -/

theorem mem_ids {H : Hashes} {tx : CTransaction} {txs : List CTransaction} (h : tx ∈ txs) :
    tx.getHash H ∈ txs.map fun tx ↦ tx.getHash H :=
  List.mem_map_of_mem (f := fun tx : CTransaction ↦ tx.getHash H) h

/-- The ledger's spends of a transaction that is no coinbase are its inputs. -/
theorem mem_spends {H : Hashes} {tx : CTransaction} {txin : CTxIn} (hcb : tx.isCoinBase = false)
    (h : txin ∈ tx.vin) :
    (txin.prevout.hash, txin.prevout.n.toNat) ∈ (txLedger H).spends tx := by
  rw [txLedger_spends, spends_of_not_coinbase hcb]
  exact List.mem_map_of_mem (f := fun txin : CTxIn ↦ (txin.prevout.hash, txin.prevout.n.toNat)) h

section Turns

variable {node : Node} {policy : Policy} {occurs : CTransaction → Prop} {coins : CCoinsViewCache}
  {pindexPrev : ChainIndex} {nHeight : Nat} {start pool pool' : CTxMemPool}
  {pre : List CTransaction} {tx : CTransaction} {txs : List CTransaction}

open CTxMemPool

/-- The pool after some transactions of the block had their turns: what is in it was there before,
or is one of them and had no entry in the cache. -/
structure Turn (node : Node) (occurs : CTransaction → Prop) (coins : CCoinsViewCache)
    (txs : List CTransaction) (start : CTxMemPool) (pre : List CTransaction) (pool : CTxMemPool) :
    Prop where
  fits : Fits node.hashes occurs pool txs
  origin : ∀ k e, pool.lookup k = some e → start.lookup k = some e ∨
    (e.tx ∈ pre ∧ e.tx.isCoinBase = false ∧ coins.getCoins k = none)

/-- What a pooled transaction of the block spends was created by the chain or the block. -/
theorem Turn.parent_mem_ids (h : Turn node occurs coins txs start pre pool)
    (hvalid : (txLedger node.hashes).Valid (pre.reverse ++ txs))
    (hstart : Fits node.hashes occurs start (pre.reverse ++ txs)) {t : CTransaction} (ht : t ∈ pre)
    {e : CTxMemPoolEntry} (he : pool.lookup (t.getHash node.hashes) = some e) {txin : CTxIn}
    (hmem : txin ∈ e.tx.vin) :
    txin.prevout.hash ∈ (pre.reverse ++ txs).map fun tx ↦ tx.getHash node.hashes := by
  have hin : t.getHash node.hashes ∈ (pre.reverse ++ txs).map fun tx ↦ tx.getHash node.hashes :=
    mem_ids (List.mem_append_left _ (List.mem_reverse.mpr ht))
  rcases h.origin _ e he with hstarted | ⟨hpre, hcb, -⟩
  · exact absurd hin (hstart.apart _ (by rw [hstarted]; rfl))
  · refine hvalid.mem_ids_of_spent (n := txin.prevout.n.toNat)
      ⟨e.tx, List.mem_append_left _ (List.mem_reverse.mpr hpre), ?_⟩
    exact mem_spends hcb hmem

/-- Nothing that had its turn is built on a later transaction, so none is taken out with it. -/
theorem Turn.not_dropped (h : Turn node occurs coins txs start pre pool)
    (hids : TxIds node.hashes occurs)
    (hvalid : (txLedger node.hashes).Valid (tx :: (pre.reverse ++ txs)))
    (hstart : Fits node.hashes occurs start (pre.reverse ++ txs))
    (hcut : Cut node.hashes (RootOf node.hashes tx) pool pool') {t : CTransaction} (ht : t ∈ pre)
    {e : CTxMemPoolEntry} (he : pool.lookup (t.getHash node.hashes) = some e) :
    pool'.lookup (t.getHash node.hashes) = some e := by
  obtain ⟨rank, hrank⟩ := hids.acyclic
  induction hr : rank (t.getHash node.hashes) using Nat.strong_induction_on generalizing t e with
  | _ r ih =>
    have hkey := h.fits.indexed.key _ e he
    cases hleft : pool'.lookup (t.getHash node.hashes) with
    | some e' =>
      rw [hcut.kept _ e' hleft] at he
      exact he
    | none =>
      rcases hcut.rooted _ e ⟨he, hleft⟩ with (hself | ⟨txin, hmem, hhash, -⟩) |
        ⟨hash', e', ⟨hin, hout⟩, txin, hmem, hhash, -⟩
      · refine absurd ?_ hvalid.fresh
        rw [txLedger_id, ← hself, hkey]
        exact mem_ids (List.mem_append_left _ (List.mem_reverse.mpr ht))
      · refine absurd (h.parent_mem_ids hvalid.tail hstart ht he hmem) ?_
        rw [hhash]
        exact hvalid.fresh
      · have hparent := h.parent_mem_ids hvalid.tail hstart ht he hmem
        have hkey' := h.fits.indexed.key _ e' hin
        rw [hhash, hkey'] at hparent
        rcases h.origin _ e' hin with hstarted | ⟨hpre, -, -⟩
        · exact absurd hparent (hstart.apart _ (by rw [hstarted]; rfl))
        · have hlt := hrank e.tx (h.fits.occur _ e he) txin hmem
          rw [hhash, hkey, hr] at hlt
          have hstay := ih _ hlt hpre (e := e') (by rw [hkey']; exact hin) rfl
          rw [hkey', hout] at hstay
          cases hstay

/-- One more turn. Nothing that had its turn leaves the pool: it is not built on a later one. -/
theorem Turn.next (h : Turn node occurs coins txs start pre pool) (hids : TxIds node.hashes occurs)
    (hoccurs : ∀ t ∈ tx :: (pre.reverse ++ txs), occurs t)
    (hvalid : (txLedger node.hashes).Valid (tx :: (pre.reverse ++ txs)))
    (hrecords : coins.Records node.hashes txs)
    (hstart : Fits node.hashes occurs start (tx :: (pre.reverse ++ txs)))
    (hturn : node.resurrectTx policy coins pindexPrev nHeight pool tx = some pool') :
    Turn node occurs coins txs start (pre ++ [tx]) pool' ∧
      ∀ t ∈ pre, ∀ e, pool.lookup (t.getHash node.hashes) = some e →
        pool'.lookup (t.getHash node.hashes) = some e := by
  have htx := hoccurs tx List.mem_cons_self
  have htxs : ∀ t ∈ txs, occurs t :=
    fun t ht ↦ hoccurs t (List.mem_cons_of_mem _ (List.mem_append_right _ ht))
  have hvalidTxs : (txLedger node.hashes).Valid txs := hvalid.tail.of_append
  have hfits := resurrectTx_fits hids htx htxs hvalidTxs hrecords h.fits hturn
  have hfresh : ∀ t ∈ pre, t.getHash node.hashes ≠ tx.getHash node.hashes := by
    intro t ht heq
    refine hvalid.fresh ?_
    rw [txLedger_id, ← heq]
    exact mem_ids (List.mem_append_left _ (List.mem_reverse.mpr ht))
  unfold Node.resurrectTx at hturn
  split at hturn
  · obtain rfl := Option.some.inj hturn
    refine ⟨⟨hfits, fun k e he ↦ (h.origin k e he).imp_right ?_⟩, fun _ _ _ he ↦ he⟩
    exact fun ⟨hmem, hrest⟩ ↦ ⟨List.mem_append_left _ hmem, hrest⟩
  · split at hturn
    · next haccept =>
      obtain rfl := Option.some.inj hturn
      obtain ⟨haccepted, entry, hentry, -, rfl⟩ := Node.acceptToMemoryPool_eq_accept haccept
      refine ⟨⟨hfits, ?_⟩, ?_⟩
      · intro k e he
        rw [lookup_addUnchecked] at he
        split at he
        · next hk =>
          obtain rfl := Option.some.inj he
          rw [hentry, hk]
          exact .inr ⟨List.mem_append_right _ (List.mem_singleton_self tx), haccepted.not_coinbase,
            (Option.or_eq_none_iff.mp haccepted.unseen).1⟩
        · exact (h.origin k e he).imp_right fun ⟨hmem, hrest⟩ ↦
            ⟨List.mem_append_left _ hmem, hrest⟩
      · intro t ht e he
        rw [lookup_addUnchecked, if_neg (hfresh t ht)]
        exact he
    · obtain ⟨left, hremove, hcut, -⟩ := remove_recursive hids h.fits.indexed h.fits.occur htx
      obtain rfl := Option.some.inj (hremove.symm.trans hturn)
      refine ⟨⟨hfits, fun k e he ↦ (h.origin k e (hcut.kept k e he)).imp_right ?_⟩, ?_⟩
      · exact fun ⟨hmem, hrest⟩ ↦ ⟨List.mem_append_left _ hmem, hrest⟩
      · intro t ht e he
        exact h.not_dropped hids hvalid (hstart.tail) hcut ht he
    · cases hturn

/-- The turns of the rest of the block. -/
theorem Turn.run (h : Turn node occurs coins txs start pre pool) (hids : TxIds node.hashes occurs)
    (hrecords : coins.Records node.hashes txs) (post : List CTransaction)
    (hoccurs : ∀ t ∈ (pre ++ post).reverse ++ txs, occurs t)
    (hvalid : (txLedger node.hashes).Valid ((pre ++ post).reverse ++ txs))
    (hstart : Fits node.hashes occurs start ((pre ++ post).reverse ++ txs))
    (hloop : post.foldlM (node.resurrectTx policy coins pindexPrev nHeight) pool = some pool') :
    Turn node occurs coins txs start (pre ++ post) pool' ∧
      ∀ t ∈ pre, ∀ e, pool.lookup (t.getHash node.hashes) = some e →
        pool'.lookup (t.getHash node.hashes) = some e := by
  induction post generalizing pre pool with
  | nil =>
    obtain rfl := Option.some.inj hloop
    rw [List.append_nil]
    exact ⟨h, fun _ _ _ he ↦ he⟩
  | cons tx post ih =>
    rw [List.foldlM_cons] at hloop
    obtain ⟨mid, hmid, hloop⟩ := Option.bind_eq_some_iff.mp hloop
    rw [List.append_cons] at hoccurs hvalid hstart ⊢
    have hsplit : (pre ++ [tx] ++ post).reverse ++ txs =
        post.reverse ++ (tx :: (pre.reverse ++ txs)) := by
      simp
    have hoccurs' : ∀ t ∈ tx :: (pre.reverse ++ txs), occurs t := by
      intro t ht
      exact hoccurs t (hsplit ▸ List.mem_append_right _ ht)
    have hvalid' := hvalid
    have hstart' := hstart
    rw [hsplit] at hvalid' hstart'
    obtain ⟨hnext, hstay⟩ := h.next hids hoccurs' hvalid'.of_append hrecords hstart'.of_append hmid
    obtain ⟨hlast, hstay'⟩ := ih hnext hoccurs hvalid hstart hloop
    refine ⟨hlast, fun t ht e he ↦ ?_⟩
    exact hstay' t (List.mem_append_left _ ht) e (hstay t ht e he)

/-- Without a pruned entry in the way the inputs of an eligible transaction are found. -/
theorem getCoins_of_eligible (h : Turn node occurs coins txs start pre pool)
    (hvalid : (txLedger node.hashes).Valid (tx :: (pre.reverse ++ txs)))
    (hstart : Fits node.hashes occurs start (pre.reverse ++ txs))
    (heligible : Eligible node policy coins pindexPrev nHeight pool tx) {txin : CTxIn}
    (hmem : txin ∈ tx.vin) :
    pool.getCoins coins txin.prevout.hash = pool.getCoins coins.flushed txin.prevout.hash ∧
      ∃ c, pool.getCoins coins txin.prevout.hash = some c ∧
        (c.unspent txin.prevout.n.toNat).isSome := by
  rcases heligible.inputs txin hmem with ⟨o, ho⟩ | ⟨parent, hparent, hout⟩
  · obtain ⟨c, hc, ho⟩ := Option.bind_eq_some_iff.mp ho
    have hunpruned : c.isPruned = false := by
      by_contra hpruned
      rw [Bool.not_eq_false] at hpruned
      rw [CCoins.isPruned_iff.mp hpruned] at ho
      cases ho
    have hsome : pool.getCoins coins txin.prevout.hash = some c := by
      rw [CTxMemPool.getCoins, hc]
      rfl
    refine ⟨?_, c, hsome, by rw [ho]; rfl⟩
    rw [hsome, CTxMemPool.getCoins, getCoins_flushed, hc, Option.filter_some_pos (by simp [hunpruned])]
    rfl
  · -- a pooled parent is one of the block, which had no entry when it was accepted
    obtain ⟨o, ho⟩ := hvalid.unspent_of_mem (mem_spends heligible.not_coinbase hmem)
    rcases h.origin _ parent hparent with hstarted | ⟨-, -, hnone⟩
    · exact absurd ho.1.mem_ids (hstart.apart _ (by rw [hstarted]; rfl))
    · refine ⟨?_, .ofTransaction parent.tx mempoolHeight, ?_, ?_⟩
      · rw [CTxMemPool.getCoins, CTxMemPool.getCoins, getCoins_flushed, hnone]
        rfl
      · rw [CTxMemPool.getCoins, hnone, hparent]
        rfl
      · rw [txLedger_outputs node.hashes]
        exact hout

/-- An eligible transaction without an entry in the cache is accepted at its turn. -/
theorem Turn.accepts (h : Turn node occurs coins txs start pre pool)
    (hvalid : (txLedger node.hashes).Valid (tx :: (pre.reverse ++ txs)))
    (hstart : Fits node.hashes occurs start (tx :: (pre.reverse ++ txs)))
    (heligible : Eligible node policy coins pindexPrev nHeight pool tx)
    (hnone : coins.getCoins (tx.getHash node.hashes) = none) :
    ∃ entry, node.resurrectTx policy coins pindexPrev nHeight pool tx =
      some (pool.addUnchecked (tx.getHash node.hashes) entry) := by
  have hcb := heligible.not_coinbase
  have hstart' : Fits node.hashes occurs start (pre.reverse ++ txs) := hstart.tail
  have hnew : pool.lookup (tx.getHash node.hashes) = none := by
    cases hlookup : pool.lookup (tx.getHash node.hashes) with
    | none => rfl
    | some e =>
      rcases h.origin _ e hlookup with hstarted | ⟨hpre, -, -⟩
      · exact absurd List.mem_cons_self (hstart.apart _ (by rw [hstarted]; rfl))
      · refine absurd ?_ hvalid.fresh
        rw [txLedger_id, ← h.fits.indexed.key _ e hlookup]
        exact mem_ids (List.mem_append_left _ (List.mem_reverse.mpr hpre))
  have hfree : ∀ txin ∈ tx.vin, pool.mapNextTx.lookup txin.prevout = none := by
    intro txin hmem
    cases hlookup : pool.mapNextTx.lookup txin.prevout with
    | none => rfl
    | some it =>
      obtain ⟨e, he, hpoint⟩ := (h.fits.indexed.next _ _).mp hlookup
      obtain ⟨txin', htxin', hprevout⟩ := Option.map_eq_some_iff.mp hpoint
      have hmem' : txin' ∈ e.tx.vin := List.mem_of_getElem? htxin'
      have hspends := mem_spends (H := node.hashes) hcb hmem
      rcases h.origin _ e he with hstarted | ⟨hpre, hecb, -⟩
      · have hunspent := hstart.unspent _ e hstarted txin' hmem'
        rw [hprevout] at hunspent
        exact absurd ⟨tx, List.mem_cons_self, hspends⟩ hunspent
      · obtain ⟨o, -, hunspent⟩ := hvalid.unspent_of_mem hspends
        refine absurd ⟨e.tx, List.mem_append_left _ (List.mem_reverse.mpr hpre), ?_⟩ hunspent
        rw [← hprevout]
        exact mem_spends hecb hmem'
  have hinputs : ∀ txin ∈ tx.vin, _ := fun txin hmem ↦
    getCoins_of_eligible h hvalid hstart' heligible hmem
  have hview : pool.inputView coins tx = pool.inputView coins.flushed tx := by
    have hmap : fetched (pool.getCoins coins) tx.vin = fetched (pool.getCoins coins.flushed) tx.vin := by
      refine Finmap.ext_lookup fun txid ↦ ?_
      rw [lookup_fetched, lookup_fetched]
      split
      · next hnamed =>
        obtain ⟨txin, hmem, rfl⟩ := List.mem_map.mp hnamed
        exact (hinputs txin hmem).1
      · rfl
    rw [inputView, inputView, hmap]
    rfl
  have hhave : (pool.inputView coins tx).haveInputs tx = true := by
    rw [CCoinsViewCache.haveInputs_iff hcb]
    intro txin hmem
    obtain ⟨-, c, hc, hunspent⟩ := hinputs txin hmem
    rw [CCoinsViewCache.unspent, getCoins_inputView hmem, hc]
    exact Option.isSome_iff_exists.mp hunspent
  obtain ⟨entry, hentry⟩ := heligible.policy
  rw [← hview] at hentry
  refine ⟨entry, ?_⟩
  have hunseen : pool.getCoins coins (tx.getHash node.hashes) = none := by
    rw [CTxMemPool.getCoins, hnone, hnew]
    rfl
  have hstandard : (!policy.isMain || (policy.isStandardTx tx).isNone) = true := by
    cases hmain : policy.isMain with
    | false => rfl
    | true =>
      rw [heligible.standard hmain]
      rfl
  have hallFree : (tx.vin.all fun txin ↦ (pool.mapNextTx.lookup txin.prevout).isNone) = true := by
    rw [List.all_eq_true]
    intro txin hmem
    rw [hfree txin hmem]
    rfl
  have hallThere : (tx.vin.all fun txin ↦ (pool.getCoins coins txin.prevout.hash).isSome) = true := by
    rw [List.all_eq_true]
    intro txin hmem
    obtain ⟨-, c, hc, -⟩ := hinputs txin hmem
    rw [hc]
    rfl
  have haccept : node.acceptToMemoryPool policy pool {} tx false false coins pindexPrev nHeight =
      .accept (pool.addUnchecked (tx.getHash node.hashes) entry) := by
    simp only [Node.acceptToMemoryPool, heligible.checked, hcb, hstandard, CTxMemPool.exists, hnew,
      hallFree, hunseen, hallThere, hhave, hentry, Bool.not_false, Option.isSome_none,
      Option.isNone_none, Verdict.check, Verdict.accept_bind, if_true]
  rw [Node.resurrectTx, if_neg (by simp [hcb]), haccept]

end Turns

/-! ### Exactly when a transaction is kept -/

section Disconnect

variable {node : Node} {policy : Policy} {occurs : CTransaction → Prop} {s s' : TipState}
  {fFlush : Bool} {cond : TipState → TipOp → Prop}

open CTxMemPool

/-- A transaction of the tip is not in the ledger below it. -/
theorem fresh_of_mem {H : Hashes} {vtx txs : List CTransaction} {tx : CTransaction}
    (hvalid : (txLedger H).Valid (vtx.reverse ++ txs)) (htx : tx ∈ vtx) :
    tx.getHash H ∉ txs.map fun tx ↦ tx.getHash H := by
  intro hold
  obtain ⟨t, ht, hid⟩ := List.mem_map.mp hold
  obtain rfl := hvalid.eq_of_id (List.mem_append_right _ ht)
    (List.mem_append_left _ (List.mem_reverse.mpr htx)) hid
  obtain ⟨before, after, hsplit⟩ := List.append_of_mem (List.mem_reverse.mpr htx)
  rw [hsplit, List.append_assoc, List.cons_append] at hvalid
  refine hvalid.of_append.fresh ?_
  rw [List.map_append]
  exact List.mem_append_right _ (List.mem_map_of_mem (f := (txLedger H).id) ht)

/-- A flushed cache has no entry for what is not in the ledger. -/
theorem getCoins_flushed_of_fresh {H : Hashes} {view : CCoinsViewCache} {txs : List CTransaction}
    (h : view.Records H txs) {txid : Uint256} (hfresh : txid ∉ txs.map fun tx ↦ tx.getHash H) :
    view.flushed.getCoins txid = none := by
  rw [getCoins_flushed]
  cases hcoins : view.getCoins txid with
  | none => rfl
  | some c =>
    have hpruned := h.prunedAt hfresh c hcoins
    rw [Option.filter_some_neg (by simp [hpruned])]

/-- Without a flush the cache keeps an entry for a disconnected transaction exactly when it had one
or the transaction has an output that can be spent. -/
theorem getCoins_unflushed {H : Hashes} {block : CBlock} {blockundo : List CTxUndo}
    {pindex : ChainIndex} {view : CCoinsViewCache} {u : Undoing} {txs : List CTransaction}
    {tx : CTransaction} (hchecked : block.Checked H) (htx : tx ∈ block.vtx)
    (hfresh : tx.getHash H ∉ txs.map fun tx ↦ tx.getHash H)
    (hvalid : (txLedger H).Valid (block.vtx.reverse ++ txs))
    (hrecords : view.Records H (block.vtx.reverse ++ txs))
    (h : disconnectBlock H block {} pindex blockundo view = .accept u) :
    u.view.getCoins (tx.getHash H) = none ↔
      view.getCoins (tx.getHash H) = none ∧ (CCoins.ofTransaction tx 0).isPruned = true := by
  have hmem : tx ∈ block.vtx.reverse ++ txs :=
    List.mem_append_left _ (List.mem_reverse.mpr htx)
  have hhave : u.view.haveCoins (tx.getHash H) = true ↔ _ := haveCoins_disconnectBlock hchecked h
  rw [← not_iff_not, not_and_or, CCoins.isPruned_iff, not_forall]
  rw [CCoinsViewCache.haveCoins, CCoinsViewCache.haveCoins, Option.isSome_iff_ne_none,
    Option.isSome_iff_ne_none] at hhave
  refine hhave.trans ?_
  constructor
  · rintro (hin | ⟨t, ht, txin, hspends, heq⟩)
    · exact .inl hin
    · have hspent : (txLedger H).Spent (block.vtx.reverse ++ txs) (tx.getHash H)
          txin.prevout.n.toNat := by
        refine ⟨t, List.mem_append_left _ (List.mem_reverse.mpr ht), ?_⟩
        rw [txLedger_spends, heq]
        exact List.mem_map_of_mem (f := fun txin : CTxIn ↦
          (txin.prevout.hash, txin.prevout.n.toNat)) hspends
      obtain ⟨o, t', ht', hid, hout⟩ := hvalid.created_of_spent hspent
      obtain rfl := hvalid.eq_of_id ht' hmem hid
      refine .inr ⟨txin.prevout.n.toNat, ?_⟩
      rw [txLedger_outputs H, hout]
      exact Option.some_ne_none o
  · rintro (hin | ⟨n, hn⟩)
    · exact .inl hin
    · obtain ⟨o, ho⟩ := Option.ne_none_iff_exists'.mp hn
      by_cases hspent : (txLedger H).Spent (block.vtx.reverse ++ txs) (tx.getHash H) n
      · obtain ⟨t, ht, hspends⟩ := hspent
        rcases List.mem_append.mp ht with ht | ht
        · obtain ⟨txin, htxin, heq⟩ := List.mem_map.mp hspends
          exact .inr ⟨t, List.mem_reverse.mp ht, txin, htxin, (Prod.mk.inj heq).1.symm⟩
        · exact absurd (hvalid.of_append.mem_ids_of_spent ⟨t, ht, hspends⟩) hfresh
      · have hunspent := (hrecords (tx.getHash H) n o).mpr ⟨⟨tx, hmem, rfl, ho⟩, hspent⟩
        obtain ⟨c, hc, -⟩ := Option.bind_eq_some_iff.mp hunspent
        exact .inl (by rw [hc]; exact Option.some_ne_none c)

/-- What the block of the tip and its transactions leave in the cache when it is disconnected. -/
theorem getCoins_disconnectTip (hids : TxIds node.hashes occurs)
    (hcoherent : s.Coherent node.hashes occurs)
    (h : node.disconnectTip policy s fFlush = .accept s') {block : CBlock}
    {blockundo : List CTxUndo} (hhead : s.blocks.head? = some (block, blockundo))
    {tx : CTransaction} (htx : tx ∈ block.vtx) :
    s'.coins.getCoins (tx.getHash node.hashes) = none ↔ fFlush = true ∨
      (s.coins.getCoins (tx.getHash node.hashes) = none ∧
        (CCoins.ofTransaction tx 0).isPruned = true) := by
  obtain ⟨block', blockundo', u, hblocks, hu, -, hcoins, hcoherent', -⟩ :=
    disconnectTip_eq_accept hids hcoherent h
  have hstacked := hcoherent.stacked
  have hvalid := hcoherent.valid
  have hrecords := hcoherent.records
  rw [hblocks] at hhead hstacked hvalid hrecords
  obtain ⟨rfl, rfl⟩ := Prod.mk.inj (Option.some.inj hhead)
  rw [ledgerOf_cons] at hvalid hrecords
  have hfresh := fresh_of_mem hvalid htx
  cases fFlush with
  | true =>
    rw [if_pos rfl] at hcoins
    have hview : u.view.Records node.hashes (ledgerOf s'.blocks) := by
      intro txid n o
      rw [← unspent_flushed, ← hcoins]
      exact hcoherent'.records txid n o
    rw [hcoins]
    exact iff_of_true (getCoins_flushed_of_fresh hview hfresh) (.inl rfl)
  | false =>
    rw [if_neg Bool.false_ne_true] at hcoins
    rw [hcoins, getCoins_unflushed hstacked.1.checked htx hfresh hvalid hrecords hu]
    simp

/-- An eligible transaction of the block is in the pool afterwards exactly when the cache had no
entry for it at its turn. -/
theorem exists_disconnectTip (hids : TxIds node.hashes occurs)
    (hcoherent : s.Coherent node.hashes occurs)
    (hfits : s.pool.Fits node.hashes occurs (ledgerOf s.blocks))
    (h : node.disconnectTip policy s fFlush = .accept s') {tx : CTransaction}
    (hoffered : Offered node policy s s' tx) :
    s'.pool.exists (tx.getHash node.hashes) = true ↔
      s'.coins.getCoins (tx.getHash node.hashes) = none := by
  obtain ⟨block, blockundo, u, hblocks, -, -, -, hcoherent', hloop⟩ :=
    disconnectTip_eq_accept hids hcoherent h
  have hvalid := hcoherent.valid
  have hknown := hcoherent.stacked.known
  rw [hblocks, ledgerOf_cons] at hvalid hfits hknown
  obtain ⟨block', blockundo', pre, post, pool, hhead, hvtx, hpre, heligible⟩ := hoffered
  rw [hblocks] at hhead
  obtain ⟨rfl, rfl⟩ := Prod.mk.inj (Option.some.inj hhead)
  have hbegin : Turn node occurs s'.coins (ledgerOf s'.blocks) s.pool [] s.pool :=
    ⟨hfits.of_append, fun _ _ he ↦ .inl he⟩
  constructor
  · intro hkept
    have hend := (hbegin.run hids hcoherent'.records block.vtx hknown hvalid hfits
      hloop).1
    obtain ⟨e, he⟩ := Option.isSome_iff_exists.mp hkept
    rcases hend.origin _ e he with hstarted | ⟨-, -, hnone⟩
    · refine absurd ?_ (hfits.apart _ (by rw [hstarted]; rfl))
      exact mem_ids (List.mem_append_left _ (List.mem_reverse.mpr (by simp [hvtx])))
    · exact hnone
  · intro hnone
    have hledger : block.vtx.reverse ++ ledgerOf s'.blocks =
        post.reverse ++ (tx :: (pre.reverse ++ ledgerOf s'.blocks)) := by
      simp [hvtx]
    have hsplit : ((pre ++ [tx]) ++ post).reverse ++ ledgerOf s'.blocks =
        block.vtx.reverse ++ ledgerOf s'.blocks := by
      simp [hvtx]
    have hvalid' := hledger ▸ hvalid
    have hfits' := hledger ▸ hfits
    have hknown' : ∀ t ∈ tx :: (pre.reverse ++ ledgerOf s'.blocks), occurs t :=
      fun t ht ↦ hknown t (hledger ▸ List.mem_append_right _ ht)
    have hpool := (hbegin.run hids hcoherent'.records pre
      (fun t ht ↦ hknown' t (List.mem_cons_of_mem _ ht)) hvalid'.of_append.tail
      hfits'.of_append.tail hpre).1
    obtain ⟨entry, hturn⟩ := hpool.accepts hvalid'.of_append hfits'.of_append heligible hnone
    obtain ⟨hnext, -⟩ := hpool.next hids hknown' hvalid'.of_append hcoherent'.records
      hfits'.of_append hturn
    rw [hvtx, List.foldlM_append, hpre, Option.bind_eq_bind, Option.bind_some,
      List.foldlM_cons, hturn, Option.bind_eq_bind, Option.bind_some] at hloop
    obtain ⟨-, hkeep⟩ := hnext.run hids hcoherent'.records post (hsplit ▸ hknown)
      (hsplit ▸ hvalid) (hsplit ▸ hfits) hloop
    have hin := hkeep tx (List.mem_append_right _ (List.mem_singleton_self tx)) entry
      (by rw [lookup_addUnchecked, if_pos rfl])
    rw [CTxMemPool.exists, hin]
    rfl

/-- `DisconnectTip` puts an eligible transaction of the block back into the pool exactly when
`WriteChainState` flushes the cache, or the transaction had no entry in it and none of its outputs
can be spent. -/
theorem disconnectTip_keepsEligible_iff (hids : TxIds node.hashes occurs)
    (hrun : TipRun node.hashes node.params occurs cond s)
    (h : node.disconnectTip policy s fFlush = .accept s') {tx : CTransaction}
    (hoffered : Offered node policy s s' tx) :
    s'.pool.exists (tx.getHash node.hashes) = true ↔ fFlush = true ∨
      (s.coins.getCoins (tx.getHash node.hashes) = none ∧
        (CCoins.ofTransaction tx 0).isPruned = true) := by
  obtain ⟨hcoherent, hfits⟩ := tipRun_fits hids hrun
  rw [exists_disconnectTip hids hcoherent hfits h hoffered]
  obtain ⟨block, blockundo, pre, post, -, hhead, hvtx, -, -⟩ := hoffered
  exact getCoins_disconnectTip hids hcoherent h hhead (by simp [hvtx])

end Disconnect

/-! ### A spend of the first coinbase, disconnected -/

theorem HasFirst.of_meaning {view view' : CCoinsViewCache} (h : HasFirst view)
    (hmeaning : view'.meaning firstInput.prevout.hash = view.meaning firstInput.prevout.hash) :
    HasFirst view' := by
  obtain ⟨coins, hcoins, hcoinbase, hheight, hunspent⟩ := h
  have hpruned : coins.isPruned = false := by
    by_contra hp
    rw [Bool.not_eq_false] at hp
    rw [CCoins.isPruned_iff.mp hp] at hunspent
    cases hunspent
  rw [CCoinsViewCache.meaning, CCoinsViewCache.meaning, hcoins, Option.bind_some,
    CCoins.meaning_of_not_pruned (by simp [hpruned])] at hmeaning
  obtain ⟨coins', hcoins', heq⟩ := Option.bind_eq_some_iff.mp hmeaning
  rw [← CCoins.meaning_of_not_pruned (by simp [hpruned])] at heq
  obtain ⟨hcoinbase', hheight', -⟩ := CCoins.metadata_of_meaning heq.symm hpruned
  refine ⟨coins', hcoins', hcoinbase' ▸ hcoinbase, hheight' ▸ hheight, ?_⟩
  rw [CCoins.unspent_of_meaning heq]
  exact hunspent

/-- The turn of the spend with an empty pool. -/
theorem resurrect_spendFirst {view : CCoinsViewCache} {p : ChainIndex} (hfirst : HasFirst view)
    (hlength : p.length = 721) (nHeight : Nat) : ∃ pool,
    spendingNode.resurrectTx lenientPolicy view p nHeight .empty (spendFirst 0) = some pool := by
  have hcb : (spendFirst 0).isCoinBase = false := rfl
  rw [Node.resurrectTx, hcb, if_neg Bool.false_ne_true, accept_spendFirst hfirst hlength]
  split
  · next hsplit =>
    split at hsplit
    · exact ⟨_, rfl⟩
    · cases hsplit
  · have hfits : CTxMemPool.Fits minerHashes LateTx .empty [] := CTxMemPool.fits_empty
    obtain ⟨pool, hremove, -⟩ := CTxMemPool.remove_recursive txIds_lateTx hfits.indexed hfits.occur
      (.inr rfl)
    exact ⟨pool, hremove⟩
  · next hsplit =>
    split at hsplit
    · cases hsplit
    · cases hsplit

/-- A node connects 720 blocks and one with the spend of the first coinbase, and disconnects that
one again; the spend could go back into the pool. -/
theorem exists_disconnectedSpend (fFlush : Bool) : ∃ s s',
    TipRun minerHashes minerMainParams LateTx (fun _ _ ↦ True) s ∧
      spendingNode.disconnectTip lenientPolicy s fFlush = .accept s' ∧
      Offered spendingNode lenientPolicy s s' (spendFirst 0) ∧
      (∃ blockundo, s.blocks.head? = some (spendingBlock 0, blockundo)) := by
  obtain ⟨s, issued, hrun, hp, hpool, -, hrestorable⟩ := lateFork_plan.tipRun LateTx
    (fun _ _ ↦ True) rfl (by decide) (fun i hi hle ↦ .inl ⟨i, hi, by omega, rfl⟩) (fun _ _ _ ↦ trivial)
  have hp : LateFork s.pindex s.coins issued := hp
  obtain ⟨q, hloop, hfees, hchecks⟩ := hp.runTxs_spendingBlock
    (show (0 : Int) ≤ 0 ∧ (0 : Int) ≤ 2000000000 by decide) ((spendingBlock 0).indexEntry minerHashes)
  obtain ⟨hnew, hblock⟩ := hp.connectBlock_spendingBlock (.inl rfl) hloop hfees hchecks
  have hvtx : (spendingBlock 0).vtx = [minedCoinbase 721 0, spendFirst 0] := rfl
  obtain ⟨r, hr, hpindex⟩ : ∃ r : Connected, spendingNode.connectBlock (spendingBlock 0) {}
      ((spendingBlock 0).indexEntry minerHashes :: s.pindex) s.coins false = .accept r ∧
      r.pindex.tail = s.pindex ∧ r.pindex.length = 722 :=
    ⟨_, hblock, rfl, by rw [List.length_cons, hp.length]⟩
  have hwire : ∀ tx ∈ (spendingBlock 0).vtx, tx.vectorFormat = false := by decide
  have hprev : ((spendingBlock 0).indexEntry minerHashes :: s.pindex).tail ≠ [] :=
    hp.accepted.ne_nil
  obtain ⟨u, hu, hclean, hmeaning, -⟩ :=
    disconnectBlock_connectBlock hrestorable hwire hprev hnew hr
  have hfirst : HasFirst u.view :=
    (HasFirst.of_getCoins (hp.coinbases 1 le_rfl (by decide))).of_meaning (congrFun hmeaning _)
  have hcoins : HasFirst (if fFlush then u.view.flushed else u.view) := by
    cases fFlush with
    | false => exact hfirst
    | true => exact hfirst.of_meaning (meaning_flushed _ _)
  have hconfirm : CTxMemPool.empty.confirmAll minerHashes (spendingBlock 0).vtx = some .empty := rfl
  have hconnect : spendingNode.tipStep s (.connectTip (spendingBlock 0) false) =
      .accept ⟨.empty, r.view, r.pindex, (spendingBlock 0, r.blockundo) :: s.blocks⟩ := by
    have hhashes : spendingNode.hashes = minerHashes := rfl
    simp only [Node.tipStep, Node.connectTip, hhashes, hr, hpool, hconfirm, Verdict.require,
      Verdict.accept_bind, Bool.false_eq_true, if_false]
  have hadmitted : (TipOp.connectTip (spendingBlock 0) false).Admitted minerHashes minerMainParams s :=
    ⟨by rw [hp.length]; decide, hnew, spendingNode, {}, none, rfl, rfl, hp.contextCheck⟩
  obtain ⟨pool, hturn⟩ := resurrect_spendFirst hcoins (p := r.pindex.tail)
    (by rw [hpindex.1, hp.length]) (r.pindex.length - 1)
  have hcbTurn : spendingNode.resurrectTx lenientPolicy
      (if fFlush then u.view.flushed else u.view) r.pindex.tail (r.pindex.length - 1) .empty
      (minedCoinbase 721 0) = some .empty := rfl
  refine ⟨_, ⟨pool, if fFlush then u.view.flushed else u.view, r.pindex.tail, s.blocks⟩,
    .step hrun rfl rfl hadmitted ?_ trivial hconnect, ?_, ?_, r.blockundo, rfl⟩
  · intro tx htx
    rcases List.mem_pair.mp htx with rfl | rfl
    · exact .inl ⟨721, by decide, le_rfl, rfl⟩
    · exact .inr rfl
  · have hhashes : spendingNode.hashes = minerHashes := rfl
    simp only [Node.disconnectTip, hhashes] at hu ⊢
    simp only [hu, hclean, Verdict.check, if_true, Verdict.accept_bind, hvtx, List.foldlM_cons,
      List.foldlM_nil, hcbTurn, Option.bind_eq_bind, Option.bind_some, hturn]
    rfl
  · refine ⟨spendingBlock 0, r.blockundo, [minedCoinbase 721 0], [], .empty, rfl, rfl, ?_, ?_⟩
    · rw [List.foldlM_cons, hcbTurn]
      rfl
    · refine ⟨rfl, ?_, by decide, fun _ ↦ rfl, ?_⟩
      · intro txin hmem
        obtain rfl := List.mem_singleton.mp hmem
        obtain ⟨coins, hlookup, -, -, hunspent⟩ := hcoins
        refine .inl ⟨⟨2000000000, []⟩, ?_⟩
        rw [CCoinsViewCache.unspent, hlookup]
        exact hunspent
      · refine ⟨_, poolEntry_spendFirst (hasFirst_inputView ?_) ?_ _⟩
        · exact hcoins.of_meaning (meaning_flushed _ _)
        · change r.pindex.tail.length = 721
          rw [hpindex.1, hp.length]

/-- `disconnectTip_keepsEligible_iff` for that block: after a flush the spend is in the pool. -/
theorem disconnectTip_keepsEligible_flushed : ∃ s s',
    spendingNode.disconnectTip lenientPolicy s true = .accept s' ∧
      s'.pool.exists ((spendFirst 0).getHash minerHashes) = true := by
  obtain ⟨s, s', hrun, h, hoffered, -⟩ := exists_disconnectedSpend true
  exact ⟨s, s', h, (disconnectTip_keepsEligible_iff txIds_lateTx hrun h hoffered).mpr (.inl rfl)⟩

/-- Without a flush the pruned entry that `DisconnectBlock` leaves is taken for the spend. -/
theorem disconnectTip_loses_unflushed : TxIds minerHashes LateTx ∧ ∃ s s',
    TipRun minerHashes minerMainParams LateTx (fun _ _ ↦ True) s ∧
      spendingNode.disconnectTip lenientPolicy s false = .accept s' ∧
      Offered spendingNode lenientPolicy s s' (spendFirst 0) ∧
      s'.pool.exists ((spendFirst 0).getHash minerHashes) = false := by
  obtain ⟨s, s', hrun, h, hoffered, blockundo, hhead⟩ := exists_disconnectedSpend false
  refine ⟨txIds_lateTx, s, s', hrun, h, hoffered, ?_⟩
  obtain ⟨hcoherent, hfits⟩ := tipRun_fits txIds_lateTx hrun
  have htx : spendFirst 0 ∈ (spendingBlock 0).vtx := List.mem_cons_of_mem _ List.mem_cons_self
  have hentry := getCoins_disconnectTip txIds_lateTx hcoherent h hhead htx
  have hspendable : (CCoins.ofTransaction (spendFirst 0) 0).isPruned = false := by decide
  have hkept := exists_disconnectTip txIds_lateTx hcoherent hfits h hoffered
  rw [hentry, hspendable] at hkept
  change s'.pool.exists ((spendFirst 0).getHash minerHashes) = true ↔ _ at hkept
  rw [← Bool.not_eq_true, hkept]
  simp

end Bitmark
