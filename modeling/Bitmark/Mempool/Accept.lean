import Bitmark.Mempool.Supply

/-!
# Acceptance to the memory pool

`AcceptToMemoryPool`, `src/main.cpp:835`. It looks inputs up through a view that prefers an entry
of the coin cache, pruned or not, to a pooled transaction.
-/

namespace Bitmark

/-- `REJECT_DUPLICATE` and `REJECT_INSUFFICIENTFEE`, `src/main.h:78`. -/
def rejectDuplicate : UInt8 := 0x12
def rejectInsufficientfee : UInt8 := 0x42

/-- `MEMPOOL_HEIGHT`, `src/txmempool.h:16`. -/
def mempoolHeight : Int := 0x7FFFFFFF

/-- `DEFAULT_BLOCK_PRIORITY_SIZE`, `src/main.h:42`. -/
def defaultBlockPrioritySize : Nat := 50000

/-- `GetMinFee_mode`. -/
inductive GetMinFeeMode where
  | relay | send
deriving DecidableEq, Repr

/-- What a node decides by its settings and its clock. -/
structure Policy where
  /-- `Params().NetworkID() == CChainParams::MAIN`. -/
  isMain : Bool
  /-- `IsStandardTx`: nothing, or the reason why the transaction is not standard. -/
  isStandardTx : CTransaction → Option String
  areInputsStandard : CTransaction → CCoinsViewCache → Bool
  nMinTxFee : Int
  nMinRelayTxFee : Int
  /-- Whether the limiter of free transactions refuses this one now. -/
  rateLimited : CTransaction → Bool
  /-- `GetTime()`. -/
  nTime : Int

/-- `GetMinFee`, `src/main.cpp:801`. -/
def Policy.getMinFee (policy : Policy) (tx : CTransaction) (nBytes : Nat) (fAllowFree : Bool)
    (mode : GetMinFeeMode) : Int :=
  let nBaseFee := if mode = .relay then policy.nMinRelayTxFee else policy.nMinTxFee
  let nMinFee := toInt64 ((1 + nBytes / 1000 : Nat) * nBaseFee)
  let nMinFee :=
    if fAllowFree ∧ nBytes < (if mode = .send then 1000 else defaultBlockPrioritySize - 1000) then 0
    else nMinFee
  let nMinFee :=
    if nMinFee < nBaseFee ∧ mode = .send ∧ tx.vout.any (·.nValue < cent) then nBaseFee else nMinFee
  if moneyRange nMinFee then nMinFee else maxMoney

namespace CTxMemPool

/-- `CCoinsViewMemPool::GetCoins`, `src/txmempool.cpp:201`. -/
def getCoins (pool : CTxMemPool) (base : CCoinsViewCache) (txid : Uint256) : Option CCoins :=
  (base.getCoins txid).or
    ((pool.lookup txid).map fun entry ↦ .ofTransaction entry.tx mempoolHeight)

/-- What a cache has fetched after a query of every input. -/
def fetched (getCoins : Uint256 → Option CCoins) (vin : List CTxIn) :
    Finmap fun _ : Uint256 ↦ CCoins :=
  vin.foldl (fun m txin ↦
    match getCoins txin.prevout.hash with
    | some coins => m.insert txin.prevout.hash coins
    | none => m) ∅

/-- The view of `AcceptToMemoryPool` after it is switched back to its dummy backend. -/
def inputView (pool : CTxMemPool) (base : CCoinsViewCache) (tx : CTransaction) : CCoinsViewCache :=
  ⟨fetched (pool.getCoins base) tx.vin, base.hashBlock⟩

end CTxMemPool

/-- The flags a transaction is checked with before it is pooled. -/
def mempoolFlags : BitVec 32 :=
  scriptVerifyP2SH ||| scriptVerifyStrictenc ||| scriptVerifyChecklocktimeverify

/-- `AcceptToMemoryPool` once the inputs are there, `src/main.cpp:910–968`: the entry to store. -/
def Node.poolEntry (node : Node) (policy : Policy) (state : CValidationState) (tx : CTransaction)
    (fLimitFree fRejectInsaneFee : Bool) (view : CCoinsViewCache) (pindexPrev : ChainIndex)
    (nHeight : Nat) : Verdict CTxMemPoolEntry := do
  .check (!(policy.isMain && !policy.areInputsStandard tx view)) state
  let nValueIn ← .require (view.getValueIn tx)
  let nValueOut ← .require tx.getValueOut
  let nFees := toInt64 (nValueIn - nValueOut)
  let entry : CTxMemPoolEntry := ⟨tx, nFees, tx.serialize.length, policy.nTime, nHeight⟩
  let nSize := entry.nTxSize % 2 ^ 32
  let txMinFee := policy.getMinFee tx nSize true .relay
  .check (!(fLimitFree && decide (nFees < txMinFee)))
    (state.doS 0 rejectInsufficientfee "insufficient fee")
  .check (!(fLimitFree && decide (nFees < policy.nMinRelayTxFee) && policy.rateLimited tx))
    (state.doS 0 rejectInsufficientfee "insufficient priority")
  .check (!(fRejectInsaneFee && decide (toInt64 (policy.nMinRelayTxFee * 10000) < nFees))) state
  let _ ← node.checkInputs tx state view pindexPrev true mempoolFlags false
  .accept entry

/-- `AcceptToMemoryPool`, `src/main.cpp:835`, on the coin cache `coins` whose best block is at the
head of `pindexPrev`; the active chain has height `nHeight`. -/
def Node.acceptToMemoryPool (node : Node) (policy : Policy) (pool : CTxMemPool)
    (state : CValidationState) (tx : CTransaction) (fLimitFree fRejectInsaneFee : Bool)
    (coins : CCoinsViewCache) (pindexPrev : ChainIndex) (nHeight : Nat) : Verdict CTxMemPool := do
  checkTransaction tx state
  .check (!tx.isCoinBase) (state.doS 100 rejectInvalid "coinbase")
  .check (!policy.isMain || (policy.isStandardTx tx).isNone)
    (state.doS 0 rejectNonstandard ((policy.isStandardTx tx).getD ""))
  let hash := tx.getHash node.hashes
  .check (!pool.exists hash) state
  .check (tx.vin.all fun txin ↦ (pool.mapNextTx.lookup txin.prevout).isNone) state
  .check (pool.getCoins coins hash).isNone state
  .check (tx.vin.all fun txin ↦ (pool.getCoins coins txin.prevout.hash).isSome) state
  let view := pool.inputView coins tx
  .check (view.haveInputs tx) (state.invalid rejectDuplicate "bad-txns-inputs-spent")
  let entry ← node.poolEntry policy state tx fLimitFree fRejectInsaneFee view pindexPrev nHeight
  .accept (pool.addUnchecked hash entry)

/-! ### What acceptance establishes -/

namespace CTxMemPool

variable {pool : CTxMemPool} {coins : CCoinsViewCache} {tx : CTransaction}

theorem lookup_fetched (getCoins : Uint256 → Option CCoins) (vin : List CTxIn) (txid : Uint256) :
    (fetched getCoins vin).lookup txid =
      if txid ∈ vin.map (·.prevout.hash) then getCoins txid else none := by
  suffices h : ∀ m : Finmap fun _ : Uint256 ↦ CCoins, (m.lookup txid = none ∨
      m.lookup txid = getCoins txid) → (vin.foldl (fun m txin ↦
        match getCoins txin.prevout.hash with
        | some coins => m.insert txin.prevout.hash coins
        | none => m) m).lookup txid =
      if txid ∈ vin.map (·.prevout.hash) then getCoins txid else m.lookup txid by
    rw [fetched, h ∅ (.inl rfl)]
    rfl
  induction vin with
  | nil => simp
  | cons txin vin ih =>
    intro m hm
    rw [List.foldl_cons, ih, List.map_cons]
    · by_cases hmem : txid ∈ vin.map (·.prevout.hash)
      · rw [if_pos hmem, if_pos (List.mem_cons_of_mem _ hmem)]
      · rw [if_neg hmem]
        by_cases htxid : txid = txin.prevout.hash
        · rw [if_pos (List.mem_cons.mpr (.inl htxid)), ← htxid]
          cases hcoins : getCoins txid with
          | none =>
            rw [hcoins] at hm
            exact hm.elim id id
          | some c => exact Finmap.lookup_insert _
        · rw [if_neg (by simp [htxid, hmem])]
          cases getCoins txin.prevout.hash with
          | none => rfl
          | some c => exact Finmap.lookup_insert_of_ne _ htxid
    · cases hcoins : getCoins txin.prevout.hash with
      | none => exact hm
      | some c =>
        by_cases htxid : txid = txin.prevout.hash
        · rw [htxid, hcoins]
          exact .inr (Finmap.lookup_insert _)
        · dsimp only
          rwa [Finmap.lookup_insert_of_ne _ htxid]

/-- The view has what the pool and the coin cache hold of an input. -/
theorem getCoins_inputView {txin : CTxIn} (h : txin ∈ tx.vin) :
    (pool.inputView coins tx).getCoins txin.prevout.hash =
      pool.getCoins coins txin.prevout.hash := by
  rw [inputView, CCoinsViewCache.getCoins, lookup_fetched,
    if_pos (List.mem_map_of_mem (f := fun txin : CTxIn ↦ txin.prevout.hash) h)]

end CTxMemPool

/-- What `AcceptToMemoryPool` establishes of a transaction. -/
structure PoolAccepted (node : Node) (pool : CTxMemPool) (coins : CCoinsViewCache)
    (tx : CTransaction) : Prop where
  checked : tx.Checked
  not_coinbase : tx.isCoinBase = false
  new : pool.lookup (tx.getHash node.hashes) = none
  free : ∀ txin ∈ tx.vin, pool.mapNextTx.lookup txin.prevout = none
  unseen : pool.getCoins coins (tx.getHash node.hashes) = none
  inputs : ∀ txin ∈ tx.vin, ∃ c, pool.getCoins coins txin.prevout.hash = some c ∧
    (c.unspent txin.prevout.n.toNat).isSome

theorem Node.poolEntry_tx {node : Node} {policy : Policy} {state : CValidationState}
    {tx : CTransaction} {fLimitFree fRejectInsaneFee : Bool} {view : CCoinsViewCache}
    {pindexPrev : ChainIndex} {nHeight : Nat} {entry : CTxMemPoolEntry}
    (h : node.poolEntry policy state tx fLimitFree fRejectInsaneFee view pindexPrev nHeight =
      .accept entry) : entry.tx = tx := by
  simp only [poolEntry, Verdict.bind_eq_accept] at h
  obtain ⟨-, -, _, -, _, -, -, -, -, -, -, -, _, -, h⟩ := h
  rw [← Verdict.accept.inj h]

theorem Node.acceptToMemoryPool_eq_accept {node : Node} {policy : Policy} {pool pool' : CTxMemPool}
    {state : CValidationState} {tx : CTransaction} {fLimitFree fRejectInsaneFee : Bool}
    {coins : CCoinsViewCache} {pindexPrev : ChainIndex} {nHeight : Nat}
    (h : node.acceptToMemoryPool policy pool state tx fLimitFree fRejectInsaneFee coins pindexPrev
      nHeight = .accept pool') :
    PoolAccepted node pool coins tx ∧ ∃ entry, entry.tx = tx ∧
      node.poolEntry policy state tx fLimitFree fRejectInsaneFee (pool.inputView coins tx)
        pindexPrev nHeight = .accept entry ∧
      pool' = pool.addUnchecked (tx.getHash node.hashes) entry := by
  simp only [acceptToMemoryPool, Verdict.bind_eq_accept, Verdict.check_eq_accept,
    Bool.not_eq_true', CTxMemPool.exists, Option.isSome_eq_false_iff, Option.isNone_iff_eq_none,
    List.all_eq_true, Unique.exists_iff] at h
  obtain ⟨hchecked, hcb, -, hnew, hfree, hunseen, -, hinputs, entry, hentry, h⟩ := h
  refine ⟨⟨checkTransaction_eq_accept hchecked, hcb, hnew, hfree, hunseen, ?_⟩, entry,
    Node.poolEntry_tx hentry, hentry, (Verdict.accept.inj h).symm⟩
  intro txin hmem
  obtain ⟨o, ho⟩ := (CCoinsViewCache.haveInputs_iff hcb).mp hinputs txin hmem
  rw [CCoinsViewCache.unspent, CTxMemPool.getCoins_inputView hmem] at ho
  obtain ⟨c, hc, ho⟩ := Option.bind_eq_some_iff.mp ho
  exact ⟨c, hc, by rw [ho]; rfl⟩

section Invariants

variable {node : Node} {pool : CTxMemPool} {coins : CCoinsViewCache} {tx : CTransaction}
  {txs : List CTransaction} {avail : Uint256 → Nat → Prop} {occurs : CTransaction → Prop}

open CTxMemPool

/-- An accepted transaction spends outputs that can be spent. -/
theorem PoolAccepted.provides (h : PoolAccepted node pool coins tx)
    (hrecords : coins.Records node.hashes txs) (hapart : pool.Apart node.hashes txs)
    (havail : ∀ hash n, Available node.hashes txs hash n → avail hash n) :
    ∀ txin ∈ tx.vin, pool.Provides node.hashes avail txin.prevout := by
  intro txin hmem
  obtain ⟨c, hc, hunspent⟩ := h.inputs txin hmem
  obtain ⟨o, ho⟩ := Option.isSome_iff_exists.mp hunspent
  rcases Option.or_eq_some_iff.mp hc with hbase | ⟨-, hpooled⟩
  · have hledger : (txLedger node.hashes).Unspent txs txin.prevout.hash txin.prevout.n.toNat o := by
      rw [← hrecords, CCoinsViewCache.unspent, hbase]
      exact ho
    refine .inr ⟨?_, havail _ _ ⟨o, hledger⟩⟩
    by_contra hpooled
    exact hapart _ (Option.isSome_iff_ne_none.mpr hpooled) hledger.1.mem_ids
  · obtain ⟨parent, hparent, rfl⟩ := Option.map_eq_some_iff.mp hpooled
    refine .inl ⟨parent, hparent, ?_⟩
    rw [← txLedger_outputs _ _ mempoolHeight, ho]
    rfl

/-- An accepted transaction is not in the ledger. -/
theorem PoolAccepted.not_mem_ids (h : PoolAccepted node pool coins tx)
    (hids : TxIds node.hashes occurs) (htx : occurs tx) (htxs : ∀ t ∈ txs, occurs t)
    (hvalid : (txLedger node.hashes).Valid txs) (hrecords : coins.Records node.hashes txs)
    (hapart : pool.Apart node.hashes txs) :
    tx.getHash node.hashes ∉ txs.map fun tx ↦ tx.getHash node.hashes := by
  intro hin
  obtain ⟨t, ht, hid⟩ := List.mem_map.mp hin
  obtain ⟨txin, hmem⟩ := List.exists_mem_of_ne_nil _ h.checked.vin_ne_nil
  have hspends : (txin.prevout.hash, txin.prevout.n.toNat) ∈ (txLedger node.hashes).spends t := by
    rw [hids.spends_eq (htxs t ht) htx hid, txLedger_spends, spends_of_not_coinbase h.not_coinbase]
    exact List.mem_map_of_mem hmem
  have hspent : (txLedger node.hashes).Spent txs txin.prevout.hash txin.prevout.n.toNat :=
    ⟨t, ht, hspends⟩
  rcases h.provides hrecords hapart (fun _ _ h ↦ h) txin hmem with ⟨parent, hparent, -⟩ | ⟨-, o, ho⟩
  · exact hapart _ (by rw [hparent]; rfl) (hvalid.mem_ids_of_spent hspent)
  · exact ho.2 hspent

/-- The pool still fits with an accepted transaction in it. -/
theorem PoolAccepted.fits (h : PoolAccepted node pool coins tx)
    (hids : TxIds node.hashes occurs) (htx : occurs tx) (htxs : ∀ t ∈ txs, occurs t)
    (hvalid : (txLedger node.hashes).Valid txs) (hrecords : coins.Records node.hashes txs)
    (hfits : Fits node.hashes occurs pool txs) {entry : CTxMemPoolEntry} (hentry : entry.tx = tx) :
    Fits node.hashes occurs (pool.addUnchecked (tx.getHash node.hashes) entry) txs := by
  have hfresh := h.not_mem_ids hids htx htxs hvalid hrecords hfits.apart
  subst hentry
  refine ⟨hfits.indexed.addUnchecked rfl h.new h.checked.inputs_nodup h.free, ?_, ?_, ?_⟩
  · intro hash e he
    rw [lookup_addUnchecked] at he
    split at he
    · obtain rfl := Option.some.inj he
      exact htx
    · exact hfits.occur hash e he
  · intro hash hin
    rw [lookup_addUnchecked] at hin
    split at hin
    · next heq => exact heq ▸ hfresh
    · exact hfits.apart hash hin
  · intro hash e he txin hmem hspent
    rw [lookup_addUnchecked] at he
    split at he
    · obtain rfl := Option.some.inj he
      rcases h.provides hrecords hfits.apart (fun _ _ havail ↦ havail) txin hmem with
        ⟨parent, hparent, -⟩ | ⟨-, o, ho⟩
      · exact hfits.apart _ (by rw [hparent]; rfl) (hvalid.mem_ids_of_spent hspent)
      · exact ho.2 hspent
    · exact hfits.unspent hash e he txin hmem hspent

/-- The pool is still supplied with an accepted transaction in it. -/
theorem PoolAccepted.supplied (h : PoolAccepted node pool coins tx)
    (hids : TxIds node.hashes occurs) (htx : occurs tx) (htxs : ∀ t ∈ txs, occurs t)
    (hvalid : (txLedger node.hashes).Valid txs) (hrecords : coins.Records node.hashes txs)
    (hapart : pool.Apart node.hashes txs) (hsupplied : pool.Supplied node.hashes avail)
    (havail : ∀ hash n, Available node.hashes txs hash n → avail hash n)
    (hown : ∀ n, avail (tx.getHash node.hashes) n → Available node.hashes txs
      (tx.getHash node.hashes) n ∨ ((txLedger node.hashes).outputs tx n).isSome)
    {entry : CTxMemPoolEntry} (hentry : entry.tx = tx) :
    (pool.addUnchecked (tx.getHash node.hashes) entry).Supplied node.hashes
      fun hash n ↦ hash ≠ tx.getHash node.hashes ∧ avail hash n := by
  have hfresh := h.not_mem_ids hids htx htxs hvalid hrecords hapart
  subst hentry
  refine hsupplied.addUnchecked (h.provides hrecords hapart havail) ?_ h.new
  intro n hn
  rcases hown n hn with ⟨o, ho⟩ | hout
  · exact absurd ho.1.mem_ids hfresh
  · exact hout

end Invariants

end Bitmark
