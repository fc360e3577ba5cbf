import Bitmark.Mempool.Accept

/-!
# Connecting and disconnecting the tip

`ConnectTip` and `DisconnectTip` of `src/main.cpp:2450–2544` on the pool, the coin cache and the
active chain together. Blocks and undo data come back from disk as they were written; the calls of
`check`, which change nothing, and of the wallet are left out.
-/

namespace Bitmark

/-- What is left of a coin cache after its pruned entries were written away: the database keeps
none. -/
def CCoinsViewCache.flushed (view : CCoinsViewCache) : CCoinsViewCache :=
  { view with cacheCoins := view.cacheCoins.filter fun _ coins ↦ !coins.isPruned }

/-- `mempool`, `pcoinsTip`, `chainActive`, and the blocks and undo data on disk behind genesis,
newest first. -/
structure TipState where
  pool : CTxMemPool
  coins : CCoinsViewCache
  pindex : ChainIndex
  blocks : List (CBlock × List CTxUndo)

/-- `mempool.remove(tx, unused)` and `mempool.removeConflicts(tx, txConflicted)` for the
transactions of a block. -/
def CTxMemPool.confirmAll (H : Hashes) (pool : CTxMemPool) (vtx : List CTransaction) :
    Option CTxMemPool :=
  vtx.foldlM (fun pool tx ↦ do
    let pool ← pool.remove H tx false
    pool.removeConflicts H tx) pool

/-- `ConnectTip`, `src/main.cpp:2496`; `fFlush` is what `WriteChainState` decides. -/
def Node.connectTip (node : Node) (s : TipState) (block : CBlock) (fFlush : Bool) :
    Verdict TipState := do
  let r ← node.connectBlock block {} (block.indexEntry node.hashes :: s.pindex) s.coins false
  let coins := if fFlush then r.view.flushed else r.view
  let pool ← .require (s.pool.confirmAll node.hashes block.vtx)
  .accept ⟨pool, coins, r.pindex, (block, r.blockundo) :: s.blocks⟩

/-- Offer one transaction of a disconnected block again, `src/main.cpp:2477–2482`. -/
def Node.resurrectTx (node : Node) (policy : Policy) (coins : CCoinsViewCache)
    (pindexPrev : ChainIndex) (nHeight : Nat) (pool : CTxMemPool) (tx : CTransaction) :
    Option CTxMemPool :=
  if tx.isCoinBase then some pool
  else
    match node.acceptToMemoryPool policy pool {} tx false false coins pindexPrev nHeight with
    | .accept pool => some pool
    | .refuse _ => pool.remove node.hashes tx true
    | .abort => none

/-- `DisconnectTip`, `src/main.cpp:2450`. -/
def Node.disconnectTip (node : Node) (policy : Policy) (s : TipState) (fFlush : Bool) :
    Verdict TipState :=
  match s.blocks with
  | [] => .abort
  | (block, blockundo) :: blocks => do
    let u ← disconnectBlock node.hashes block {} s.pindex blockundo s.coins
    .check u.fClean {}
    let coins := if fFlush then u.view.flushed else u.view
    let pool ← .require (block.vtx.foldlM
      (node.resurrectTx policy coins s.pindex.tail (s.pindex.length - 1)) s.pool)
    .accept ⟨pool, coins, s.pindex.tail, blocks⟩

/-! ### Steps -/

/-- What can happen to the pool and the tip. -/
inductive TipOp where
  | accept (policy : Policy) (state : CValidationState) (tx : CTransaction)
    (fLimitFree fRejectInsaneFee : Bool)
  | remove (tx : CTransaction) (fRecursive : Bool)
  | removeConflicts (tx : CTransaction)
  | connectTip (block : CBlock) (fFlush : Bool)
  | disconnectTip (policy : Policy) (fFlush : Bool)
  | restart

/-- One step. -/
def Node.tipStep (node : Node) (s : TipState) : TipOp → Verdict TipState
  | .accept policy state tx fLimitFree fRejectInsaneFee => do
    let pool ← node.acceptToMemoryPool policy s.pool state tx fLimitFree fRejectInsaneFee s.coins
      s.pindex (s.pindex.length - 1)
    .accept { s with pool }
  | .remove tx fRecursive => do
    let pool ← .require (s.pool.remove node.hashes tx fRecursive)
    .accept { s with pool }
  | .removeConflicts tx => do
    let pool ← .require (s.pool.removeConflicts node.hashes tx)
    .accept { s with pool }
  | .connectTip block fFlush => node.connectTip s block fFlush
  | .disconnectTip policy fFlush => node.disconnectTip policy s fFlush
  | .restart => .accept { s with pool := .empty }

/-- The transactions a step brings in. -/
def TipOp.txs : TipOp → List CTransaction
  | .accept _ _ tx _ _ => [tx]
  | .remove tx _ => [tx]
  | .removeConflicts tx => [tx]
  | .connectTip block _ => block.vtx
  | _ => []

/-- `ConnectTip` gets blocks that `AcceptBlock` let into the index on top of the tip; a height is
an `int`. -/
def TipOp.Admitted (H : Hashes) (params : CChainParams) (s : TipState) : TipOp → Prop
  | .connectTip block _ => s.pindex.length < 2 ^ 31 ∧ block.getHash H ≠ params.hashGenesisBlock ∧
    ∃ node state pcheckpoint, node.hashes = H ∧ node.params = params ∧
      Node.contextCheck node block state s.pindex pcheckpoint = .accept ()
  | _ => True

/-! ### The chain -/

/-- A chain of blocks that can be undone, newest first, on top of genesis. -/
def Stacked (H : Hashes) (occurs : CTransaction → Prop) : List (CBlock × List CTxUndo) → Prop
  | [] => True
  | b :: blocks => Undoable H occurs b.1 b.2 ∧
    (∀ cb ∈ b.1.vtx.head?, StartsWithHeight (blocks.length + 1) cb) ∧ Stacked H occurs blocks

section Chain

variable {H : Hashes} {occurs : CTransaction → Prop} {blocks : List (CBlock × List CTxUndo)}

theorem Stacked.known (h : Stacked H occurs blocks) : ∀ tx ∈ ledgerOf blocks, occurs tx := by
  induction blocks with
  | nil => exact fun tx htx ↦ absurd htx List.not_mem_nil
  | cons b blocks ih =>
    intro tx htx
    rw [ledgerOf_cons, List.mem_append, List.mem_reverse] at htx
    rcases htx with htx | htx
    · exact h.1.known tx htx
    · exact ih h.2.2 tx htx

/-- The coinbases of the chain start with the heights of their blocks. -/
theorem Stacked.heightsBelow (h : Stacked H occurs blocks) :
    HeightsBelow (blocks.length + 1) (ledgerOf blocks) := by
  induction blocks with
  | nil => exact fun tx htx ↦ absurd htx List.not_mem_nil
  | cons b blocks ih =>
    obtain ⟨hundoable, hstarts, hrest⟩ := h
    obtain ⟨cb, vtx, hvtx, -, hothers⟩ := hundoable.checked.coinbase
    intro tx htx htxcb
    rw [ledgerOf_cons, List.mem_append, List.mem_reverse, hvtx, List.mem_cons] at htx
    rcases htx with (rfl | htx) | htx
    · exact ⟨blocks.length + 1, Nat.lt_succ_self _, hstarts tx (by rw [hvtx]; rfl)⟩
    · rw [hothers tx htx] at htxcb
      cases htxcb
    · obtain ⟨k, hk, hkstarts⟩ := ih hrest tx htx htxcb
      exact ⟨k, hk.trans (Nat.lt_succ_self _), hkstarts⟩

theorem getCoins_flushed (view : CCoinsViewCache) (txid : Uint256) :
    view.flushed.getCoins txid = (view.getCoins txid).filter fun coins ↦ !coins.isPruned :=
  Finmap.lookup_filter _ _ _

/-- Pruned entries mean nothing. -/
theorem meaning_flushed (view : CCoinsViewCache) (txid : Uint256) :
    view.flushed.meaning txid = view.meaning txid := by
  rw [CCoinsViewCache.meaning, getCoins_flushed, CCoinsViewCache.meaning]
  cases view.getCoins txid with
  | none => rfl
  | some coins =>
    by_cases hpruned : coins.isPruned = true
    · rw [Option.filter_some_neg (by simp [hpruned]), Option.bind_none, Option.bind_some,
        CCoins.meaning_eq_none.mpr hpruned]
    · rw [Option.filter_some_pos (by simpa using hpruned)]

theorem unspent_flushed (view : CCoinsViewCache) (txid : Uint256) (n : Nat) :
    view.flushed.unspent txid n = view.unspent txid n :=
  congrFun (CCoinsViewCache.unspent_of_meaning (meaning_flushed view txid)) n

theorem CCoinsViewCache.Records.writeChainState {view : CCoinsViewCache} {txs : List CTransaction}
    (h : view.Records H txs) (fFlush : Bool) :
    (if fFlush then view.flushed else view).Records H txs := by
  cases fFlush with
  | false => exact h
  | true =>
    intro txid n o
    rw [if_pos rfl, unspent_flushed]
    exact h txid n o

/-- The chain state of a node: the coins are what the blocks leave. -/
structure TipState.Coherent (H : Hashes) (occurs : CTransaction → Prop) (s : TipState) : Prop where
  stacked : Stacked H occurs s.blocks
  height : s.pindex.length = s.blocks.length + 1
  valid : (txLedger H).Valid (ledgerOf s.blocks)
  records : s.coins.Records H (ledgerOf s.blocks)

/-- The pool fits on top of the chain, and its inputs spend pooled or unspent outputs. -/
structure TipState.Consistent (H : Hashes) (occurs : CTransaction → Prop) (s : TipState) : Prop where
  fits : s.pool.Fits H occurs (ledgerOf s.blocks)
  supplied : s.pool.Supplied H (CTxMemPool.Available H (ledgerOf s.blocks))

end Chain

/-! ### Connecting -/

section Connect

variable {node : Node} {occurs : CTransaction → Prop} {s s' : TipState} {block : CBlock}
  {fFlush : Bool}

open CTxMemPool

/-- The transactions of a block leave the pool as they enter the ledger. -/
theorem confirmAll_fits {H : Hashes} {pool : CTxMemPool} {vtx txs : List CTransaction}
    (hids : TxIds H occurs) (hvtx : ∀ tx ∈ vtx, occurs tx)
    (hvalid : (txLedger H).Valid (vtx.reverse ++ txs)) (hfits : Fits H occurs pool txs) :
    ∃ pool', pool.confirmAll H vtx = some pool' ∧ Fits H occurs pool' (vtx.reverse ++ txs) ∧
      (pool.Supplied H (Available H txs) →
        pool'.Supplied H (Available H (vtx.reverse ++ txs))) := by
  induction vtx generalizing pool txs with
  | nil => exact ⟨pool, rfl, hfits, id⟩
  | cons tx vtx ih =>
    obtain ⟨htx, hvtx⟩ := List.forall_mem_cons.mp hvtx
    rw [List.reverse_cons, List.append_assoc, List.singleton_append] at hvalid ⊢
    obtain ⟨mid, next, hremove, hconflicts, hconfirmed⟩ :=
      exists_confirmed hids hfits.occur htx hfits.indexed
    obtain ⟨pool', hrest, hfits', hsupply⟩ := ih hvtx hvalid (hfits.confirmed hconfirmed)
    refine ⟨pool', ?_, hfits', ?_⟩
    · rw [confirmAll, List.foldlM_cons]
      simp only [hremove, Option.bind_eq_bind, Option.bind_some, hconflicts]
      exact hrest
    · intro hsupplied
      exact hsupply (hsupplied.confirmed hids hfits htx hvalid.of_append hconfirmed)

/-- What `ConnectTip` does to chain and pool. -/
theorem connectTip_keeps (hids : TxIds node.hashes occurs)
    (hcoherent : s.Coherent node.hashes occurs)
    (hfits : s.pool.Fits node.hashes occurs (ledgerOf s.blocks))
    (hblock : ∀ tx ∈ block.vtx, occurs tx)
    (hadmitted : (TipOp.connectTip block fFlush).Admitted node.hashes node.params s)
    (h : node.connectTip s block fFlush = .accept s') :
    s'.Coherent node.hashes occurs ∧ s'.pool.Fits node.hashes occurs (ledgerOf s'.blocks) ∧
      (s.Consistent node.hashes occurs → s'.Consistent node.hashes occurs) := by
  obtain ⟨hlength, hnew, nodeA, stateA, pcheckpoint, hhashes, hparams, hcontext⟩ := hadmitted
  obtain ⟨r, hconnect, h⟩ := Verdict.bind_eq_accept.mp h
  obtain ⟨pool, hpool, h⟩ := Verdict.bind_eq_accept.mp h
  obtain rfl := Verdict.accept.inj h
  have hstarts := startsWithHeight_of_contextCheck hcontext
  have hbelow := hcoherent.stacked.heightsBelow
  rw [← hcoherent.height] at hbelow
  obtain ⟨hvalid, hrecords, -, hundoable⟩ := records_connectBlock hids hcoherent.stacked.known
    hblock hnew hstarts hlength hbelow hcoherent.valid hcoherent.records hconnect
  obtain ⟨pool', hconfirm, hfits', hsupply⟩ := confirmAll_fits hids hblock hvalid hfits
  rw [Verdict.require_eq_accept, hconfirm] at hpool
  obtain rfl := Option.some.inj hpool
  refine ⟨⟨⟨hundoable, ?_, hcoherent.stacked⟩, ?_, hvalid, ?_⟩, hfits', ?_⟩
  · rw [← hcoherent.height]
    exact hstarts
  · rw [Node.length_connectBlock hconnect, List.length_cons, List.length_cons, hcoherent.height]
  · exact hrecords.writeChainState fFlush
  · exact fun hconsistent ↦ ⟨hfits', hsupply hconsistent.supplied⟩

end Connect

/-! ### Disconnecting -/

/-- An output of a transaction that is still to be offered again. -/
def Pending (H : Hashes) (rest : List CTransaction) (hash : Uint256) (n : Nat) : Prop :=
  ∃ tx ∈ rest, tx.isCoinBase = false ∧ tx.getHash H = hash ∧ ((txLedger H).outputs tx n).isSome

section Disconnect

variable {node : Node} {policy : Policy} {occurs : CTransaction → Prop} {s s' : TipState}
  {coins : CCoinsViewCache} {pindexPrev : ChainIndex} {nHeight : Nat} {fFlush : Bool}
  {pool pool' : CTxMemPool} {txs : List CTransaction}

open CTxMemPool

/-- What pooled inputs can spend while transactions are offered again. -/
abbrev AvailableOrPending (H : Hashes) (txs rest : List CTransaction) (hash : Uint256) (n : Nat) :
    Prop :=
  Available H txs hash n ∨ Pending H rest hash n

/-- One transaction is offered again: pooled, or taken out with all that is built on it. -/
theorem resurrectTx_fits (hids : TxIds node.hashes occurs) {tx : CTransaction} (htx : occurs tx)
    (htxs : ∀ t ∈ txs, occurs t) (hvalid : (txLedger node.hashes).Valid txs)
    (hrecords : coins.Records node.hashes txs) (hfits : Fits node.hashes occurs pool txs)
    (h : node.resurrectTx policy coins pindexPrev nHeight pool tx = some pool') :
    Fits node.hashes occurs pool' txs := by
  unfold Node.resurrectTx at h
  split at h
  · obtain rfl := Option.some.inj h
    exact hfits
  · split at h
    · next haccept =>
      obtain rfl := Option.some.inj h
      obtain ⟨haccepted, entry, hentry, -, rfl⟩ := Node.acceptToMemoryPool_eq_accept haccept
      exact haccepted.fits hids htx htxs hvalid hrecords hfits hentry
    · obtain ⟨left, hremove, hcut, -⟩ := remove_recursive hids hfits.indexed hfits.occur htx
      obtain rfl := Option.some.inj (hremove.symm.trans h)
      exact hfits.cut hcut
    · cases h

/-- Offered again or taken out: no pooled input waits for the transaction any more. -/
theorem resurrectTx_supplied (hids : TxIds node.hashes occurs) {tx : CTransaction}
    {rest : List CTransaction} (htx : occurs tx) (hrest : ∀ t ∈ rest, occurs t)
    (htxs : ∀ t ∈ txs, occurs t) (hvalid : (txLedger node.hashes).Valid txs)
    (hrecords : coins.Records node.hashes txs) (hfits : Fits node.hashes occurs pool txs)
    (hsupplied : pool.Supplied node.hashes (AvailableOrPending node.hashes txs (tx :: rest)))
    (h : node.resurrectTx policy coins pindexPrev nHeight pool tx = some pool') :
    pool'.Supplied node.hashes (AvailableOrPending node.hashes txs rest) := by
  have hdrop : ∀ hash n, AvailableOrPending node.hashes txs (tx :: rest) hash n →
      AvailableOrPending node.hashes txs rest hash n ∨ (tx.isCoinBase = false ∧
        tx.getHash node.hashes = hash ∧ ((txLedger node.hashes).outputs tx n).isSome) := by
    rintro hash n (havail | ⟨t, ht, hcb, hhash, hout⟩)
    · exact .inl (.inl havail)
    · rcases List.mem_cons.mp ht with rfl | ht
      · exact .inr ⟨hcb, hhash, hout⟩
      · exact .inl (.inr ⟨t, ht, hcb, hhash, hout⟩)
  unfold Node.resurrectTx at h
  split at h
  · next hcb =>
    obtain rfl := Option.some.inj h
    refine hsupplied.mono ?_
    intro _ _ _ txin _ _ havail
    rcases hdrop _ _ havail with hleft | ⟨hno, -, -⟩
    · exact hleft
    · rw [hcb] at hno
      cases hno
  · split at h
    · next hcb added haccept =>
      obtain rfl := Option.some.inj h
      obtain ⟨haccepted, entry, hentry, -, rfl⟩ := Node.acceptToMemoryPool_eq_accept haccept
      have hown : ∀ n, AvailableOrPending node.hashes txs (tx :: rest) (tx.getHash node.hashes) n →
          Available node.hashes txs (tx.getHash node.hashes) n ∨
            ((txLedger node.hashes).outputs tx n).isSome := by
        rintro n (havail | ⟨t, ht, -, hhash, hout⟩)
        · exact .inl havail
        · have hoccurs := List.forall_mem_cons.mpr ⟨htx, hrest⟩ t ht
          rw [hids.outputs_eq hoccurs htx hhash] at hout
          exact .inr hout
      refine (haccepted.supplied hids htx htxs hvalid hrecords hfits.apart hsupplied
        (fun _ _ h ↦ .inl h) hown hentry).mono ?_
      rintro _ _ _ txin _ _ ⟨hne, havail⟩
      rcases hdrop _ _ havail with hleft | ⟨-, hhash, -⟩
      · exact hleft
      · exact absurd hhash.symm hne
    · next hcb _ _ =>
      obtain ⟨left, hremove, hcut, -, hnone⟩ := remove_recursive hids hfits.indexed hfits.occur htx
      obtain rfl := Option.some.inj (hremove.symm.trans h)
      refine (hsupplied.cut hfits.indexed hcut).mono ?_
      intro hash entry hentry txin hmem _ havail
      rcases hdrop _ _ havail with hleft | ⟨-, hhash, hout⟩
      · exact hleft
      · exact absurd ⟨txin, hmem, hhash.symm, length_of_outputs hout⟩ (hnone hash entry hentry)
    · cases h

/-- All transactions of a block are offered again. -/
theorem resurrect_keeps (hids : TxIds node.hashes occurs) {rest : List CTransaction}
    (hrest : ∀ t ∈ rest, occurs t) (htxs : ∀ t ∈ txs, occurs t)
    (hvalid : (txLedger node.hashes).Valid txs) (hrecords : coins.Records node.hashes txs)
    (hfits : Fits node.hashes occurs pool txs)
    (h : rest.foldlM (node.resurrectTx policy coins pindexPrev nHeight) pool = some pool') :
    Fits node.hashes occurs pool' txs ∧
      (pool.Supplied node.hashes (AvailableOrPending node.hashes txs rest) →
        pool'.Supplied node.hashes (Available node.hashes txs)) := by
  induction rest generalizing pool with
  | nil =>
    obtain rfl := Option.some.inj h
    refine ⟨hfits, fun hsupplied ↦ hsupplied.mono ?_⟩
    rintro _ _ _ _ _ _ (havail | ⟨t, ht, -⟩)
    · exact havail
    · cases ht
  | cons tx rest ih =>
    rw [List.foldlM_cons] at h
    obtain ⟨mid, hmid, h⟩ := Option.bind_eq_some_iff.mp h
    obtain ⟨htx, hrest⟩ := List.forall_mem_cons.mp hrest
    have hfitsMid := resurrectTx_fits hids htx htxs hvalid hrecords hfits hmid
    obtain ⟨hfits', hsupply⟩ := ih hrest hfitsMid h
    refine ⟨hfits', fun hsupplied ↦ hsupply ?_⟩
    exact resurrectTx_supplied hids htx hrest htxs hvalid hrecords hfits hsupplied hmid

/-- No pooled transaction spends an output of the coinbase of the newest block. -/
def TipState.CoinbaseUnused (H : Hashes) (s : TipState) : Prop :=
  ∀ b ∈ s.blocks.head?, ∀ cb ∈ b.1.vtx.head?, ∀ hash entry, s.pool.lookup hash = some entry →
    ¬ SpendsOutputOf H entry.tx cb

/-- What `DisconnectTip` does to the chain, and where it starts on the pool. -/
theorem disconnectTip_eq_accept (hids : TxIds node.hashes occurs)
    (hcoherent : s.Coherent node.hashes occurs)
    (h : node.disconnectTip policy s fFlush = .accept s') :
    ∃ block blockundo u, s.blocks = (block, blockundo) :: s'.blocks ∧
      disconnectBlock node.hashes block {} s.pindex blockundo s.coins = .accept u ∧
      u.fClean = true ∧ s'.coins = (if fFlush then u.view.flushed else u.view) ∧
      s'.Coherent node.hashes occurs ∧
      block.vtx.foldlM (node.resurrectTx policy s'.coins s.pindex.tail (s.pindex.length - 1))
        s.pool = some s'.pool := by
  unfold Node.disconnectTip at h
  split at h
  · cases h
  · next block blockundo blocks hblocks =>
    obtain ⟨u, hu, h⟩ := Verdict.bind_eq_accept.mp h
    obtain ⟨_, hclean, h⟩ := Verdict.bind_eq_accept.mp h
    obtain ⟨pool, hpool, h⟩ := Verdict.bind_eq_accept.mp h
    obtain rfl := Verdict.accept.inj h
    rw [Verdict.check_eq_accept] at hclean
    rw [Verdict.require_eq_accept] at hpool
    have hstacked := hcoherent.stacked
    have hvalid := hcoherent.valid
    have hrecords := hcoherent.records
    have hheight := hcoherent.height
    rw [hblocks] at hstacked hvalid hrecords hheight
    obtain ⟨hundoable, -, hstacked⟩ := hstacked
    have hrecords' := records_disconnectBlock hids hundoable hstacked.known hvalid hrecords hu hclean
    refine ⟨block, blockundo, u, hblocks, hu, hclean, rfl, ⟨hstacked, ?_, hvalid.of_append,
      hrecords'.writeChainState fFlush⟩, hpool⟩
    rw [List.length_tail, hheight, List.length_cons, Nat.add_sub_cancel]

/-- Outputs of a block that is disconnected are spent by pooled inputs only if they are offered
again. -/
theorem supplied_of_disconnected {H : Hashes} {block : CBlock} (hchecked : block.Checked H)
    (hsupplied : pool.Supplied H (Available H (block.vtx.reverse ++ txs)))
    (hunused : ∀ cb ∈ block.vtx.head?, ∀ hash entry, pool.lookup hash = some entry →
      ¬ SpendsOutputOf H entry.tx cb) :
    pool.Supplied H (AvailableOrPending H txs block.vtx) := by
  refine hsupplied.mono ?_
  rintro hash entry hentry txin hmem - ⟨o, ⟨t, ht, hhash, hout⟩, hunspent⟩
  rcases List.mem_append.mp ht with ht | ht
  · rw [List.mem_reverse] at ht
    have hisSome : ((txLedger H).outputs t txin.prevout.n.toNat).isSome := by
      rw [hout]
      rfl
    obtain ⟨cb, vtx, hvtx, -, hothers⟩ := hchecked.coinbase
    refine .inr ⟨t, ht, ?_, hhash, hisSome⟩
    rw [hvtx, List.mem_cons] at ht
    rcases ht with rfl | ht
    · exact absurd ⟨txin, hmem, hhash.symm, length_of_outputs hisSome⟩
        (hunused t (by rw [hvtx]; rfl) hash entry hentry)
    · exact hothers t ht
  · refine .inl ⟨o, ⟨t, ht, hhash, hout⟩, ?_⟩
    rintro ⟨t', ht', hspends⟩
    exact hunspent ⟨t', List.mem_append_right _ ht', hspends⟩

/-- `DisconnectTip` keeps chain and pool together when no pooled transaction spends the coinbase
of the block. -/
theorem disconnectTip_keeps (hids : TxIds node.hashes occurs)
    (hcoherent : s.Coherent node.hashes occurs)
    (hfits : s.pool.Fits node.hashes occurs (ledgerOf s.blocks))
    (h : node.disconnectTip policy s fFlush = .accept s') :
    s'.Coherent node.hashes occurs ∧ s'.pool.Fits node.hashes occurs (ledgerOf s'.blocks) ∧
      (s.Consistent node.hashes occurs → s.CoinbaseUnused node.hashes →
        s'.Consistent node.hashes occurs) := by
  obtain ⟨block, blockundo, u, hblocks, -, -, -, hcoherent', hloop⟩ :=
    disconnectTip_eq_accept hids hcoherent h
  have hstacked := hcoherent.stacked
  rw [hblocks] at hstacked
  rw [hblocks, ledgerOf_cons] at hfits
  obtain ⟨hfits', hsupply⟩ := resurrect_keeps hids hstacked.1.known hcoherent'.stacked.known
    hcoherent'.valid hcoherent'.records hfits.of_append hloop
  refine ⟨hcoherent', hfits', fun hconsistent hunused ↦ ⟨hfits', hsupply ?_⟩⟩
  have hsupplied := hconsistent.supplied
  rw [hblocks, ledgerOf_cons] at hsupplied
  exact supplied_of_disconnected hstacked.1.checked hsupplied (hunused _ (by rw [hblocks]; rfl))

end Disconnect

end Bitmark
