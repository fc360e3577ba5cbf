import Bitmark.Consensus.EmissionCap
import Bitmark.Mempool.Tip

/-!
# Consistency of the memory pool

Runs of a node from genesis with an empty pool: acceptance, removals, tips connected and
disconnected. The assertions of `check` hold in every state reached by steps that do not take an
output away from under a pooled transaction.
-/

namespace Bitmark

/-- The state of a node of this network at its genesis block, with an empty pool. -/
def TipState.Starts (H : Hashes) (params : CChainParams) (s : TipState) : Prop :=
  ∃ node block state r, node.hashes = H ∧ node.params = params ∧
    block.getHash H = params.hashGenesisBlock ∧
    Node.connectBlock node block state [block.indexEntry H] ⟨∅, 0⟩ false = .accept r ∧
    s = ⟨.empty, r.view, r.pindex, []⟩

/-- What a node reaches by steps under a condition. Its settings may change between two steps. -/
inductive TipRun (H : Hashes) (params : CChainParams) (occurs : CTransaction → Prop)
    (cond : TipState → TipOp → Prop) : TipState → Prop
  | start {s : TipState} (hstarts : s.Starts H params) : TipRun H params occurs cond s
  | step {s s' : TipState} {node : Node} {op : TipOp} (hrun : TipRun H params occurs cond s)
    (hhashes : node.hashes = H) (hparams : node.params = params)
    (hadmitted : op.Admitted H params s) (hoccurs : ∀ tx ∈ op.txs, occurs tx) (hcond : cond s op)
    (hstep : node.tipStep s op = .accept s') : TipRun H params occurs cond s'

/-- A step that takes no output away from under a pooled transaction: a transaction is not removed
without what spends it, and a block not disconnected while its coinbase is spent in the pool. -/
def TipOp.Safe (H : Hashes) (s : TipState) : TipOp → Prop
  | .remove tx false => (s.pool.lookup (tx.getHash H)).isSome →
    ∀ hash entry, s.pool.lookup hash = some entry → ¬ CTxMemPool.SpendsOutputOf H entry.tx tx
  | .disconnectTip _ _ => s.CoinbaseUnused H
  | _ => True

/-- A pool without dangling inputs, whose maps agree and which spends no outpoint twice. -/
structure CTxMemPool.Sound (H : Hashes) (pool : CTxMemPool) (view : CCoinsViewCache) : Prop where
  check : pool.check H view = true
  inputs : ∀ hash entry, pool.lookup hash = some entry → ∀ txin ∈ entry.tx.vin,
    (∃ parent, pool.lookup txin.prevout.hash = some parent ∧
      ∃ o, parent.tx.vout[txin.prevout.n.toNat]? = some o ∧ o.isNull = false) ∨
    ∃ o, view.unspent txin.prevout.hash txin.prevout.n.toNat = some o
  next : ∀ outpoint it, pool.mapNextTx.lookup outpoint = some it ↔ pool.Points outpoint it
  unique : ∀ outpoint it it', pool.Points outpoint it → pool.Points outpoint it' → it = it'

section Run

variable {H : Hashes} {params : CChainParams} {occurs : CTransaction → Prop} {s s' : TipState}
  {node : Node} {op : TipOp}

open CTxMemPool

theorem outputs_isSome {tx : CTransaction} {n : Nat} (h : ((txLedger H).outputs tx n).isSome) :
    ∃ o, tx.vout[n]? = some o ∧ o.isNull = false := by
  rw [← txLedger_outputs H tx 0, CCoins.unspent_ofTransaction] at h
  obtain ⟨o', ho'⟩ := Option.isSome_iff_exists.mp h
  obtain ⟨o, ho, hspendable⟩ := Option.bind_eq_some_iff.mp ho'
  refine ⟨o, ho, ?_⟩
  split at hspendable
  · cases hspendable
  · exact (unspentOf_eq_some.mp hspendable).1

/-- Chain and pool that fit together leave nothing for `check` to find. -/
theorem sound_of_consistent (hcoherent : s.Coherent H occurs) (hconsistent : s.Consistent H occurs) :
    s.pool.Sound H s.coins := by
  have hindexed := hconsistent.fits.indexed
  have hsupplied : s.pool.Supplied H fun hash n ↦ (s.coins.unspent hash n).isSome := by
    refine hconsistent.supplied.mono ?_
    rintro _ _ _ txin _ _ ⟨o, ho⟩
    rw [(hcoherent.records _ _ o).mpr ho]
    rfl
  refine ⟨hsupplied.check hindexed, ?_, hindexed.next, fun _ _ _ ↦ hindexed.unique⟩
  intro hash entry hentry txin hmem
  rcases hsupplied hash entry hentry txin hmem with ⟨parent, hparent, hout⟩ | ⟨-, havail⟩
  · exact .inl ⟨parent, hparent, outputs_isSome hout⟩
  · exact .inr (Option.isSome_iff_exists.mp havail)

/-- A node starts with a pool that fits its chain. -/
theorem starts_keeps (h : s.Starts H params) : s.Coherent H occurs ∧ s.Consistent H occurs := by
  obtain ⟨node, block, state, r, hhashes, hparams, hgenesis, hconnect, rfl⟩ := h
  subst hhashes hparams
  obtain ⟨-, -, -, b, pprev, cb, vtx, hidx, -, ⟨-, hr⟩ | ⟨hno, -⟩⟩ :=
    Node.connectBlock_eq_accept hconnect
  · obtain ⟨rfl, rfl⟩ := List.cons.inj hidx
    refine ⟨⟨trivial, by rw [hr]; rfl, .nil, ?_⟩, fits_empty, supplied_empty⟩
    intro txid n o
    rw [hr]
    constructor
    · intro hnone
      cases hnone
    · exact fun hunspent ↦ absurd hunspent LedgerFormat.not_unspent_nil
  · exact absurd hgenesis hno

/-- A transaction alone is removed without harm when nothing pooled spends it. -/
theorem supplied_of_remove_single {pool : CTxMemPool} {tx : CTransaction} (hids : TxIds H occurs)
    (hconsistent : s.Consistent H occurs) (htx : occurs tx)
    (hsafe : (s.pool.lookup (tx.getHash H)).isSome → ∀ hash entry,
      s.pool.lookup hash = some entry → ¬ SpendsOutputOf H entry.tx tx)
    (h : s.pool.remove H tx false = some pool) :
    pool.Supplied H (Available H (ledgerOf s.blocks)) := by
  have hindexed := hconsistent.fits.indexed
  rw [remove_single] at h
  obtain rfl := Option.some.inj h
  cases hentry : s.pool.lookup (tx.getHash H) with
  | none =>
    rw [CTxMemPool.exists, hentry, if_neg (by simp)]
    exact hconsistent.supplied
  | some entry =>
    have hin : s.pool.exists (tx.getHash H) = true := by
      rw [CTxMemPool.exists, hentry]
      rfl
    have hid := hindexed.key _ entry hentry
    have hoccur := hconsistent.fits.occur _ entry hentry
    have hcut : Cut H (RootOf H tx) s.pool (s.pool.takeOut (tx.getHash H) tx) := by
      refine .takeOut hindexed hentry (hids.vin_eq htx hoccur hid.symm) ?_ (.inl hid)
      intro hash e he hspends
      rw [SpendsOutputOf, hid, hids.vout_eq hoccur htx hid] at hspends
      exact hsafe hin hash e he hspends
    rw [if_pos hin]
    exact hconsistent.supplied.cut hindexed hcut

/-- A step keeps the pool fitting on top of the chain, and a safe step keeps it supplied. -/
theorem tipStep_keeps (hids : TxIds node.hashes occurs)
    (hcoherent : s.Coherent node.hashes occurs)
    (hfits : s.pool.Fits node.hashes occurs (ledgerOf s.blocks))
    (hadmitted : op.Admitted node.hashes node.params s) (hoccurs : ∀ tx ∈ op.txs, occurs tx)
    (h : node.tipStep s op = .accept s') :
    s'.Coherent node.hashes occurs ∧ s'.pool.Fits node.hashes occurs (ledgerOf s'.blocks) ∧
      (s.Consistent node.hashes occurs → op.Safe node.hashes s →
        s'.Consistent node.hashes occurs) := by
  have hstay : ∀ pool, TipState.Coherent node.hashes occurs { s with pool } := fun pool ↦
    ⟨hcoherent.stacked, hcoherent.height, hcoherent.valid, hcoherent.records⟩
  cases op with
  | accept policy state tx fLimitFree fRejectInsaneFee =>
    obtain ⟨pool, haccept, h⟩ := Verdict.bind_eq_accept.mp h
    obtain rfl := Verdict.accept.inj h
    obtain ⟨haccepted, entry, hentry, -, rfl⟩ := Node.acceptToMemoryPool_eq_accept haccept
    have htx := hoccurs tx (List.mem_singleton_self tx)
    have hfits' := haccepted.fits hids htx hcoherent.stacked.known hcoherent.valid
      hcoherent.records hfits hentry
    refine ⟨hstay _, hfits', fun hconsistent _ ↦ ⟨hfits', ?_⟩⟩
    refine (haccepted.supplied hids htx hcoherent.stacked.known hcoherent.valid hcoherent.records
      hfits.apart hconsistent.supplied (fun _ _ havail ↦ havail) (fun _ havail ↦ .inl havail)
      hentry).mono ?_
    exact fun _ _ _ _ _ _ havail ↦ havail.2
  | remove tx fRecursive =>
    obtain ⟨pool, hremove, h⟩ := Verdict.bind_eq_accept.mp h
    obtain rfl := Verdict.accept.inj h
    rw [Verdict.require_eq_accept] at hremove
    have htx := hoccurs tx (List.mem_singleton_self tx)
    cases fRecursive with
    | false =>
      obtain ⟨mid, hrun, hindexed, hlookup⟩ := remove_single_spec hids hfits.occur htx hfits.indexed
      obtain rfl := Option.some.inj (hrun.symm.trans hremove)
      have hfits' : Fits node.hashes occurs mid (ledgerOf s.blocks) := by
        refine hfits.kept hindexed ?_
        intro hash entry hentry
        rw [hlookup] at hentry
        split at hentry
        · cases hentry
        · exact hentry
      refine ⟨hstay _, hfits', fun hconsistent hsafe ↦ ⟨hfits', ?_⟩⟩
      exact supplied_of_remove_single (s := s) hids hconsistent htx hsafe hrun
    | true =>
      obtain ⟨pool', hrun, hcut, -⟩ := remove_recursive hids hfits.indexed hfits.occur htx
      obtain rfl := Option.some.inj (hrun.symm.trans hremove)
      exact ⟨hstay _, hfits.cut hcut, fun hconsistent _ ↦
        ⟨hfits.cut hcut, hconsistent.supplied.cut hfits.indexed hcut⟩⟩
  | removeConflicts tx =>
    obtain ⟨pool, hremove, h⟩ := Verdict.bind_eq_accept.mp h
    obtain rfl := Verdict.accept.inj h
    rw [Verdict.require_eq_accept] at hremove
    obtain ⟨pool', hrun, hcut, -⟩ := removeConflicts_cut tx hids hfits.indexed hfits.occur
    obtain rfl := Option.some.inj (hrun.symm.trans hremove)
    exact ⟨hstay _, hfits.cut hcut, fun hconsistent _ ↦
      ⟨hfits.cut hcut, hconsistent.supplied.cut hfits.indexed hcut⟩⟩
  | connectTip block fFlush =>
    obtain ⟨hcoherent', hfits', hsupply⟩ := connectTip_keeps hids hcoherent hfits hoccurs hadmitted h
    exact ⟨hcoherent', hfits', fun hconsistent _ ↦ hsupply hconsistent⟩
  | disconnectTip policy fFlush => exact disconnectTip_keeps hids hcoherent hfits h
  | restart =>
    obtain rfl := Verdict.accept.inj h
    exact ⟨hstay _, fits_empty, fun _ _ ↦ ⟨fits_empty, supplied_empty⟩⟩

/-- The pool fits on top of the chain in every state of every run. -/
theorem tipRun_fits {cond : TipState → TipOp → Prop} (hids : TxIds H occurs)
    (h : TipRun H params occurs cond s) :
    s.Coherent H occurs ∧ s.pool.Fits H occurs (ledgerOf s.blocks) := by
  induction h with
  | start hstarts => exact ⟨(starts_keeps hstarts).1, (starts_keeps hstarts).2.fits⟩
  | step hrun hhashes hparams hadmitted hoccurs hcond hstep ih =>
    subst hhashes hparams
    obtain ⟨hcoherent, hfits, -⟩ := tipStep_keeps hids ih.1 ih.2 hadmitted hoccurs hstep
    exact ⟨hcoherent, hfits⟩

/-- The pool is supplied in every state of a run of safe steps. -/
theorem tipRun_consistent (hids : TxIds H occurs) (h : TipRun H params occurs (TipOp.Safe H) s) :
    s.Consistent H occurs := by
  induction h with
  | start hstarts => exact (starts_keeps hstarts).2
  | step hrun hhashes hparams hadmitted hoccurs hsafe hstep ih =>
    subst hhashes hparams
    obtain ⟨hcoherent, hfits⟩ := tipRun_fits hids hrun
    exact (tipStep_keeps hids hcoherent hfits hadmitted hoccurs hstep).2.2 ih hsafe

/-- The pool is sound in every state of a run of safe steps. -/
theorem mempool_sound (hids : TxIds H occurs) (h : TipRun H params occurs (TipOp.Safe H) s) :
    s.pool.Sound H s.coins :=
  sound_of_consistent (tipRun_fits hids h).1 (tipRun_consistent hids h)

end Run

/-! ### A disconnected coinbase -/

/-- The transactions of the chain below: coinbases of 721 blocks and a spend of the first one. -/
def LateTx (tx : CTransaction) : Prop :=
  (∃ h, 1 ≤ h ∧ h ≤ 721 ∧ tx = minedCoinbase h (lateFork h).nValue) ∨ tx = spendFirst 0

theorem getHash_spendFirst (nValue : Int) : (spendFirst nValue).getHash minerHashes = 1000000 := by
  have hbytes : (spendFirst nValue).serialize = bytes32 1 ++
      writeVector CTxIn.serialize (spendFirst nValue).vin ++
      writeVector CTxOut.serialize (spendFirst nValue).vout ++ bytes32 1000000 := rfl
  rw [CTransaction.getHash, hbytes]
  change lastWord _ = _
  rw [lastWord_append]
  rfl

theorem beq_self (tx : CTransaction) : tx.beq tx = true :=
  CTransaction.beq_iff.mpr ⟨rfl, rfl, rfl, rfl⟩

/-- Their ids can be relied on: coinbases have their heights as ids. -/
theorem txIds_lateTx : TxIds minerHashes LateTx where
  wire tx h := by
    rcases h with ⟨h, -, -, rfl⟩ | rfl <;> rfl
  injective a b ha hb hid := by
    have hheight : ∀ h, h ≤ 721 → ((minedCoinbase h (lateFork h).nValue).getHash
        minerHashes).toNat = h := by
      intro h hh
      rw [getHash_minedCoinbase (by omega), BitVec.toNat_ofNat, Nat.mod_eq_of_lt (by omega)]
    have hspend : ((spendFirst 0).getHash minerHashes).toNat = 1000000 := by
      rw [getHash_spendFirst]
      rfl
    have hid := congrArg BitVec.toNat hid
    rcases ha with ⟨h, -, hh, rfl⟩ | rfl
    · rcases hb with ⟨h', -, hh', rfl⟩ | rfl
      · rw [hheight h hh, hheight h' hh'] at hid
        rw [hid]
        exact beq_self _
      · rw [hheight h hh, hspend] at hid
        omega
    · rcases hb with ⟨h', -, hh', rfl⟩ | rfl
      · rw [hheight h' hh', hspend] at hid
        omega
      · exact beq_self _
  acyclic := by
    refine ⟨BitVec.toNat, ?_⟩
    rintro tx (⟨h, hpos, hh, rfl⟩ | rfl) txin hmem
    · obtain rfl := List.mem_singleton.mp hmem
      rw [getHash_minedCoinbase (by omega), BitVec.toNat_ofNat, Nat.mod_eq_of_lt (by omega)]
      exact hpos
    · obtain rfl := List.mem_singleton.mp hmem
      rw [getHash_spendFirst]
      decide

/-- The blocks of a planned chain up to this height, with their empty undo data. -/
def MinedStack (params : CChainParams) (m : Nat → Mined) :
    Nat → ChainIndex → List (CBlock × List CTxUndo) → Prop
  | 0, p, blocks => p.head?.map (·.blockHash) = some 1 ∧ p.length = 1 ∧ blocks = []
  | h + 1, p, blocks => ∃ b q rest, p = b :: q ∧ b.blockHash = BitVec.ofNat 256 (h + 2) ∧
    blocks = (minedBlock params q (m (h + 1)), []) :: rest ∧ MinedStack params m h q rest

section Mined

variable {params : CChainParams} {m : Nat → Mined} {h n : Nat} {p : ChainIndex}
  {blocks : List (CBlock × List CTxUndo)} {s : TipState} {occurs : CTransaction → Prop}
  {cond : TipState → TipOp → Prop}

theorem MinedStack.head (hstack : MinedStack params m h p blocks) :
    p.head?.map (·.blockHash) = some (BitVec.ofNat 256 (h + 1)) ∧ p.length = h + 1 := by
  induction h generalizing p blocks with
  | zero => exact ⟨hstack.1, hstack.2.1⟩
  | succ h ih =>
    obtain ⟨b, q, rest, rfl, hhash, -, hstack⟩ := hstack
    exact ⟨congrArg some hhash, by rw [List.length_cons, (ih hstack).2]⟩

/-- The next mined block is connected to an empty pool. -/
theorem connectTip_minedBlock (hgenesis : params.hashGenesisBlock = 1) {d : Mined}
    (hvalid : d.Valid params s.pindex) (hmineable : Mineable s.pindex s.coins)
    (hpool : s.pool = .empty) :
    (minerNode params d).connectTip s (minedBlock params s.pindex d) false =
      .accept ⟨.empty, minedView s.coins s.pindex.length d.nValue, mine params s.pindex d,
        (minedBlock params s.pindex d, []) :: s.blocks⟩ := by
  have hconnect := connectBlock_minedBlock hgenesis hvalid hmineable {}
  have hhashes : (minerNode params d).hashes = minerHashes := rfl
  have hconfirm : CTxMemPool.empty.confirmAll minerHashes (minedBlock params s.pindex d).vtx =
      some .empty := rfl
  simp only [Node.connectTip, hhashes, hconnect, hpool, hconfirm, Verdict.require,
    Verdict.accept_bind, Bool.false_eq_true, if_false]

/-- A plan is carried out by connecting tips. -/
theorem Plan.tipRun {nBits : BitVec 32} (occurs : CTransaction → Prop)
    (cond : TipState → TipOp → Prop) (hgenesis : params.hashGenesisBlock = 1) (hn : n < 2 ^ 31)
    (hplan : Plan params nBits m n)
    (hoccurs : ∀ i, 1 ≤ i → i ≤ n → occurs (minedCoinbase i (m i).nValue))
    (hcond : ∀ s block fFlush, cond s (.connectTip block fFlush)) :
    ∃ s issued, TipRun minerHashes params occurs cond s ∧
      Planned params nBits m n s.pindex s.coins issued ∧ s.pool = .empty ∧
      MinedStack params m n s.pindex s.blocks ∧ s.coins.Restorable := by
  induction n with
  | zero =>
    have hvalid := hplan.valid (p := []) (i := 0) (by omega) (by decide) (by simp [Unflagged]) rfl rfl
    have hp := hplan.planned_zero hgenesis
    refine ⟨⟨.empty, ⟨∅, 1⟩, [minedGenesis params (m 0)], []⟩, _, .start ?_, hp, rfl, ?_⟩
    · obtain ⟨hid, hconnect⟩ := connectBlock_minedGenesis hgenesis hvalid
      exact ⟨_, _, _, _, rfl, rfl, hid, hconnect, rfl⟩
    · refine ⟨⟨hp.head, rfl, rfl⟩, ?_, ?_⟩
      · exact fun _ _ hmeaning ↦ by cases hmeaning
      · exact fun _ _ _ hunspent ↦ by cases hunspent
  | succ n ih =>
    obtain ⟨s, issued, hrun, hp, hpool, hstack, hrestorable⟩ := ih (by omega)
      (hplan.pred (hplan.nonneg (by omega))) (fun i hi hle ↦ hoccurs i hi (by omega))
    obtain ⟨hvalid, hlater, hformat⟩ := hplan.next hn hp
    have hversion := (hplan.plain (n + 1) (by omega)).2.2.2
    have hconnect := connectTip_minedBlock hgenesis hvalid hp.toMineable hpool
    have hlength := hp.length
    have hadmitted : (TipOp.connectTip (minedBlock params s.pindex (m (n + 1))) false).Admitted
        minerHashes params s :=
      ⟨by omega, hvalid.getHash_ne_genesis hgenesis hp.toMineable, minerNode params (m (n + 1)), {},
        none, rfl, rfl, contextCheck_minedBlock hvalid.offered hp.accepted.ne_nil hlater hversion hformat⟩
    refine ⟨_, (m (n + 1)).nValue :: issued, .step hrun rfl rfl hadmitted ?_ (hcond _ _ _) hconnect,
      ?_, rfl, ?_⟩
    · intro tx htx
      obtain rfl := List.mem_singleton.mp htx
      rw [hlength]
      exact hoccurs (n + 1) (by omega) le_rfl
    · dsimp only
      rw [hlength]
      exact hplan.planned_succ hgenesis hn hp
    · obtain ⟨b, -, -, hhash, hmine⟩ := mine_eq params s.pindex (m (n + 1))
      refine ⟨⟨_, _, _, hmine, ?_, rfl, hstack⟩, ?_⟩
      · rw [hvalid.getHash, hlength] at hhash
        exact hhash
      · have hset : (s.coins.setCoins (BitVec.ofNat 256 s.pindex.length)
            (.ofTransaction (minedCoinbase s.pindex.length (m (n + 1)).nValue)
              s.pindex.length)).Restorable := by
          refine hrestorable.setCoins (by change (s.pindex.length : Int) ≠ 0; omega) ?_ _
          intro i o ho
          rw [CCoins.unspent_ofTransaction] at ho
          obtain ⟨o', ho', -⟩ := Option.bind_eq_some_iff.mp ho
          have hi : i < 1 := (List.getElem?_eq_some_iff.mp ho').1
          omega
        exact ⟨hset.height, hset.position⟩

/-- The coins of the first `h` coinbases are there, and the best block is the one at height `h`. -/
structure HasCoinbases (m : Nat → Mined) (h : Nat) (view : CCoinsViewCache) : Prop where
  coinbases : ∀ i, 1 ≤ i → i ≤ h → view.getCoins (BitVec.ofNat 256 i) =
    some (.ofTransaction (minedCoinbase i (m i).nValue) i)
  best : view.hashBlock = BitVec.ofNat 256 (h + 1)

/-- The outputs of a transaction none of whose outputs is spent are removed cleanly. -/
theorem removeOutputs_unspent {view : CCoinsViewCache} {tx : CTransaction} {nHeight : Int}
    {hash : Uint256} (hcoins : view.getCoins hash = some (.ofTransaction tx nHeight))
    (hvalues : ∀ o ∈ tx.vout, 0 ≤ o.nValue) :
    removeOutputs { view } tx nHeight hash = ⟨view.setCoins hash {}, true⟩ := by
  have hat : view.coinsAt hash = .ofTransaction tx nHeight := by
    rw [CCoinsViewCache.coinsAt, hcoins]
    rfl
  have hclear : clearUnspendable (CCoins.ofTransaction tx nHeight).vout =
      (CCoins.ofTransaction tx nHeight).vout :=
    CCoins.clearUnspendable_eq (CCoins.exactNulls_ofTransaction hvalues nHeight) hvalues
      fun _ ↦ rfl
  have hsame : (CCoins.ofTransaction tx nHeight).beq (.ofTransaction tx nHeight) = true := by
    simp [CCoins.beq]
  simp only [removeOutputs, hat, hclear, ite_self, hsame, CCoinsViewCache.haveCoins, hcoins,
    Option.isSome_some, if_true, Bool.and_self]

/-- The newest mined block is disconnected: its coinbase leaves a pruned entry. -/
theorem disconnectTip_minedBlock (hstack : MinedStack params m (h + 1) s.pindex s.blocks)
    (hcoins : HasCoinbases m (h + 1) s.coins) (hvalue : 0 ≤ (m (h + 1)).nValue)
    (hh : h + 1 < 2 ^ 31) (policy : Policy) (d : Mined) :
    ∃ s', (minerNode params d).disconnectTip policy s false = .accept s' ∧ s'.pool = s.pool ∧
      MinedStack params m h s'.pindex s'.blocks ∧
      s'.coins.hashBlock = BitVec.ofNat 256 (h + 1) ∧ ∀ txid, s'.coins.getCoins txid =
        if txid = BitVec.ofNat 256 (h + 1) then some {} else s.coins.getCoins txid := by
  obtain ⟨b, q, rest, hpindex, hhash, hblocks, hstack⟩ := hstack
  obtain ⟨hhead, hlength⟩ := hstack.head
  obtain ⟨c, tail, rfl⟩ := List.exists_cons_of_length_eq_add_one hlength
  have hhashes : (minerNode params d).hashes = minerHashes := rfl
  have hvtx : (minedBlock params (c :: tail) (m (h + 1))).vtx =
      [minedCoinbase (h + 1) (m (h + 1)).nValue] := by
    rw [minedBlock, hlength]
  have hcb : (minedCoinbase (h + 1) (m (h + 1)).nValue).isCoinBase = true := rfl
  have hid : (minedCoinbase (h + 1) (m (h + 1)).nValue).getHash minerHashes =
      BitVec.ofNat 256 (h + 1) := getHash_minedCoinbase (by omega) _
  have hcoin := hcoins.coinbases (h + 1) (by omega) le_rfl
  have hbest : b.blockHash = s.coins.hashBlock := hhash.trans hcoins.best.symm
  have hremove : removeOutputs { view := s.coins } (minedCoinbase (h + 1) (m (h + 1)).nValue)
      (c :: tail).length (BitVec.ofNat 256 (h + 1)) =
      ⟨s.coins.setCoins (BitVec.ofNat 256 (h + 1)) {}, true⟩ := by
    rw [hlength]
    refine removeOutputs_unspent hcoin ?_
    intro o ho
    obtain rfl := List.mem_singleton.mp ho
    exact hvalue
  have hdisconnect : disconnectBlock minerHashes (minedBlock params (c :: tail) (m (h + 1))) {}
      s.pindex [] s.coins = .accept ⟨(s.coins.setCoins (BitVec.ofNat 256 (h + 1)) {}).setBestBlock
        c.blockHash, true⟩ := by
    rw [hpindex]
    simp only [disconnectBlock, hbest, if_true, hvtx, List.length_nil, List.length_singleton,
      Nat.zero_add, decide_true, List.map_nil, List.zip_cons_cons, List.zip_nil_left,
      List.reverse_singleton, List.foldlM_cons, List.foldlM_nil, disconnectTx, hid, hremove,
      Verdict.require, Verdict.check, Verdict.accept_bind]
    rfl
  have hresurrect : ∀ coins pindexPrev nHeight, (minedBlock params (c :: tail) (m (h + 1))).vtx.foldlM
      ((minerNode params d).resurrectTx policy coins pindexPrev nHeight) s.pool = some s.pool := by
    intro coins pindexPrev nHeight
    rw [hvtx]
    simp only [List.foldlM_cons, List.foldlM_nil, Node.resurrectTx, hcb, if_true]
    rfl
  refine ⟨⟨s.pool, (s.coins.setCoins (BitVec.ofNat 256 (h + 1)) {}).setBestBlock c.blockHash,
    s.pindex.tail, rest⟩, ?_, rfl, ?_, ?_, ?_⟩
  · unfold Node.disconnectTip
    rw [hblocks]
    simp only [hhashes, hdisconnect, Verdict.accept_bind, Verdict.check, if_true, Bool.false_eq_true,
      if_false, hresurrect, Verdict.require]
  · rw [hpindex]
    exact hstack
  · exact Option.some.inj hhead
  · intro txid
    rw [CCoinsViewCache.getCoins_setBestBlock]
    split
    · next heq => rw [heq, CCoinsViewCache.getCoins_setCoins_self]
    · next hne => rw [CCoinsViewCache.getCoins_setCoins_of_ne _ hne]

theorem TipRun.disconnectTip {H : Hashes} {node : Node} {s' : TipState} {policy : Policy}
    {fFlush : Bool} (hrun : TipRun H params occurs cond s) (hhashes : node.hashes = H)
    (hparams : node.params = params) (hcond : cond s (.disconnectTip policy fFlush))
    (hstep : node.disconnectTip policy s fFlush = .accept s') : TipRun H params occurs cond s' := by
  have hadmitted : (TipOp.disconnectTip policy fFlush).Admitted H params s := trivial
  exact .step hrun hhashes hparams hadmitted (fun _ htx ↦ absurd htx List.not_mem_nil) hcond hstep

/-- Every mined block is disconnected; nothing is left of the first coinbase. -/
theorem disconnectAll (hrun : TipRun minerHashes params occurs (fun _ _ ↦ True) s)
    (hstack : MinedStack params m (h + 1) s.pindex s.blocks)
    (hcoins : HasCoinbases m (h + 1) s.coins) (hvalue : ∀ i ≤ h + 1, 0 ≤ (m i).nValue)
    (hh : h + 1 < 2 ^ 31) (policy : Policy) :
    ∃ s', TipRun minerHashes params occurs (fun _ _ ↦ True) s' ∧ s'.pool = s.pool ∧
      s'.coins.getCoins 1 = some {} := by
  induction h generalizing s with
  | zero =>
    obtain ⟨s', hstep, hpool, -, -, hlookup⟩ :=
      disconnectTip_minedBlock hstack hcoins (hvalue 1 le_rfl) hh policy (m 0)
    exact ⟨s', hrun.disconnectTip rfl rfl trivial hstep, hpool, hlookup 1⟩
  | succ h ih =>
    obtain ⟨s', hstep, hpool, hstack', hbest, hlookup⟩ :=
      disconnectTip_minedBlock hstack hcoins (hvalue (h + 2) le_rfl) hh policy (m 0)
    have hrun' : TipRun minerHashes params occurs (fun _ _ ↦ True) s' :=
      hrun.disconnectTip rfl rfl trivial hstep
    have hcoins' : HasCoinbases m (h + 1) s'.coins := by
      refine ⟨fun i hi hle ↦ ?_, hbest⟩
      rw [hlookup, if_neg, hcoins.coinbases i hi (by omega)]
      intro heq
      have := congrArg BitVec.toNat heq
      rw [BitVec.toNat_ofNat, BitVec.toNat_ofNat, Nat.mod_eq_of_lt (by omega),
        Nat.mod_eq_of_lt (by omega)] at this
      omega
    obtain ⟨s'', hrun'', hpool', hgone⟩ :=
      ih hrun' hstack' hcoins' (fun i hi ↦ hvalue i (by omega)) (by omega)
    exact ⟨s'', hrun'', hpool'.trans hpool, hgone⟩

end Mined

/-! ### A spend of the first coinbase -/

/-- A node of the main network that takes every script for standard. -/
def lenientPolicy : Policy where
  isMain := true
  isStandardTx := fun _ ↦ none
  areInputsStandard := fun _ _ ↦ true
  nMinTxFee := 10000
  nMinRelayTxFee := 1000
  rateLimited := fun _ ↦ false
  nTime := 0

/-- The pool with the spend of the first coinbase in it. -/
def firstPool : CTxMemPool :=
  CTxMemPool.empty.addUnchecked 1000000
    ⟨spendFirst 0, 2000000000, (spendFirst 0).serialize.length, 0, 720⟩

/-- Nothing in the policy is against the spend of a mature coinbase. -/
theorem poolEntry_spendFirst {view : CCoinsViewCache} {p : ChainIndex} (hfirst : HasFirst view)
    (hlength : p.length = 721) (nHeight : Nat) :
    spendingNode.poolEntry lenientPolicy {} (spendFirst 0) false false view p nHeight =
      .accept ⟨spendFirst 0, 2000000000, (spendFirst 0).serialize.length, 0, nHeight⟩ := by
  have hrange : (0 : Int) ≤ 0 ∧ (0 : Int) ≤ 2000000000 := by decide
  have hfee : toInt64 (2000000000 - 0) = 2000000000 := by decide
  have hstandard : ∀ tx view, lenientPolicy.areInputsStandard tx view = true := fun _ _ ↦ rfl
  have htime : lenientPolicy.nTime = 0 := rfl
  simp only [Node.poolEntry, hstandard, hfirst.getValueIn, getValueOut_spendFirst hrange, hfee,
    htime, Bool.not_true, Bool.and_false, Bool.not_false, Bool.false_and,
    hfirst.checkInputs hrange hlength, Verdict.check, Verdict.require, Verdict.accept_bind, if_true]

theorem hasFirst_inputView {view : CCoinsViewCache} (hfirst : HasFirst view) :
    HasFirst (CTxMemPool.empty.inputView view (spendFirst 0)) := by
  obtain ⟨coins, hcoins, hmetadata⟩ := hfirst
  have hmem : firstInput ∈ (spendFirst 0).vin := List.mem_cons_self
  refine ⟨coins, ?_, hmetadata⟩
  rw [CTxMemPool.getCoins_inputView hmem, CTxMemPool.getCoins, hcoins]
  rfl

/-- The spend is accepted once the coinbase is mature, unless the cache has an entry for it. -/
theorem accept_spendFirst {view : CCoinsViewCache} {p : ChainIndex} (hfirst : HasFirst view)
    (hlength : p.length = 721) (nHeight : Nat) :
    spendingNode.acceptToMemoryPool lenientPolicy .empty {} (spendFirst 0) false false view p
        nHeight =
      if (view.getCoins 1000000).isNone then
        .accept (CTxMemPool.empty.addUnchecked 1000000
          ⟨spendFirst 0, 2000000000, (spendFirst 0).serialize.length, 0, nHeight⟩)
      else .refuse {} := by
  have hchecked : checkTransaction (spendFirst 0) {} = .accept () := by decide
  have hcb : (spendFirst 0).isCoinBase = false := rfl
  have hid : (spendFirst 0).getHash spendingNode.hashes = 1000000 := getHash_spendFirst 0
  have hvin : (spendFirst 0).vin = [firstInput] := rfl
  have hnone : ∀ txid, CTxMemPool.empty.lookup txid = none := fun txid ↦ Finmap.lookup_empty txid
  have hunseen : CTxMemPool.empty.getCoins view 1000000 = view.getCoins 1000000 := by
    rw [CTxMemPool.getCoins, hnone]
    exact Option.or_none
  have hview := hasFirst_inputView hfirst
  have hentry := poolEntry_spendFirst hview hlength nHeight
  obtain ⟨coins, hcoins, -⟩ := hfirst
  have hinput : CTxMemPool.empty.getCoins view firstInput.prevout.hash = some coins := by
    rw [CTxMemPool.getCoins, hcoins]
    rfl
  have hstandard : (lenientPolicy.isStandardTx (spendFirst 0)).isNone = true := rfl
  have hlookup : CTxMemPool.empty.mapNextTx.lookup firstInput.prevout = none :=
    Finmap.lookup_empty _
  simp only [Node.acceptToMemoryPool, hchecked, hcb, hstandard, hid, CTxMemPool.exists, hnone, hvin,
    List.all_cons, List.all_nil, hlookup, hunseen, hinput, hview.haveInputs, hentry, Bool.not_false,
    Bool.or_true, Option.isSome_none, Option.isNone_none, Option.isSome_some, Bool.and_self,
    Verdict.check, Verdict.accept_bind, if_true]
  split <;> rfl

/-- A node connects 720 blocks and accepts the spend. -/
theorem exists_firstPool (cond : TipState → TipOp → Prop)
    (hconnect : ∀ s block fFlush, cond s (.connectTip block fFlush))
    (haccept : ∀ s policy state tx fLimitFree fRejectInsaneFee,
      cond s (.accept policy state tx fLimitFree fRejectInsaneFee)) :
    ∃ s issued, TipRun minerHashes minerMainParams LateTx cond s ∧
      LateFork s.pindex s.coins issued ∧ s.pool = firstPool ∧
      MinedStack minerMainParams lateFork 720 s.pindex s.blocks := by
  obtain ⟨s, issued, hrun, hp, hpool, hstack, -⟩ := lateFork_plan.tipRun LateTx cond rfl
    (by decide) (fun i hi hle ↦ .inl ⟨i, hi, by omega, rfl⟩) hconnect
  have hp : LateFork s.pindex s.coins issued := hp
  have hfirst : HasFirst s.coins := .of_getCoins (hp.coinbases 1 le_rfl (by decide))
  have hfresh : s.coins.getCoins 1000000 = none := hp.fresh 1000000 (by rw [hp.length]; decide)
  refine ⟨{ s with pool := firstPool }, issued, ?_, hp, rfl, hstack⟩
  have hstep : spendingNode.tipStep s (.accept lenientPolicy {} (spendFirst 0) false false) =
      .accept { s with pool := firstPool } := by
    have hheight : s.pindex.length - 1 = 720 := by rw [hp.length]
    simp only [Node.tipStep, hpool, hheight, accept_spendFirst hfirst hp.length, hfresh,
      Option.isNone_none, if_true, Verdict.accept_bind]
    rfl
  have hadmitted : (TipOp.accept lenientPolicy {} (spendFirst 0) false false).Admitted minerHashes
      minerMainParams s := trivial
  refine .step hrun rfl rfl hadmitted ?_ (haccept _ _ _ _ _ _) hstep
  intro tx htx
  obtain rfl := List.mem_singleton.mp htx
  exact .inr rfl

/-- `mempool_sound` for 720 connected blocks and a pooled spend of the first coinbase. -/
theorem mempool_sound_firstPool : ∃ s : TipState, s.pool = firstPool ∧ s.pool.Sound minerHashes s.coins := by
  obtain ⟨s, issued, hrun, -, hpool, -⟩ := exists_firstPool (TipOp.Safe minerHashes)
    (fun _ _ _ ↦ trivial) (fun _ _ _ _ _ _ ↦ trivial)
  exact ⟨s, hpool, mempool_sound txIds_lateTx hrun⟩

/-- When the 720 blocks are disconnected again, the spend of the first coinbase stays in the pool
with nothing to spend, and an assertion of `check` fails. -/
theorem check_fails_disconnected : TxIds minerHashes LateTx ∧
    ∃ s, TipRun minerHashes minerMainParams LateTx (fun _ _ ↦ True) s ∧
      s.pool.check minerHashes s.coins = false := by
  obtain ⟨s, issued, hrun, hp, hpool, hstack⟩ := exists_firstPool (fun _ _ ↦ True)
    (fun _ _ _ ↦ trivial) (fun _ _ _ _ _ _ ↦ trivial)
  have hcoins : HasCoinbases lateFork 720 s.coins := by
    refine ⟨hp.coinbases, ?_⟩
    rw [hp.best, hp.length]
  have hvalue : ∀ i ≤ 720, 0 ≤ (lateFork i).nValue :=
    fun i hi ↦ lateFork_plan.nonneg (Nat.lt_succ_of_le hi)
  obtain ⟨s', hrun', hpool', hgone⟩ :=
    disconnectAll hrun hstack hcoins hvalue (by decide) lenientPolicy
  refine ⟨txIds_lateTx, s', hrun', ?_⟩
  rw [hpool', hpool]
  by_contra hcheck
  rw [Bool.not_eq_false, CTxMemPool.check, Bool.and_eq_true, Finmap.all_eq_true_iff] at hcheck
  have hentry : firstPool.lookup 1000000 =
      some ⟨spendFirst 0, 2000000000, (spendFirst 0).serialize.length, 0, 720⟩ :=
    Finmap.lookup_insert _
  have hparent : firstPool.lookup firstInput.prevout.hash = none :=
    Finmap.lookup_insert_of_ne _ (by decide)
  have hinput := hcheck.1 1000000 _ hentry
  rw [List.all_eq_true] at hinput
  have hfirst := hinput (firstInput, 0) List.mem_cons_self
  rw [CTxMemPool.checkInput, hparent, show s'.coins.getCoins firstInput.prevout.hash = _ from hgone]
    at hfirst
  cases hfirst

end Bitmark
