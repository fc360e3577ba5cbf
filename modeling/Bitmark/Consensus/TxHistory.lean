import Bitmark.Consensus.AcceptBlock
import Bitmark.Consensus.DisconnectBlock
import Bitmark.Lib.Ledger
import Bitmark.Script.HeightPush

/-!
# The view as a function of the chain's transactions

The unspent outputs of the view are those of a ledger: the transactions of the connected blocks,
newest first. `ConnectBlock` extends the ledger by the transactions of its block, `DisconnectBlock`
takes them off again.
-/

namespace Bitmark

/-- `operator==` of transactions, `src/core.h:271`. -/
def CTransaction.beq (a b : CTransaction) : Bool :=
  a.nVersion == b.nVersion && a.vin == b.vin && a.vout == b.vout && a.nLockTime == b.nLockTime

theorem CTransaction.beq_iff {a b : CTransaction} : a.beq b = true ↔
    a.nVersion = b.nVersion ∧ a.vin = b.vin ∧ a.vout = b.vout ∧ a.nLockTime = b.nLockTime := by
  simp [beq, and_assoc]

/-- What transaction ids are relied on for, among the transactions that occur: they have the
usual format, different ones have different ids, and none is among its own ancestors. -/
structure TxIds (H : Hashes) (occurs : CTransaction → Prop) : Prop where
  wire : ∀ tx, occurs tx → tx.vectorFormat = false
  injective : ∀ a b, occurs a → occurs b → a.getHash H = b.getHash H → a.beq b = true
  acyclic : ∃ rank : Uint256 → Nat, ∀ tx, occurs tx → ∀ txin ∈ tx.vin,
    rank txin.prevout.hash < rank (tx.getHash H)

/-- Transactions as entries of a ledger. -/
def txLedger (H : Hashes) : LedgerFormat CTransaction Uint256 CTxOut where
  id tx := tx.getHash H
  spends tx := tx.spends.map fun txin ↦ (txin.prevout.hash, txin.prevout.n.toNat)
  outputs tx := (CCoins.ofTransaction tx 0).unspent

@[simp] theorem txLedger_id (H : Hashes) (tx : CTransaction) :
    (txLedger H).id tx = tx.getHash H := rfl

theorem txLedger_spends (H : Hashes) (tx : CTransaction) : (txLedger H).spends tx =
    tx.spends.map fun txin ↦ (txin.prevout.hash, txin.prevout.n.toNat) := rfl

/-- The height of an entry does not matter for its outputs. -/
theorem txLedger_outputs (H : Hashes) (tx : CTransaction) (nHeight : Int) (n : Nat) :
    (CCoins.ofTransaction tx nHeight).unspent n = (txLedger H).outputs tx n := rfl

/-- The unspent outputs of the view are those of the ledger. -/
def CCoinsViewCache.Records (H : Hashes) (view : CCoinsViewCache) (txs : List CTransaction) : Prop :=
  ∀ txid n o, view.unspent txid n = some o ↔ (txLedger H).Unspent txs txid n o

section Ids

variable {H : Hashes} {occurs : CTransaction → Prop}

theorem TxIds.vin_eq (h : TxIds H occurs) {a b : CTransaction} (ha : occurs a) (hb : occurs b)
    (hid : a.getHash H = b.getHash H) : a.vin = b.vin :=
  (CTransaction.beq_iff.mp (h.injective a b ha hb hid)).2.1

theorem TxIds.vout_eq (h : TxIds H occurs) {a b : CTransaction} (ha : occurs a) (hb : occurs b)
    (hid : a.getHash H = b.getHash H) : a.vout = b.vout :=
  (CTransaction.beq_iff.mp (h.injective a b ha hb hid)).2.2.1

theorem isCoinBase_of_vin {a b : CTransaction} (h : a.vin = b.vin) : a.isCoinBase = b.isCoinBase := by
  unfold CTransaction.isCoinBase
  rw [h]

theorem TxIds.spends_eq (h : TxIds H occurs) {a b : CTransaction} (ha : occurs a) (hb : occurs b)
    (hid : a.getHash H = b.getHash H) : (txLedger H).spends a = (txLedger H).spends b := by
  have hvin := h.vin_eq ha hb hid
  simp only [txLedger, CTransaction.spends, isCoinBase_of_vin hvin, hvin]

theorem TxIds.outputs_eq (h : TxIds H occurs) {a b : CTransaction} (ha : occurs a) (hb : occurs b)
    (hid : a.getHash H = b.getHash H) : (txLedger H).outputs a = (txLedger H).outputs b := by
  funext n
  simp only [txLedger, CCoins.unspent_ofTransaction, h.vout_eq ha hb hid]

/-- Transactions that are equal have the same id. -/
theorem TxIds.getHash_of_beq (h : TxIds H occurs) {a b : CTransaction} (ha : occurs a)
    (hb : occurs b) (heq : a.beq b = true) : a.getHash H = b.getHash H := by
  obtain ⟨hversion, hvin, hvout, hlock⟩ := CTransaction.beq_iff.mp heq
  rw [CTransaction.getHash, CTransaction.getHash, CTransaction.serialize, CTransaction.serialize,
    if_neg (by simp [h.wire a ha]), if_neg (by simp [h.wire b hb]), hversion, hvin, hvout, hlock]

end Ids

/-! ### Connecting -/

section Connect

variable {H : Hashes} {view view' : CCoinsViewCache} {tx : CTransaction} {txs : List CTransaction}
  {nHeight : Int} {txundo : CTxUndo}

/-- No entry of the view is left for an id that the ledger does not have. -/
theorem CCoinsViewCache.Records.prunedAt (h : view.Records H txs) {txid : Uint256}
    (hfresh : txid ∉ txs.map fun tx ↦ tx.getHash H) : view.PrunedAt txid := by
  apply prunedAt_iff.mpr
  intro n
  cases ho : view.unspent txid n with
  | none => rfl
  | some o => exact absurd ((h txid n o).mp ho).1.mem_ids hfresh

/-- `UpdateCoins` extends the ledger. -/
theorem CCoinsViewCache.Records.updateCoins (h : view.Records H txs)
    (hvalid : (txLedger H).Valid txs) (hfresh : tx.getHash H ∉ txs.map fun tx ↦ tx.getHash H)
    (hupdate : view.updateCoins tx nHeight (tx.getHash H) = some (view', txundo)) :
    (txLedger H).Valid (tx :: txs) ∧ view'.Records H (tx :: txs) := by
  have happlied := updateCoins_eq_some (h.prunedAt hfresh) hupdate
  have hnext : (txLedger H).Valid (tx :: txs) := by
    refine .cons hvalid ?_ hfresh
    intro p hp
    obtain ⟨txin, hmem, rfl⟩ := List.mem_map.mp hp
    obtain ⟨o, ho⟩ := happlied.found_unspent hmem
    exact ⟨o, (h _ _ o).mp ho⟩
  refine ⟨hnext, ?_⟩
  intro txid n o
  rw [hnext.unspent_cons, happlied.unspent, txLedger_id]
  have hrefers : Refers tx.spends txid n ↔ (txid, n) ∈ (txLedger H).spends tx := by
    simp only [Refers, txLedger, List.mem_map, Prod.mk.injEq]
    constructor
    · rintro ⟨txin, hmem, rfl, rfl⟩
      exact ⟨txin, hmem, rfl, rfl⟩
    · rintro ⟨txin, hmem, rfl, rfl⟩
      exact ⟨txin, hmem, rfl, rfl⟩
  by_cases hid : txid = tx.getHash H
  · rw [if_pos hid, txLedger_outputs H]
    simp [hid]
  · by_cases hspent : (txid, n) ∈ (txLedger H).spends tx
    · rw [if_neg hid, if_pos (hrefers.mpr hspent)]
      simp [hspent, hid]
    · rw [if_neg hid, if_neg (fun hr ↦ hspent (hrefers.mp hr)), h]
      simp [hspent, hid]

end Connect

/-- An output of a transaction that occurs. -/
def Authentic (H : Hashes) (occurs : CTransaction → Prop) (txid : Uint256) (n : Nat) (o : CTxOut) :
    Prop :=
  ∃ t, occurs t ∧ t.getHash H = txid ∧ (txLedger H).outputs t n = some o

theorem Authentic.unique {H : Hashes} {occurs : CTransaction → Prop} {txid : Uint256} {n : Nat}
    {o o' : CTxOut} (hids : TxIds H occurs) (h : Authentic H occurs txid n o)
    (h' : Authentic H occurs txid n o') : o = o' := by
  obtain ⟨t, ht, hid, hout⟩ := h
  obtain ⟨t', ht', hid', hout'⟩ := h'
  rw [hids.outputs_eq ht ht' (hid.trans hid'.symm), hout'] at hout
  exact (Option.some.inj hout).symm

/-- An undo record holds the output its input spends. -/
def Restores (H : Hashes) (occurs : CTransaction → Prop) (txin : CTxIn) (undo : CTxInUndo) : Prop :=
  Authentic H occurs txin.prevout.hash txin.prevout.n.toNat undo.txout

/-- The undo data of a transaction. -/
def UndoFor (H : Hashes) (occurs : CTransaction → Prop) (tx : CTransaction) (txundo : CTxUndo) :
    Prop :=
  List.Forall₂ (Restores H occurs) tx.vin txundo

section Loop

variable {node : Node} {occurs : CTransaction → Prop} {state : CValidationState}
  {pprev : ChainIndex} {fScriptChecks : Bool} {flags : BitVec 32} {p p' : Progress}
  {tx : CTransaction} {txs : List CTransaction}

/-- What an applied transaction recorded restores what it spent. -/
theorem undoFor_of_applied {view view' : CCoinsViewCache} {nHeight : Int} {txundo : CTxUndo}
    {H : Hashes} (h : CCoinsViewCache.Applied view view' tx nHeight (tx.getHash H) txundo)
    (hcb : tx.isCoinBase = false) (hrecords : view.Records H txs) (htxs : ∀ t ∈ txs, occurs t) :
    UndoFor H occurs tx txundo := by
  have hfound := h.found
  rw [spends_of_not_coinbase hcb] at hfound
  have hpair : List.Forall₂ (fun txin undo ↦ view.getOutputFor txin = some undo.txout) tx.vin txundo := by
    rw [← List.forall₂_map_left_iff (f := view.getOutputFor)
      (R := fun o (undo : CTxInUndo) ↦ o = some undo.txout),
      ← List.forall₂_map_right_iff (f := fun undo : CTxInUndo ↦ some undo.txout), hfound]
    exact List.forall₂_refl _
  refine hpair.imp ?_
  intro txin undo hone
  rw [CCoinsViewCache.getOutputFor_eq] at hone
  obtain ⟨⟨t, ht, hid, hout⟩, -⟩ := (hrecords _ _ _).mp hone
  exact ⟨t, htxs t ht, hid, hout⟩

/-- A transaction whose inputs are there is not in the ledger yet. -/
theorem not_mem_ids {H : Hashes} {view : CCoinsViewCache} (hids : TxIds H occurs)
    (htxs : ∀ t ∈ txs, occurs t) (htx : occurs tx) (hrecords : view.Records H txs)
    {txin : CTxIn} {o : CTxOut} (hmem : txin ∈ tx.spends)
    (ho : view.unspent txin.prevout.hash txin.prevout.n.toNat = some o) :
    tx.getHash H ∉ txs.map fun tx ↦ tx.getHash H := by
  apply LedgerFormat.id_not_mem (F := txLedger H) (t := tx) _ _ ((hrecords _ _ o).mp ho)
  · intro t' ht' hid
    exact hids.spends_eq (htxs t' ht') htx hid
  · exact List.mem_map_of_mem hmem

/-- One transaction of a block extends the ledger, and its undo data restore what it spent. -/
theorem records_connectTx (hids : TxIds node.hashes occurs) (htxs : ∀ t ∈ txs, occurs t)
    (htx : occurs tx) (hcb : tx.isCoinBase = false) (hchecked : tx.Checked)
    (hvalid : (txLedger node.hashes).Valid txs) (hrecords : p.view.Records node.hashes txs)
    (h : node.connectTx state pprev fScriptChecks flags p tx = .accept p') :
    (txLedger node.hashes).Valid (tx :: txs) ∧ p'.view.Records node.hashes (tx :: txs) ∧
      ∃ txundo, p'.vtxundo = p.vtxundo ++ [txundo] ∧ UndoFor node.hashes occurs tx txundo := by
  obtain ⟨txundo, hupdate, ⟨hcoinbase, -⟩ | ⟨-, hinputs, -, hundo⟩⟩ := Node.connectTx_eq_accept h
  · rw [hcb] at hcoinbase
    cases hcoinbase
  · obtain ⟨txin, hmem⟩ := List.exists_mem_of_ne_nil _ hchecked.vin_ne_nil
    obtain ⟨o, ho⟩ := Option.isSome_iff_exists.mp (hinputs.have_inputs txin hmem)
    rw [CCoinsViewCache.getOutputFor_eq] at ho
    have hfresh := not_mem_ids hids htxs htx hrecords (by rwa [spends_of_not_coinbase hcb]) ho
    obtain ⟨hnext, hrecords'⟩ := hrecords.updateCoins hvalid hfresh hupdate
    have happlied := CCoinsViewCache.updateCoins_eq_some (hrecords.prunedAt hfresh) hupdate
    exact ⟨hnext, hrecords', txundo, hundo, undoFor_of_applied happlied hcb hrecords htxs⟩

/-- The transactions of a block behind its coinbase. -/
theorem records_connectTxs (hids : TxIds node.hashes occurs) {vtx : List CTransaction}
    (htxs : ∀ t ∈ txs, occurs t)
    (hvtx : ∀ tx ∈ vtx, occurs tx ∧ tx.isCoinBase = false ∧ tx.Checked)
    (hvalid : (txLedger node.hashes).Valid txs) (hrecords : p.view.Records node.hashes txs)
    (h : node.connectTxs state pprev fScriptChecks flags p vtx = .accept p') :
    (txLedger node.hashes).Valid (vtx.reverse ++ txs) ∧
      p'.view.Records node.hashes (vtx.reverse ++ txs) ∧
      ∃ undos, p'.vtxundo = p.vtxundo ++ undos ∧
        List.Forall₂ (UndoFor node.hashes occurs) vtx undos := by
  induction vtx generalizing p txs with
  | nil =>
    cases h
    exact ⟨hvalid, hrecords, [], (List.append_nil _).symm, .nil⟩
  | cons tx vtx ih =>
    obtain ⟨q, hq, hrest⟩ := Verdict.bind_eq_accept.mp h
    obtain ⟨⟨htx, hcb, hchecked⟩, hvtx⟩ := List.forall_mem_cons.mp hvtx
    obtain ⟨hnext, hrecords', txundo, hundo, hfor⟩ :=
      records_connectTx hids htxs htx hcb hchecked hvalid hrecords hq
    obtain ⟨hall, hview, undos, hundos, hforall⟩ :=
      ih (List.forall_mem_cons.mpr ⟨htx, htxs⟩) hvtx hnext hrecords' hrest
    rw [List.reverse_cons, List.append_assoc, List.singleton_append]
    refine ⟨hall, hview, txundo :: undos, ?_, .cons hfor hforall⟩
    rw [hundos, hundo, List.append_assoc, List.singleton_append]

end Loop

/-! ### Coinbases and blocks -/

/-- A coinbase that starts with this height. -/
def StartsWithHeight (k : Nat) (tx : CTransaction) : Prop :=
  ∃ txin, tx.vin.head? = some txin ∧ (pushInt64 k).isPrefixOf txin.scriptSig = true

/-- The coinbases of the ledger start with heights below this one. -/
def HeightsBelow (n : Nat) (txs : List CTransaction) : Prop :=
  ∀ tx ∈ txs, tx.isCoinBase = true → ∃ k < n, StartsWithHeight k tx

theorem StartsWithHeight.eq {j k : Nat} {a b : CTransaction} (hsize : j < 2 ^ 64 ∧ k < 2 ^ 64)
    (ha : StartsWithHeight j a) (hb : StartsWithHeight k b) (hvin : a.vin = b.vin) : j = k := by
  obtain ⟨txin, hheada, hprefixa⟩ := ha
  obtain ⟨txin', hheadb, hprefixb⟩ := hb
  rw [hvin, hheadb] at hheada
  obtain rfl := Option.some.inj hheada
  exact eq_of_pushInt64_isPrefixOf hsize hprefixa hprefixb

/-- The blocks of a ledger with their undo data, newest first. -/
def ledgerOf (blocks : List (CBlock × List CTxUndo)) : List CTransaction :=
  blocks.flatMap fun b ↦ b.1.vtx.reverse

@[simp] theorem ledgerOf_cons (b : CBlock × List CTxUndo) (blocks : List (CBlock × List CTxUndo)) :
    ledgerOf (b :: blocks) = b.1.vtx.reverse ++ ledgerOf blocks := rfl

/-- A block whose undo data restore what its transactions spent. -/
structure Undoable (H : Hashes) (occurs : CTransaction → Prop) (block : CBlock)
    (blockundo : List CTxUndo) : Prop where
  checked : block.Checked H
  known : ∀ tx ∈ block.vtx, occurs tx
  undo : List.Forall₂ (UndoFor H occurs) block.vtx.tail blockundo

section Block

variable {node : Node} {occurs : CTransaction → Prop} {block : CBlock} {state : CValidationState}
  {pindexPrev : ChainIndex} {view : CCoinsViewCache} {r : Connected} {txs : List CTransaction}

/-- `AcceptBlock` looks for the height in the coinbase. -/
theorem startsWithHeight_of_contextCheck {pcheckpoint : Option Nat}
    (h : node.contextCheck block state pindexPrev pcheckpoint = .accept ()) :
    ∀ cb ∈ block.vtx.head?, StartsWithHeight pindexPrev.length cb := by
  simp only [Node.contextCheck, Verdict.bind_eq_accept, Verdict.check_eq_accept,
    Verdict.require_eq_accept, Unique.exists_iff] at h
  obtain ⟨-, -, -, -, -, -, txin, htxin, hprefix, -⟩ := h
  intro cb hcb
  rw [Option.mem_def] at hcb
  rw [hcb, Option.bind_some] at htxin
  exact ⟨txin, htxin, hprefix⟩

/-- Connecting a block extends the ledger by its transactions. -/
theorem records_connectBlock (hids : TxIds node.hashes occurs) (htxs : ∀ t ∈ txs, occurs t)
    (hblock : ∀ tx ∈ block.vtx, occurs tx)
    (hnew : block.getHash node.hashes ≠ node.params.hashGenesisBlock)
    (hstarts : ∀ cb ∈ block.vtx.head?, StartsWithHeight pindexPrev.length cb)
    (hlength : pindexPrev.length < 2 ^ 31) (hbelow : HeightsBelow pindexPrev.length txs)
    (hvalid : (txLedger node.hashes).Valid txs) (hrecords : view.Records node.hashes txs)
    (h : node.connectBlock block state (block.indexEntry node.hashes :: pindexPrev) view false =
      .accept r) :
    (txLedger node.hashes).Valid (block.vtx.reverse ++ txs) ∧
      r.view.Records node.hashes (block.vtx.reverse ++ txs) ∧
      HeightsBelow (pindexPrev.length + 1) (block.vtx.reverse ++ txs) ∧
      Undoable node.hashes occurs block r.blockundo := by
  obtain ⟨hchecked, -, -, b, pprev, cb, vtx, hidx, hvtx, ⟨heq, -⟩ | ⟨-, -, p, hrun, hfinish⟩⟩ :=
    Node.connectBlock_eq_accept h
  · exact absurd heq hnew
  obtain ⟨rfl, rfl⟩ := List.cons.inj hidx
  obtain ⟨cb', vtx', hvtx', hcb, hrest⟩ := hchecked.coinbase
  obtain ⟨rfl, rfl⟩ := List.cons.inj (hvtx.symm.trans hvtx')
  have hcboccurs : occurs cb := hblock cb (by rw [hvtx]; exact List.mem_cons_self)
  have hcbstarts : StartsWithHeight pindexPrev.length cb := hstarts cb (by rw [hvtx]; rfl)
  -- no other coinbase of the ledger starts with this height
  have hfresh : cb.getHash node.hashes ∉ txs.map fun tx ↦ tx.getHash node.hashes := by
    intro hmem
    obtain ⟨t, ht, hid⟩ := List.mem_map.mp hmem
    have hvin := hids.vin_eq (htxs t ht) hcboccurs hid
    obtain ⟨k, hk, hkstarts⟩ := hbelow t ht ((isCoinBase_of_vin hvin).trans hcb)
    have := hkstarts.eq ⟨by omega, by omega⟩ hcbstarts hvin
    omega
  rw [Node.runTxs, hvtx] at hrun
  obtain ⟨q, hq, hloop⟩ := Verdict.bind_eq_accept.mp hrun
  obtain ⟨_, hupdate, ⟨-, -, hundo⟩ | ⟨hno, -⟩⟩ := Node.connectTx_eq_accept hq
  · obtain ⟨hcbvalid, hcbrecords⟩ := hrecords.updateCoins hvalid hfresh hupdate
    have hothers : ∀ tx ∈ vtx, occurs tx ∧ tx.isCoinBase = false ∧ tx.Checked := by
      intro tx htx
      have hmem : tx ∈ block.vtx := by
        rw [hvtx]
        exact List.mem_cons_of_mem cb htx
      exact ⟨hblock tx hmem, hrest tx htx, hchecked.transactions tx hmem⟩
    obtain ⟨hall, hview, undos, hundos, hforall⟩ := records_connectTxs hids
      (List.forall_mem_cons.mpr ⟨hcboccurs, htxs⟩) hothers hcbvalid hcbrecords hloop
    have hledger : block.vtx.reverse ++ txs = vtx.reverse ++ cb :: txs := by
      rw [hvtx, List.reverse_cons, List.append_assoc, List.singleton_append]
    have hcoins := Node.finishBlock_cacheCoins hfinish
    obtain ⟨-, -, b', pprev', -, hr⟩ := Node.finishBlock_eq_accept hfinish
    rw [hledger]
    refine ⟨hall, ?_, ?_, hchecked, hblock, ?_⟩
    · intro txid n o
      rw [CCoinsViewCache.unspent, CCoinsViewCache.getCoins, hcoins]
      exact hview txid n o
    · intro t ht htcb
      rcases List.mem_append.mp ht with ht | ht
      · rw [hrest t (List.mem_reverse.mp ht)] at htcb
        cases htcb
      · rcases List.mem_cons.mp ht with rfl | ht
        · exact ⟨pindexPrev.length, Nat.lt_succ_self _, hcbstarts⟩
        · obtain ⟨k, hk, hkstarts⟩ := hbelow t ht htcb
          exact ⟨k, hk.trans (Nat.lt_succ_self _), hkstarts⟩
    · have hblockundo : r.blockundo = undos := by
        rw [hr]
        exact hundos.trans (by rw [hundo]; exact List.nil_append undos)
      rw [hblockundo, hvtx]
      exact hforall
  · rw [hcb] at hno
    cases hno

end Block

/-! ### Disconnecting -/

theorem CCoins.unspent_putOutput {coins coins' : CCoins} {n : BitVec 32} {o : CTxOut}
    (h : coins.putOutput n o = some coins') (i : Nat) :
    coins'.unspent i = if i = n.toNat then unspentOf o else coins.unspent i := by
  unfold putOutput at h
  dsimp only at h
  split at h
  · next hroom =>
    obtain rfl := Option.some.inj h
    simp only [unspent, outAt]
    by_cases hi : i = n.toNat
    · rw [if_pos hi, hi, List.getD_eq_getElem?_getD, List.getElem?_set_self hroom]
      rfl
    · rw [if_neg hi, ← getD_growVout coins.vout (n + 1).toNat i, List.getD_eq_getElem?_getD,
        List.getElem?_set_ne (Ne.symm hi), ← List.getD_eq_getElem?_getD]
  · cases h

theorem CCoinsViewCache.unspent_coinsAt (view : CCoinsViewCache) (txid : Uint256) (n : Nat) :
    (view.coinsAt txid).unspent n = view.unspent txid n := by
  unfold coinsAt unspent
  cases view.getCoins txid <;> rfl

theorem CCoinsViewCache.unspent_setCoins (view : CCoinsViewCache) (txid txid' : Uint256)
    (coins : CCoins) (n : Nat) : (view.setCoins txid coins).unspent txid' n =
      if txid' = txid then coins.unspent n else view.unspent txid' n := by
  unfold unspent
  by_cases h : txid' = txid
  · rw [if_pos h, h, getCoins_setCoins_self, Option.bind_some]
  · rw [if_neg h, getCoins_setCoins_of_ne _ h]

/-- An entry is replaced only after its last output was spent, as long as all is clean. -/
theorem restoreInput_clean {s s' : Undoing} {txin : CTxIn} {undo : CTxInUndo}
    (h : restoreInput s txin undo = .accept s') (hclean : s'.fClean = true) :
    s.fClean = true ∧ ∀ txid n, s'.view.unspent txid n =
      if txid = txin.prevout.hash ∧ n = txin.prevout.n.toNat then unspentOf undo.txout
      else s.view.unspent txid n := by
  have hput : ∀ (base : CCoins) (clean : Bool), (∀ n, base.unspent n =
      s.view.unspent txin.prevout.hash n) →
      (do
        let coins ← Verdict.require (base.putOutput txin.prevout.n undo.txout)
        Verdict.accept (⟨s.view.setCoins txin.prevout.hash coins, clean⟩ : Undoing)) = .accept s' →
      ∀ txid n, s'.view.unspent txid n =
        if txid = txin.prevout.hash ∧ n = txin.prevout.n.toNat then unspentOf undo.txout
        else s.view.unspent txid n := by
    intro base clean hbase h txid n
    obtain ⟨coins, hcoins, h⟩ := Verdict.bind_eq_accept.mp h
    rw [Verdict.require_eq_accept] at hcoins
    obtain rfl := Verdict.accept.inj h
    rw [CCoinsViewCache.unspent_setCoins, CCoins.unspent_putOutput hcoins, hbase]
    by_cases htxid : txid = txin.prevout.hash
    · simp [htxid]
    · simp [htxid]
  unfold restoreInput at h
  by_cases hheight : undo.nHeight ≠ 0
  · simp only [hheight, ne_eq, not_false_eq_true, if_true] at h
    obtain ⟨coins, -, haccept⟩ := Verdict.bind_eq_accept.mp h
    obtain rfl := Verdict.accept.inj haccept
    simp only [Bool.and_eq_true] at hclean
    refine ⟨hclean.1.1, hput _ _ ?_ h⟩
    intro n
    rw [← CCoinsViewCache.unspent_coinsAt, CCoins.isPruned_iff.mp hclean.1.2]
    rfl
  · simp only [hheight, if_false] at h
    obtain ⟨coins, -, haccept⟩ := Verdict.bind_eq_accept.mp h
    obtain rfl := Verdict.accept.inj haccept
    simp only [Bool.and_eq_true] at hclean
    refine ⟨hclean.1.1, hput _ _ ?_ h⟩
    intro n
    rw [CCoinsViewCache.unspent_coinsAt]

section Disconnect

variable {H : Hashes} {occurs : CTransaction → Prop} {s s' : Undoing} {tx : CTransaction}
  {txs : List CTransaction} {state : CValidationState} {nHeight : Int}

/-- A list of undo records puts back what their inputs had spent. -/
theorem restoreInputs_clean (hids : TxIds H occurs) {records : List (CTxIn × CTxInUndo)}
    (hrecords : ∀ l ∈ records, Restores H occurs l.1 l.2)
    (h : records.foldlM (fun s l ↦ restoreInput s l.1 l.2) s = .accept s')
    (hclean : s'.fClean = true) :
    s.fClean = true ∧ ∀ txid n o, s'.view.unspent txid n = some o ↔
      ((txid, n) ∈ records.map (fun l ↦ (l.1.prevout.hash, l.1.prevout.n.toNat)) ∧
        Authentic H occurs txid n o) ∨
      ((txid, n) ∉ records.map (fun l ↦ (l.1.prevout.hash, l.1.prevout.n.toNat)) ∧
        s.view.unspent txid n = some o) := by
  induction records generalizing s with
  | nil =>
    cases h
    simp [hclean]
  | cons l records ih =>
    rw [List.foldlM_cons] at h
    obtain ⟨mid, hmid, h⟩ := Verdict.bind_eq_accept.mp h
    obtain ⟨hl, hrecords⟩ := List.forall_mem_cons.mp hrecords
    obtain ⟨hmidclean, hview⟩ := ih hrecords h
    obtain ⟨hsclean, hone⟩ := restoreInput_clean hmid hmidclean
    have hunspent : unspentOf l.2.txout = some l.2.txout := by
      obtain ⟨t, -, -, hout⟩ := hl
      obtain ⟨hnull, heq⟩ := unspentOf_eq_some.mp hout
      rw [heq] at hnull
      exact unspentOf_eq_some.mpr ⟨hnull, rfl⟩
    refine ⟨hsclean, fun txid n o ↦ ?_⟩
    rw [hview, hone, List.map_cons, List.mem_cons, Prod.mk.injEq, not_or]
    by_cases hthis : txid = l.1.prevout.hash ∧ n = l.1.prevout.n.toNat
    · have hauth : Authentic H occurs txid n o ↔ l.2.txout = o := by
        rw [hthis.1, hthis.2]
        constructor
        · exact fun h ↦ Authentic.unique hids hl h
        · exact fun heq ↦ heq ▸ hl
      rw [if_pos hthis, hunspent, Option.some.injEq, hauth]
      tauto
    · rw [if_neg hthis]
      tauto

/-- What is not clean stays so. -/
theorem clean_of_foldlM {α : Type} {f : Undoing → α → Verdict Undoing}
    (hf : ∀ s a s', f s a = .accept s' → s'.fClean = true → s.fClean = true) (l : List α)
    (s s' : Undoing) (h : l.foldlM f s = .accept s') (hclean : s'.fClean = true) :
    s.fClean = true := by
  induction l generalizing s with
  | nil =>
    cases h
    exact hclean
  | cons a l ih =>
    rw [List.foldlM_cons] at h
    obtain ⟨mid, hmid, h⟩ := Verdict.bind_eq_accept.mp h
    exact hf s a mid hmid (ih mid h)

theorem clean_of_disconnectTx {txundo : Option CTxUndo}
    (h : disconnectTx H state nHeight s tx txundo = .accept s') (hclean : s'.fClean = true) :
    s.fClean = true := by
  have hremoved : (removeOutputs s tx nHeight (tx.getHash H)).fClean = true → s.fClean = true :=
    fun h ↦ (Bool.and_eq_true_iff.mp h).1
  unfold disconnectTx at h
  cases txundo with
  | none =>
    obtain rfl := Verdict.accept.inj h
    exact hremoved hclean
  | some u =>
    obtain ⟨-, -, h⟩ := Verdict.bind_eq_accept.mp h
    exact hremoved (clean_of_foldlM (fun s l s' hl hc ↦ (restoreInput_clean hl hc).1) _ _ _ h hclean)

theorem unspent_removeOutputs (s : Undoing) (tx : CTransaction) (nHeight : Int) (hash txid : Uint256)
    (n : Nat) : (removeOutputs s tx nHeight hash).view.unspent txid n =
      if txid = hash then none else s.view.unspent txid n := by
  unfold removeOutputs
  dsimp only
  split
  · rw [CCoinsViewCache.unspent_setCoins]
    rfl
  · next hhave =>
    split
    · next htxid =>
      rw [CCoinsViewCache.haveCoins, Bool.not_eq_true, Option.isSome_eq_false_iff,
        Option.isNone_iff_eq_none] at hhave
      rw [htxid, CCoinsViewCache.unspent, hhave]
      rfl
    · rfl

/-- Taking back the newest transaction of the ledger. -/
theorem records_disconnectTx (hids : TxIds H occurs) (hoccurs : ∀ t ∈ tx :: txs, occurs t)
    (hvalid : (txLedger H).Valid (tx :: txs)) (hrecords : s.view.Records H (tx :: txs))
    {txundo : Option CTxUndo} (hcoinbase : txundo = none → tx.isCoinBase = true)
    (hundo : ∀ u, txundo = some u → tx.isCoinBase = false ∧ UndoFor H occurs tx u)
    (h : disconnectTx H state nHeight s tx txundo = .accept s') (hclean : s'.fClean = true) :
    s.fClean = true ∧ s'.view.Records H txs := by
  have hremoved : ∀ txid n, (removeOutputs s tx nHeight (tx.getHash H)).view.unspent txid n =
      if txid = tx.getHash H then none else s.view.unspent txid n :=
    unspent_removeOutputs s tx nHeight (tx.getHash H)
  have hremovedClean : (removeOutputs s tx nHeight (tx.getHash H)).fClean = true →
      s.fClean = true := by
    intro hremovedClean
    exact (Bool.and_eq_true_iff.mp hremovedClean).1
  -- what is left at an outpoint that this transaction does not spend
  have hkept : ∀ txid n o, (txid, n) ∉ (txLedger H).spends tx →
      ((removeOutputs s tx nHeight (tx.getHash H)).view.unspent txid n = some o ↔
        (txLedger H).Unspent txs txid n o) := by
    intro txid n o hspends
    rw [hremoved]
    by_cases htxid : txid = tx.getHash H
    · rw [if_pos htxid]
      constructor
      · intro hnone
        cases hnone
      · intro ho
        have hmem := ho.1.mem_ids
        rw [htxid] at hmem
        exact absurd hmem hvalid.fresh
    · rw [if_neg htxid, hrecords, hvalid.unspent_cons, txLedger_id]
      simp [htxid, hspends]
  unfold disconnectTx at h
  cases txundo with
  | none =>
    obtain rfl := Verdict.accept.inj h
    refine ⟨hremovedClean hclean, fun txid n o ↦ hkept txid n o ?_⟩
    rw [txLedger]
    simp [spends_of_coinbase (hcoinbase rfl)]
  | some u =>
    obtain ⟨hcb, hfor⟩ := hundo u rfl
    obtain ⟨-, -, hrestore⟩ := Verdict.bind_eq_accept.mp h
    have hzip : ∀ l ∈ (tx.vin.zip u).reverse, Restores H occurs l.1 l.2 := by
      intro l hl
      exact (List.forall₂_iff_zip.mp hfor).2 (List.mem_reverse.mp hl)
    have hspends : ∀ txid n, (txid, n) ∈ (tx.vin.zip u).reverse.map
        (fun l ↦ (l.1.prevout.hash, l.1.prevout.n.toNat)) ↔ (txid, n) ∈ (txLedger H).spends tx := by
      intro txid n
      have hfst : (tx.vin.zip u).map Prod.fst = tx.vin :=
        List.map_fst_zip (List.Forall₂.length_eq hfor).le
      simp only [List.map_reverse, List.mem_reverse, txLedger, spends_of_not_coinbase hcb]
      conv_rhs => rw [← hfst]
      rw [List.map_map]
      rfl
    obtain ⟨hmid, hview⟩ := restoreInputs_clean hids hzip hrestore hclean
    refine ⟨hremovedClean hmid, fun txid n o ↦ ?_⟩
    rw [hview, hspends]
    by_cases hmem : (txid, n) ∈ (txLedger H).spends tx
    · obtain ⟨o', ho'⟩ := hvalid.unspent_of_mem hmem
      have hauth : Authentic H occurs txid n o' := by
        obtain ⟨t, ht, hid, hout⟩ := ho'.1
        exact ⟨t, hoccurs t (List.mem_cons_of_mem tx ht), hid, hout⟩
      simp only [hmem, true_and, not_true_eq_false, false_and, or_false]
      constructor
      · intro h
        rwa [Authentic.unique hids h hauth]
      · intro ho
        obtain rfl := hvalid.tail.created_unique ho.1 ho'.1
        exact hauth
    · simp only [hmem, false_and, false_or, not_false_eq_true, true_and]
      exact hkept txid n o hmem

/-- Taking back a list of transactions, the newest first. -/
theorem records_disconnectTxs (hids : TxIds H occurs)
    (pairs : List (CTransaction × Option CTxUndo))
    (hoccurs : ∀ t ∈ pairs.map Prod.fst ++ txs, occurs t)
    (hpairs : ∀ l ∈ pairs, (l.2 = none → l.1.isCoinBase = true) ∧
      ∀ u, l.2 = some u → l.1.isCoinBase = false ∧ UndoFor H occurs l.1 u)
    (hvalid : (txLedger H).Valid (pairs.map Prod.fst ++ txs))
    (hrecords : s.view.Records H (pairs.map Prod.fst ++ txs))
    (h : pairs.foldlM (fun s l ↦ disconnectTx H state nHeight s l.1 l.2) s = .accept s')
    (hclean : s'.fClean = true) : s.fClean = true ∧ s'.view.Records H txs := by
  induction pairs generalizing s with
  | nil =>
    cases h
    exact ⟨hclean, hrecords⟩
  | cons l pairs ih =>
    rw [List.foldlM_cons] at h
    obtain ⟨mid, hmid, h⟩ := Verdict.bind_eq_accept.mp h
    obtain ⟨⟨hcoinbase, hundo⟩, hpairs⟩ := List.forall_mem_cons.mp hpairs
    rw [List.map_cons, List.cons_append] at hoccurs hvalid hrecords
    have hcleanMid : mid.fClean = true :=
      clean_of_foldlM (fun s l s' hl hc ↦ clean_of_disconnectTx hl hc) _ _ _ h hclean
    obtain ⟨hsclean, hview⟩ := records_disconnectTx hids hoccurs hvalid hrecords hcoinbase hundo hmid
      hcleanMid
    exact ⟨hsclean, (ih (fun t ht ↦ hoccurs t (List.mem_cons_of_mem _ ht)) hpairs hvalid.tail hview
      h).2⟩

/-- Disconnecting a block cleanly takes its transactions off the ledger. -/
theorem records_disconnectBlock (hids : TxIds H occurs) {block : CBlock}
    {blockundo : List CTxUndo} {pindex : ChainIndex} {view : CCoinsViewCache}
    (hundoable : Undoable H occurs block blockundo) (htxs : ∀ t ∈ txs, occurs t)
    (hvalid : (txLedger H).Valid (block.vtx.reverse ++ txs))
    (hrecords : view.Records H (block.vtx.reverse ++ txs))
    (h : disconnectBlock H block state pindex blockundo view = .accept s)
    (hclean : s.fClean = true) : s.view.Records H txs := by
  unfold disconnectBlock at h
  split at h
  · obtain ⟨-, -, h⟩ := Verdict.bind_eq_accept.mp h
    obtain ⟨_, hlength, h⟩ := Verdict.bind_eq_accept.mp h
    obtain ⟨mid, hloop, h⟩ := Verdict.bind_eq_accept.mp h
    obtain rfl := Verdict.accept.inj h
    rw [Verdict.check_eq_accept, decide_eq_true_eq] at hlength
    obtain ⟨cb, vtx, hvtx, hcb, hrest⟩ := hundoable.checked.coinbase
    have hundo := hundoable.undo
    rw [hvtx, List.tail_cons] at hundo
    have hfst : ((block.vtx.zip (none :: blockundo.map some)).reverse.map Prod.fst) =
        block.vtx.reverse := by
      rw [List.map_reverse, List.map_fst_zip]
      simp [← hlength]
    refine (records_disconnectTxs hids (block.vtx.zip (none :: blockundo.map some)).reverse
      ?_ ?_ ?_ ?_ hloop hclean).2
    · rw [hfst]
      intro t ht
      rcases List.mem_append.mp ht with ht | ht
      · exact hundoable.known t (List.mem_reverse.mp ht)
      · exact htxs t ht
    · intro l hl
      rw [List.mem_reverse, hvtx, List.zip_cons_cons, List.mem_cons] at hl
      rcases hl with rfl | hl
      · exact ⟨fun _ ↦ hcb, fun u hu ↦ by cases hu⟩
      · rw [List.zip_map_right, List.mem_map] at hl
        obtain ⟨l', hl', rfl⟩ := hl
        have hmem := (List.of_mem_zip hl').1
        constructor
        · intro hnone
          cases hnone
        · intro u hu
          obtain rfl := Option.some.inj hu
          exact ⟨hrest _ hmem, (List.forall₂_iff_zip.mp hundo).2 hl'⟩
    · rwa [hfst]
    · rwa [hfst]
  · cases h

end Disconnect

end Bitmark
