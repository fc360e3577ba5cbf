import Bitmark.Consensus.ConnectBlock

/-!
# Conservation of value

A connected block creates no more than its subsidy: every outpoint it consumes was unspent and
is consumed once, a transaction creates at most what it consumes, and the coinbase claims at
most the fees and the subsidy. The argument runs over the transaction loop with two invariants,
one for every view and one for views that hold at most `maxMoney`.
-/

namespace Bitmark

/-- The transaction adds this output to the view. -/
def CTransaction.Creates (tx : CTransaction) (i : Nat) (o : CTxOut) : Prop :=
  tx.vout[i]? = some o ∧ isUnspendable o.scriptPubKey = false

/-- The outpoints consumed by a list of transactions, in order. -/
def consumed (vtx : List CTransaction) : List COutPoint :=
  vtx.flatMap fun tx ↦ tx.spends.map CTxIn.prevout

/-- The coins claimed by the coinbases of a list of transactions. -/
def claimed (vtx : List CTransaction) : Int :=
  (vtx.map fun tx ↦ if tx.isCoinBase then sumValues tx.vout else 0).sum

theorem spends_of_coinbase {tx : CTransaction} (h : tx.isCoinBase = true) : tx.spends = [] := by
  rw [CTransaction.spends, if_pos h]

theorem spends_of_not_coinbase {tx : CTransaction} (h : tx.isCoinBase = false) :
    tx.spends = tx.vin := by
  rw [CTransaction.spends, if_neg (by simp [h])]

theorem consumed_append_singleton (vtx : List CTransaction) (tx : CTransaction) :
    consumed (vtx ++ [tx]) = consumed vtx ++ tx.spends.map CTxIn.prevout := by
  simp [consumed]

theorem claimed_append_singleton (vtx : List CTransaction) (tx : CTransaction) :
    claimed (vtx ++ [tx]) = claimed vtx + if tx.isCoinBase then sumValues tx.vout else 0 := by
  simp [claimed]

/-- A checked transaction adds outputs in range, of at most its output value. -/
theorem CTransaction.Checked.nonneg {tx : CTransaction} (h : tx.Checked) :
    ∀ o ∈ tx.vout, 0 ≤ o.nValue :=
  fun o ho ↦ (moneyRange_iff.mp (h.outputs o ho)).1

/-- The running sums of the outputs of a checked transaction are in range. -/
theorem CTransaction.Checked.running {tx : CTransaction} (h : tx.Checked) (k : Nat) :
    moneyRange (sumValues (tx.vout.take k)) := by
  have htotal := moneyRange_iff.mp h.total
  have hsplit : sumValues tx.vout = sumValues (tx.vout.take k) + sumValues (tx.vout.drop k) := by
    conv_lhs => rw [← List.take_append_drop k tx.vout]
    simp [sumValues]
  have hpos : ∀ vout : List CTxOut, (∀ o ∈ vout, 0 ≤ o.nValue) → 0 ≤ sumValues vout :=
    fun vout hv ↦ List.sum_nonneg (by simpa using hv)
  have htake := hpos (tx.vout.take k) fun o ho ↦ h.nonneg o (List.mem_of_mem_take ho)
  have hdrop := hpos (tx.vout.drop k) fun o ho ↦ h.nonneg o (List.mem_of_mem_drop ho)
  rw [moneyRange_iff]
  omega

/-- Only the first transaction of a block claims coins. -/
theorem CBlock.Checked.claimed_eq {H : Hashes} {block : CBlock} {cb : CTransaction}
    {vtx : List CTransaction} (h : block.Checked H) (hvtx : block.vtx = cb :: vtx) :
    claimed block.vtx = sumValues cb.vout := by
  obtain ⟨cb', vtx', hvtx', hcb, hrest⟩ := h.coinbase
  obtain ⟨rfl, rfl⟩ := List.cons.inj (hvtx.symm.trans hvtx')
  have hzero : claimed vtx = 0 := by
    refine List.sum_eq_zero fun x hx ↦ ?_
    obtain ⟨tx, hmem, rfl⟩ := List.mem_map.mp hx
    rw [if_neg (by simp [hrest tx hmem])]
  rw [hvtx, ← List.singleton_append, claimed, List.map_append, List.sum_append]
  change _ + claimed vtx = _
  simp [hzero, hcb]

/-- The unspent outputs of a fresh entry are those the transaction creates. -/
theorem creates_of_unspent {tx : CTransaction} {nHeight : Int} {i : Nat} {o : CTxOut}
    (h : (CCoins.ofTransaction tx nHeight).unspent i = some o) : tx.Creates i o := by
  rw [CCoins.unspent_ofTransaction, Option.bind_eq_some_iff] at h
  obtain ⟨o', ho', h⟩ := h
  split at h
  · cases h
  · next hspendable =>
    obtain ⟨-, rfl⟩ := unspentOf_eq_some.mp h
    exact ⟨ho', by simpa using hspendable⟩

namespace CCoinsViewCache

/-- The spent outpoints of an applied transaction were unspent. -/
theorem Applied.found_unspent {view view' : CCoinsViewCache} {tx : CTransaction} {nHeight : Int}
    {txid : Uint256} {txundo : CTxUndo} (h : Applied view view' tx nHeight txid txundo)
    {txin : CTxIn} (hmem : txin ∈ tx.spends) :
    ∃ o, view.unspent txin.prevout.hash txin.prevout.n.toNat = some o := by
  have hsome : view.getOutputFor txin ∈ txundo.map fun undo ↦ some undo.txout :=
    h.found ▸ List.mem_map_of_mem hmem
  obtain ⟨undo, -, hundo⟩ := List.mem_map.mp hsome
  exact ⟨undo.txout, by rw [← getOutputFor_eq, ← hundo]⟩

end CCoinsViewCache

/-! ### The invariant for every view -/

/-- What holds when the transactions `pre` of a block have been run from `view` and `rest` are
still to come. -/
structure Accounted (H : Hashes) (view : CCoinsViewCache) (pre rest : List CTransaction)
    (p : Progress) : Prop where
  available : ∀ txid i o, p.view.unspent txid i = some o →
    view.unspent txid i = some o ∨ ∃ tx ∈ pre, tx.getHash H = txid ∧ tx.Creates i o
  gone : ∀ out ∈ consumed pre, p.view.unspent out.hash out.n.toNat = none
  not_recreated : ∀ out ∈ consumed pre, ∀ tx ∈ rest, tx.getHash H ≠ out.hash
  nodup : (consumed pre).Nodup
  pruned : ∀ tx ∈ rest, p.view.PrunedAt (tx.getHash H)
  fees : ∃ fees, 0 ≤ fees ∧ p.nFees = toInt64 fees ∧
    p.view.total + fees ≤ view.total + claimed pre

/-- BIP30 starts the invariant. -/
theorem accounted_nil {H : Hashes} {view : CCoinsViewCache} {vtx : List CTransaction}
    (h : ∀ tx ∈ vtx, view.PrunedAt (tx.getHash H)) : Accounted H view [] vtx { view } where
  available _ _ _ ho := .inl ho
  gone := by simp [consumed]
  not_recreated := by simp [consumed]
  nodup := by simp [consumed]
  pruned := h
  fees := ⟨0, le_rfl, rfl, by simp [claimed]⟩

section Step

variable {node : Node} {state : CValidationState} {pprev : ChainIndex} {fScriptChecks : Bool}
  {flags : BitVec 32} {view : CCoinsViewCache} {p p' : Progress}

/-- One round of the loop keeps the invariant. -/
theorem accounted_step {pre rest : List CTransaction} {tx : CTransaction}
    (hinv : Accounted node.hashes view pre (tx :: rest) p) (htx : tx.Checked)
    (hfresh : ∀ tx' ∈ rest, tx'.getHash node.hashes ≠ tx.getHash node.hashes)
    (h : node.connectTx state pprev fScriptChecks flags p tx = .accept p') :
    Accounted node.hashes view (pre ++ [tx]) rest p' := by
  obtain ⟨txundo, hupdate, hcase⟩ := Node.connectTx_eq_accept h
  have hpruned := hinv.pruned tx List.mem_cons_self
  have happ := CCoinsViewCache.updateCoins_eq_some hpruned hupdate
  have hspent : ∀ out ∈ tx.spends.map CTxIn.prevout,
      ∃ o, p.view.unspent out.hash out.n.toNat = some o := by
    intro out hout
    obtain ⟨txin, hmem, rfl⟩ := List.mem_map.mp hout
    exact happ.found_unspent hmem
  -- an outpoint with an unspent output belongs to no transaction still to come
  have hother : ∀ out ∈ tx.spends.map CTxIn.prevout, ∀ tx' ∈ tx :: rest,
      tx'.getHash node.hashes ≠ out.hash := by
    intro out hout tx' hmem heq
    obtain ⟨o, ho⟩ := hspent out hout
    rw [← heq, (hinv.pruned tx' hmem).unspent] at ho
    cases ho
  refine ⟨fun txid i o ho ↦ ?_, fun out hout ↦ ?_, fun out hout tx' hmem ↦ ?_, ?_,
    fun tx' hmem ↦ ?_, ?_⟩
  · rw [happ.unspent] at ho
    split at ho
    · next htxid => exact .inr ⟨tx, by simp, htxid.symm, creates_of_unspent ho⟩
    · split at ho
      · cases ho
      · rcases hinv.available txid i o ho with hv | ⟨tx', hmem, hh, hc⟩
        · exact .inl hv
        · exact .inr ⟨tx', List.mem_append_left _ hmem, hh, hc⟩
  · rw [consumed_append_singleton, List.mem_append] at hout
    rw [happ.unspent]
    rcases hout with hout | hout
    · rw [if_neg (hinv.not_recreated out hout tx List.mem_cons_self).symm, hinv.gone out hout]
      exact ite_self _
    · obtain ⟨txin, hmem, rfl⟩ := List.mem_map.mp hout
      rw [if_neg (hother _ hout tx List.mem_cons_self).symm, if_pos ⟨txin, hmem, rfl, rfl⟩]
  · rw [consumed_append_singleton, List.mem_append] at hout
    rcases hout with hout | hout
    · exact hinv.not_recreated out hout tx' (List.mem_cons_of_mem _ hmem)
    · exact hother out hout tx' (List.mem_cons_of_mem _ hmem)
  · rw [consumed_append_singleton]
    refine hinv.nodup.append happ.nodup fun out hpre hout ↦ ?_
    obtain ⟨o, ho⟩ := hspent out hout
    rw [hinv.gone out hpre] at ho
    cases ho
  · refine CCoinsViewCache.prunedAt_iff.mpr fun i ↦ ?_
    rw [happ.unspent, if_neg (hfresh tx' hmem),
      (hinv.pruned tx' (List.mem_cons_of_mem _ hmem)).unspent]
    exact ite_self _
  · obtain ⟨fees, hnonneg, hfees, htotal⟩ := hinv.fees
    have hcreated := (CCoins.total_ofTransaction_le tx pprev.length htx.nonneg).2
    rw [claimed_append_singleton, happ.total]
    rcases hcase with ⟨hcb, hsame, -⟩ | ⟨hcb, hinputs, hfee, -⟩
    · refine ⟨fees, hnonneg, hsame.trans hfees, ?_⟩
      rw [spends_of_coinbase hcb, if_pos hcb, p.view.inputValue_nil]
      linarith
    · have hle := hinputs.value_out_le
      refine ⟨fees + (p.view.inputValue tx.vin - sumValues tx.vout), by omega, ?_, ?_⟩
      · rw [hfee, hfees, toInt64_add_toInt64]
      · rw [spends_of_not_coinbase hcb, if_neg (by simp [hcb])]
        linarith

/-- Any number of rounds keeps the invariant. -/
theorem accounted_run {pre mid rest : List CTransaction}
    (hinv : Accounted node.hashes view pre (mid ++ rest) p) (htxs : ∀ tx ∈ mid, tx.Checked)
    (hfresh : ((mid ++ rest).map (·.getHash node.hashes)).Nodup)
    (h : node.connectTxs state pprev fScriptChecks flags p mid = .accept p') :
    Accounted node.hashes view (pre ++ mid) rest p' := by
  induction mid generalizing pre p with
  | nil =>
    cases h
    simpa using hinv
  | cons tx mid ih =>
    rw [Node.connectTxs, Verdict.bind_eq_accept] at h
    obtain ⟨q, hq, h⟩ := h
    rw [List.forall_mem_cons] at htxs
    rw [List.cons_append, List.map_cons, List.nodup_cons] at hfresh
    have hne : ∀ tx' ∈ mid ++ rest, tx'.getHash node.hashes ≠ tx.getHash node.hashes :=
      fun tx' hmem heq ↦ hfresh.1 (heq ▸ List.mem_map_of_mem hmem)
    have hstep := accounted_step hinv htxs.1 hne hq
    have hrun := ih hstep htxs.2 hfresh.2 h
    rwa [List.append_assoc, List.singleton_append] at hrun

end Step

/-! ### The invariant for views within the money supply -/

/-- What holds behind the coinbase `cb` of a block at height `nHeight`: its outputs are
immature and stay where they are, and what the other outputs lost covers the fees. -/
structure Backed (H : Hashes) (cb : CTransaction) (nHeight : Int) (view : CCoinsViewCache)
    (p : Progress) : Prop where
  nonneg : p.view.Nonneg
  fees : moneyRange p.nFees
  covered : p.view.total - p.view.totalAt (cb.getHash H) + p.nFees ≤ view.total
  coinbase : p.view.getCoins (cb.getHash H) = some (CCoins.ofTransaction cb nHeight)

/-- Applying a checked transaction creates no negative output. -/
theorem CCoinsViewCache.Applied.nonneg {view view' : CCoinsViewCache} {tx : CTransaction}
    {nHeight : Int} {txid : Uint256} {txundo : CTxUndo} (h : Applied view view' tx nHeight txid txundo)
    (htx : tx.Checked) (hview : view.Nonneg) : view'.Nonneg := by
  intro txid' i o ho
  rw [h.unspent] at ho
  split at ho
  · exact htx.nonneg o (List.mem_of_getElem? (creates_of_unspent ho).1)
  · split at ho
    · cases ho
    · exact hview txid' i o ho

section Step

variable {node : Node} {state : CValidationState} {pprev : ChainIndex} {fScriptChecks : Bool}
  {flags : BitVec 32} {view : CCoinsViewCache} {p p' : Progress} {cb : CTransaction}

/-- The coinbase starts the invariant. -/
theorem backed_coinbase (hcb : cb.isCoinBase = true) (hchecked : cb.Checked) (hview : view.Nonneg)
    (hpruned : view.PrunedAt (cb.getHash node.hashes))
    (h : node.connectTx state pprev fScriptChecks flags { view } cb = .accept p') :
    Backed node.hashes cb pprev.length view p' := by
  obtain ⟨txundo, hupdate, hcase⟩ := Node.connectTx_eq_accept h
  have happ := CCoinsViewCache.updateCoins_eq_some hpruned hupdate
  have hfees : p'.nFees = 0 := by
    rcases hcase with ⟨-, hsame, -⟩ | ⟨hno, -⟩
    · exact hsame
    · rw [hcb] at hno
      cases hno
  refine ⟨happ.nonneg hchecked hview, by rw [hfees]; decide, ?_, happ.entry⟩
  rw [happ.total, CCoinsViewCache.totalAt_of_getCoins happ.entry, hfees, spends_of_coinbase hcb,
    CCoinsViewCache.inputValue_nil]
  simp

/-- One round for any other transaction keeps the invariant: it cannot spend the coinbase. -/
theorem backed_step {tx : CTransaction} (hcb : cb.isCoinBase = true)
    (hinv : Backed node.hashes cb pprev.length view p) (hmax : view.total ≤ maxMoney)
    (htx : tx.Checked) (hno : tx.isCoinBase = false)
    (hne : cb.getHash node.hashes ≠ tx.getHash node.hashes)
    (hpruned : p.view.PrunedAt (tx.getHash node.hashes))
    (h : node.connectTx state pprev fScriptChecks flags p tx = .accept p') :
    Backed node.hashes cb pprev.length view p' := by
  obtain ⟨txundo, hupdate, hcase⟩ := Node.connectTx_eq_accept h
  have happ := CCoinsViewCache.updateCoins_eq_some hpruned hupdate
  rcases hcase with ⟨hyes, -⟩ | ⟨-, hinputs, hfee, -⟩
  · rw [hno] at hyes
    cases hyes
  have hframe : p'.view.getCoins (cb.getHash node.hashes) = p.view.getCoins (cb.getHash node.hashes) := by
    refine happ.frame _ hne fun txin hmem heq ↦ ?_
    rw [spends_of_not_coinbase hno] at hmem
    have hmature := hinputs.mature txin hmem _ (heq ▸ hinv.coinbase) hcb
    have hrule : coinbaseMaturity = 720 := rfl
    simp only [CCoins.ofTransaction, sub_self] at hmature
    omega
  have hnonneg := happ.nonneg htx hinv.nonneg
  have hrest := hnonneg.totalAt_le (cb.getHash node.hashes)
  have hcreated := (CCoins.total_ofTransaction_le tx pprev.length htx.nonneg).2
  have hfees := moneyRange_iff.mp hinv.fees
  have hout := moneyRange_iff.mp htx.total
  have hin := moneyRange_iff.mp hinputs.inputValue_range
  have hle := hinputs.value_out_le
  have hcap : maxMoney = 2800000000000000 := rfl
  have hwrap : p'.nFees = p.nFees + (p.view.inputValue tx.vin - sumValues tx.vout) := by
    rw [hfee, toInt64_of_range] <;> omega
  have htotal := happ.total
  rw [spends_of_not_coinbase hno] at htotal
  have hcovered : p'.view.total - p'.view.totalAt (cb.getHash node.hashes) + p'.nFees ≤
      view.total := by
    have := hinv.covered
    rw [CCoinsViewCache.totalAt_congr hframe, htotal, hwrap]
    linarith
  refine ⟨hnonneg, ?_, hcovered, hframe.trans hinv.coinbase⟩
  rw [moneyRange_iff]
  omega

/-- Any number of rounds behind the coinbase keeps both invariants. -/
theorem backed_run {pre mid rest : List CTransaction} (hcb : cb.isCoinBase = true)
    (hinv : Backed node.hashes cb pprev.length view p) (hmax : view.total ≤ maxMoney)
    (hacc : Accounted node.hashes view pre (mid ++ rest) p)
    (htxs : ∀ tx ∈ mid, tx.Checked ∧ tx.isCoinBase = false)
    (hfresh : ((cb :: mid ++ rest).map (·.getHash node.hashes)).Nodup)
    (h : node.connectTxs state pprev fScriptChecks flags p mid = .accept p') :
    Backed node.hashes cb pprev.length view p' := by
  induction mid generalizing pre p with
  | nil =>
    cases h
    exact hinv
  | cons tx mid ih =>
    rw [Node.connectTxs, Verdict.bind_eq_accept] at h
    obtain ⟨q, hq, h⟩ := h
    rw [List.forall_mem_cons] at htxs
    simp only [List.cons_append, List.map_cons, List.nodup_cons, List.mem_cons, not_or] at hfresh
    obtain ⟨⟨hne, hcbrest⟩, htxrest, hrest⟩ := hfresh
    have hfresh' : ∀ tx' ∈ mid ++ rest, tx'.getHash node.hashes ≠ tx.getHash node.hashes :=
      fun tx' hmem heq ↦ htxrest (heq ▸ List.mem_map_of_mem hmem)
    have hstep := backed_step hcb hinv hmax htxs.1.1 htxs.1.2 hne
      (hacc.pruned tx List.mem_cons_self) hq
    refine ih hstep (accounted_step hacc htxs.1.1 hfresh' hq) htxs.2 ?_ h
    simp only [List.cons_append, List.map_cons, List.nodup_cons]
    exact ⟨hcbrest, hrest⟩

end Step

/-! ### A connected block -/

/-- What connecting a block other than genesis guarantees, whatever the view. -/
structure ConservesValue (node : Node) (block : CBlock) (state : CValidationState)
    (pindex : ChainIndex) (view : CCoinsViewCache) (r : Connected) : Prop where
  /-- Nothing is consumed twice. -/
  consumed_once : (consumed block.vtx).Nodup
  /-- What is consumed was unspent, or was created by an earlier transaction. -/
  consumed_unspent : ∀ pre tx post, block.vtx = pre ++ tx :: post → ∀ txin ∈ tx.spends,
    (∃ o, view.unspent txin.prevout.hash txin.prevout.n.toNat = some o) ∨
      ∃ tx' ∈ pre, tx'.getHash node.hashes = txin.prevout.hash ∧
        ∃ o, tx'.Creates txin.prevout.n.toNat o
  /-- What is consumed is gone. -/
  consumed_gone : ∀ out ∈ consumed block.vtx, r.view.unspent out.hash out.n.toNat = none
  /-- Output values and their running sums are in range. -/
  outputs : ∀ tx ∈ block.vtx, (∀ o ∈ tx.vout, moneyRange o.nValue) ∧
    ∀ k, moneyRange (sumValues (tx.vout.take k))
  /-- The running sums of input values, and the fee, are in range. -/
  inputs : ∀ pre tx post p, block.vtx = pre ++ tx :: post → tx.isCoinBase = false →
    node.runTxs block state pindex view pre = .accept p →
    (∀ k, moneyRange (p.view.inputValue (tx.vin.take k))) ∧
      moneyRange (p.view.inputValue tx.vin - sumValues tx.vout)
  /-- The running sum of the fees is in range when the view is. -/
  fees : view.Nonneg → view.total ≤ maxMoney → ∀ pre post p, block.vtx = pre ++ post →
    node.runTxs block state pindex view pre = .accept p → moneyRange p.nFees

section Block

variable {node : Node} {block : CBlock} {state : CValidationState} {pindex : ChainIndex}
  {view : CCoinsViewCache} {fJustCheck : Bool} {r : Connected}

/-- The invariant for every view, at any point of the transaction loop. -/
theorem accounted_runTxs {pre post : List CTransaction} {p : Progress}
    (hchecked : block.Checked node.hashes) (hvtx : block.vtx = pre ++ post)
    (hpruned : ∀ tx ∈ block.vtx, view.PrunedAt (tx.getHash node.hashes))
    (h : node.runTxs block state pindex view pre = .accept p) :
    Accounted node.hashes view pre post p := by
  have hdistinct := hchecked.hashes_nodup
  rw [CBlock.txHashes, hvtx] at hdistinct
  rw [hvtx] at hpruned
  have hstart : Accounted node.hashes view [] (pre ++ post) { view } := accounted_nil hpruned
  refine accounted_run hstart (fun tx hmem ↦ ?_) hdistinct h
  exact hchecked.transactions tx (by rw [hvtx]; exact List.mem_append_left _ hmem)

/-- A run over all transactions passes through each of them. -/
theorem runTxs_split {pre post : List CTransaction} {tx : CTransaction} {p : Progress}
    (hvtx : block.vtx = pre ++ tx :: post)
    (h : node.runTxs block state pindex view block.vtx = .accept p) :
    ∃ q q', node.runTxs block state pindex view pre = .accept q ∧
      node.connectTx state pindex.tail (decide (node.totalBlocksEstimate ≤ pindex.tail.length))
        (scriptFlags block.nVersion pindex) q tx = .accept q' := by
  rw [hvtx, Node.runTxs, Node.connectTxs_append] at h
  obtain ⟨q, hq, h⟩ := h
  rw [Node.connectTxs, Verdict.bind_eq_accept] at h
  obtain ⟨q', hq', -⟩ := h
  exact ⟨q, q', hq, hq'⟩

/-- The fees stay in range, at any point of the transaction loop. -/
theorem fees_in_range {pre post : List CTransaction} {p : Progress}
    (hchecked : block.Checked node.hashes)
    (hpruned : ∀ tx ∈ block.vtx, view.PrunedAt (tx.getHash node.hashes))
    (hview : view.Nonneg) (hmax : view.total ≤ maxMoney) (hvtx : block.vtx = pre ++ post)
    (h : node.runTxs block state pindex view pre = .accept p) : moneyRange p.nFees := by
  obtain ⟨cb, vtx, hcons, hcb, hrest⟩ := hchecked.coinbase
  cases pre with
  | nil =>
    cases h
    rfl
  | cons tx pre =>
    obtain ⟨rfl, hsplit⟩ := List.cons.inj (hcons.symm.trans hvtx)
    rw [Node.runTxs, Node.connectTxs, Verdict.bind_eq_accept] at h
    obtain ⟨q, hq, h⟩ := h
    have hmem : cb ∈ block.vtx := by simp [hcons]
    have hstart := backed_coinbase hcb (hchecked.transactions cb hmem) hview (hpruned cb hmem) hq
    have hdistinct := hchecked.hashes_nodup
    rw [CBlock.txHashes, hvtx] at hdistinct
    have hacc : Accounted node.hashes view [cb] (pre ++ post) q := by
      have hrun : node.runTxs block state pindex view [cb] = .accept q := by
        rw [Node.runTxs, Node.connectTxs, Verdict.bind_eq_accept]
        exact ⟨q, hq, rfl⟩
      exact accounted_runTxs hchecked (by simp [hvtx]) hpruned hrun
    refine (backed_run hcb hstart hmax hacc (fun tx hmem ↦ ?_) hdistinct h).fees
    have hvtx' : tx ∈ vtx := by rw [hsplit]; exact List.mem_append_left _ hmem
    exact ⟨hchecked.transactions tx (by simp [hcons, hvtx']), hrest tx hvtx'⟩

/-- The value of the view after a connected block. -/
theorem total_connected_le {cb : CTransaction} {vtx : List CTransaction} {p : Progress}
    (hchecked : block.Checked node.hashes) (hvtx : block.vtx = cb :: vtx)
    (hpruned : ∀ tx ∈ block.vtx, view.PrunedAt (tx.getHash node.hashes))
    (hrun : node.runTxs block state pindex view block.vtx = .accept p)
    (hfinish : node.finishBlock cb state pindex p fJustCheck = .accept r) :
    r.view.total ≤ view.total + getBlockValue node.params r.pindex 0 := by
  obtain ⟨fees, hnonneg, hfees, htotal⟩ :=
    (accounted_runTxs hchecked (List.append_nil _).symm hpruned hrun).fees
  obtain ⟨-, hle, b, pprev, hidx, hr⟩ := Node.finishBlock_eq_accept hfinish
  have hclaimed := hchecked.claimed_eq hvtx
  have hvalue : getBlockValue node.params
      (if fJustCheck then pindex else setScalingFactor pindex) p.nFees ≤
        fees + subsidy node.params (scaledIndex pindex fJustCheck) false := by
    rw [scaledIndex, subsidy_cacheScalingFactor, getBlockValue, hfees, toInt64_add_toInt64]
    exact getBlockValue_le node.params hnonneg
  have hview : r.view.total = p.view.total :=
    congrArg (Finmap.sumValues CCoins.total) (Node.finishBlock_cacheCoins hfinish)
  have hsubsidy : subsidy node.params r.pindex false =
      subsidy node.params (scaledIndex pindex fJustCheck) false := by
    rw [hr, hidx]
    split
    · rfl
    · refine subsidy_head node.params ?_ (scalingFactor_head ?_ ?_ pprev) false <;> rfl
  rw [getBlockValue_zero, hsubsidy, hview]
  omega

/-- Connecting a block conserves value. The total of the unspent outputs grows by at most the
subsidy; a block other than genesis consumes every outpoint once and out of what is there. -/
theorem connectBlock_conserves
    (hgenesis : block.getHash node.hashes = node.params.hashGenesisBlock → pindex.tail = [])
    (h : node.connectBlock block state pindex view fJustCheck = .accept r) :
    r.view.total ≤ view.total + getBlockValue node.params r.pindex 0 ∧
      (block.getHash node.hashes = node.params.hashGenesisBlock →
        r.view.cacheCoins = view.cacheCoins) ∧
      (block.getHash node.hashes ≠ node.params.hashGenesisBlock →
        ConservesValue node block state pindex view r) := by
  obtain ⟨hchecked, -, -, b, pprev, cb, vtx, rfl, hvtx, hcase⟩ := Node.connectBlock_eq_accept h
  rcases hcase with ⟨heq, rfl⟩ | ⟨hne, hpruned, p, hrun, hfinish⟩
  · refine ⟨?_, fun _ ↦ rfl, fun hne ↦ absurd heq hne⟩
    obtain rfl : pprev = [] := hgenesis heq
    have hfork : ∀ b' : CBlockIndex, onFork [b'] = false := fun _ ↦ rfl
    have hpre := (preForkSubsidy_range node.params 0).1
    rw [getBlockValue_zero, subsidy, hfork]
    simpa using hpre
  · refine ⟨total_connected_le hchecked hvtx hpruned hrun hfinish, fun heq ↦ absurd heq hne,
      fun _ ↦ ?_⟩
    have hfinal := accounted_runTxs hchecked (List.append_nil _).symm hpruned hrun
    refine ⟨hfinal.nodup, fun pre tx post heq txin hmem ↦ ?_, fun out hout ↦ ?_,
      fun tx hmem ↦ ?_, fun pre tx post q heq hno hq ↦ ?_, fun hview hmax pre post q heq hq ↦ ?_⟩
    · obtain ⟨q, q', hq, hstep⟩ := runTxs_split heq hrun
      have hacc := accounted_runTxs hchecked heq hpruned hq
      obtain ⟨txundo, hupdate, -⟩ := Node.connectTx_eq_accept hstep
      have happ := CCoinsViewCache.updateCoins_eq_some (hacc.pruned tx List.mem_cons_self) hupdate
      obtain ⟨o, ho⟩ := happ.found_unspent hmem
      rcases hacc.available _ _ _ ho with hv | ⟨tx', hmem', hh, hc⟩
      · exact .inl ⟨o, hv⟩
      · exact .inr ⟨tx', hmem', hh, o, hc⟩
    · rw [← hfinal.gone out hout, CCoinsViewCache.unspent, CCoinsViewCache.unspent,
        CCoinsViewCache.getCoins, Node.finishBlock_cacheCoins hfinish]
      rfl
    · exact ⟨(hchecked.transactions tx hmem).outputs, (hchecked.transactions tx hmem).running⟩
    · obtain ⟨q₀, q', hq₀, hstep⟩ := runTxs_split heq hrun
      obtain rfl : q₀ = q := Verdict.accept.inj (hq₀.symm.trans hq)
      obtain ⟨_, -, hcase⟩ := Node.connectTx_eq_accept hstep
      rcases hcase with ⟨hyes, -⟩ | ⟨-, hinputs, -⟩
      · rw [hno] at hyes
        cases hyes
      · have htx := hchecked.transactions tx (by rw [heq]; simp)
        have hin := moneyRange_iff.mp hinputs.inputValue_range
        have hout := moneyRange_iff.mp htx.total
        have hle := hinputs.value_out_le
        refine ⟨hinputs.running, ?_⟩
        rw [moneyRange_iff]
        omega
    · exact fees_in_range hchecked hpruned hview hmax heq hq

end Block

/-! ### Concrete blocks -/

/-- A node whose hash functions are easy to compute and whose scripts all succeed. -/
def toyNode : Node where
  hashes := { toyHashes with scrypt := fun _ ↦ 0 }
  params := mainParams
  equihash := fun _ _ ↦ true
  verifyScript := fun _ _ _ _ _ ↦ true
  nNow := 1500000000

def toyParent : CBlockIndex := ⟨0x67, 1, 1405274442, 0x1d00ffff, 2000000000, 0⟩

def toyCoinbase (nValue : Int) : CTransaction :=
  { vin := [⟨.null, [1, 1], -1⟩], vout := [⟨nValue, []⟩] }

def toySpend (prevout : COutPoint) (nValue : Int) : CTransaction :=
  { vin := [⟨prevout, [], -1⟩], vout := [⟨nValue, []⟩] }

/-- A valid block with these transactions on top of `toyParent`. -/
def toyBlock (vtx : List CTransaction) : CBlock :=
  { nVersion := 4
    hashPrevBlock := toyParent.blockHash
    hashMerkleRoot := CBlock.buildMerkleTree toyNode.hashes { vtx }
    nTime := 1405274562
    nBits := 0x1d00ffff
    vtx }

def toyIndex (block : CBlock) : ChainIndex :=
  [⟨block.getHash toyNode.hashes, block.nVersion, block.nTime, block.nBits, 0, 0⟩, toyParent]

/-- A view with one unspent output in each of the given transactions. -/
def toyView (values : List (Uint256 × Int)) : CCoinsViewCache :=
  values.foldl (fun view c ↦ view.setCoins c.1 ⟨false, [⟨c.2, []⟩], 1, 1⟩) ⟨∅, toyParent.blockHash⟩

/-- The first transaction of the chain of spends below. -/
def firstSpend : CTransaction := toySpend ⟨1, 0⟩ 3000000000

/-- `connectBlock_conserves` for a block whose third transaction spends the second. -/
theorem connectBlock_conserves_spendChain :
    let block := toyBlock [toyCoinbase 2000000000, firstSpend,
      toySpend ⟨firstSpend.getHash toyNode.hashes, 0⟩ 2500000000]
    let view := toyView [(1, 5000000000)]
    ∃ r, toyNode.connectBlock block {} (toyIndex block) view false = .accept r ∧
      r.view.total ≤ view.total + getBlockValue mainParams r.pindex 0 ∧
      ConservesValue toyNode block {} (toyIndex block) view r := by
  intro block view
  have haccept : (toyNode.connectBlock block {} (toyIndex block) view false).result.isSome := by
    decide +kernel
  obtain ⟨r, hr⟩ := Option.isSome_iff_exists.mp haccept
  have hconnect := Verdict.result_eq_some.mp hr
  have hgenesis : block.getHash toyNode.hashes ≠ toyNode.params.hashGenesisBlock := by
    decide +kernel
  obtain ⟨htotal, -, hconserves⟩ := connectBlock_conserves (fun h ↦ absurd h hgenesis) hconnect
  exact ⟨r, hconnect, htotal, hconserves hgenesis⟩

/-- From a view that holds more than `maxMoney` the fees leave the range: nothing checks them
against it. -/
theorem connectBlock_fees_leave_range :
    let block := toyBlock [toyCoinbase 0, toySpend ⟨1, 0⟩ 0, toySpend ⟨2, 0⟩ 0]
    let view := toyView [(1, maxMoney), (2, maxMoney)]
    toyNode.checkBlock block {} true true = .accept () ∧
      ∃ r p, toyNode.connectBlock block {} (toyIndex block) view false = .accept r ∧
        toyNode.runTxs block {} (toyIndex block) view block.vtx = .accept p ∧
        p.nFees = 2 * maxMoney ∧ moneyRange p.nFees = false := by
  intro block view
  have hcheck : toyNode.checkBlock block {} true true = .accept () := by decide +kernel
  have haccept : (toyNode.connectBlock block {} (toyIndex block) view false).result.isSome := by
    decide +kernel
  have hfees : (toyNode.runTxs block {} (toyIndex block) view block.vtx).result.map (·.nFees) =
      some (2 * maxMoney) := by
    decide
  obtain ⟨r, hr⟩ := Option.isSome_iff_exists.mp haccept
  obtain ⟨p, hp, hvalue⟩ := Option.map_eq_some_iff.mp hfees
  refine ⟨hcheck, r, p, Verdict.result_eq_some.mp hr, Verdict.result_eq_some.mp hp, hvalue, ?_⟩
  rw [hvalue]
  decide

end Bitmark
