import Bitmark.Coins.Meaning
import Bitmark.Consensus.Conservation
import Bitmark.Lib.UndoLog

/-!
# Disconnecting a block

`DisconnectBlock`, `src/main.cpp:2002`, and that it takes back what `ConnectBlock` did. The undo
data are those `ConnectBlock` wrote; reading them back from disk is not modelled.
-/

namespace Bitmark

/-- What the loops of `DisconnectBlock` carry along. -/
structure Undoing where
  view : CCoinsViewCache
  fClean : Bool := true

/-- `vout.resize(k)` where it makes the vector longer, `src/main.cpp:2069`. -/
def growVout (vout : List CTxOut) (k : Nat) : List CTxOut :=
  if vout.length < k then vout ++ List.replicate (k - vout.length) .null else vout

/-- Put an output into an entry, `src/main.cpp:2069–2071`. `out.n + 1` is computed in 32 bits, and
a write outside the vector does not return. -/
def CCoins.putOutput (coins : CCoins) (n : BitVec 32) (txout : CTxOut) : Option CCoins :=
  let vout := growVout coins.vout (n + 1).toNat
  if n.toNat < vout.length then some { coins with vout := vout.set n.toNat txout } else none

/-- Restore the output an input had spent, `src/main.cpp:2049–2073`. -/
def restoreInput (s : Undoing) (txin : CTxIn) (undo : CTxInUndo) : Verdict Undoing := do
  let out := txin.prevout
  let coins := s.view.coinsAt out.hash
  let (coins, fClean) : CCoins × Bool :=
    if undo.nHeight ≠ 0 then
      ({ fCoinBase := undo.fCoinBase, nHeight := undo.nHeight, nVersion := undo.nVersion },
        s.fClean && coins.isPruned)
    else (coins, s.fClean && !coins.isPruned)
  let fClean := fClean && !coins.isAvailable out.n.toNat
  let coins ← .require (coins.putOutput out.n undo.txout)
  .accept ⟨s.view.setCoins out.hash coins, fClean⟩

/-- The loop over the inputs of a transaction, last one first. -/
def restoreInputs (s : Undoing) (vin : List CTxIn) (vprevout : List CTxInUndo) : Verdict Undoing :=
  (vin.zip vprevout).reverse.foldlM (fun s l ↦ restoreInput s l.1 l.2) s

/-- Remove the outputs of a transaction after comparing them with the block's,
`src/main.cpp:2025–2044`. -/
def removeOutputs (s : Undoing) (tx : CTransaction) (nHeight : Int) (hash : Uint256) : Undoing :=
  let outs := s.view.coinsAt hash
  let outs := { outs with vout := clearUnspendable outs.vout }
  let outsBlock := CCoins.ofTransaction tx nHeight
  let outs := if outsBlock.nVersion.toInt < 0 then { outs with nVersion := outsBlock.nVersion } else outs
  -- without an entry the outputs are those of a local variable
  ⟨if s.view.haveCoins hash then s.view.setCoins hash {} else s.view,
    s.fClean && outs.beq outsBlock⟩

/-- Take back one transaction; the coinbase comes without undo data. -/
def disconnectTx (H : Hashes) (state : CValidationState) (nHeight : Int) (s : Undoing)
    (tx : CTransaction) (txundo : Option CTxUndo) : Verdict Undoing :=
  let s := removeOutputs s tx nHeight (tx.getHash H)
  match txundo with
  | none => .accept s
  | some txundo => do
    .check (decide (txundo.length = tx.vin.length)) state
    restoreInputs s tx.vin txundo

/-- `DisconnectBlock`, `src/main.cpp:2002`, with `fClean` as part of the result. -/
def disconnectBlock (H : Hashes) (block : CBlock) (state : CValidationState) (pindex : ChainIndex)
    (blockUndo : List CTxUndo) (view : CCoinsViewCache) : Verdict Undoing :=
  match pindex with
  | b :: pprev :: rest => do
    .require (if b.blockHash = view.hashBlock then some () else none)
    .check (decide (blockUndo.length + 1 = block.vtx.length)) state
    let s ← (block.vtx.zip (none :: blockUndo.map some)).reverse.foldlM
      (fun s l ↦ disconnectTx H state (pprev :: rest).length s l.1 l.2) { view }
    .accept { s with view := s.view.setBestBlock pprev.blockHash }
  | _ => .abort

/-! ### Taking back one input -/

/-- The state `s` of `DisconnectBlock` stands for a view: so far everything matched, both mean
the same, and the entries of the block's transactions have exact nulls. -/
structure Undoes (txids : List Uint256) (s : Undoing) (view : CCoinsViewCache) : Prop where
  clean : s.fClean = true
  meaning : s.view.meaning = view.meaning
  exact : ∀ txid ∈ txids, s.view.ExactAt txid

/-- One spent input with its undo record. -/
def SpendStep (view : CCoinsViewCache) (l : CTxIn × CTxInUndo) (view' : CCoinsViewCache) : Prop :=
  view.Restorable ∧ view.spendInput l.1 = some (view', l.2)

theorem getD_growVout (vout : List CTxOut) (k i : Nat) :
    (growVout vout k).getD i .null = vout.getD i .null := by
  unfold growVout
  split
  · by_cases hi : i < vout.length
    · rw [List.getD_append _ _ _ _ hi]
    · rw [List.getD_append_right _ _ _ _ (by omega), List.getD_eq_default vout _ (by omega)]
      by_cases hr : i - vout.length < (List.replicate (k - vout.length) CTxOut.null).length
      · rw [List.getD_eq_getElem _ _ hr, List.getElem_replicate]
      · rw [List.getD_eq_default _ _ (by omega)]
  · rfl

private theorem le_length_growVout (vout : List CTxOut) (k : Nat) : k ≤ (growVout vout k).length := by
  unfold growVout
  split
  · rw [List.length_append, List.length_replicate]
    omega
  · omega

private theorem exactNulls_growVout {vout : List CTxOut} (h : ExactNulls vout) (k : Nat) :
    ExactNulls (growVout vout k) := by
  unfold growVout
  split
  · intro o ho
    rcases List.mem_append.mp ho with ho | ho
    · exact h o ho
    · exact fun _ ↦ List.eq_of_mem_replicate ho
  · exact h

/-- Putting an output back into an entry adds it to the unspent outputs. -/
theorem CCoins.putOutput_eq_some {coins : CCoins} {n : BitVec 32} {o : CTxOut}
    (ho : o.isNull = false) (hn : n.toNat + 1 < 2 ^ 32) :
    ∃ coins', coins.putOutput n o = some coins' ∧ coins'.fCoinBase = coins.fCoinBase ∧
      coins'.nHeight = coins.nHeight ∧ coins'.nVersion = coins.nVersion ∧
      (∀ i, coins'.unspent i = if i = n.toNat then some o else coins.unspent i) ∧
      (ExactNulls coins.vout → ExactNulls coins'.vout) := by
  have hnext : (n + 1).toNat = n.toNat + 1 := by
    rw [BitVec.toNat_add]
    exact Nat.mod_eq_of_lt hn
  have hroom : n.toNat < (growVout coins.vout (n + 1).toNat).length := by
    have := le_length_growVout coins.vout (n + 1).toNat
    omega
  refine ⟨_, if_pos hroom, rfl, rfl, rfl, fun i ↦ ?_, fun hexact o' ho' ↦ ?_⟩
  · simp only [CCoins.unspent, CCoins.outAt]
    by_cases hi : i = n.toNat
    · rw [if_pos hi, hi, List.getD_eq_getElem?_getD, List.getElem?_set_self hroom]
      exact unspentOf_eq_some.mpr ⟨ho, rfl⟩
    · rw [if_neg hi, ← getD_growVout coins.vout (n + 1).toNat i, List.getD_eq_getElem?_getD,
        List.getElem?_set_ne (Ne.symm hi), ← List.getD_eq_getElem?_getD]
  · rcases List.mem_or_eq_of_mem_set ho' with ho' | rfl
    · exact exactNulls_growVout hexact _ o' ho'
    · intro hyes
      rw [ho] at hyes
      cases hyes

/-- The entry `DisconnectBlock` puts an output back into: it has the metadata from before the
spend and all its other outputs, and no check fails on it. -/
private theorem restoreInput_base {coins coins' cw : CCoins} {undo : CTxInUndo} {n : Nat}
    (hspend : coins.spend n = some (coins', undo)) (hheight : coins.nHeight ≠ 0)
    (hcw : cw.meaning = coins'.meaning) :
    ∃ base : CCoins,
      (if undo.nHeight ≠ 0 then
        (({ fCoinBase := undo.fCoinBase, nHeight := undo.nHeight, nVersion := undo.nVersion } :
          CCoins), true && cw.isPruned)
      else (cw, true && !cw.isPruned)) = (base, true) ∧
      base.fCoinBase = coins.fCoinBase ∧ base.nHeight = coins.nHeight ∧
      base.nVersion = coins.nVersion ∧
      (∀ i, base.unspent i = if i = n then none else coins.unspent i) ∧
      (ExactNulls cw.vout → ExactNulls base.vout) := by
  obtain ⟨-, hothers, -, hcb', hheight', hversion', hlast, hnotlast⟩ := CCoins.spend_eq_some hspend
  have hunspent := CCoins.unspent_of_meaning hcw
  have hpruned := CCoins.isPruned_of_meaning hcw
  cases hp : coins'.isPruned with
  | true =>
    -- the last output was spent, and the record carries the metadata
    obtain ⟨hcb, hh, hv⟩ := hlast hp
    refine ⟨_, by rw [if_pos (by rwa [hh]), hpruned, hp, Bool.and_self], hcb, hh, hv, fun i ↦ ?_,
      fun _ o ho ↦ by cases ho⟩
    rw [← hothers, CCoins.isPruned_iff.mp hp]
    rfl
  | false =>
    have hmeta := CCoins.metadata_of_meaning hcw (hpruned.trans hp)
    rw [hcb', hheight', hversion'] at hmeta
    refine ⟨cw, by rw [if_neg (by simp [hnotlast hp]), hpruned, hp]; rfl, hmeta.1, hmeta.2.1,
      hmeta.2.2, fun i ↦ ?_, id⟩
    rw [hunspent, hothers]

/-- Restoring an input takes back its spending. -/
theorem restoreInput_undoes {txids : List Uint256} {s : Undoing} {view view' : CCoinsViewCache}
    {l : CTxIn × CTxInUndo} (hstep : SpendStep view l view') (hs : Undoes txids s view') :
    ∃ s', restoreInput s l.1 l.2 = .accept s' ∧ Undoes txids s' view := by
  obtain ⟨txin, undo⟩ := l
  obtain ⟨hview, h⟩ := hstep
  obtain ⟨hthere, -⟩ := CCoinsViewCache.spendInput_eq_some h
  obtain ⟨coins, coins', hcoins, hspend, hmeaning⟩ := CCoinsViewCache.spendInput_meaning h
  obtain ⟨hfound, -⟩ := CCoins.spend_eq_some hspend
  have hbefore : view.meaning txin.prevout.hash = coins.meaning := by
    rw [CCoinsViewCache.meaning, hcoins, Option.bind_some]
  have hp : ¬ coins.isPruned = true := fun hp ↦ by
    rw [CCoins.isPruned_iff.mp hp] at hfound
    cases hfound
  have hcw : (s.view.coinsAt txin.prevout.hash).meaning = coins'.meaning := by
    rw [CCoinsViewCache.meaning_coinsAt, hs.meaning, hmeaning, Function.update_self]
  obtain ⟨base, hbase, hcb, hheight, hversion, hunspent, hexact⟩ := restoreInput_base hspend
    (hview.height _ _ (hbefore.trans (CCoins.meaning_of_not_pruned hp))) hcw
  have hnull : undo.txout.isNull = false := by
    obtain ⟨hnull, heq⟩ := unspentOf_eq_some.mp hfound
    exact heq ▸ hnull
  have hfree : base.isAvailable txin.prevout.n.toNat = false := by
    rw [CCoins.isAvailable_eq_isSome, hunspent, if_pos rfl]
    rfl
  obtain ⟨restored, hput, hcb', hheight', hversion', hunspent', hexact'⟩ :=
    @CCoins.putOutput_eq_some base _ _ hnull (hview.position _ _ _ hthere)
  refine ⟨⟨s.view.setCoins txin.prevout.hash restored, true⟩, ?_, rfl, ?_, fun txid hmem ↦ ?_⟩
  · simp only [restoreInput, hs.clean]
    rw [hbase]
    simp only [hfree, hput]
    rfl
  · have hrestored : restored.meaning = coins.meaning := by
      refine CCoins.meaning_congr (hcb'.trans hcb) (hheight'.trans hheight)
        (hversion'.trans hversion) fun i ↦ ?_
      rw [hunspent', hunspent]
      split
      · next hi => rw [hi, hfound]
      · rfl
    rw [CCoinsViewCache.meaning_setCoins, hs.meaning, hmeaning, Function.update_idem, hrestored,
      ← hbefore, Function.update_eq_self]
  · refine CCoinsViewCache.exactAt_setCoins (fun htxid ↦ ?_) fun _ ↦ hs.exact txid hmem
    subst htxid
    exact hexact' (hexact (hs.exact _ hmem))

/-- A run of spends, from the run of `UpdateCoins` over the inputs. -/
theorem spendInputs_run {view view' : CCoinsViewCache} {vin : List CTxIn} {txundo : CTxUndo}
    (hview : view.Restorable) (h : view.spendInputs vin = some (view', txundo)) :
    UndoLog.Run SpendStep view (vin.zip txundo) view' := by
  induction vin generalizing view txundo with
  | nil =>
    obtain ⟨rfl, rfl⟩ := Prod.mk.inj (Option.some.inj h)
    exact .nil _
  | cons txin vin ih =>
    simp only [CCoinsViewCache.spendInputs, Option.bind_eq_bind, Option.bind_eq_some_iff,
      Prod.exists, Option.some.injEq, Prod.mk.injEq] at h
    obtain ⟨view₁, undo, hone, view₂, vprevout, hrest, rfl, rfl⟩ := h
    exact .cons ⟨hview, hone⟩ (ih (hview.spendInput hone) hrest)

/-! ### Taking back one transaction -/

/-- The comparison with the block succeeds on an entry that means the same as the fresh one. -/
private theorem outputs_match {outs : CCoins} {tx : CTransaction} {nHeight : Int}
    (htx : ∀ o ∈ tx.vout, 0 ≤ o.nValue) (hexact : ExactNulls outs.vout)
    (h : outs.meaning = (CCoins.ofTransaction tx nHeight).meaning) (nVersion : BitVec 32)
    (hversion : outs.nVersion = tx.nVersion → nVersion = tx.nVersion) :
    ({ outs with vout := clearUnspendable outs.vout, nVersion } : CCoins).beq
      (CCoins.ofTransaction tx nHeight) = true := by
  have hunspent := congrFun (CCoins.unspent_of_meaning h)
  rw [CCoins.clearUnspendable_eq hexact htx hunspent]
  have hpruned := CCoins.isPruned_of_meaning h
  cases hp : (CCoins.ofTransaction tx nHeight).isPruned with
  | true =>
    have hsame : ({ outs with vout := (CCoins.ofTransaction tx nHeight).vout, nVersion } :
        CCoins).isPruned = true := hp
    rw [CCoins.beq, hsame, hp]
    rfl
  | false =>
    obtain ⟨hcb, hheight, hv⟩ := CCoins.metadata_of_meaning h (hpruned.trans hp)
    have hversion' : nVersion = (CCoins.ofTransaction tx nHeight).nVersion := hversion hv
    simp [CCoins.beq, hcb, hheight, hversion']

/-- Removing the outputs of a transaction takes back their creation. -/
theorem removeOutputs_undoes {txids : List Uint256} {s : Undoing} {view : CCoinsViewCache}
    {tx : CTransaction} {nHeight : Int} {hash : Uint256} (htx : ∀ o ∈ tx.vout, 0 ≤ o.nValue)
    (hpruned : view.PrunedAt hash) (hmem : hash ∈ txids)
    (hs : Undoes txids s (view.setCoins hash (.ofTransaction tx nHeight))) :
    Undoes txids (removeOutputs s tx nHeight hash) view := by
  have hat : (s.view.coinsAt hash).meaning = (CCoins.ofTransaction tx nHeight).meaning := by
    rw [CCoinsViewCache.meaning_coinsAt, hs.meaning, CCoinsViewCache.meaning_setCoins,
      Function.update_self]
  have hnone : view.meaning hash = none := CCoinsViewCache.meaning_eq_none.mpr hpruned
  have hothers : Function.update s.view.meaning hash none = view.meaning := by
    rw [hs.meaning, CCoinsViewCache.meaning_setCoins, Function.update_idem, ← hnone,
      Function.update_eq_self]
  refine ⟨?_, ?_, fun txid htxid ↦ ?_⟩
  · have hbeq := outputs_match htx (hs.exact hash hmem) hat
    simp only [removeOutputs, hs.clean, Bool.true_and]
    split
    · exact hbeq _ fun _ ↦ rfl
    · exact hbeq _ id
  · unfold removeOutputs
    simp only
    split
    · rw [CCoinsViewCache.meaning_setCoins, CCoins.meaning_empty, hothers]
    · next hhave =>
      have habsent : s.view.getCoins hash = none := by
        simpa [CCoinsViewCache.haveCoins] using hhave
      have hnothing : s.view.meaning hash = none := by
        rw [CCoinsViewCache.meaning, habsent, Option.bind_none]
      rw [← hothers, ← hnothing, Function.update_eq_self]
  · unfold removeOutputs
    simp only
    split
    · exact CCoinsViewCache.exactAt_setCoins (fun _ o ho ↦ by cases ho) fun _ ↦ hs.exact txid htxid
    · exact hs.exact txid htxid

/-- One connected transaction with its undo data; the coinbase has none. -/
structure ApplyStep (H : Hashes) (nHeight : Int) (txids : List Uint256) (view : CCoinsViewCache)
    (l : CTransaction × Option CTxUndo) (view' : CCoinsViewCache) : Prop where
  restorable : view.Restorable
  pruned : view.PrunedAt (l.1.getHash H)
  nonneg : ∀ o ∈ l.1.vout, 0 ≤ o.nValue
  mem : l.1.getHash H ∈ txids
  update : ∃ txundo, view.updateCoins l.1 nHeight (l.1.getHash H) = some (view', txundo) ∧
    l.2 = if l.1.isCoinBase then none else some txundo

/-- Disconnecting a transaction takes back what `UpdateCoins` did. -/
theorem disconnectTx_undoes {H : Hashes} {state : CValidationState} {nHeight : Int}
    {txids : List Uint256} {s : Undoing} {view view' : CCoinsViewCache}
    {l : CTransaction × Option CTxUndo} (hstep : ApplyStep H nHeight txids view l view')
    (hs : Undoes txids s view') :
    ∃ s', disconnectTx H state nHeight s l.1 l.2 = .accept s' ∧ Undoes txids s' view := by
  obtain ⟨tx, txundo?⟩ := l
  obtain ⟨hview, hpruned, hnonneg, hmem, txundo, hupdate, hlog⟩ := hstep
  simp only [CCoinsViewCache.updateCoins, Option.bind_eq_bind, Option.bind_eq_some_iff, Prod.exists,
    Option.some.injEq, Prod.mk.injEq] at hupdate
  obtain ⟨view₁, vprevout, hspend, rfl, rfl⟩ := hupdate
  obtain ⟨hfound, -, hunspent, -⟩ := CCoinsViewCache.spendInputs_eq_some hspend
  have hpruned₁ : view₁.PrunedAt (tx.getHash H) := CCoinsViewCache.prunedAt_iff.mpr fun i ↦ by
    rw [hunspent, hpruned.unspent]
    exact ite_self _
  have hremoved := removeOutputs_undoes hnonneg hpruned₁ hmem hs
  cases hcb : tx.isCoinBase with
  | true =>
    rw [spends_of_coinbase hcb] at hspend
    obtain ⟨rfl, -⟩ := Prod.mk.inj (Option.some.inj hspend)
    simp only [hcb, if_true] at hlog
    exact ⟨_, by simp only [disconnectTx, hlog], hremoved⟩
  | false =>
    rw [spends_of_not_coinbase hcb] at hspend hfound
    simp only [hcb, Bool.false_eq_true, if_false] at hlog
    obtain ⟨s', hs', hundone⟩ := (spendInputs_run hview hspend).undo
      (fun _ _ _ _ h ht ↦ restoreInput_undoes h ht) hremoved
    refine ⟨s', ?_, hundone⟩
    have hlength : vprevout.length = tx.vin.length := by
      simpa using (congrArg List.length hfound).symm
    simp only [disconnectTx, hlog, hlength, decide_true, Verdict.check, if_true, Verdict.accept_bind]
    exact hs'

/-! ### Taking back a block -/

/-- What the transaction loop keeps so that it can be taken back. -/
structure Recording (H : Hashes) (view₀ : CCoinsViewCache) (pre rest : List CTransaction)
    (p : Progress) : Prop where
  accounted : Accounted H view₀ pre rest p
  restorable : p.view.Restorable
  exact : ∀ tx ∈ pre, p.view.ExactAt (tx.getHash H)

section Step

variable {node : Node} {state : CValidationState} {pprev : ChainIndex} {fScriptChecks : Bool}
  {flags : BitVec 32} {view₀ : CCoinsViewCache} {txids : List Uint256} {p p' : Progress}

/-- One round of the loop is a step that can be taken back, and records its undo data. -/
theorem recording_step {pre rest : List CTransaction} {tx : CTransaction}
    (hinv : Recording node.hashes view₀ pre (tx :: rest) p) (hprev : pprev ≠ [])
    (htx : tx.Checked) (hlen : tx.vout.length < 2 ^ 32)
    (hfresh : ∀ tx' ∈ rest, tx'.getHash node.hashes ≠ tx.getHash node.hashes)
    (hmem : tx.getHash node.hashes ∈ txids)
    (h : node.connectTx state pprev fScriptChecks flags p tx = .accept p') :
    Recording node.hashes view₀ (pre ++ [tx]) rest p' ∧
      ∃ txundo, ApplyStep node.hashes pprev.length txids p.view (tx, txundo) p'.view ∧
        txundo.isNone = tx.isCoinBase ∧ p'.vtxundo = p.vtxundo ++ txundo.toList := by
  obtain ⟨txundo, hupdate, hcase⟩ := Node.connectTx_eq_accept h
  have hheight : (pprev.length : Int) ≠ 0 := by simpa using hprev
  refine ⟨⟨accounted_step hinv.accounted htx hfresh h,
    hinv.restorable.updateCoins hheight hlen hupdate, fun tx' hmem' ↦ ?_⟩,
    if tx.isCoinBase then none else some txundo, ⟨hinv.restorable,
    hinv.accounted.pruned tx List.mem_cons_self, htx.nonneg, hmem, txundo, hupdate, rfl⟩, ?_, ?_⟩
  · refine CCoinsViewCache.exactAt_updateCoins htx.nonneg (fun hne ↦ ?_) hupdate
    rcases List.mem_append.mp hmem' with hpre | hlast
    · exact hinv.exact tx' hpre
    · rw [List.mem_singleton.mp hlast] at hne
      exact absurd rfl hne
  · cases tx.isCoinBase <;> rfl
  · rcases hcase with ⟨hcb, -, hundo⟩ | ⟨hcb, -, -, hundo⟩
    · simp [hcb, hundo]
    · simp [hcb, hundo]

/-- The loop over transactions that are no coinbases can be taken back from what it records. -/
theorem recording_run {pre mid : List CTransaction}
    (hinv : Recording node.hashes view₀ pre mid p) (hprev : pprev ≠ [])
    (htxs : ∀ tx ∈ mid, tx.Checked ∧ tx.vout.length < 2 ^ 32 ∧ tx.isCoinBase = false ∧
      tx.getHash node.hashes ∈ txids)
    (hfresh : (mid.map (·.getHash node.hashes)).Nodup)
    (h : node.connectTxs state pprev fScriptChecks flags p mid = .accept p') :
    Recording node.hashes view₀ (pre ++ mid) [] p' ∧
      ∃ vtxundo, p'.vtxundo = p.vtxundo ++ vtxundo ∧ vtxundo.length = mid.length ∧
        UndoLog.Run (ApplyStep node.hashes pprev.length txids) p.view
          (mid.zip (vtxundo.map some)) p'.view := by
  induction mid generalizing pre p with
  | nil =>
    cases h
    exact ⟨by simpa using hinv, [], by simp, rfl, .nil _⟩
  | cons tx mid ih =>
    rw [Node.connectTxs, Verdict.bind_eq_accept] at h
    obtain ⟨q, hq, h⟩ := h
    obtain ⟨⟨htx, hlen, hcb, hmem⟩, hrest⟩ := List.forall_mem_cons.mp htxs
    rw [List.map_cons, List.nodup_cons] at hfresh
    have hne : ∀ tx' ∈ mid, tx'.getHash node.hashes ≠ tx.getHash node.hashes :=
      fun tx' hmem heq ↦ hfresh.1 (heq ▸ List.mem_map_of_mem hmem)
    obtain ⟨hnext, txundo?, hstep, hnone, hundo⟩ := recording_step hinv hprev htx hlen hne hmem hq
    obtain ⟨hfinal, vtxundo, hlog, hlength, hrun⟩ := ih hnext hrest hfresh.2 h
    rw [hcb] at hnone
    cases txundo? with
    | none => cases hnone
    | some txundo =>
      refine ⟨by simpa using hfinal, txundo :: vtxundo, ?_, by simp [hlength], .cons hstep hrun⟩
      rw [hlog, hundo]
      simp

end Step

/-- `DisconnectBlock` accepts when its loop does. -/
private theorem disconnectBlock_eq_accept {H : Hashes} {block : CBlock} {state : CValidationState}
    {b pprev : CBlockIndex} {rest : ChainIndex} {blockUndo : List CTxUndo} {view : CCoinsViewCache}
    {s : Undoing} (hbest : b.blockHash = view.hashBlock)
    (hlength : blockUndo.length + 1 = block.vtx.length)
    (h : (block.vtx.zip (none :: blockUndo.map some)).reverse.foldlM
      (fun s l ↦ disconnectTx H state (pprev :: rest).length s l.1 l.2) { view } = pure s) :
    disconnectBlock H block state (b :: pprev :: rest) blockUndo view =
      .accept { s with view := s.view.setBestBlock pprev.blockHash } := by
  simp only [disconnectBlock, hbest, hlength, h, decide_true, Verdict.check, Verdict.require,
    if_true, Verdict.accept_bind]
  rfl

section Block

variable {node : Node} {block : CBlock} {state : CValidationState} {pindex : ChainIndex}
  {view : CCoinsViewCache} {r : Connected}

/-- The transaction loop of a block can be taken back from the undo data it records. -/
theorem runTxs_run {p : Progress} (hchecked : block.Checked node.hashes)
    (hwire : ∀ tx ∈ block.vtx, tx.vectorFormat = false) (hprev : pindex.tail ≠ [])
    (hpruned : ∀ tx ∈ block.vtx, view.PrunedAt (tx.getHash node.hashes)) (hview : view.Restorable)
    (h : node.runTxs block state pindex view block.vtx = .accept p) :
    (∀ tx ∈ block.vtx, p.view.ExactAt (tx.getHash node.hashes)) ∧
      p.vtxundo.length + 1 = block.vtx.length ∧
      UndoLog.Run (ApplyStep node.hashes pindex.tail.length (block.txHashes node.hashes)) view
        (block.vtx.zip (none :: p.vtxundo.map some)) p.view := by
  have hlen : ∀ tx ∈ block.vtx, tx.vout.length < 2 ^ 32 := by
    intro tx hmem
    have hsize := (hchecked.transactions tx hmem).size
    have hcount := CTransaction.length_vout_le (hwire tx hmem)
    have hmax : maxBlockSize = 1000000 := rfl
    omega
  have htxid : ∀ tx ∈ block.vtx, tx.getHash node.hashes ∈ block.txHashes node.hashes :=
    fun tx hmem ↦ List.mem_map_of_mem hmem
  obtain ⟨cb, vtx, hvtx, hcb, hrest⟩ := hchecked.coinbase
  have hdistinct := hchecked.hashes_nodup
  rw [CBlock.txHashes, hvtx, List.map_cons, List.nodup_cons] at hdistinct
  have htxs : ∀ tx ∈ vtx, tx ∈ block.vtx := fun tx hmem ↦ hvtx ▸ List.mem_cons_of_mem _ hmem
  have hmem : cb ∈ block.vtx := hvtx ▸ List.mem_cons_self
  rw [Node.runTxs, hvtx, Node.connectTxs, Verdict.bind_eq_accept] at h
  obtain ⟨q, hq, h⟩ := h
  have hstart : Recording node.hashes view [] (cb :: vtx) { view } :=
    ⟨accounted_nil (hvtx ▸ hpruned), hview, by simp⟩
  obtain ⟨hnext, txundo?, hstep, hnone, hundo⟩ := recording_step hstart hprev
    (hchecked.transactions cb hmem) (hlen cb hmem)
    (fun tx' hmem' heq ↦ hdistinct.1 (heq ▸ List.mem_map_of_mem hmem')) (htxid cb hmem) hq
  obtain ⟨hfinal, vtxundo, hlog, hlength, hrun⟩ := recording_run hnext hprev
    (fun tx hmem' ↦ ⟨hchecked.transactions tx (htxs tx hmem'), hlen tx (htxs tx hmem'),
      hrest tx hmem', htxid tx (htxs tx hmem')⟩) hdistinct.2 h
  obtain rfl : txundo? = none := by simpa [hcb] using hnone
  have hall : p.vtxundo = vtxundo := by simpa [hundo] using hlog
  rw [hvtx, hall]
  exact ⟨hfinal.exact, by simp [hlength], .cons hstep hrun⟩

/-- Disconnecting a block takes back connecting it: from the undo data `ConnectBlock` wrote,
`DisconnectBlock` finds every check clean and restores what the view meant and its best
block. -/
theorem disconnectBlock_connectBlock (hview : view.Restorable)
    (hwire : ∀ tx ∈ block.vtx, tx.vectorFormat = false) (hprev : pindex.tail ≠ [])
    (hgenesis : block.getHash node.hashes ≠ node.params.hashGenesisBlock)
    (h : node.connectBlock block state pindex view false = .accept r) :
    ∃ s, disconnectBlock node.hashes block state r.pindex r.blockundo r.view = .accept s ∧
      s.fClean = true ∧ s.view.meaning = view.meaning ∧
      s.view.hashBlock = prevBlockHash pindex := by
  obtain ⟨hchecked, -, -, b, pprev, cb, vtx, rfl, hvtx, hcase⟩ := Node.connectBlock_eq_accept h
  rcases hcase with ⟨heq, -⟩ | ⟨-, hpruned, p, hrun, hfinish⟩
  · exact absurd heq hgenesis
  obtain ⟨-, -, b', pprev', hidx, hr⟩ := Node.finishBlock_eq_accept hfinish
  obtain ⟨factor, hscaled⟩ := scaledIndex_cons b pprev false
  obtain ⟨rfl, rfl⟩ := List.cons.inj (hidx.symm.trans hscaled)
  obtain ⟨hexact, hlength, hlog⟩ := runTxs_run hchecked hwire hprev hpruned hview hrun
  obtain ⟨p₀, rest, rfl⟩ := List.exists_cons_of_ne_nil hprev
  rw [if_neg (by simp)] at hr
  have hstart : Undoes (block.txHashes node.hashes) { view := r.view } p.view := by
    refine ⟨rfl, by rw [hr]; rfl, fun txid hmem ↦ ?_⟩
    obtain ⟨tx, htx, rfl⟩ := List.mem_map.mp hmem
    rw [hr]
    exact hexact tx htx
  obtain ⟨s, hs, hundone⟩ := hlog.undo (fun _ _ _ _ hstep ht ↦
    @disconnectTx_undoes _ state _ _ _ _ _ _ hstep ht) hstart
  refine ⟨{ s with view := s.view.setBestBlock p₀.blockHash }, ?_, hundone.clean,
    hundone.meaning, rfl⟩
  rw [hr] at hs ⊢
  exact disconnectBlock_eq_accept rfl hlength hs

end Block

/-! ### Concrete blocks -/

private theorem restorable_toyView (nValue : Int) : (toyView [(1, nValue)]).Restorable := by
  have hempty : (⟨∅, toyParent.blockHash⟩ : CCoinsViewCache).Restorable :=
    ⟨(fun _ _ he ↦ by cases he), fun _ _ _ ho ↦ by cases ho⟩
  refine hempty.setCoins Int.one_ne_zero (fun i o ho ↦ ?_) 1
  rcases i with _ | i
  · decide
  · cases ho

/-- `disconnectBlock_connectBlock` for a block with a chain of spends, the first of which prunes
the only entry of the view. -/
theorem disconnectBlock_connectBlock_spendChain :
    let block := toyBlock [toyCoinbase 2000000000, firstSpend,
      toySpend ⟨firstSpend.getHash toyNode.hashes, 0⟩ 2500000000]
    let view := toyView [(1, 5000000000)]
    ∃ r s, toyNode.connectBlock block {} (toyIndex block) view false = .accept r ∧
      disconnectBlock toyNode.hashes block {} r.pindex r.blockundo r.view = .accept s ∧
      s.fClean = true ∧ s.view.meaning = view.meaning ∧ s.view.hashBlock = toyParent.blockHash := by
  intro block view
  have haccept : (toyNode.connectBlock block {} (toyIndex block) view false).result.isSome := by
    decide +kernel
  obtain ⟨r, hr⟩ := Option.isSome_iff_exists.mp haccept
  have hconnect := Verdict.result_eq_some.mp hr
  have hwire : ∀ tx ∈ block.vtx, tx.vectorFormat = false := by decide
  have hgenesis : block.getHash toyNode.hashes ≠ toyNode.params.hashGenesisBlock := by
    decide +kernel
  have hprev : (toyIndex block).tail ≠ [] := List.cons_ne_nil _ _
  obtain ⟨s, hs, hclean, hmeaning, hbest⟩ := disconnectBlock_connectBlock
    (restorable_toyView 5000000000) hwire hprev hgenesis hconnect
  exact ⟨r, s, hconnect, hs, hclean, hmeaning, hbest⟩

/-- An unspent entry of height zero: its undo record looks like one without metadata. -/
def heightZeroView : CCoinsViewCache :=
  (toyView []).setCoins 1 ⟨false, [⟨5000000000, []⟩], 0, 1⟩

/-- Disconnecting a block that spends such an entry is not clean. -/
theorem disconnectBlock_not_clean :
    let block := toyBlock [toyCoinbase 2000000000, firstSpend]
    ∃ r s, toyNode.connectBlock block {} (toyIndex block) heightZeroView false = .accept r ∧
      disconnectBlock toyNode.hashes block {} r.pindex r.blockundo r.view = .accept s ∧
      s.fClean = false := by
  intro block
  have hrun : (toyNode.connectBlock block {} (toyIndex block) heightZeroView false).result.bind
      (fun r ↦ (disconnectBlock toyNode.hashes block {} r.pindex r.blockundo r.view).result.map
        (·.fClean)) = some false := by
    decide +kernel
  obtain ⟨r, hr, hrest⟩ := Option.bind_eq_some_iff.mp hrun
  obtain ⟨s, hs, hclean⟩ := Option.map_eq_some_iff.mp hrest
  exact ⟨r, s, Verdict.result_eq_some.mp hr, Verdict.result_eq_some.mp hs, hclean⟩

end Bitmark
