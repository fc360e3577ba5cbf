import Bitmark.Chain.Subsidy
import Bitmark.Coins.View
import Bitmark.Consensus.CheckBlock

/-!
# Connecting a block

`CheckInputs` (`src/main.cpp:1912`) and `ConnectBlock` (`src/main.cpp:2122`). The block's own
index entry is the head of `pindex`; what the code writes into it is part of the result.
-/

namespace Bitmark

/-- `COINBASE_MATURITY`, `src/main.h:64`. -/
def coinbaseMaturity : Int := 720

/-! ### Inputs -/

/-- `CScriptCheck`: one deferred script verification. -/
structure CScriptCheck where
  scriptPubKey : Bytes
  ptxTo : CTransaction
  nIn : Nat
  nFlags : BitVec 32
deriving DecidableEq, Repr

/-- `CScriptCheck::operator()`, `src/main.cpp:1901`. -/
def Node.runCheck (node : Node) (c : CScriptCheck) : Bool :=
  node.verifyScript ((c.ptxTo.vin[c.nIn]?.map (·.scriptSig)).getD []) c.scriptPubKey c.ptxTo c.nIn
    c.nFlags

/-- `GetP2SHSigOpCount`, `src/main.cpp:681`. -/
def getP2SHSigOpCount (view : CCoinsViewCache) : List CTxIn → Option Nat
  | [] => some 0
  | txin :: vin => do
    let prevout ← view.getOutputFor txin
    let n := if isPayToScriptHash prevout.scriptPubKey then
      getSigOpCountP2SH prevout.scriptPubKey txin.scriptSig else 0
    let rest ← getP2SHSigOpCount view vin
    some (n + rest)

/-- The first loop of `CheckInputs`: maturity and ranges, and the value of the inputs. -/
def checkInputValues (view : CCoinsViewCache) (state : CValidationState) (nSpendHeight : Int) :
    Int → List CTxIn → Verdict Int
  | nValueIn, [] => .accept nValueIn
  | nValueIn, txin :: vin => do
    let coins ← .require (view.getCoins txin.prevout.hash)
    .check (!(coins.fCoinBase && decide (nSpendHeight - coins.nHeight < coinbaseMaturity)))
      (state.invalid rejectInvalid "bad-txns-premature-spend-of-coinbase")
    let nValue := (coins.outAt txin.prevout.n.toNat).nValue
    let nValueIn := toInt64 (nValueIn + nValue)
    .check (moneyRange nValue && moneyRange nValueIn)
      (state.doS 100 rejectInvalid "bad-txns-inputvalues-outofrange")
    checkInputValues view state nSpendHeight nValueIn vin

/-- The script checks of a transaction from input `nIn` on. -/
def scriptChecks (view : CCoinsViewCache) (tx : CTransaction) (flags : BitVec 32) :
    Nat → List CTxIn → Option (List CScriptCheck)
  | _, [] => some []
  | nIn, txin :: vin => do
    let coins ← view.getCoins txin.prevout.hash
    let rest ← scriptChecks view tx flags (nIn + 1) vin
    some (⟨(coins.outAt txin.prevout.n.toNat).scriptPubKey, tx, nIn, flags⟩ :: rest)

/-- The second loop of `CheckInputs` without a queue, `src/main.cpp:1976–1990`. -/
def Node.runChecks (node : Node) (state : CValidationState) : List CScriptCheck → Verdict Unit
  | [] => .accept ()
  | c :: checks =>
    if node.runCheck c then node.runChecks state checks
    else if c.nFlags &&& scriptVerifyStrictenc ≠ 0 ∧
        node.runCheck { c with nFlags := c.nFlags &&& ~~~scriptVerifyStrictenc } then
      .refuse (state.invalid rejectNonstandard "non-canonical")
    else .refuse (state.doS 100 rejectNonstandard "non-canonical")

/-- `CheckInputs`, `src/main.cpp:1912`, for an index entry `pindexPrev` of the view's best block.
The result is what was put on the queue. -/
def Node.checkInputs (node : Node) (tx : CTransaction) (state : CValidationState)
    (view : CCoinsViewCache) (pindexPrev : ChainIndex) (fScriptChecks : Bool) (flags : BitVec 32)
    (pvChecks : Bool) : Verdict (List CScriptCheck) :=
  if tx.isCoinBase then .accept []
  else do
    .check (view.haveInputs tx) state.invalid
    .require (if pindexPrev.isEmpty then none else some ())
    let nValueIn ← checkInputValues view state pindexPrev.length 0 tx.vin
    let nValueOut ← .require tx.getValueOut
    .check (decide (nValueOut ≤ nValueIn)) (state.doS 100 rejectInvalid "bad-txns-in-belowout")
    let nTxFee := toInt64 (nValueIn - nValueOut)
    .check (decide (0 ≤ nTxFee)) (state.doS 100 rejectInvalid "bad-txns-fee-negative")
    .check (moneyRange nTxFee) (state.doS 100 rejectInvalid "bad-txns-fee-outofrange")
    let checks ← .require (if fScriptChecks then scriptChecks view tx flags 0 tx.vin else some [])
    if pvChecks then .accept checks
    else do
      node.runChecks state checks
      .accept []

/-! ### The transaction loop -/

/-- What the loop over the transactions carries along. -/
structure Progress where
  view : CCoinsViewCache
  nFees : Int := 0
  nSigOps : Nat := 0
  vChecks : List CScriptCheck := []
  vtxundo : List CTxUndo := []

/-- One round of the loop, `src/main.cpp:2249–2290`. -/
def Node.connectTx (node : Node) (state : CValidationState) (pprev : ChainIndex)
    (fScriptChecks : Bool) (flags : BitVec 32) (p : Progress) (tx : CTransaction) :
    Verdict Progress := do
  let tooMany := state.doS 100 rejectInvalid "bad-blk-sigops"
  let nSigOps := p.nSigOps + getLegacySigOpCount tx
  .check (decide (nSigOps ≤ maxBlockSigops)) tooMany
  if tx.isCoinBase then do
    let (view, _) ← .require (p.view.updateCoins tx pprev.length (tx.getHash node.hashes))
    .accept { p with view, nSigOps }
  else do
    .check (p.view.haveInputs tx)
      (state.doS 100 rejectInvalid "bad-txns-inputs-missingorspent")
    let p2sh ← .require (getP2SHSigOpCount p.view tx.vin)
    let nSigOps := nSigOps + p2sh
    .check (decide (nSigOps ≤ maxBlockSigops)) tooMany
    let nValueIn ← .require (p.view.getValueIn tx)
    let nValueOut ← .require tx.getValueOut
    let nFees := toInt64 (p.nFees + toInt64 (nValueIn - nValueOut))
    let checks ← node.checkInputs tx state p.view pprev fScriptChecks flags node.scriptCheckThreads
    let (view, txundo) ← .require (p.view.updateCoins tx pprev.length (tx.getHash node.hashes))
    .accept ⟨view, nFees, nSigOps, p.vChecks ++ checks, p.vtxundo ++ [txundo]⟩

/-- The loop over the transactions. -/
def Node.connectTxs (node : Node) (state : CValidationState) (pprev : ChainIndex)
    (fScriptChecks : Bool) (flags : BitVec 32) : Progress → List CTransaction → Verdict Progress
  | p, [] => .accept p
  | p, tx :: vtx => do
    let p ← node.connectTx state pprev fScriptChecks flags p tx
    node.connectTxs state pprev fScriptChecks flags p vtx

/-! ### The block rules -/

/-- The walk of the cadence rules, `src/main.cpp:2155–2180`: the steps, of the next `n` along
the algorithm, that reach a block with the update flag. -/
def flaggedSteps : Nat → Nat → ChainIndex → List Nat
  | 0, _, _ => []
  | n + 1, i, pprevAlgo =>
    match getPprevAlgo pprevAlgo with
    | [] => []
    | b :: rest =>
      if updateSsf b.nVersion then i :: flaggedSteps n (i + 1) (b :: rest)
      else flaggedSteps n (i + 1) (b :: rest)

/-- The cadence rules: a block with the update flag has no flagged block less than `nSSF` steps
behind it, one without the flag has none exactly `nSSF` steps behind. -/
def ssfCadence (pindex : ChainIndex) : Bool :=
  match pindex with
  | [] => true
  | b :: _ =>
    if updateSsf b.nVersion then (flaggedSteps nSSF 0 pindex).all (· = nSSF - 1)
    else (flaggedSteps nSSF 0 pindex).all (· ≠ nSSF - 1)

/-- The version and cadence rules, `src/main.cpp:2131–2180`. A block that breaks one is refused
without a mark on the state. The rules of the second and third fork are never in force. -/
def versionRules (nVersion : Version) (pindex : ChainIndex) : Bool :=
  !(onFork pindex && decide (nVersion.toInt < 4)) && (!onFork pindex || ssfCadence pindex)

/-- `!HaveCoins(hash) || GetCoins(hash).IsPruned()`, the BIP30 rule for one hash. -/
def CCoinsViewCache.prunedAt (view : CCoinsViewCache) (txid : Uint256) : Bool :=
  (view.getCoins txid).all CCoins.isPruned

/-- The script flags, `src/main.cpp:2228–2244`. -/
def scriptFlags (nVersion : Version) (pindex : ChainIndex) : BitVec 32 :=
  let flags := scriptVerifyNocache ||| scriptVerifyP2SH
  let flags :=
    if 3 ≤ nVersion.toInt ∧ isSuperMajority 3 pindex.tail 750 1000 then
      flags ||| scriptVerifyChecklocktimeverify
    else flags
  if onFork pindex then flags ||| scriptVerifyDersig else flags

/-- The index entry after its scaling factor is set, `src/main.cpp:2294–2303`. -/
def setScalingFactor (pindex : ChainIndex) : ChainIndex :=
  match pindex with
  | [] => []
  | b :: pprev =>
    if onFork pindex then
      if updateSsf b.nVersion then { b with subsidyScalingFactor := getSsf pindex } :: pprev
      else
        match getPprevAlgo pindex with
        | prev :: _ => { b with subsidyScalingFactor := prev.subsidyScalingFactor } :: pprev
        | [] => pindex
    else pindex

/-- The money supply recorded for a block, `src/main.cpp:2335–2352`. -/
def moneySupply (pindex : ChainIndex) (nValueOut nFees : Int) : Int :=
  if onFork pindex then toInt64 (prevMoneySupply pindex + nValueOut - nFees)
  else
    match pindex.tail with
    | pprev :: _ => toInt64 (pprev.nMoneySupply + nValueOut - nFees)
    | [] => 2000000000

/-- `pprev->GetBlockHash()`, or zero without a parent. -/
def prevBlockHash (pindex : ChainIndex) : Uint256 := (pindex.tail.head?.map (·.blockHash)).getD 0

/-- What `ConnectBlock` leaves behind. -/
structure Connected where
  view : CCoinsViewCache
  pindex : ChainIndex
  blockundo : List CTxUndo := []

/-- `ConnectBlock` after the transaction loop, `src/main.cpp:2292–2380`. -/
def Node.finishBlock (node : Node) (cb : CTransaction) (state : CValidationState)
    (pindex : ChainIndex) (p : Progress) (fJustCheck : Bool) : Verdict Connected := do
  let pindex := if fJustCheck then pindex else setScalingFactor pindex
  let blockValueNeeded := getBlockValue node.params pindex p.nFees
  let pindex := cacheScalingFactor pindex
  let nValueOut ← .require cb.getValueOut
  .check (decide (nValueOut ≤ blockValueNeeded)) (state.doS 100 rejectInvalid "bad-cb-amount")
  .check (p.vChecks.all node.runCheck) (state.doS 100)
  match pindex with
  | [] => .abort
  | b :: pprev =>
    if fJustCheck then .accept ⟨p.view, b :: pprev, p.vtxundo⟩
    else do
      .check node.diskOk state.error
      .accept ⟨p.view.setBestBlock b.blockHash,
        { b with nMoneySupply := moneySupply (b :: pprev) nValueOut p.nFees } :: pprev, p.vtxundo⟩

/-- The transaction loop of `ConnectBlock` over some of the block's transactions. -/
def Node.runTxs (node : Node) (block : CBlock) (state : CValidationState) (pindex : ChainIndex)
    (view : CCoinsViewCache) (vtx : List CTransaction) : Verdict Progress :=
  let fScriptChecks := decide (node.totalBlocksEstimate ≤ pindex.tail.length)
  node.connectTxs state pindex.tail fScriptChecks (scriptFlags block.nVersion pindex) { view } vtx

/-- `ConnectBlock`, `src/main.cpp:2122`. -/
def Node.connectBlock (node : Node) (block : CBlock) (state : CValidationState)
    (pindex : ChainIndex) (view : CCoinsViewCache) (fJustCheck : Bool) : Verdict Connected := do
  node.checkBlock block state (!fJustCheck) (!fJustCheck)
  .check (versionRules block.nVersion pindex) state
  .require (if prevBlockHash pindex = view.hashBlock then some () else none)
  match pindex, block.vtx with
  | b :: pprev, cb :: _ =>
    if block.getHash node.hashes = node.params.hashGenesisBlock then
      .accept ⟨view.setBestBlock b.blockHash, { b with nMoneySupply := 2000000000 } :: pprev, []⟩
    else do
      .check ((block.txHashes node.hashes).all view.prunedAt)
        (state.doS 100 rejectInvalid "bad-txns-BIP30")
      let p ← node.runTxs block state pindex view block.vtx
      node.finishBlock cb state pindex p fJustCheck
  | _, _ => .abort

/-! ### What a successful run did -/

/-- What the first loop of `CheckInputs` establishes for inputs that are all there. -/
theorem checkInputValues_eq_accept {view : CCoinsViewCache} {state : CValidationState}
    {nSpendHeight acc v : Int} {vin : List CTxIn} (hacc : moneyRange acc)
    (hhave : ∀ txin ∈ vin, (view.getOutputFor txin).isSome)
    (h : checkInputValues view state nSpendHeight acc vin = .accept v) :
    v = acc + view.inputValue vin ∧ (∀ k, moneyRange (acc + view.inputValue (vin.take k))) ∧
      (∀ txin ∈ vin, ∀ coins, view.getCoins txin.prevout.hash = some coins →
        coins.fCoinBase = true → coinbaseMaturity ≤ nSpendHeight - coins.nHeight) := by
  induction vin generalizing acc with
  | nil =>
    cases h
    simpa using hacc
  | cons txin vin ih =>
    simp only [checkInputValues, Verdict.bind_eq_accept, Verdict.require_eq_accept,
      Verdict.check_eq_accept, Bool.not_eq_true', Bool.and_eq_false_iff, decide_eq_false_iff_not,
      Bool.and_eq_true, Unique.exists_iff] at h
    obtain ⟨coins, hcoins, hmature, ⟨hvalue, hsum⟩, h⟩ := h
    have hat := CCoinsViewCache.valueAt_eq (hhave txin List.mem_cons_self) hcoins
    have hwrap : toInt64 (acc + (coins.outAt txin.prevout.n.toNat).nValue) =
        acc + view.valueAt txin := by
      rw [hat]
      rw [moneyRange_iff] at hacc hvalue
      have hmax : maxMoney = 2800000000000000 := rfl
      exact toInt64_of_range (by omega) (by omega)
    rw [hwrap] at h hsum
    obtain ⟨hv, hprefix, hall⟩ := ih hsum (fun t ht ↦ hhave t (List.mem_cons_of_mem _ ht)) h
    refine ⟨by rw [hv, view.inputValue_cons, add_assoc], fun k ↦ ?_, fun t ht c hc hcb ↦ ?_⟩
    · cases k with
      | zero => simpa using hacc
      | succ k => simpa [add_assoc] using hprefix k
    · rcases List.mem_cons.mp ht with rfl | ht
      · obtain rfl : coins = c := Option.some.inj (hcoins.symm.trans hc)
        rcases hmature with hno | hge
        · rw [hno] at hcb
          cases hcb
        · omega
      · exact hall t ht c hc hcb

/-- What `CheckInputs` establishes of a transaction that is not a coinbase. -/
structure InputsChecked (view : CCoinsViewCache) (tx : CTransaction) (nSpendHeight : Int) :
    Prop where
  have_inputs : ∀ txin ∈ tx.vin, (view.getOutputFor txin).isSome
  running : ∀ k, moneyRange (view.inputValue (tx.vin.take k))
  value_out_le : sumValues tx.vout ≤ view.inputValue tx.vin
  mature : ∀ txin ∈ tx.vin, ∀ coins, view.getCoins txin.prevout.hash = some coins →
    coins.fCoinBase = true → coinbaseMaturity ≤ nSpendHeight - coins.nHeight

theorem InputsChecked.inputValue_range {view : CCoinsViewCache} {tx : CTransaction}
    {nSpendHeight : Int} (h : InputsChecked view tx nSpendHeight) :
    moneyRange (view.inputValue tx.vin) := by
  simpa using h.running tx.vin.length

theorem Node.checkInputs_eq_accept {node : Node} {tx : CTransaction} {state : CValidationState}
    {view : CCoinsViewCache} {pindexPrev : ChainIndex} {fScriptChecks pvChecks : Bool}
    {flags : BitVec 32} {checks : List CScriptCheck} (hcb : tx.isCoinBase = false)
    (h : node.checkInputs tx state view pindexPrev fScriptChecks flags pvChecks = .accept checks) :
    InputsChecked view tx pindexPrev.length ∧ pindexPrev ≠ [] := by
  rw [checkInputs, if_neg (by simp [hcb])] at h
  simp only [Verdict.bind_eq_accept, Verdict.check_eq_accept, Verdict.require_eq_accept,
    decide_eq_true_eq, Unique.exists_iff, ite_eq_iff, reduceCtorEq, and_false, and_true,
    false_or, List.isEmpty_iff] at h
  obtain ⟨hhave, hprev, nValueIn, hvalues, nValueOut, hout, hle, -, -, -⟩ := h
  have hsome : ∀ txin ∈ tx.vin, (view.getOutputFor txin).isSome := by
    simpa [CCoinsViewCache.haveInputs, hcb] using hhave
  obtain ⟨hv, hrunning, hmature⟩ := checkInputValues_eq_accept (by decide) hsome hvalues
  obtain ⟨hsum, -⟩ := CTransaction.getValueOut_eq_some hout
  refine ⟨⟨hsome, by simpa using hrunning, ?_, hmature⟩, hprev⟩
  rw [← hsum]
  simpa [hv] using hle

/-- What one round of the loop does: a coinbase only adds its outputs, any other transaction
passes `CheckInputs`, pays its fee and is applied to the view. -/
theorem Node.connectTx_eq_accept {node : Node} {state : CValidationState} {pprev : ChainIndex}
    {fScriptChecks : Bool} {flags : BitVec 32} {p p' : Progress} {tx : CTransaction}
    (h : node.connectTx state pprev fScriptChecks flags p tx = .accept p') :
    ∃ txundo, p.view.updateCoins tx pprev.length (tx.getHash node.hashes) =
        some (p'.view, txundo) ∧
      ((tx.isCoinBase = true ∧ p'.nFees = p.nFees ∧ p'.vtxundo = p.vtxundo) ∨
        (tx.isCoinBase = false ∧ InputsChecked p.view tx pprev.length ∧
          p'.nFees = toInt64 (p.nFees + (p.view.inputValue tx.vin - sumValues tx.vout)) ∧
          p'.vtxundo = p.vtxundo ++ [txundo])) := by
  simp only [connectTx, Verdict.bind_eq_accept, Unique.exists_iff] at h
  obtain ⟨-, h⟩ := h
  split at h
  · next hcb =>
    simp only [Verdict.bind_eq_accept, Verdict.require_eq_accept, Prod.exists] at h
    obtain ⟨view, txundo, hupdate, h⟩ := h
    cases h
    exact ⟨txundo, hupdate, .inl ⟨hcb, rfl, rfl⟩⟩
  · next hcb =>
    have hcb : tx.isCoinBase = false := by simpa using hcb
    simp only [Verdict.bind_eq_accept, Verdict.require_eq_accept, Unique.exists_iff,
      Prod.exists] at h
    obtain ⟨-, _, -, -, nValueIn, hin, nValueOut, hout, checks, hchecks, view, txundo, hupdate,
      h⟩ := h
    cases h
    obtain ⟨hinputs, -⟩ := checkInputs_eq_accept hcb hchecks
    obtain ⟨rfl, hrange, -⟩ := CTransaction.getValueOut_eq_some hout
    have hmax : maxMoney = 2800000000000000 := rfl
    have hvalue := moneyRange_iff.mp hinputs.inputValue_range
    rw [moneyRange_iff] at hrange
    have hnValueIn : nValueIn = p.view.inputValue tx.vin := by
      rw [CCoinsViewCache.getValueIn_eq hcb hin]
      exact toInt64_of_range (by omega) (by omega)
    refine ⟨txundo, hupdate, .inr ⟨hcb, hinputs, ?_, rfl⟩⟩
    change toInt64 (p.nFees + toInt64 (nValueIn - sumValues tx.vout)) = _
    rw [hnValueIn, toInt64_of_range (x := p.view.inputValue tx.vin - sumValues tx.vout)
      (by omega) (by omega)]

/-- The loop over two lists is the loop over one and then the other. -/
theorem Node.connectTxs_append {node : Node} {state : CValidationState} {pprev : ChainIndex}
    {fScriptChecks : Bool} {flags : BitVec 32} {p p' : Progress} {pre post : List CTransaction} :
    node.connectTxs state pprev fScriptChecks flags p (pre ++ post) = .accept p' ↔
      ∃ q, node.connectTxs state pprev fScriptChecks flags p pre = .accept q ∧
        node.connectTxs state pprev fScriptChecks flags q post = .accept p' := by
  induction pre generalizing p with
  | nil => simp [connectTxs]
  | cons tx pre ih =>
    simp only [List.cons_append, connectTxs, Verdict.bind_eq_accept, ih]
    constructor
    · rintro ⟨a, ha, q, hq, hp⟩
      exact ⟨q, ⟨a, ha, hq⟩, hp⟩
    · rintro ⟨q, ⟨a, ha, hq⟩, hp⟩
      exact ⟨a, ha, q, hq, hp⟩

/-- The index entries after `ConnectBlock` has set and used the scaling factor. -/
def scaledIndex (pindex : ChainIndex) (fJustCheck : Bool) : ChainIndex :=
  cacheScalingFactor (if fJustCheck then pindex else setScalingFactor pindex)

/-- Only the scaling factor of the block's own entry changes. -/
theorem scaledIndex_cons (b : CBlockIndex) (pprev : ChainIndex) (fJustCheck : Bool) :
    ∃ factor, scaledIndex (b :: pprev) fJustCheck =
      { b with subsidyScalingFactor := factor } :: pprev := by
  have hset : ∃ factor, (if fJustCheck then b :: pprev else setScalingFactor (b :: pprev)) =
      { b with subsidyScalingFactor := factor } :: pprev := by
    unfold setScalingFactor
    simp only
    split
    · exact ⟨b.subsidyScalingFactor, rfl⟩
    · split
      · split
        · exact ⟨_, rfl⟩
        · split
          · exact ⟨_, rfl⟩
          · exact ⟨b.subsidyScalingFactor, rfl⟩
      · exact ⟨b.subsidyScalingFactor, rfl⟩
  obtain ⟨factor, hfactor⟩ := hset
  rw [scaledIndex, hfactor, cacheScalingFactor]
  split
  · exact ⟨_, rfl⟩
  · exact ⟨factor, rfl⟩

/-- What the part after the loop does: the coinbase claims at most the block value, and only the
best block and the block's own index entry change. -/
theorem Node.finishBlock_eq_accept {node : Node} {cb : CTransaction} {state : CValidationState}
    {pindex : ChainIndex} {p : Progress} {fJustCheck : Bool} {r : Connected}
    (h : node.finishBlock cb state pindex p fJustCheck = .accept r) :
    cb.getValueOut = some (sumValues cb.vout) ∧
      sumValues cb.vout ≤ getBlockValue node.params
        (if fJustCheck then pindex else setScalingFactor pindex) p.nFees ∧
      ∃ b pprev, scaledIndex pindex fJustCheck = b :: pprev ∧
        r = if fJustCheck then ⟨p.view, b :: pprev, p.vtxundo⟩
          else ⟨p.view.setBestBlock b.blockHash,
            { b with nMoneySupply := moneySupply (b :: pprev) (sumValues cb.vout) p.nFees } :: pprev,
            p.vtxundo⟩ := by
  simp only [finishBlock, Verdict.bind_eq_accept, Verdict.require_eq_accept,
    Verdict.check_eq_accept, decide_eq_true_eq, Unique.exists_iff] at h
  obtain ⟨nValueOut, hout, hle, -, h⟩ := h
  obtain ⟨rfl, -⟩ := CTransaction.getValueOut_eq_some hout
  refine ⟨hout, hle, ?_⟩
  unfold scaledIndex
  split at h
  · cases h
  next b pprev hidx =>
  refine ⟨b, pprev, hidx, ?_⟩
  split at h
  · next hjust =>
    cases h
    simp [hjust]
  · next hjust =>
    simp only [Verdict.bind_eq_accept, Verdict.check_eq_accept, Unique.exists_iff] at h
    obtain ⟨-, h⟩ := h
    cases h
    simp [hjust]

/-- The coins after the loop are the coins of the result. -/
theorem Node.finishBlock_cacheCoins {node : Node} {cb : CTransaction} {state : CValidationState}
    {pindex : ChainIndex} {p : Progress} {fJustCheck : Bool} {r : Connected}
    (h : node.finishBlock cb state pindex p fJustCheck = .accept r) :
    r.view.cacheCoins = p.view.cacheCoins := by
  obtain ⟨-, -, b, pprev, -, hr⟩ := finishBlock_eq_accept h
  rw [hr]
  split <;> rfl

/-- What `ConnectBlock` does when it accepts: the genesis block only becomes the best block, any
other block satisfies BIP30 and is run transaction by transaction. -/
theorem Node.connectBlock_eq_accept {node : Node} {block : CBlock} {state : CValidationState}
    {pindex : ChainIndex} {view : CCoinsViewCache} {fJustCheck : Bool} {r : Connected}
    (h : node.connectBlock block state pindex view fJustCheck = .accept r) :
    block.Checked node.hashes ∧ versionRules block.nVersion pindex = true ∧
      prevBlockHash pindex = view.hashBlock ∧ ∃ b pprev cb vtx, pindex = b :: pprev ∧
        block.vtx = cb :: vtx ∧
        ((block.getHash node.hashes = node.params.hashGenesisBlock ∧
            r = ⟨view.setBestBlock b.blockHash, { b with nMoneySupply := 2000000000 } :: pprev, []⟩) ∨
          (block.getHash node.hashes ≠ node.params.hashGenesisBlock ∧
            (∀ tx ∈ block.vtx, view.PrunedAt (tx.getHash node.hashes)) ∧
            ∃ p, node.runTxs block state pindex view block.vtx = .accept p ∧
              node.finishBlock cb state pindex p fJustCheck = .accept r)) := by
  simp only [connectBlock, Verdict.bind_eq_accept, Verdict.require_eq_accept,
    Verdict.check_eq_accept, Unique.exists_iff, PUnit.default_eq_unit, ite_eq_iff, reduceCtorEq,
    and_false, and_true, or_false] at h
  obtain ⟨hcheck, hversion, hbest, h⟩ := h
  refine ⟨checkBlock_eq_accept hcheck, hversion, hbest, ?_⟩
  split at h
  · next b pprev cb vtx hvtx =>
    refine ⟨b, pprev, cb, vtx, rfl, hvtx, ?_⟩
    split at h
    · next hgenesis =>
      cases h
      exact .inl ⟨hgenesis, rfl⟩
    · next hgenesis =>
      simp only [Verdict.bind_eq_accept, Verdict.check_eq_accept, Unique.exists_iff,
        List.all_eq_true, CBlock.txHashes, List.mem_map, forall_exists_index, and_imp,
        forall_apply_eq_imp_iff₂] at h
      obtain ⟨hbip30, p, hp, hfinish⟩ := h
      refine .inr ⟨hgenesis, fun tx htx coins hcoins ↦ ?_, p, hp, hfinish⟩
      have := hbip30 tx htx
      simpa [CCoinsViewCache.prunedAt, hcoins] using this
  · cases h

/-- The chain of a connected block is as long as the one it was connected with. -/
theorem Node.length_connectBlock {node : Node} {block : CBlock} {state : CValidationState}
    {pindex : ChainIndex} {view : CCoinsViewCache} {fJustCheck : Bool} {r : Connected}
    (h : node.connectBlock block state pindex view fJustCheck = .accept r) :
    r.pindex.length = pindex.length := by
  obtain ⟨-, -, -, b, pprev, cb, vtx, rfl, -, ⟨-, rfl⟩ | ⟨-, -, p, -, hfinish⟩⟩ :=
    connectBlock_eq_accept h
  · rfl
  · obtain ⟨-, -, b', pprev', hscaled, rfl⟩ := finishBlock_eq_accept hfinish
    obtain ⟨factor, hfactor⟩ := scaledIndex_cons b pprev fJustCheck
    obtain ⟨-, rfl⟩ := List.cons.inj (hscaled.symm.trans hfactor)
    split <;> rfl

end Bitmark
