import Bitmark.Consensus.State
import Bitmark.Primitives.Block
import Bitmark.Script.Script

/-!
# Context-free block checks

`CheckTransaction` (`src/main.cpp:744`) and `CheckBlock` (`src/main.cpp:2806`) with the reject
code, reason, level and corruption flag of every refusal, and what an accepted block satisfies.
-/

namespace Bitmark

/-- `MAX_BLOCK_SIZE`, `src/main.h:38`. -/
def maxBlockSize : Nat := 1000000

/-- `MAX_BLOCK_SIGOPS`, `src/main.h:46`. -/
def maxBlockSigops : Nat := maxBlockSize / 50

/-- What a node validates blocks with: the linked cryptography, its network, and the parts of
its environment that validation reads. -/
structure Node where
  hashes : Hashes
  params : CChainParams
  equihash : EquihashVerifier
  /-- `VerifyScript(scriptSig, scriptPubKey, txTo, nIn, flags, 0)`. -/
  verifyScript : Bytes → Bytes → CTransaction → Nat → BitVec 32 → Bool
  /-- `GetTime()`. -/
  nNow : Int
  /-- Whether `nScriptCheckThreads` is positive. -/
  scriptCheckThreads : Bool := false
  /-- `mapCheckpoints` by height; empty where checkpoints are disabled. -/
  checkpoints : List (Nat × Uint256) := []
  /-- The undo file and the block index can be written. -/
  diskOk : Bool := true

/-- `Checkpoints::GetTotalBlocksEstimate`, `src/checkpoints.cpp:140`. -/
def Node.totalBlocksEstimate (node : Node) : Nat := (node.checkpoints.getLast?.map (·.1)).getD 0

/-! ### Transactions -/

/-- The output loop of `CheckTransaction`. -/
def checkOutputs (state : CValidationState) (nValueOut : Int) : List CTxOut → Verdict Unit
  | [] => .accept ()
  | txout :: vout => do
    .check (decide (0 ≤ txout.nValue)) (state.doS 100 rejectInvalid "bad-txns-vout-negative")
    .check (decide (txout.nValue ≤ maxMoney)) (state.doS 100 rejectInvalid "bad-txns-vout-toolarge")
    let nValueOut := toInt64 (nValueOut + txout.nValue)
    .check (moneyRange nValueOut) (state.doS 100 rejectInvalid "bad-txns-txouttotal-toolarge")
    checkOutputs state nValueOut vout

/-- `CheckTransaction`, `src/main.cpp:744`. -/
def checkTransaction (tx : CTransaction) (state : CValidationState) : Verdict Unit := do
  .check (!tx.vin.isEmpty) (state.doS 10 rejectInvalid "bad-txns-vin-empty")
  .check (!tx.vout.isEmpty) (state.doS 10 rejectInvalid "bad-txns-vout-empty")
  .check (decide (tx.serialize.length ≤ maxBlockSize))
    (state.doS 100 rejectInvalid "bad-txns-oversize")
  checkOutputs state 0 tx.vout
  .check (decide (tx.vin.map CTxIn.prevout).Nodup)
    (state.doS 100 rejectInvalid "bad-txns-inputs-duplicate")
  if tx.isCoinBase then
    .check (tx.vin.all fun txin ↦ 2 ≤ txin.scriptSig.length && txin.scriptSig.length ≤ 100)
      (state.doS 100 rejectInvalid "bad-cb-length")
  else
    .check (tx.vin.all fun txin ↦ !txin.prevout.isNull)
      (state.doS 10 rejectInvalid "bad-txns-prevout-null")

/-- Every transaction of a list passes `CheckTransaction`. -/
def checkTransactions (state : CValidationState) : List CTransaction → Verdict Unit
  | [] => .accept ()
  | tx :: vtx => do
    checkTransaction tx state
    checkTransactions state vtx

/-- `GetLegacySigOpCount`, `src/main.cpp:667`. -/
def getLegacySigOpCount (tx : CTransaction) : Nat :=
  (tx.vin.map fun txin ↦ getSigOpCount txin.scriptSig false).sum +
    (tx.vout.map fun txout ↦ getSigOpCount txout.scriptPubKey false).sum

/-! ### Blocks -/

/-- A memory fault ends the process. -/
def Verdict.ofAccess {α : Type} : Access α → Verdict α
  | .ok a => .accept a
  | .error _ => .abort

/-- The proof-of-work checks of `CheckBlock`, `src/main.cpp:2831–2847`. -/
def Node.checkWork (node : Node) (block : CBlock) (state : CValidationState) : Verdict Unit :=
  if block.isAuxpow then do
    let ok ← .ofAccess (checkAuxPowProofOfWork node.hashes node.equihash node.params
      block.toCBlockHeader)
    .check ok (state.doS 50 rejectInvalid "high-hash")
  else do
    .check (block.getAlgo != .equihash || checkEquihashSolution node.equihash
      block.toCPureBlockHeader) (state.doS 50 rejectInvalid "bad-equihash-solution")
    let powHash ← .ofAccess (block.getPoWHash node.hashes block.getAlgo)
    .check (checkProofOfWork node.params powHash block.nBits block.getAlgo)
      (state.doS 50 rejectInvalid "high-hash")

/-- `CheckBlock`, `src/main.cpp:2806`. -/
def Node.checkBlock (node : Node) (block : CBlock) (state : CValidationState)
    (fCheckPOW fCheckMerkleRoot : Bool) : Verdict Unit := do
  let bytes ← .require block.serialize
  .check (!block.vtx.isEmpty && decide (block.vtx.length ≤ maxBlockSize) &&
    decide (bytes.length ≤ maxBlockSize)) (state.doS 100 rejectInvalid "bad-blk-length")
  .onlyIf fCheckPOW (node.checkWork block state)
  .check (decide ((block.nTime.toNat : Int) ≤ node.nNow + 12 * 60))
    (state.invalid rejectInvalid "time-too-new")
  .check (block.vtx.head?.any CTransaction.isCoinBase)
    (state.doS 100 rejectInvalid "bad-cb-missing")
  .check (block.vtx.tail.all fun tx ↦ !tx.isCoinBase)
    (state.doS 100 rejectInvalid "bad-cb-multiple")
  checkTransactions state block.vtx
  .check (decide (block.txHashes node.hashes).Nodup)
    (state.doS 100 rejectInvalid "bad-txns-duplicate" true)
  .check (decide ((block.vtx.map getLegacySigOpCount).sum ≤ maxBlockSigops))
    (state.doS 100 rejectInvalid "bad-blk-sigops" true)
  .check (!fCheckMerkleRoot || block.hashMerkleRoot = block.buildMerkleTree node.hashes)
    (state.doS 100 rejectInvalid "bad-txnmrklroot" true)

/-! ### What the checks establish -/

/-- A transaction that passes `CheckTransaction`. -/
structure CTransaction.Checked (tx : CTransaction) : Prop where
  vin_ne_nil : tx.vin ≠ []
  size : tx.serialize.length ≤ maxBlockSize
  outputs : ∀ o ∈ tx.vout, moneyRange o.nValue
  total : moneyRange (sumValues tx.vout)
  inputs_nodup : (tx.vin.map CTxIn.prevout).Nodup
  inputs_ne_null : tx.isCoinBase = false → ∀ txin ∈ tx.vin, txin.prevout.isNull = false

private theorem checkOutputs_eq_accept {state : CValidationState} {acc : Int}
    {vout : List CTxOut} (hacc : moneyRange acc) (h : checkOutputs state acc vout = .accept ()) :
    moneyRange (acc + sumValues vout) ∧ ∀ o ∈ vout, moneyRange o.nValue := by
  induction vout generalizing acc with
  | nil => simpa using hacc
  | cons o vout ih =>
    simp only [checkOutputs, Verdict.bind_eq_accept, Verdict.check_eq_accept, decide_eq_true_eq,
      Unique.exists_iff] at h
    obtain ⟨hneg, hlarge, hsum, h⟩ := h
    have hwrap : toInt64 (acc + o.nValue) = acc + o.nValue := by
      rw [moneyRange_iff] at hacc
      have hmax : maxMoney = 2800000000000000 := rfl
      exact toInt64_of_range (by omega) (by omega)
    obtain ⟨hrange, hall⟩ := ih hsum h
    rw [hwrap, add_assoc, ← sumValues_cons] at hrange
    exact ⟨hrange, List.forall_mem_cons.mpr ⟨moneyRange_iff.mpr ⟨hneg, hlarge⟩, hall⟩⟩

/-- A transaction in the usual format has fewer outputs than bytes. -/
theorem CTransaction.length_vout_le {tx : CTransaction} (h : tx.vectorFormat = false) :
    tx.vout.length ≤ tx.serialize.length := by
  have hlist : ∀ vout : List CTxOut, vout.length ≤ (vout.flatMap CTxOut.serialize).length := by
    intro vout
    induction vout with
    | nil => simp
    | cons o vout ih =>
      have hone : 8 ≤ o.serialize.length := by simp [CTxOut.serialize]
      simp only [List.flatMap_cons, List.length_append, List.length_cons]
      omega
  have := hlist tx.vout
  rw [CTransaction.serialize, if_neg (by simp [h])]
  simp only [writeVector, List.length_append]
  omega

/-- What `CheckTransaction` establishes. -/
theorem checkTransaction_eq_accept {tx : CTransaction} {state : CValidationState}
    (h : checkTransaction tx state = .accept ()) : tx.Checked := by
  simp only [checkTransaction, Verdict.bind_eq_accept, Verdict.check_eq_accept, decide_eq_true_eq,
    Bool.not_eq_true', List.isEmpty_eq_false_iff, Unique.exists_iff, PUnit.default_eq_unit] at h
  obtain ⟨hvin, -, hsize, hout, hdup, hnull⟩ := h
  obtain ⟨htotal, hall⟩ := checkOutputs_eq_accept (by decide) hout
  rw [zero_add] at htotal
  refine ⟨hvin, hsize, hall, htotal, hdup, fun hcb txin hmem ↦ ?_⟩
  rw [if_neg (by simp [hcb]), Verdict.check_eq_accept, List.all_eq_true] at hnull
  simpa using hnull txin hmem

private theorem checkTransactions_eq_accept {state : CValidationState} {vtx : List CTransaction}
    (h : checkTransactions state vtx = .accept ()) : ∀ tx ∈ vtx, tx.Checked := by
  induction vtx with
  | nil => simp
  | cons tx vtx ih =>
    obtain ⟨⟨⟩, htx, hrest⟩ := Verdict.bind_eq_accept.mp h
    exact List.forall_mem_cons.mpr ⟨checkTransaction_eq_accept htx, ih hrest⟩

/-- A block that passes `CheckBlock`: its first transaction is its only coinbase, and its
transactions are checked and have different hashes. -/
structure CBlock.Checked (H : Hashes) (block : CBlock) : Prop where
  coinbase : ∃ cb vtx, block.vtx = cb :: vtx ∧ cb.isCoinBase = true ∧
    ∀ tx ∈ vtx, tx.isCoinBase = false
  transactions : ∀ tx ∈ block.vtx, tx.Checked
  hashes_nodup : (block.txHashes H).Nodup

/-- What `CheckBlock` establishes. -/
theorem Node.checkBlock_eq_accept {node : Node} {block : CBlock} {state : CValidationState}
    {fCheckPOW fCheckMerkleRoot : Bool}
    (h : node.checkBlock block state fCheckPOW fCheckMerkleRoot = .accept ()) :
    block.Checked node.hashes := by
  simp only [checkBlock, Verdict.bind_eq_accept, Verdict.check_eq_accept, Verdict.require_eq_accept,
    Bool.not_eq_true', List.isEmpty_eq_false_iff, Bool.and_eq_true, decide_eq_true_eq,
    Unique.exists_iff, PUnit.default_eq_unit, List.all_eq_true] at h
  obtain ⟨_, -, ⟨⟨hne, -⟩, -⟩, -, -, hhead, htail, htx, hdup, -⟩ := h
  refine ⟨?_, checkTransactions_eq_accept htx, hdup⟩
  obtain ⟨cb, vtx, hvtx⟩ := List.exists_cons_of_ne_nil hne
  refine ⟨cb, vtx, hvtx, by simpa [hvtx] using hhead, fun tx hmem ↦ ?_⟩
  exact htail tx (by simpa [hvtx] using hmem)

end Bitmark
