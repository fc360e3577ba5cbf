import Bitmark.Chain.Agreement
import Bitmark.Consensus.AcceptBlock
import Bitmark.Script.HeightPush

/-!
# Mined chains

With hash functions a miner can steer, a block that holds only its coinbase extends any chain on
which the rules about versions, times and amounts allow it. Such blocks build the chains of
index entries that concrete statements about long histories need.
-/

namespace Bitmark

/-- The last four bytes of a string as a number. -/
def lastWord (bs : Bytes) : Uint256 := word256 (bs.drop (bs.length - 4))

/-- Hash functions that let a miner choose the id of a block by its nonce and the id of a
transaction by its lock time. -/
def minerHashes : Hashes where
  hash := lastWord
  keccak := lastWord
  scrypt := fun _ ↦ 0
  argon2 := fun _ ↦ 0
  x17 := fun _ ↦ 0
  lyra2rev2 := fun _ ↦ 0
  yescrypt := fun _ ↦ 0
  cryptonight := fun _ ↦ 0

/-- What a miner decides about a block. -/
structure Mined where
  nVersion : Version
  nTime : BitVec 32
  nValue : Int := 0

/-- A coinbase for a block at this height; its id is the height. -/
def minedCoinbase (nHeight : Nat) (nValue : Int) : CTransaction :=
  { vin := [⟨.null, pushInt64 nHeight ++ [0, 0], -1⟩]
    vout := [⟨nValue, []⟩]
    nLockTime := BitVec.ofNat 32 nHeight }

variable (params : CChainParams)

/-- The block a miner makes on top of a chain; its id is one more than its height. -/
def minedBlock (p : ChainIndex) (m : Mined) : CBlock :=
  { nVersion := m.nVersion
    hashPrevBlock := (p.head?.map (·.blockHash)).getD 0
    hashMerkleRoot := BitVec.ofNat 256 p.length
    nTime := m.nTime
    nBits := getNextWorkRequired params p (getAlgo m.nVersion)
    nNonce := BitVec.ofNat 32 (p.length + 1)
    vtx := [minedCoinbase p.length m.nValue] }

/-- The node that connects it. -/
def minerNode (m : Mined) : Node where
  hashes := minerHashes
  params := params
  equihash := fun _ _ ↦ true
  verifyScript := fun _ _ _ _ _ ↦ true
  nNow := m.nTime.toNat

/-- The chain after a mined block is connected. -/
def mine (p : ChainIndex) (m : Mined) : ChainIndex :=
  match scaledIndex ((minedBlock params p m).indexEntry minerHashes :: p) false with
  | [] => []
  | b :: pprev => { b with nMoneySupply := moneySupply (b :: pprev) m.nValue 0 } :: pprev

/-! ### Ids -/

theorem lastWord_append (bs : Bytes) (x : BitVec 32) :
    lastWord (bs ++ bytes32 x) = BitVec.ofNat 256 x.toNat := by
  have hdrop : (bs ++ bytes32 x).drop ((bs ++ bytes32 x).length - 4) = bytes32 x := by
    rw [List.length_append, length_bytes32, Nat.add_sub_cancel, List.drop_left]
  have hvalue : leNat (bytes32 x) = x.toNat := by
    rw [bytes32, leNat_leBytes]
    exact Nat.mod_eq_of_lt x.isLt
  rw [lastWord, hdrop, word256, hvalue]

theorem getHash_minedCoinbase {nHeight : Nat} (h : nHeight < 2 ^ 32) (nValue : Int) :
    (minedCoinbase nHeight nValue).getHash minerHashes = BitVec.ofNat 256 nHeight := by
  have hbytes : (minedCoinbase nHeight nValue).serialize = bytes32 1 ++
      writeVector CTxIn.serialize (minedCoinbase nHeight nValue).vin ++
      writeVector CTxOut.serialize (minedCoinbase nHeight nValue).vout ++
      bytes32 (BitVec.ofNat 32 nHeight) := rfl
  rw [CTransaction.getHash, hbytes]
  change lastWord _ = _
  rw [lastWord_append, BitVec.toNat_ofNat, Nat.mod_eq_of_lt h]

variable {params}

theorem getHash_minedBlock {p : ChainIndex} {m : Mined} (hlength : p.length + 1 < 2 ^ 32)
    (halgo : getAlgo m.nVersion ≠ .equihash ∧ getAlgo m.nVersion ≠ .cryptonight) :
    (minedBlock params p m).getHash minerHashes = BitVec.ofNat 256 (p.length + 1) := by
  have hown : (minedBlock params p m).getAlgo = getAlgo m.nVersion := rfl
  rw [CPureBlockHeader.getHash, CPureBlockHeader.hashBytes, hown, if_neg halgo.1,
    if_neg fun h ↦ halgo.2 h.1, CPureBlockHeader.headerBytes]
  change lastWord (_ ++ bytes32 (BitVec.ofNat 32 (p.length + 1))) = _
  rw [lastWord_append, BitVec.toNat_ofNat, Nat.mod_eq_of_lt hlength]

/-! ### The coinbase passes its checks -/

/-- The height in a coinbase takes at most ten bytes. -/
theorem length_pushInt64_le (n : Int) : (pushInt64 n).length ≤ 10 := by
  have h := length_scriptNumSerialize_lt n
  unfold pushInt64
  split
  · simp
  · rw [pushBytes, if_pos (by simp only [opPushdata1]; change _ < 76; omega), List.length_cons]
    omega

private theorem length_getOpsFrom_le (fuel : Nat) (pc : Bytes) :
    (getOpsFrom fuel pc).1.length ≤ fuel := by
  induction fuel generalizing pc with
  | zero => simp [getOpsFrom]
  | succ fuel ih =>
    rw [getOpsFrom]
    split
    · simp
    · split
      · simp
      · next op rest _ => simpa using ih rest

private theorem sigOpCountFrom_le (lastOpcode : UInt8) (ops : List ScriptOp) :
    sigOpCountFrom false lastOpcode ops ≤ 20 * ops.length := by
  induction ops generalizing lastOpcode with
  | nil => simp [sigOpCountFrom]
  | cons op ops ih =>
    have hrest := ih op.opcode
    simp only [sigOpCountFrom, List.length_cons, Bool.false_eq_true, false_and, if_false]
    split
    · omega
    · split <;> omega

/-- A script has at most twenty signature operations for each byte. -/
theorem getSigOpCount_le (script : Bytes) : getSigOpCount script false ≤ 20 * script.length :=
  (sigOpCountFrom_le _ _).trans (Nat.mul_le_mul_left 20 (length_getOpsFrom_le _ _))

private theorem getSizeOfCompactSize_le (n : Nat) : getSizeOfCompactSize n ≤ 9 := by
  unfold getSizeOfCompactSize
  split
  · omega
  · split
    · omega
    · split <;> omega

theorem length_minedCoinbase_le (nHeight : Nat) (nValue : Int) :
    (minedCoinbase nHeight nValue).serialize.length ≤ 200 := by
  have hscript := length_pushInt64_le nHeight
  have hsize := getSizeOfCompactSize_le ((pushInt64 nHeight).length + 2)
  have hone : getSizeOfCompactSize 1 = 1 := rfl
  have hzero : getSizeOfCompactSize 0 = 1 := rfl
  simp only [CTransaction.serialize, minedCoinbase, writeVector, writeBytes, CTxIn.serialize,
    CTxOut.serialize, COutPoint.serialize, List.length_append, List.flatMap_cons, List.flatMap_nil,
    length_writeCompactSize, length_bytes32, length_bytes256, length_leBytes, List.length_cons,
    List.length_nil, Bool.false_eq_true, if_false]
  simp only [Nat.reduceAdd, hone, hzero]
  omega

theorem checkTransaction_minedCoinbase (nHeight : Nat) {nValue : Int} (h : moneyRange nValue)
    (state : CValidationState) :
    checkTransaction (minedCoinbase nHeight nValue) state = .accept () := by
  have hscript := length_pushInt64_le nHeight
  have hsize := length_minedCoinbase_le nHeight nValue
  have hlimit : maxBlockSize = 1000000 := rfl
  have hrange := moneyRange_iff.mp h
  have hmax : maxMoney = 2800000000000000 := rfl
  have hvalue : toInt64 (0 + nValue) = nValue := by
    rw [zero_add]
    exact toInt64_of_range (by omega) (by omega)
  have hcb : (minedCoinbase nHeight nValue).isCoinBase = true := rfl
  simp only [checkTransaction, Verdict.bind_eq_accept, Verdict.check_eq_accept, hcb, if_true,
    Unique.exists_iff, PUnit.default_eq_unit]
  refine ⟨rfl, rfl, by rw [decide_eq_true_eq]; omega, ?_, by simp [minedCoinbase], ?_⟩
  · simp only [minedCoinbase, checkOutputs, Verdict.bind_eq_accept, Verdict.check_eq_accept,
      Unique.exists_iff, hvalue, decide_eq_true_eq, and_true]
    exact ⟨hrange.1, hrange.2, h⟩
  · simp only [minedCoinbase, List.all_cons, List.all_nil, List.length_append, List.length_cons,
      List.length_nil, Bool.and_true, Bool.and_eq_true, decide_eq_true_eq]
    omega

theorem getLegacySigOpCount_minedCoinbase_le (nHeight : Nat) (nValue : Int) :
    getLegacySigOpCount (minedCoinbase nHeight nValue) ≤ 240 := by
  have hscript := length_pushInt64_le nHeight
  have hin := getSigOpCount_le (pushInt64 nHeight ++ [0, 0])
  have hout := getSigOpCount_le []
  simp only [List.length_append, List.length_cons, List.length_nil] at hin hout
  simp only [getLegacySigOpCount, minedCoinbase, List.map_cons, List.map_nil, List.sum_cons,
    List.sum_nil]
  omega

/-! ### A mined block is connected -/

/-- What a miner has to respect for its block to pass the rules that come before `ConnectBlock`. -/
structure Mined.Offered (params : CChainParams) (p : ChainIndex) (m : Mined) : Prop where
  auxpow : isAuxpow m.nVersion = false
  algo : getAlgo m.nVersion = .scrypt ∨ getAlgo m.nVersion = .x17
  work : checkProofOfWork params 0 (getNextWorkRequired params p (getAlgo m.nVersion))
    (getAlgo m.nVersion) = true
  height : p.length < 2 ^ 31
  range : moneyRange m.nValue

/-- What a miner has to respect for its block to be connected. -/
structure Mined.Valid (params : CChainParams) (p : ChainIndex) (m : Mined) : Prop where
  auxpow : isAuxpow m.nVersion = false
  algo : getAlgo m.nVersion = .scrypt ∨ getAlgo m.nVersion = .x17
  work : checkProofOfWork params 0 (getNextWorkRequired params p (getAlgo m.nVersion))
    (getAlgo m.nVersion) = true
  height : p.length < 2 ^ 31
  range : moneyRange m.nValue
  rules : versionRules m.nVersion ((minedBlock params p m).indexEntry minerHashes :: p) = true
  value : m.nValue ≤ subsidy params
    (setScalingFactor ((minedBlock params p m).indexEntry minerHashes :: p)) false

namespace Mined.Offered

variable {p : ChainIndex} {m : Mined}

theorem getHash (h : m.Offered params p) :
    (minedBlock params p m).getHash minerHashes = BitVec.ofNat 256 (p.length + 1) := by
  have := h.height
  refine getHash_minedBlock (by omega) ?_
  rcases h.algo with halgo | halgo <;> rw [halgo] <;> decide

/-- The block passes `CheckBlock`: nothing in it depends on the chain but its difficulty. -/
theorem checkBlock (h : m.Offered params p) (state : CValidationState) :
    (minerNode params m).checkBlock (minedBlock params p m) state true true = .accept () := by
  have hheight := h.height
  have hhash := getHash_minedCoinbase (show p.length < 2 ^ 32 by omega) m.nValue
  have hown : (minedBlock params p m).getAlgo = getAlgo m.nVersion := rfl
  have hvtx : (minedBlock params p m).vtx = [minedCoinbase p.length m.nValue] := rfl
  have haux : (minedBlock params p m).isAuxpow = false := h.auxpow
  have hlimit : maxBlockSize = 1000000 := rfl
  obtain ⟨bytes, hbytes, hsize⟩ : ∃ bytes, (minedBlock params p m).serialize = some bytes ∧
      bytes.length ≤ 1000 := by
    have hcoinbase := length_minedCoinbase_le p.length m.nValue
    have hheader : (minedBlock params p m).toCPureBlockHeader.serialize.length = 80 := by
      have hno : (minedBlock params p m).hasSolution = false := by
        simp only [CPureBlockHeader.hasSolution, hown]
        rcases h.algo with halgo | halgo <;> rw [halgo] <;> rfl
      have hformat : (minedBlock params p m).vectorFormat = false := rfl
      simp [CPureBlockHeader.serialize, hformat, hno]
    refine ⟨_, by rw [CBlock.serialize, CBlockHeader.serialize, haux]; rfl, ?_⟩
    simp only [hvtx, writeVector, List.length_append, hheader, length_writeCompactSize,
      List.flatMap_cons, List.flatMap_nil, List.length_nil, List.length_singleton]
    have hone : getSizeOfCompactSize 1 = 1 := rfl
    omega
  have hwork : (minerNode params m).checkWork (minedBlock params p m) state = .accept () := by
    rw [Node.checkWork, if_neg (by simp [haux]), hown]
    have hpow : (minedBlock params p m).getPoWHash minerHashes (getAlgo m.nVersion) = .ok 0 := by
      rcases h.algo with halgo | halgo <;> rw [halgo] <;> rfl
    have hno : (getAlgo m.nVersion != Algo.equihash) = true := by
      rcases h.algo with halgo | halgo <;> rw [halgo] <;> rfl
    change (do
      Verdict.check ((getAlgo m.nVersion != Algo.equihash) || _) _
      let powHash ← Verdict.ofAccess ((minedBlock params p m).getPoWHash minerHashes _)
      Verdict.check (checkProofOfWork params powHash (getNextWorkRequired params p _) _) _) = _
    rw [hno, hpow]
    simpa [Verdict.ofAccess, Verdict.bind_eq_accept] using h.work
  have htxs : checkTransactions state [minedCoinbase p.length m.nValue] = .accept () := by
    simp [checkTransactions, checkTransaction_minedCoinbase p.length h.range]
  have hsigops := getLegacySigOpCount_minedCoinbase_le p.length m.nValue
  have hroot : (minedBlock params p m).buildMerkleTree minerHashes = BitVec.ofNat 256 p.length := by
    rw [CBlock.buildMerkleTree, CBlock.vMerkleTree, hvtx, ← hhash]
    rfl
  simp only [Node.checkBlock, hbytes, hwork, hvtx, htxs, Verdict.bind_eq_accept,
    Verdict.check_eq_accept, Verdict.require_eq_accept, Verdict.onlyIf_eq_accept, Unique.exists_iff,
    Option.some.injEq, exists_eq_left', Bool.and_eq_true, decide_eq_true_eq]
  have hnow : ((minedBlock params p m).nTime.toNat : Int) = (minerNode params m).nNow := rfl
  have hmax : maxBlockSigops = 20000 := rfl
  refine ⟨⟨⟨rfl, ?_⟩, by omega⟩, fun _ ↦ trivial, by omega, rfl, rfl, trivial, ?_, ?_, ?_⟩
  · rw [List.length_singleton]
    omega
  · simp [CBlock.txHashes, hvtx]
  · rw [List.map_singleton, List.sum_singleton]
    omega
  · exact decide_eq_true hroot.symm

end Mined.Offered

theorem Mined.Valid.offered {p : ChainIndex} {m : Mined} (h : m.Valid params p) :
    m.Offered params p :=
  ⟨h.auxpow, h.algo, h.work, h.height, h.range⟩

theorem Mined.Valid.getHash {p : ChainIndex} {m : Mined} (h : m.Valid params p) :
    (minedBlock params p m).getHash minerHashes = BitVec.ofNat 256 (p.length + 1) :=
  h.offered.getHash

/-- A chain of mined blocks and its coins: the ids follow the heights, and the transaction of
the next block is not there yet. -/
structure Mineable (p : ChainIndex) (view : CCoinsViewCache) : Prop where
  head : p.head?.map (·.blockHash) = some (BitVec.ofNat 256 p.length)
  best : view.hashBlock = BitVec.ofNat 256 p.length
  fresh : ∀ txid : Uint256, p.length ≤ txid.toNat → view.getCoins txid = none

/-- The coins after a mined block is connected. -/
def minedView (view : CCoinsViewCache) (nHeight : Nat) (nValue : Int) : CCoinsViewCache :=
  (view.setCoins (BitVec.ofNat 256 nHeight)
    (.ofTransaction (minedCoinbase nHeight nValue) nHeight)).setBestBlock (BitVec.ofNat 256 (nHeight + 1))

section Connect

variable {p : ChainIndex} {m : Mined} {view : CCoinsViewCache}

theorem mine_eq (params : CChainParams) (p : ChainIndex) (m : Mined) : ∃ b,
    scaledIndex ((minedBlock params p m).indexEntry minerHashes :: p) false = b :: p ∧
      b.nVersion = m.nVersion ∧ b.blockHash = (minedBlock params p m).getHash minerHashes ∧
      mine params p m = { b with nMoneySupply := moneySupply (b :: p) m.nValue 0 } :: p := by
  obtain ⟨factor, hfactor⟩ :=
    scaledIndex_cons ((minedBlock params p m).indexEntry minerHashes) p false
  exact ⟨_, hfactor, rfl, rfl, by rw [mine, hfactor]⟩

theorem length_mine (params : CChainParams) (p : ChainIndex) (m : Mined) :
    (mine params p m).length = p.length + 1 := by
  obtain ⟨b, -, -, -, hmine⟩ := mine_eq params p m
  rw [hmine, List.length_cons]

theorem Mineable.mine (hp : Mineable p view) (h : m.Valid params p) :
    Mineable (mine params p m) (minedView view p.length m.nValue) := by
  obtain ⟨b, -, -, hhash, hmine⟩ := mine_eq params p m
  refine ⟨?_, by rw [length_mine]; rfl, fun txid htxid ↦ ?_⟩
  · rw [length_mine, hmine, ← h.getHash, ← hhash]
    rfl
  · rw [length_mine] at htxid
    have hheight := h.height
    have hne : txid ≠ BitVec.ofNat 256 p.length := by
      rintro rfl
      rw [BitVec.toNat_ofNat, Nat.mod_eq_of_lt (by omega)] at htxid
      omega
    rw [minedView, CCoinsViewCache.getCoins_setBestBlock, CCoinsViewCache.getCoins_setCoins_of_ne _ hne]
    exact hp.fresh txid (by omega)

theorem Mined.Valid.getHash_ne_genesis (h : m.Valid params p)
    (hgenesis : params.hashGenesisBlock = 1) (hp : Mineable p view) :
    (minedBlock params p m).getHash minerHashes ≠ params.hashGenesisBlock := by
  have hheight := h.height
  have hlength : 0 < p.length := by
    cases p with
    | nil => exact absurd hp.head (by simp)
    | cons c rest => simp
  rw [h.getHash, hgenesis]
  intro heq
  have := congrArg BitVec.toNat heq
  rw [BitVec.toNat_ofNat, Nat.mod_eq_of_lt (by omega)] at this
  change p.length + 1 = 1 at this
  omega

/-- The transaction loop of a mined block. -/
theorem runTxs_minedBlock (h : m.Valid params p) (state : CValidationState) (b : CBlockIndex)
    (view : CCoinsViewCache) :
    (minerNode params m).runTxs (minedBlock params p m) state (b :: p) view
        (minedBlock params p m).vtx = .accept
      { view := view.setCoins (BitVec.ofNat 256 p.length)
          (.ofTransaction (minedCoinbase p.length m.nValue) p.length)
        nSigOps := getLegacySigOpCount (minedCoinbase p.length m.nValue) } := by
  have hheight := h.height
  have hhash := getHash_minedCoinbase (show p.length < 2 ^ 32 by omega) m.nValue
  have hsigops := getLegacySigOpCount_minedCoinbase_le p.length m.nValue
  have hmax : maxBlockSigops = 20000 := rfl
  have hvtx : (minedBlock params p m).vtx = [minedCoinbase p.length m.nValue] := rfl
  have hcb : (minedCoinbase p.length m.nValue).isCoinBase = true := rfl
  have hspends : (minedCoinbase p.length m.nValue).spends = [] := rfl
  have hhashes : (minerNode params m).hashes = minerHashes := rfl
  have hcheck : decide (getLegacySigOpCount (minedCoinbase p.length m.nValue) ≤ maxBlockSigops) =
      true := by
    rw [decide_eq_true_eq]
    omega
  simp only [Node.runTxs, hvtx, Node.connectTxs, Node.connectTx, Nat.zero_add, hcheck, hcb, if_true,
    CCoinsViewCache.updateCoins, hspends, CCoinsViewCache.spendInputs, hhashes, hhash,
    List.tail_cons]
  rfl

/-- The rules behind the transaction loop accept a mined block. -/
theorem finishBlock_minedBlock (h : m.Valid params p) (state : CValidationState) {q : Progress}
    (hfees : q.nFees = 0) (hchecks : q.vChecks = []) :
    (minerNode params m).finishBlock (minedCoinbase p.length m.nValue) state
        ((minedBlock params p m).indexEntry minerHashes :: p) q false =
      .accept ⟨q.view.setBestBlock (BitVec.ofNat 256 (p.length + 1)), mine params p m, q.vtxundo⟩ := by
  obtain ⟨b, hscaled, -, hblockhash, hmine⟩ := mine_eq params p m
  have hrange := moneyRange_iff.mp h.range
  have hmax : maxMoney = 2800000000000000 := rfl
  have hvalue : (minedCoinbase p.length m.nValue).getValueOut = some m.nValue := by
    have hwrap : toInt64 (0 + m.nValue) = m.nValue := by
      rw [zero_add]
      exact toInt64_of_range (by omega) (by omega)
    simp only [CTransaction.getValueOut, minedCoinbase, getValueOutFrom, hwrap, h.range]
    rfl
  have hneeded : m.nValue ≤ getBlockValue params
      (setScalingFactor ((minedBlock params p m).indexEntry minerHashes :: p)) 0 := by
    rw [getBlockValue_zero]
    exact h.value
  have hparams : (minerNode params m).params = params := rfl
  have hdisk : (minerNode params m).diskOk = true := rfl
  have hcached : cacheScalingFactor
      (setScalingFactor ((minedBlock params p m).indexEntry minerHashes :: p)) = b :: p := hscaled
  simp only [Node.finishBlock, hvalue, hfees, hchecks, hparams, hdisk, hcached, hblockhash, hmine,
    h.getHash, decide_eq_true hneeded, List.all_nil, Verdict.require, Verdict.check,
    Verdict.accept_bind, Bool.false_eq_true, if_false, if_true]

/-- A mined block is connected. -/
theorem connectBlock_minedBlock (hgenesis : params.hashGenesisBlock = 1) (h : m.Valid params p)
    (hp : Mineable p view) (state : CValidationState) :
    (minerNode params m).connectBlock (minedBlock params p m) state
        ((minedBlock params p m).indexEntry minerHashes :: p) view false =
      .accept ⟨minedView view p.length m.nValue, mine params p m, []⟩ := by
  have hheight := h.height
  have hhash := getHash_minedCoinbase (show p.length < 2 ^ 32 by omega) m.nValue
  have hnew := h.getHash_ne_genesis hgenesis hp
  have hbest : prevBlockHash ((minedBlock params p m).indexEntry minerHashes :: p) =
      view.hashBlock := by
    rw [prevBlockHash, List.tail_cons, hp.head, hp.best]
    rfl
  have hbip30 : ((minedBlock params p m).txHashes minerHashes).all view.prunedAt = true := by
    have htxs : (minedBlock params p m).txHashes minerHashes = [BitVec.ofNat 256 p.length] := by
      rw [← hhash]
      rfl
    have hfresh := hp.fresh (BitVec.ofNat 256 p.length) (by
      rw [BitVec.toNat_ofNat, Nat.mod_eq_of_lt (by omega)])
    rw [htxs, List.all_cons, CCoinsViewCache.prunedAt, hfresh]
    rfl
  have hvtx : (minedBlock params p m).vtx = [minedCoinbase p.length m.nValue] := rfl
  have hversion : (minedBlock params p m).nVersion = m.nVersion := rfl
  have hnode : (minerNode params m).hashes = minerHashes ∧ (minerNode params m).params = params :=
    ⟨rfl, rfl⟩
  have hrun := runTxs_minedBlock h state ((minedBlock params p m).indexEntry minerHashes) view
  have hfinish := finishBlock_minedBlock h state (q :=
    { view := view.setCoins (BitVec.ofNat 256 p.length)
        (.ofTransaction (minedCoinbase p.length m.nValue) p.length)
      nSigOps := getLegacySigOpCount (minedCoinbase p.length m.nValue) }) rfl rfl
  rw [hvtx] at hrun
  simp only [Node.connectBlock, Bool.not_false, h.offered.checkBlock state, hversion, h.rules, hbest,
    if_true, hvtx, hnode.1, hnode.2, if_neg hnew, hbip30, hrun, hfinish, Verdict.check,
    Verdict.require, Verdict.accept_bind]
  rfl

end Connect

/-! ### Accepted chains of mined blocks -/

private theorem medianTimes_subset (i : Nat) (wasOnFork : Bool) (p : ChainIndex) :
    medianTimes i wasOnFork p ⊆ p.map (·.nTime.toNat) := by
  induction i generalizing wasOnFork p with
  | zero => simp [medianTimes]
  | succ i ih =>
    cases p with
    | nil => simp [medianTimes]
    | cons b p =>
      simp only [medianTimes]
      split
      · simp
      · rw [List.map_cons]
        exact List.cons_subset_cons _ (ih _ _)

/-- The median of past times is below any time that is later than all of them. -/
theorem getMedianTimePast_lt {p : ChainIndex} {n : Nat} (hp : p ≠ [])
    (h : ∀ e ∈ p, e.nTime.toNat < n) : getMedianTimePast p < n := by
  rw [getMedianTimePast]
  generalize hi : ((medianTimes nMedianTimeSpan false p).insertionSort (· ≤ ·)).length / 2 = i
  rw [List.getD_eq_getElem?_getD]
  cases hget : ((medianTimes nMedianTimeSpan false p).insertionSort (· ≤ ·))[i]? with
  | none =>
    obtain ⟨e, rest, rfl⟩ := List.exists_cons_of_ne_nil hp
    have := h e List.mem_cons_self
    rw [Option.getD_none]
    omega
  | some t =>
    have hmem := (List.mem_insertionSort (· ≤ ·)).mp (List.mem_of_getElem? hget)
    obtain ⟨e, he, rfl⟩ := List.mem_map.mp (medianTimes_subset _ _ _ hmem)
    exact h e he

/-- An accepted chain on which the miner can go on. -/
structure MinedChain (params : CChainParams) (p : ChainIndex) (view : CCoinsViewCache)
    (issued : List Int) : Prop extends Mineable p view where
  accepted : AcceptedChain minerHashes params p view issued

/-- A mined block passes the rules of its context. -/
theorem contextCheck_minedBlock {p : ChainIndex} {m : Mined} (h : m.Offered params p) (hne : p ≠ [])
    (htime : ∀ e ∈ p, e.nTime.toNat < m.nTime.toNat) (hversion : 3 ≤ m.nVersion.toInt)
    (hformat : getAlgo m.nVersion = .scrypt ∨
      onFork ((minedBlock params p m).indexEntry minerHashes :: p) = true) :
    (minerNode params m).contextCheck (minedBlock params p m) {} p none = .accept () := by
  have hvtx : (minedBlock params p m).vtx = [minedCoinbase p.length m.nValue] := rfl
  have hcb : (minedBlock params p m).vtx.head?.bind (·.vin.head?) =
      some ⟨.null, pushInt64 p.length ++ [0, 0], -1⟩ := rfl
  have hown : (minedBlock params p m).getAlgo = getAlgo m.nVersion := rfl
  have haux : (minedBlock params p m).isAuxpow = false := h.auxpow
  simp only [Node.contextCheck, Verdict.bind_eq_accept, Verdict.check_eq_accept,
    Verdict.require_eq_accept, Unique.exists_iff, hcb, Option.some.injEq, exists_eq_left', hown,
    haux, decide_eq_true_eq]
  refine ⟨rfl, getMedianTimePast_lt hne htime, ?_, rfl, rfl, ?_, ?_, ?_, ?_⟩
  · simp [hvtx, isFinalTx, minedCoinbase, CTxIn.isFinal]
  · change 2 ≤ m.nVersion.toInt
    omega
  · simp
  · change (!(decide (m.nVersion.toInt < 3) && _)) = true
    rw [decide_eq_false (by omega)]
    rfl
  · rcases hformat with halgo | hfork
    · rw [halgo]
      rfl
    · rw [onFork] at hfork
      rw [hfork, Bool.or_true]

/-- A mined block whose time is new and whose algorithm is allowed extends an accepted chain. -/
theorem MinedChain.extend {p : ChainIndex} {m : Mined} {view : CCoinsViewCache}
    {issued : List Int} (hgenesis : params.hashGenesisBlock = 1)
    (hp : MinedChain params p view issued) (h : m.Valid params p)
    (htime : ∀ e ∈ p, e.nTime.toNat < m.nTime.toNat) (hversion : 3 ≤ m.nVersion.toInt)
    (hformat : getAlgo m.nVersion = .scrypt ∨
      onFork ((minedBlock params p m).indexEntry minerHashes :: p) = true) :
    MinedChain params (mine params p m) (minedView view p.length m.nValue) (m.nValue :: issued) := by
  refine ⟨hp.toMineable.mine h, ?_⟩
  have hconnect := connectBlock_minedBlock hgenesis h hp.toMineable {}
  have hrun := runTxs_minedBlock h {} ((minedBlock params p m).indexEntry minerHashes) view
  have hvtx : (minedBlock params p m).vtx = [minedCoinbase p.length m.nValue] := rfl
  have hcontext := contextCheck_minedBlock h.offered hp.accepted.ne_nil htime hversion hformat
  have hlink : p.head?.map (·.blockHash) = some (minedBlock params p m).hashPrevBlock := by
    rw [hp.head]
    simp only [minedBlock, hp.head, Option.getD_some]
  have hnew := h.getHash_ne_genesis hgenesis hp.toMineable
  have hhashes : (minerNode params m).hashes = minerHashes := rfl
  have haccepted := AcceptedChain.block hp.accepted hlink rfl hhashes rfl hcontext hhashes rfl hnew
    hconnect hrun
  have hissued : claimed (minedBlock params p m).vtx - 0 = m.nValue := by
    have hcb : (minedCoinbase p.length m.nValue).isCoinBase = true := rfl
    have hout : sumValues (minedCoinbase p.length m.nValue).vout = m.nValue := by
      simp [minedCoinbase]
    simp [hvtx, claimed, hcb, hout]
  exact hissued ▸ haccepted

/-- The entry of a mined genesis block. -/
def minedGenesis (params : CChainParams) (m : Mined) : CBlockIndex :=
  { (minedBlock params [] m).indexEntry minerHashes with nMoneySupply := 2000000000 }

/-- A miner's first block is connected as the genesis block. -/
theorem connectBlock_minedGenesis {m : Mined} (hgenesis : params.hashGenesisBlock = 1)
    (h : m.Valid params []) :
    (minedBlock params [] m).getHash minerHashes = params.hashGenesisBlock ∧
    (minerNode params m).connectBlock (minedBlock params [] m) {}
      [(minedBlock params [] m).indexEntry minerHashes] ⟨∅, 0⟩ false =
      .accept ⟨⟨∅, 1⟩, [minedGenesis params m], []⟩ := by
  have hid : (minedBlock params [] m).getHash minerHashes = params.hashGenesisBlock :=
    h.getHash.trans hgenesis.symm
  have hversion : (minedBlock params [] m).nVersion = m.nVersion := rfl
  have hvtx : (minedBlock params [] m).vtx = [minedCoinbase 0 m.nValue] := rfl
  have hnode : (minerNode params m).hashes = minerHashes ∧ (minerNode params m).params = params :=
    ⟨rfl, rfl⟩
  have hbest : prevBlockHash [(minedBlock params [] m).indexEntry minerHashes] = 0 := rfl
  have hentry : ((minedBlock params [] m).indexEntry minerHashes).blockHash = 1 := h.getHash
  refine ⟨hid, ?_⟩
  simp only [Node.connectBlock, Bool.not_false, h.offered.checkBlock, hversion, h.rules, hbest, hvtx,
    hnode.1, hnode.2, hid, hentry, minedGenesis, Verdict.check, Verdict.require,
    Verdict.accept_bind, if_true]
  rfl

/-- A chain of mined blocks starts with a genesis block. -/
theorem MinedChain.genesis {m : Mined} (hgenesis : params.hashGenesisBlock = 1)
    (h : m.Valid params []) :
    MinedChain params [minedGenesis params m] ⟨∅, 1⟩ [2000000000] := by
  obtain ⟨hid, hconnect⟩ := connectBlock_minedGenesis hgenesis h
  refine ⟨⟨?_, rfl, fun txid _ ↦ rfl⟩, ?_⟩
  · exact congrArg some h.getHash
  · have hhashes : (minerNode params m).hashes = minerHashes := rfl
    exact AcceptedChain.genesis hhashes rfl hid hconnect

/-! ### Without updates of the scaling factor -/

/-- No block of the chain carries the update flag, and none has a factor. -/
def Unflagged (p : ChainIndex) : Prop :=
  ∀ b ∈ p, updateSsf b.nVersion = false ∧ b.subsidyScalingFactor = 0

theorem Unflagged.suffix {p q : ChainIndex} (h : Unflagged p) (hq : q <:+ p) : Unflagged q :=
  fun b hb ↦ h b (hq.subset hb)

theorem unflagged_cons {b : CBlockIndex} {p : ChainIndex} :
    Unflagged (b :: p) ↔
      (updateSsf b.nVersion = false ∧ b.subsidyScalingFactor = 0) ∧ Unflagged p :=
  List.forall_mem_cons

/-- The walk of the cadence rules starts behind a block, whose own flag does not matter. -/
theorem Unflagged.flaggedSteps {p : ChainIndex} (h : Unflagged p) (b : CBlockIndex) (n i : Nat) :
    flaggedSteps n i (b :: p) = [] := by
  induction n generalizing b i p with
  | zero => rfl
  | succ n ih =>
    rw [Bitmark.flaggedSteps]
    have hrest := h.suffix (getPprevAlgo_suffix b p none)
    cases hprev : getPprevAlgo (b :: p) with
    | nil => rfl
    | cons c rest =>
      rw [hprev] at hrest
      obtain ⟨⟨hflag, -⟩, hrest⟩ := unflagged_cons.mp hrest
      simp only [hflag, Bool.false_eq_true, if_false]
      exact ih hrest c (i + 1)

theorem Unflagged.keyBlock {p : ChainIndex} (h : Unflagged p) : keyBlock p = [] := by
  induction p using keyBlock.induct with
  | case1 => simp [Bitmark.keyBlock]
  | case2 b pprev hflag => rw [(unflagged_cons.mp h).1.1] at hflag; cases hflag
  | case3 b pprev hflag ih =>
    rw [Bitmark.keyBlock, if_neg hflag]
    exact ih ((unflagged_cons.mp h).2.suffix (getPprevAlgo_suffix b pprev none))

section Unflagged

variable {b : CBlockIndex} {p : ChainIndex}

theorem Unflagged.setScalingFactor (h : Unflagged (b :: p)) :
    setScalingFactor (b :: p) = b :: p := by
  obtain ⟨⟨hflag, hfactor⟩, hp⟩ := unflagged_cons.mp h
  simp only [Bitmark.setScalingFactor, hflag, Bool.false_eq_true, if_false]
  split
  · cases hprev : getPprevAlgo (b :: p) with
    | nil => rfl
    | cons c rest =>
      have hrest := hp.suffix (getPprevAlgo_suffix b p none)
      rw [hprev] at hrest
      simp only [(unflagged_cons.mp hrest).1.2]
      rw [← hfactor]
  · rfl

theorem Unflagged.scalingFactor (h : Unflagged (b :: p)) : scalingFactor (b :: p) = 0 := by
  obtain ⟨⟨-, hfactor⟩, -⟩ := unflagged_cons.mp h
  rw [Bitmark.scalingFactor, hfactor, keyFactor, h.keyBlock]
  rfl

theorem Unflagged.scaledIndex (h : Unflagged (b :: p)) : scaledIndex (b :: p) false = b :: p := by
  have hfactor := (unflagged_cons.mp h).1.2
  simp only [Bitmark.scaledIndex, Bool.false_eq_true, if_false, h.setScalingFactor,
    cacheScalingFactor, h.scalingFactor]
  split
  · rw [← hfactor]
  · rfl

/-- Without updates the subsidy is the base reward. -/
theorem Unflagged.subsidy_nonneg (h : Unflagged (b :: p)) :
    0 ≤ subsidy params (b :: p) false := by
  unfold subsidy
  split
  · have hzero : toUint32 0 = 0 := rfl
    simp only [h.scalingFactor, Bool.false_eq_true, if_false, scaledSubsidy, hzero, if_true]
    exact (baseSubsidy_range params _).1
  · exact (preForkSubsidy_range params _).1

/-- Behind no updates the cadence rules hold. -/
theorem Unflagged.versionRules {nVersion : Version} (h : Unflagged p)
    (hversion : onFork (b :: p) = true → 4 ≤ nVersion.toInt) :
    versionRules nVersion (b :: p) = true := by
  have hcadence : ssfCadence (b :: p) = true := by
    simp only [ssfCadence, h.flaggedSteps]
    exact ite_self _
  rw [Bitmark.versionRules, hcadence]
  cases hfork : onFork (b :: p) with
  | false => rfl
  | true =>
    have := hversion hfork
    rw [decide_eq_false (by omega)]
    rfl

end Unflagged

/-! ### Planned chains -/

/-- The headers of a chain for which the miner decides `m h` at height `h`. -/
def planned (nBits : BitVec 32) (m : Nat → Mined) : Nat → ChainIndex
  | 0 => []
  | h + 1 => ⟨0, (m h).nVersion, (m h).nTime, nBits, 0, 0⟩ :: planned nBits m h

theorem nBits_planned {nBits : BitVec 32} {m : Nat → Mined} {n : Nat} {e : CBlockIndex}
    (he : e ∈ planned nBits m n) : e.nBits = nBits := by
  induction n with
  | zero => cases he
  | succ n ih =>
    rcases List.mem_cons.mp he with rfl | he
    · rfl
    · exact ih he

/-- What the blocks up to a height claim, genesis apart. -/
def plannedClaims (m : Nat → Mined) : Nat → Int
  | 0 => 0
  | h + 1 => plannedClaims m h + (m (h + 1)).nValue

/-- A plan for the blocks up to height `n` that the rules allow: no updates and no auxpow, a
constant difficulty, claims only before the fork. -/
structure Plan (params : CChainParams) (nBits : BitVec 32) (m : Nat → Mined) (n : Nat) : Prop where
  plain : ∀ h < n + 1, isAuxpow (m h).nVersion = false ∧
    (getAlgo (m h).nVersion = .scrypt ∨ getAlgo (m h).nVersion = .x17) ∧
    updateSsf (m h).nVersion = false ∧ 3 ≤ (m h).nVersion.toInt
  time : ∀ h < n, (m h).nTime.toNat < (m (h + 1)).nTime.toNat
  work : ∀ h < n + 1, getNextWorkRequired params (planned nBits m h) (getAlgo (m h).nVersion) = nBits
  pow : checkProofOfWork params 0 nBits .scrypt = true ∧ checkProofOfWork params 0 nBits .x17 = true
  allowed : ∀ h < n + 1,
    if onFork (planned nBits m (h + 1)) then 4 ≤ (m h).nVersion.toInt ∧ (m h).nValue = 0
    else getAlgo (m h).nVersion = .scrypt ∧ 0 ≤ (m h).nValue ∧
      (m h).nValue ≤ preForkSubsidy params h
  claims : 2000000000 + plannedClaims m n ≤ maxMoney

/-- The plan is carried out up to height `n`. -/
structure Planned (params : CChainParams) (nBits : BitVec 32) (m : Nat → Mined) (n : Nat)
    (p : ChainIndex) (view : CCoinsViewCache) (issued : List Int) : Prop
    extends MinedChain params p view issued where
  unflagged : Unflagged p
  length : p.length = n + 1
  headers : headerOnly.apply p = planned nBits m (n + 1)
  time : ∀ e ∈ p, e.nTime.toNat ≤ (m n).nTime.toNat
  supply : ∀ e ∈ p, 0 ≤ e.nMoneySupply ∧ e.nMoneySupply ≤ 2000000000 + plannedClaims m n
  coinbases : ∀ h, 1 ≤ h → h ≤ n → view.getCoins (BitVec.ofNat 256 h) =
    some (.ofTransaction (minedCoinbase h (m h).nValue) h)

section Plan

variable {nBits : BitVec 32} {m : Nat → Mined} {n : Nat} {p : ChainIndex} {view : CCoinsViewCache}
  {issued : List Int}

theorem Plan.pred (h : Plan params nBits m (n + 1)) (hvalue : 0 ≤ (m (n + 1)).nValue) :
    Plan params nBits m n where
  plain i hi := h.plain i (by omega)
  time i hi := h.time i (by omega)
  work i hi := h.work i (by omega)
  pow := h.pow
  allowed i hi := h.allowed i (by omega)
  claims := by
    have := h.claims
    rw [plannedClaims] at this
    omega

theorem Plan.nonneg (h : Plan params nBits m n) {i : Nat} (hi : i < n + 1) : 0 ≤ (m i).nValue := by
  have := h.allowed i hi
  split at this
  · exact this.2.ge
  · exact this.2.1

/-- The planned header of the next block. -/
theorem Plan.header (h : Plan params nBits m n) {i : Nat} (hi : i < n + 1)
    (hheaders : headerOnly.apply p = planned nBits m i) :
    headerOnly.apply ((minedBlock params p (m i)).indexEntry minerHashes :: p) =
      planned nBits m (i + 1) := by
  have hwork : getNextWorkRequired params p (getAlgo (m i).nVersion) = nBits := by
    rw [← headerOnly.getNextWorkRequired_apply, hheaders, h.work i hi]
  rw [HeaderMap.apply_cons, hheaders]
  simp only [CBlock.indexEntry, minedBlock, hwork]
  rfl

theorem Plan.valid (h : Plan params nBits m n) {i : Nat} (hi : i < n + 1) (hn : n < 2 ^ 31)
    (hp : Unflagged p) (hlength : p.length = i) (hheaders : headerOnly.apply p = planned nBits m i) :
    (m i).Valid params p := by
  obtain ⟨haux, halgo, hflag, -⟩ := h.plain i hi
  have hallowed := h.allowed i hi
  have hunflagged : Unflagged ((minedBlock params p (m i)).indexEntry minerHashes :: p) :=
    unflagged_cons.mpr ⟨⟨hflag, rfl⟩, hp⟩
  have hwork : getNextWorkRequired params p (getAlgo (m i).nVersion) = nBits := by
    rw [← headerOnly.getNextWorkRequired_apply, hheaders, h.work i hi]
  have hnonneg := h.nonneg hi
  have hsubsidy := preForkSubsidy_range params i
  have hmax : maxMoney = 2800000000000000 := rfl
  rw [← h.header hi hheaders, HeaderMap.onFork_apply] at hallowed
  refine ⟨haux, halgo, ?_, by omega, ?_, ?_, ?_⟩
  · rw [hwork]
    rcases halgo with halgo | halgo <;> rw [halgo]
    · exact h.pow.1
    · exact h.pow.2
  · rw [moneyRange_iff]
    split at hallowed <;> omega
  · refine hp.versionRules fun hfork ↦ ?_
    rw [if_pos hfork] at hallowed
    exact hallowed.1
  · rw [hunflagged.setScalingFactor]
    split at hallowed
    · rw [hallowed.2]
      exact hunflagged.subsidy_nonneg
    · next hfork =>
      rw [subsidy, if_neg hfork, List.length_cons, Nat.add_sub_cancel, hlength]
      exact hallowed.2.2

/-- A block without fees adds its claim to the supplies. -/
private theorem moneySupply_range {b : CBlockIndex} {c nValue : Int} (hc : 0 ≤ c)
    (hvalue : 0 ≤ nValue) (hmax : 2000000000 + c + nValue ≤ maxMoney)
    (h : ∀ e ∈ p, 0 ≤ e.nMoneySupply ∧ e.nMoneySupply ≤ 2000000000 + c) :
    0 ≤ moneySupply (b :: p) nValue 0 ∧
      moneySupply (b :: p) nValue 0 ≤ 2000000000 + (c + nValue) := by
  have hmoney : maxMoney = 2800000000000000 := rfl
  have hword : ∀ x : Int, 0 ≤ x ∧ x ≤ 2000000000 + c → toInt64 (x + nValue - 0) = x + nValue := by
    intro x hx
    rw [sub_zero]
    exact toInt64_of_range (by omega) (by omega)
  unfold moneySupply
  split
  · have hprev := prevMoneySupply_range (b := b) (by omega) h
    rw [hword _ hprev]
    omega
  · cases p with
    | nil =>
      simp only [List.tail_cons]
      omega
    | cons e rest =>
      have he := h e List.mem_cons_self
      simp only [List.tail_cons]
      rw [hword _ he]
      omega

theorem Plan.claims_nonneg (h : Plan params nBits m n) : 0 ≤ plannedClaims m n := by
  induction n with
  | zero => exact le_rfl
  | succ n ih =>
    have hvalue := h.nonneg (i := n + 1) (by omega)
    have := ih (h.pred hvalue)
    rw [plannedClaims]
    omega

/-- The coinbases of a chain stay where they are when a block is mined. -/
private theorem getCoins_minedView {h : Nat} (hheight : h < 2 ^ 32) {i : Nat} (hi : i < h)
    (nValue : Int) :
    (minedView view h nValue).getCoins (BitVec.ofNat 256 i) = view.getCoins (BitVec.ofNat 256 i) := by
  have hne : BitVec.ofNat 256 i ≠ BitVec.ofNat 256 h := by
    intro heq
    have := congrArg BitVec.toNat heq
    rw [BitVec.toNat_ofNat, BitVec.toNat_ofNat, Nat.mod_eq_of_lt (by omega),
      Nat.mod_eq_of_lt (by omega)] at this
    omega
  rw [minedView, CCoinsViewCache.getCoins_setBestBlock, CCoinsViewCache.getCoins_setCoins_of_ne _ hne]

/-- The first block of a plan. -/
theorem Plan.planned_zero (hgenesis : params.hashGenesisBlock = 1) (h : Plan params nBits m 0) :
    Planned params nBits m 0 [minedGenesis params (m 0)] ⟨∅, 1⟩ [2000000000] := by
  have hvalid := h.valid (p := []) (i := 0) (by omega) (by decide) (by simp [Unflagged]) rfl rfl
  have hflag := (h.plain 0 (by omega)).2.2.1
  refine ⟨MinedChain.genesis hgenesis hvalid, ?_, rfl, ?_, ?_, ?_, fun i hi hle ↦ by omega⟩
  · exact unflagged_cons.mpr ⟨⟨hflag, rfl⟩, by simp [Unflagged]⟩
  · rw [← h.header (p := []) (i := 0) (by omega) rfl]
    rfl
  · simp [minedGenesis, minedBlock, CBlock.indexEntry]
  · simp [minedGenesis, plannedClaims]

/-- The next block of a plan is valid, its time is new and its algorithm is allowed. -/
theorem Plan.next (h : Plan params nBits m (n + 1)) (hn : n + 1 < 2 ^ 31)
    (hp : Planned params nBits m n p view issued) :
    (m (n + 1)).Valid params p ∧ (∀ e ∈ p, e.nTime.toNat < (m (n + 1)).nTime.toNat) ∧
      (getAlgo (m (n + 1)).nVersion = .scrypt ∨
        onFork ((minedBlock params p (m (n + 1))).indexEntry minerHashes :: p) = true) := by
  refine ⟨h.valid (by omega) hn hp.unflagged hp.length hp.headers, ?_, ?_⟩
  · intro e he
    exact (hp.time e he).trans_lt (h.time n (by omega))
  · have hallowed := h.allowed (n + 1) (by omega)
    rw [← h.header (by omega) hp.headers, HeaderMap.onFork_apply] at hallowed
    split at hallowed
    · next hfork => exact .inr hfork
    · exact .inl hallowed.1

/-- One more block of a plan. -/
theorem Plan.planned_succ (hgenesis : params.hashGenesisBlock = 1)
    (h : Plan params nBits m (n + 1)) (hn : n + 1 < 2 ^ 31)
    (hp : Planned params nBits m n p view issued) :
    Planned params nBits m (n + 1) (mine params p (m (n + 1)))
      (minedView view (n + 1) (m (n + 1)).nValue) ((m (n + 1)).nValue :: issued) := by
  obtain ⟨-, halgo, hflag, hversion⟩ := h.plain (n + 1) (by omega)
  obtain ⟨hvalid, hlater, hformat⟩ := h.next hn hp
  have hall : Unflagged ((minedBlock params p (m (n + 1))).indexEntry minerHashes :: p) :=
    unflagged_cons.mpr ⟨⟨hflag, rfl⟩, hp.unflagged⟩
  have hheader := h.header (by omega) hp.headers
  have hnext := hp.extend hgenesis hvalid hlater hversion hformat
  have hmine : mine params p (m (n + 1)) =
      { (minedBlock params p (m (n + 1))).indexEntry minerHashes with
        nMoneySupply := moneySupply ((minedBlock params p (m (n + 1))).indexEntry minerHashes :: p)
          (m (n + 1)).nValue 0 } :: p := by
    rw [mine, hall.scaledIndex]
  rw [hp.length] at hnext
  have hvalue := h.nonneg (i := n + 1) (by omega)
  refine ⟨hnext, ?_, by rw [length_mine, hp.length], ?_, ?_, ?_, fun i hi hle ↦ ?_⟩
  · rw [hmine]
    exact unflagged_cons.mpr ⟨⟨hflag, rfl⟩, hp.unflagged⟩
  · rw [hmine, ← hheader]
    rfl
  · rw [hmine, List.forall_mem_cons]
    exact ⟨le_rfl, fun e he ↦ (hlater e he).le⟩
  · have hclaims := h.claims
    have hold := (h.pred hvalue).claims_nonneg
    rw [plannedClaims] at hclaims ⊢
    rw [hmine, List.forall_mem_cons]
    refine ⟨moneySupply_range hold hvalue (by omega) hp.supply, fun e he ↦ ?_⟩
    have := hp.supply e he
    omega
  · rcases Nat.lt_or_ge i (n + 1) with hlt | hge
    · rw [getCoins_minedView (by omega) hlt]
      exact hp.coinbases i hi (by omega)
    · obtain rfl : i = n + 1 := by omega
      rw [minedView, CCoinsViewCache.getCoins_setBestBlock,
        CCoinsViewCache.getCoins_setCoins_self]

/-- Every plan is carried out. -/
theorem Plan.exists_planned (hgenesis : params.hashGenesisBlock = 1) (hn : n < 2 ^ 31)
    (h : Plan params nBits m n) : ∃ p view issued, Planned params nBits m n p view issued := by
  induction n with
  | zero => exact ⟨_, _, _, h.planned_zero hgenesis⟩
  | succ n ih =>
    obtain ⟨p, view, issued, hp⟩ := ih (by omega) (h.pred (h.nonneg (by omega)))
    exact ⟨_, _, _, h.planned_succ hgenesis hn hp⟩

end Plan

/-- The parameters of the regression test network, with a mined genesis block. -/
def minerParams : CChainParams := { regTestParams with hashGenesisBlock := 1 }

/-- The difficulty of the regression test network is constant. -/
theorem getNextWorkRequired_minerParams (p : ChainIndex) (algo : Algo) :
    getNextWorkRequired minerParams p algo = 0x207fffff := by
  have hnetwork : minerParams.networkID = .regtest := rfl
  rw [getNextWorkRequired, if_pos hnetwork]
  decide

theorem plannedClaims_of_unpaid {m : Nat → Mined} (hvalue : ∀ h, (m h).nValue = 0) (n : Nat) :
    plannedClaims m n = 0 := by
  induction n with
  | zero => rfl
  | succ n ih => rw [plannedClaims, ih, hvalue, add_zero]

/-- Blocks of version 4 that claim nothing are allowed before the fork and on it. -/
theorem plan_of_version4 {m : Nat → Mined} {n : Nat} (hversion : ∀ h, (m h).nVersion = 4)
    (hvalue : ∀ h, (m h).nValue = 0)
    (htime : ∀ h < n, (m h).nTime.toNat < (m (h + 1)).nTime.toNat) :
    Plan minerParams 0x207fffff m n where
  plain h _ := by
    rw [hversion]
    decide
  time := htime
  work _ _ := getNextWorkRequired_minerParams _ _
  pow := by decide
  allowed h _ := by
    rw [hversion, hvalue]
    split
    · exact ⟨by decide, rfl⟩
    · exact ⟨by decide, le_rfl, (preForkSubsidy_range _ h).1⟩
  claims := by
    rw [plannedClaims_of_unpaid hvalue]
    decide

end Bitmark
