import Bitmark.Chain.MedianTime
import Bitmark.Chain.Retarget
import Bitmark.Consensus.Conservation

/-!
# Accepted chains

The contextual rules of `AcceptBlock` (`src/main.cpp:2918`) and the chains whose blocks all pass
them and are connected by `ConnectBlock` on top of their parents. Between two blocks the clock,
the checkpoints and everything else of a node but its network and its hash functions may change.
-/

namespace Bitmark

/-- `LOCKTIME_THRESHOLD`, `src/script.h:28`. -/
def locktimeThreshold : Nat := 500000000

/-- `IsFinalTx`, `src/main.cpp:584`, for a height and a time other than zero. -/
def isFinalTx (tx : CTransaction) (nBlockHeight nBlockTime : Nat) : Bool :=
  let nLockTime := tx.nLockTime.toNat
  nLockTime = 0 || nLockTime < (if nLockTime < locktimeThreshold then nBlockHeight else nBlockTime) ||
    tx.vin.all CTxIn.isFinal

/-- `Checkpoints::CheckBlock`, `src/checkpoints.cpp:97`. -/
def Node.checkCheckpoint (node : Node) (nHeight : Nat) (hash : Uint256) : Bool :=
  (node.checkpoints.find? (·.1 = nHeight)).all (·.2 = hash)

/-- The rules of `AcceptBlock` for a block on top of `pindexPrev`, `src/main.cpp:2924–2990`.
`pcheckpoint` is the height of the last checkpoint in the index. -/
def Node.contextCheck (node : Node) (block : CBlock) (state : CValidationState)
    (pindexPrev : ChainIndex) (pcheckpoint : Option Nat) : Verdict Unit := do
  let nHeight := pindexPrev.length
  .check (block.nBits = getNextWorkRequired node.params pindexPrev (getAlgo block.nVersion))
    (state.doS 100 rejectInvalid "bad-diffbits")
  .check (decide (getMedianTimePast pindexPrev < block.nTime.toNat))
    (state.invalid rejectInvalid "time-too-old")
  .check (block.vtx.all fun tx ↦ isFinalTx tx nHeight block.nTime.toNat)
    (state.doS 10 rejectInvalid "bad-txns-nonfinal")
  .check (node.checkCheckpoint nHeight (block.getHash node.hashes))
    (state.doS 100 rejectCheckpoint "checkpoint mismatch")
  .check (pcheckpoint.all fun h ↦ decide (h ≤ nHeight)) (state.doS 100)
  .check (decide (2 ≤ block.nVersion.toInt)) (state.invalid rejectObsolete "bad-version")
  let txin ← .require (block.vtx.head?.bind (·.vin.head?))
  .check ((pushInt64 nHeight).isPrefixOf txin.scriptSig)
    (state.doS 100 rejectInvalid "bad-cb-height")
  .check (!(decide (block.nVersion.toInt < 3) && isSuperMajority 3 pindexPrev 950 1000))
    (state.invalid rejectObsolete "bad-version")
  .check (!(block.isAuxpow || block.getAlgo != .scrypt) ||
      (decide (nForkHeight ≤ nHeight) && isSuperMajority 4 pindexPrev 75 100))
    (state.doS 100 rejectInvalid "bad-version-fork")

/-- The index entry of a block before it is connected. -/
def CBlock.indexEntry (H : Hashes) (block : CBlock) : CBlockIndex :=
  ⟨block.getHash H, block.nVersion, block.nTime, block.nBits, 0, 0⟩

/-- The chains a node of this network accepts, with the coins they leave and what each block
issued: the claim of its coinbase less its fees, and for genesis the 20 coins `ConnectBlock`
counts. The header of a block is not the parent of a merged-mining proof. -/
inductive AcceptedChain (H : Hashes) (params : CChainParams) :
    ChainIndex → CCoinsViewCache → List Int → Prop
  | genesis {node : Node} {block : CBlock} {state : CValidationState} {r : Connected}
    (hhashes : node.hashes = H) (hparams : node.params = params)
    (hgenesis : block.getHash H = params.hashGenesisBlock)
    (hconnect : node.connectBlock block state [block.indexEntry H] ⟨∅, 0⟩ false = .accept r) :
    AcceptedChain H params r.pindex r.view [2000000000]
  | block {nodeA nodeC : Node} {block : CBlock} {stateA stateC : CValidationState}
    {pindexPrev : ChainIndex} {view : CCoinsViewCache} {issued : List Int}
    {pcheckpoint : Option Nat} {p : Progress} {r : Connected}
    (hprev : AcceptedChain H params pindexPrev view issued)
    (hlink : pindexPrev.head?.map (·.blockHash) = some block.hashPrevBlock)
    (hown : block.algoParent = none)
    (hhashesA : nodeA.hashes = H) (hparamsA : nodeA.params = params)
    (haccept : nodeA.contextCheck block stateA pindexPrev pcheckpoint = .accept ())
    (hhashesC : nodeC.hashes = H) (hparamsC : nodeC.params = params)
    (hnew : block.getHash H ≠ params.hashGenesisBlock)
    (hconnect : nodeC.connectBlock block stateC (block.indexEntry H :: pindexPrev) view false =
      .accept r)
    (hrun : nodeC.runTxs block stateC (block.indexEntry H :: pindexPrev) view block.vtx =
      .accept p) :
    AcceptedChain H params r.pindex r.view ((claimed block.vtx - p.nFees) :: issued)

/-! ### What a block of an accepted chain satisfies -/

/-- The scaling factor `ConnectBlock` leaves in the entry of a block. -/
def connectedFactor (b : CBlockIndex) (pprev : ChainIndex) : Nat :=
  ((scaledIndex ({ b with nMoneySupply := 0, subsidyScalingFactor := 0 } :: pprev) false).head?.map
    (·.subsidyScalingFactor)).getD 0

/-- What connecting a block with entry `b` to the chain `pprev` established. -/
structure Extends (H : Hashes) (params : CChainParams) (pprev : ChainIndex)
    (view₀ : CCoinsViewCache) (b : CBlockIndex) (view : CCoinsViewCache) (net : Int) : Prop where
  rules : versionRules b.nVersion (b :: pprev) = true
  work : b.nBits = getNextWorkRequired params pprev (getAlgo b.nVersion)
  time : getMedianTimePast pprev < b.nTime.toNat
  version : 2 ≤ b.nVersion.toInt
  format : isAuxpow b.nVersion = true ∨ getAlgo b.nVersion ≠ .scrypt →
    onFork (b :: pprev) = true
  factor : b.subsidyScalingFactor = connectedFactor b pprev
  value : ∃ nValueOut nFees, net = nValueOut - nFees ∧ moneyRange nValueOut ∧
    nValueOut ≤ getBlockValue params (b :: pprev) nFees ∧
    b.nMoneySupply = moneySupply (b :: pprev) nValueOut nFees ∧
    (∃ fees, 0 ≤ fees ∧ nFees = toInt64 fees ∧ view.total + fees ≤ view₀.total + nValueOut) ∧
    (view₀.Nonneg → view.Nonneg) ∧
    (view₀.Nonneg → view₀.total ≤ maxMoney → moneyRange nFees)

/-- The rules read only the version of the entry they are for. -/
theorem versionRules_head {b b' : CBlockIndex} (h : b.nVersion = b'.nVersion) (nVersion : Version)
    (pprev : ChainIndex) : versionRules nVersion (b :: pprev) = versionRules nVersion (b' :: pprev) := by
  have hsteps : ∀ n i, flaggedSteps n i (b :: pprev) = flaggedSteps n i (b' :: pprev) := by
    intro n i
    cases n with
    | zero => rfl
    | succ n => simp only [flaggedSteps, getPprevAlgo_head h]
  have hcadence : ssfCadence (b :: pprev) = ssfCadence (b' :: pprev) := by
    simp only [ssfCadence, hsteps, h]
  simp only [versionRules, hcadence]
  rfl

theorem moneySupply_head {b b' : CBlockIndex} (h : b.nVersion = b'.nVersion) (pprev : ChainIndex)
    (nValueOut nFees : Int) :
    moneySupply (b :: pprev) nValueOut nFees = moneySupply (b' :: pprev) nValueOut nFees := by
  simp only [moneySupply, prevMoneySupply, getPprevAlgo_head h, getMpowMsCorrection, List.tail_cons]
  rfl

/-- The subsidy of a connected entry is the one its coinbase was checked against. -/
private theorem subsidy_connected {params : CChainParams} {pindex pprev : ChainIndex}
    {b b' : CBlockIndex} (hidx : scaledIndex pindex false = b :: pprev)
    (hv : b'.nVersion = b.nVersion) (hf : b'.subsidyScalingFactor = b.subsidyScalingFactor) :
    subsidy params (b' :: pprev) false = subsidy params (setScalingFactor pindex) false := by
  rw [subsidy_head params hv (scalingFactor_head hv hf pprev), ← hidx, scaledIndex,
    subsidy_cacheScalingFactor]
  rfl

/-- The outputs of a view stay nonnegative through the transactions of a block. -/
theorem nonneg_runTxs {node : Node} {block : CBlock} {state : CValidationState}
    {pindex : ChainIndex} {view : CCoinsViewCache} {p : Progress}
    (hchecked : block.Checked node.hashes)
    (hpruned : ∀ tx ∈ block.vtx, view.PrunedAt (tx.getHash node.hashes))
    (h : node.runTxs block state pindex view block.vtx = .accept p) (hview : view.Nonneg) :
    p.view.Nonneg := by
  have hfinal := accounted_runTxs hchecked (List.append_nil _).symm hpruned h
  intro txid i o ho
  rcases hfinal.available txid i o ho with hold | ⟨tx, hmem, -, hcreates⟩
  · exact hview txid i o hold
  · exact (hchecked.transactions tx hmem).nonneg o (List.mem_of_getElem? hcreates.1)

/-- The last block of an accepted chain is genesis or extends an accepted chain. -/
theorem AcceptedChain.cases_cons {H : Hashes} {params : CChainParams} {b : CBlockIndex}
    {pprev : ChainIndex} {view : CCoinsViewCache} {issued : List Int}
    (h : AcceptedChain H params (b :: pprev) view issued) :
    (pprev = [] ∧ view.cacheCoins = ∅ ∧ issued = [2000000000] ∧ b.nMoneySupply = 2000000000 ∧
        b.subsidyScalingFactor = 0) ∨
      ∃ view₀ issued₀ net, AcceptedChain H params pprev view₀ issued₀ ∧ issued = net :: issued₀ ∧
        Extends H params pprev view₀ b view net := by
  generalize hp : b :: pprev = p at h
  cases h with
  | @genesis node block state r hhashes hparams hgenesis hconnect =>
    subst hhashes hparams
    obtain ⟨-, -, -, b', pprev', cb, vtx, hidx, -, hcase⟩ := Node.connectBlock_eq_accept hconnect
    obtain ⟨rfl, rfl⟩ := List.cons.inj hidx
    rcases hcase with ⟨-, rfl⟩ | ⟨hne, -⟩
    · obtain ⟨rfl, rfl⟩ := List.cons.inj hp
      exact .inl ⟨rfl, rfl, rfl, rfl, rfl⟩
    · exact absurd hgenesis hne
  | @block nodeA nodeC block stateA stateC pindexPrev view₀ issued₀ pcheckpoint q r hprev hlink
      hown hhashesA hparamsA haccept hhashesC hparamsC hnew hconnect hrun =>
    subst hhashesC hparamsC
    obtain ⟨hchecked, hrules, hbest, e, pprev', cb, vtx, hidx, hvtx, hcase⟩ :=
      Node.connectBlock_eq_accept hconnect
    obtain ⟨rfl, rfl⟩ := List.cons.inj hidx
    rcases hcase with ⟨heq, -⟩ | ⟨-, hpruned, q', hrun', hfinish⟩
    · exact absurd heq hnew
    obtain rfl : q = q' := Verdict.accept.inj (hrun.symm.trans hrun')
    obtain ⟨hout, hle, e, pprev', hscaled, hr⟩ := Node.finishBlock_eq_accept hfinish
    obtain ⟨factor, hfactor⟩ := scaledIndex_cons (block.indexEntry nodeC.hashes) pindexPrev false
    obtain ⟨rfl, rfl⟩ := List.cons.inj (hscaled.symm.trans hfactor)
    simp only [Bool.false_eq_true, if_false] at hr hle
    rw [hr] at hp
    obtain ⟨rfl, rfl⟩ := List.cons.inj hp
    refine .inr ⟨view₀, issued₀, _, hprev, rfl, ?_⟩
    simp only [Node.contextCheck, Verdict.bind_eq_accept, Verdict.check_eq_accept,
      Verdict.require_eq_accept, Unique.exists_iff, decide_eq_true_eq, hparamsA] at haccept
    obtain ⟨hwork, htime, -, -, -, hversion, -, -, -, -, hformat⟩ := haccept
    have hcoins : r.view.cacheCoins = q.view.cacheCoins := Node.finishBlock_cacheCoins hfinish
    have hchecked' := accounted_runTxs hchecked (List.append_nil _).symm hpruned hrun
    refine ⟨?_, hwork, htime, hversion, fun hf ↦ ?_, ?_, ?_⟩
    · exact (versionRules_head rfl block.nVersion pprev).trans hrules
    · rcases Bool.or_eq_true_iff.mp hformat with hno | hfork
      · rw [Bool.not_eq_true', Bool.or_eq_false_iff, bne_eq_false_iff_eq,
          CPureBlockHeader.getAlgo, hown] at hno
        rcases hf with haux | halgo
        · exact absurd (haux.symm.trans hno.1) (by simp)
        · exact absurd hno.2 halgo
      · exact hfork
    · exact (congrArg (fun p ↦ ((List.head? p).map (·.subsidyScalingFactor)).getD 0) hfactor).symm
    · obtain ⟨fees, hnonneg, hfees, htotal⟩ := hchecked'.fees
      have hclaimed := hchecked.claimed_eq hvtx
      have hcb := hchecked.transactions cb (by simp [hvtx])
      have htotal' : r.view.total = q.view.total :=
        congrArg (Finmap.sumValues CCoins.total) hcoins
      refine ⟨sumValues cb.vout, q.nFees, by rw [hclaimed], hcb.total, hle.trans_eq ?_, ?_,
        ⟨fees, hnonneg, hfees, ?_⟩, fun hview ↦ ?_, fun hview hmax ↦ ?_⟩
      · refine congrArg (fun x ↦ toInt64 (q.nFees + x)) (subsidy_connected hfactor ?_ ?_).symm <;> rfl
      · exact moneySupply_head rfl pprev _ _
      · rw [htotal', ← hclaimed]
        exact htotal
      · intro txid i o ho
        rw [CCoinsViewCache.unspent, CCoinsViewCache.getCoins, hcoins] at ho
        exact nonneg_runTxs hchecked hpruned hrun hview txid i o ho
      · exact fees_in_range hchecked hpruned hview hmax (List.append_nil _).symm hrun

namespace AcceptedChain

variable {H : Hashes} {params : CChainParams} {p : ChainIndex} {view : CCoinsViewCache}
  {issued : List Int}

/-- An accepted chain contains genesis. -/
theorem ne_nil (h : AcceptedChain H params p view issued) : p ≠ [] := by
  have hidx : ∀ {node : Node} {block : CBlock} {state : CValidationState} {pindex : ChainIndex}
      {v : CCoinsViewCache} {r : Connected}, node.connectBlock block state pindex v false = .accept r →
      r.pindex ≠ [] := by
    intro node block state pindex v r hconnect
    obtain ⟨-, -, -, b, pprev, cb, vtx, -, -, ⟨-, rfl⟩ | ⟨-, -, q, -, hfinish⟩⟩ :=
      Node.connectBlock_eq_accept hconnect
    · simp
    · obtain ⟨-, -, c, rest, -, hr⟩ := Node.finishBlock_eq_accept hfinish
      simp [hr]
  cases h with
  | genesis _ _ _ hconnect => exact hidx hconnect
  | block _ _ _ _ _ _ _ _ _ hconnect _ => exact hidx hconnect

/-- A property of genesis that every extension keeps holds of every accepted chain. -/
theorem induction_on {motive : ChainIndex → CCoinsViewCache → List Int → Prop}
    (hgenesis : ∀ b view, view.cacheCoins = ∅ → b.nMoneySupply = 2000000000 →
      b.subsidyScalingFactor = 0 → motive [b] view [2000000000])
    (hextend : ∀ b pprev view₀ issued₀ view net, AcceptedChain H params pprev view₀ issued₀ →
      motive pprev view₀ issued₀ → Extends H params pprev view₀ b view net →
      motive (b :: pprev) view (net :: issued₀))
    (h : AcceptedChain H params p view issued) : motive p view issued := by
  induction p generalizing view issued with
  | nil => exact absurd rfl h.ne_nil
  | cons b pprev ih =>
    rcases h.cases_cons with ⟨rfl, hview, rfl, hsupply, hfactor⟩ |
      ⟨view₀, issued₀, net, hprev, rfl, hext⟩
    · exact hgenesis b view hview hsupply hfactor
    · exact hextend b pprev view₀ issued₀ view net hprev (ih hprev) hext

/-- A prefix of an accepted chain, genesis included, is accepted. -/
theorem suffix {q : ChainIndex} (h : AcceptedChain H params p view issued) (hq : q <:+ p)
    (hne : q ≠ []) : ∃ view' issued', AcceptedChain H params q view' issued' := by
  induction p generalizing view issued with
  | nil => exact absurd (List.suffix_nil.mp hq) hne
  | cons b pprev ih =>
    rcases List.suffix_cons_iff.mp hq with rfl | hq
    · exact ⟨view, issued, h⟩
    · rcases h.cases_cons with ⟨rfl, -⟩ | ⟨view₀, issued₀, net, hprev, -⟩
      · exact absurd (List.suffix_nil.mp hq) hne
      · exact ih hprev hq

/-- The rule on the time of a block holds all along an accepted chain. -/
theorem timesPastMedian (h : AcceptedChain H params p view issued) : TimesPastMedian p := by
  refine induction_on (motive := fun p _ _ ↦ TimesPastMedian p) ?_ ?_ h
  · intro b view _ _ _
    exact timesPastMedian_cons.mpr ⟨fun hne ↦ absurd rfl hne, timesPastMedian_nil⟩
  · intro b pprev view₀ issued₀ view net _ hprev hext
    exact timesPastMedian_cons.mpr ⟨fun _ ↦ hext.time, hprev⟩

end AcceptedChain

end Bitmark
