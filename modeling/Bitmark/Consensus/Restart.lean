import Bitmark.Base.VarInt
import Bitmark.Chain.Agreement
import Bitmark.Consensus.EmissionCap

/-!
# Restarting a node

The index entries of a restarted node come from disk: `CDiskBlockIndex` (`src/core.h:1129`) keeps
the money supply as a variable-length integer and no scaling factor, and the entry of genesis is
written before `ConnectBlock` sets its supply (`src/main.cpp:2192`). As long as no recorded supply
is negative and a block besides genesis is connected, a restart changes no block value, neither
for `ConnectBlock` nor for the temporary index entry of `CreateNewBlock`.
-/

namespace Bitmark

/-- The money supply read back from disk. -/
def storedSupply (nMoneySupply : Int) : Int :=
  ((readVarInt (writeVarInt nMoneySupply)).map (·.1)).getD 0

/-- The index entries `LoadBlockIndexGuts` makes of the written ones, `src/txdb.cpp:186`. The
entry of genesis has the supply zero it was created with. -/
def reload : ChainIndex → ChainIndex
  | [] => []
  | b :: pprev =>
    { b with
      nMoneySupply := storedSupply (if pprev.isEmpty then 0 else b.nMoneySupply)
      subsidyScalingFactor := 0 } :: reload pprev

/-- `indexDummy` of `CreateNewBlock`, `src/miner.cpp:397`: the entry of a header without a hash,
a supply or a scaling factor. -/
def indexDummy (block : CBlock) (pindexPrev : ChainIndex) : ChainIndex :=
  ⟨0, block.nVersion, block.nTime, block.nBits, 0, 0⟩ :: pindexPrev

/-- The coinbase value of `CreateNewBlock`, `src/miner.cpp:401`. -/
def templateValue (params : CChainParams) (block : CBlock) (pindexPrev : ChainIndex) (nFees : Int) :
    Int :=
  getBlockValue params (indexDummy block pindexPrev) nFees

/-- A node that never restarts and one that does, for the same blocks: their index entries and
coins, and the entries of the second node at each of its restarts. -/
inductive Restarted (H : Hashes) (params : CChainParams) :
    ChainIndex → CCoinsViewCache → ChainIndex → CCoinsViewCache → List ChainIndex → Prop
  | start {p : ChainIndex} {view : CCoinsViewCache} {issued : List Int}
    (haccepted : AcceptedChain H params p view issued) : Restarted H params p view p view []
  | restart {p q : ChainIndex} {view view' : CCoinsViewCache} {restarts : List ChainIndex}
    (hprev : Restarted H params p view q view' restarts) :
    Restarted H params p view (reload q) view' (q :: restarts)
  | block {p q : ChainIndex} {view view' : CCoinsViewCache} {restarts : List ChainIndex}
    {node : Node} {block : CBlock} {state : CValidationState} {r r' : Connected}
    {issued : List Int} (hprev : Restarted H params p view q view' restarts)
    (hhashes : node.hashes = H) (hparams : node.params = params)
    (hnew : block.getHash H ≠ params.hashGenesisBlock)
    (haccepted : AcceptedChain H params r.pindex r.view issued)
    (hconnect : node.connectBlock block state (block.indexEntry H :: p) view false = .accept r)
    (hconnect' : node.connectBlock block state (block.indexEntry H :: q) view' false = .accept r') :
    Restarted H params r.pindex r.view r'.pindex r'.view restarts

/-- A restart that keeps what block values are computed from. -/
def KeepsSupplies (q : ChainIndex) : Prop := 2 ≤ q.length ∧ ∀ b ∈ q, 0 ≤ b.nMoneySupply

/-- The block values of two nodes and of their templates are the same, for connected blocks and
for the next one. -/
structure SameValues (H : Hashes) (params : CChainParams) (p q : ChainIndex) : Prop where
  connected : ∀ i nFees,
    getBlockValue params (q.drop i) nFees = getBlockValue params (p.drop i) nFees
  template : ∀ i b, p[i]? = some b → ∀ block : CBlock, block.nVersion = b.nVersion → ∀ nFees,
    templateValue params block (p.drop (i + 1)) nFees = getBlockValue params (p.drop i) nFees ∧
      templateValue params block (q.drop (i + 1)) nFees = getBlockValue params (p.drop i) nFees
  next : ∀ (block : CBlock) (nFees : Int),
    getBlockValue params (setScalingFactor (block.indexEntry H :: q)) nFees =
        getBlockValue params (setScalingFactor (block.indexEntry H :: p)) nFees ∧
      templateValue params block p nFees =
        getBlockValue params (setScalingFactor (block.indexEntry H :: p)) nFees ∧
      templateValue params block q nFees =
        getBlockValue params (setScalingFactor (block.indexEntry H :: p)) nFees

/-! ### Reading back -/

theorem storedSupply_of_nonneg {n : Int} (hlo : 0 ≤ n) (hhi : n < 2 ^ 63) : storedSupply n = n := by
  rw [storedSupply, readVarInt_writeVarInt hlo hhi]
  rfl

theorem storedSupply_of_neg {n : Int} (h : n < 0) : storedSupply n = n % 128 := by
  rw [storedSupply, readVarInt_writeVarInt_of_neg h]
  rfl

/-- No scaling factor is read back. -/
theorem coherent_reload (q : ChainIndex) : Coherent (reload q) := by
  induction q with
  | nil => exact coherent_nil
  | cons b q ih => exact coherent_cons.mpr ⟨fun _ ↦ .inl rfl, ih⟩

/-- Entries with supplies that fit are read back as they were, genesis apart. -/
theorem agrees_reload {q : ChainIndex}
    (h : ∀ b rest, b :: rest <:+ q → rest ≠ [] → 0 ≤ b.nMoneySupply ∧ b.nMoneySupply < 2 ^ 63) :
    Agrees q (reload q) := by
  induction q with
  | nil => exact .nil
  | cons b q ih =>
    refine .cons rfl rfl rfl rfl (fun hq ↦ ?_)
      (ih fun c rest hsuf ↦ h c rest (hsuf.trans (List.suffix_cons b q)))
    obtain ⟨hlo, hhi⟩ := h b q List.suffix_rfl hq
    have hempty : q.isEmpty = false := by simpa using hq
    simp only [hempty, Bool.false_eq_true, if_false]
    exact (storedSupply_of_nonneg hlo hhi).symm

/-! ### What agreeing chains determine -/

section

variable {params : CChainParams} {b c : CBlockIndex} {p q : ChainIndex}

/-- Entries of one version on agreeing chains are on the fork together. -/
theorem Agrees.onFork_cons (h : Agrees p q) (b c : CBlockIndex) :
    Bitmark.onFork (b :: p) = Bitmark.onFork (c :: q) :=
  (Agrees.cons (b := c) rfl rfl rfl rfl (fun _ ↦ rfl) h).onFork

/-- Whatever was cached, the subsidy is the same on agreeing chains. -/
theorem Agrees.subsidy (h : Agrees p q) (hversion : b.nVersion = c.nVersion)
    (hp : Coherent (b :: p)) (hq : Coherent (c :: q)) :
    subsidy params (b :: p) false = subsidy params (c :: q) false := by
  have hfork := h.onFork_cons b c
  have hkey : Bitmark.keyFactor (b :: p) = Bitmark.keyFactor (c :: q) :=
    (keyFactor_head hversion p).trans
      (Agrees.cons (b := c) rfl rfl rfl rfl (fun _ ↦ rfl) h).keyFactor
  simp only [Bitmark.subsidy, ← hfork, ← h.baseSubsidy hversion, List.length_cons, h.length_eq,
    Bool.false_eq_true, if_false]
  split
  · next hon =>
    rw [scalingFactor_of_coherent ((coherent_cons.mp hp).1 hon),
      scalingFactor_of_coherent ((coherent_cons.mp hq).1 (hfork.symm.trans hon)), hkey]
  · rfl

theorem Agrees.getBlockValue (h : Agrees p q) (hversion : b.nVersion = c.nVersion)
    (hp : Coherent (b :: p)) (hq : Coherent (c :: q)) (nFees : Int) :
    getBlockValue params (b :: p) nFees = getBlockValue params (c :: q) nFees := by
  rw [Bitmark.getBlockValue, Bitmark.getBlockValue, h.subsidy hversion hp hq]

/-- Beyond genesis the supply recorded for a block is the same on agreeing chains. -/
theorem Agrees.moneySupply (h : Agrees p q) (hversion : b.nVersion = c.nVersion)
    (hbase : p.length ≤ 1 → q = p) (nValueOut nFees : Int) :
    moneySupply (b :: p) nValueOut nFees = moneySupply (c :: q) nValueOut nFees := by
  have hfork := h.onFork_cons b c
  rw [Bitmark.moneySupply, Bitmark.moneySupply, ← hfork, h.prevMoneySupply hversion,
    List.tail_cons, List.tail_cons]
  split
  · rfl
  · cases h with
    | nil => rfl
    | @cons b' c' p' q' hhash hv ht hb hsupply hrest =>
      by_cases hp : p' = []
      · have := hbase (by simp [hp])
        rw [this]
      · simp only [hsupply hp]

/-- A new entry is coherent, with the factor `ConnectBlock` sets as without. -/
theorem setScalingFactor_new (hp : Coherent p) (hnew : b.subsidyScalingFactor = 0) :
    Coherent (b :: p) ∧ ∃ factor, setScalingFactor (b :: p) =
      { b with subsidyScalingFactor := factor } :: p ∧
        Coherent ({ b with subsidyScalingFactor := factor } :: p) := by
  refine ⟨coherent_cons.mpr ⟨fun _ ↦ .inl hnew, hp⟩, ?_⟩
  cases hfork : Bitmark.onFork (b :: p) with
  | false =>
    refine ⟨b.subsidyScalingFactor, by simp [setScalingFactor, hfork],
      coherent_cons.mpr ⟨fun hon ↦ ?_, hp⟩⟩
    have hoff : Bitmark.onFork ({ b with subsidyScalingFactor := b.subsidyScalingFactor } :: p) =
      false := hfork
    rw [hoff] at hon
    cases hon
  | true =>
    obtain ⟨factor, hset, hfactor⟩ := setScalingFactor_coherent hp hfork hnew
    refine ⟨factor, hset, coherent_cons.mpr ⟨fun _ ↦ hfactor.imp id fun hkey ↦ ?_, hp⟩⟩
    refine (keyFactor_head ?_ p).trans hkey
    rfl

/-! ### The rules for a block -/

/-- The walk of the cadence rules reads headers only. -/
theorem HeaderMap.flaggedSteps_apply (f : HeaderMap) (n i : Nat) (p : ChainIndex) :
    flaggedSteps n i (f.apply p) = flaggedSteps n i p := by
  induction n generalizing i p with
  | zero => rfl
  | succ n ih =>
    rw [flaggedSteps, flaggedSteps, f.getPprevAlgo_apply]
    cases Bitmark.getPprevAlgo p with
    | nil => rfl
    | cons b rest =>
      have hrest := ih (i + 1) (b :: rest)
      rw [HeaderMap.apply_cons] at hrest
      simp only [HeaderMap.apply_cons, f.nVersion_eq, hrest]

theorem HeaderMap.versionRules_apply (f : HeaderMap) (nVersion : Version) (p : ChainIndex) :
    versionRules nVersion (f.apply p) = versionRules nVersion p := by
  have hcadence : ssfCadence (f.apply p) = ssfCadence p := by
    cases p with
    | nil => rfl
    | cons b p =>
      have hsteps := f.flaggedSteps_apply nSSF 0 (b :: p)
      rw [HeaderMap.apply_cons] at hsteps
      simp only [HeaderMap.apply_cons, ssfCadence, f.nVersion_eq, hsteps]
  rw [versionRules, versionRules, f.onFork_apply, hcadence]

theorem HeaderMap.scriptFlags_apply (f : HeaderMap) (nVersion : Version) (p : ChainIndex) :
    scriptFlags nVersion (f.apply p) = scriptFlags nVersion p := by
  simp only [scriptFlags, f.onFork_apply, f.tail_apply, f.isSuperMajority_apply]

theorem Agrees.versionRules (h : Agrees p q) (nVersion : Version) :
    versionRules nVersion p = versionRules nVersion q := by
  rw [← headerOnly.versionRules_apply, h.headers, headerOnly.versionRules_apply]

theorem Agrees.scriptFlags (h : Agrees p q) (nVersion : Version) :
    scriptFlags nVersion p = scriptFlags nVersion q := by
  rw [← headerOnly.scriptFlags_apply, h.headers, headerOnly.scriptFlags_apply]

theorem Agrees.prevBlockHash (h : Agrees p q) (b c : CBlockIndex) :
    prevBlockHash (b :: p) = prevBlockHash (c :: q) := by
  cases h with
  | nil => rfl
  | cons hhash _ _ _ _ _ =>
    simp only [Bitmark.prevBlockHash, List.tail_cons, List.head?_cons, Option.map_some, hhash]

/-- The transaction loop reads only the height of the chain. -/
theorem Node.connectTxs_congr {node : Node} {state : CValidationState} {fScriptChecks : Bool}
    {flags : BitVec 32} (h : p.length = q.length) (s : Progress) (vtx : List CTransaction) :
    node.connectTxs state p fScriptChecks flags s vtx =
      node.connectTxs state q fScriptChecks flags s vtx := by
  have hempty : p.isEmpty = q.isEmpty := by
    cases p <;> cases q <;> simp_all
  have hinputs : ∀ tx view pvChecks, node.checkInputs tx state view p fScriptChecks flags pvChecks =
      node.checkInputs tx state view q fScriptChecks flags pvChecks := by
    intro tx view pvChecks
    simp only [Node.checkInputs, hempty, h]
  induction vtx generalizing s with
  | nil => rfl
  | cons tx vtx ih =>
    have hstep : node.connectTx state p fScriptChecks flags s tx =
        node.connectTx state q fScriptChecks flags s tx := by
      simp only [Node.connectTx, hinputs, h]
    rw [Node.connectTxs, Node.connectTxs, hstep]
    simp only [ih]

theorem Agrees.runTxs (h : Agrees p q) (node : Node) (block : CBlock) (state : CValidationState)
    (b : CBlockIndex) (view : CCoinsViewCache) (vtx : List CTransaction) :
    node.runTxs block state (b :: p) view vtx = node.runTxs block state (b :: q) view vtx := by
  have hwhole := Agrees.cons (b := b) rfl rfl rfl rfl (fun _ ↦ rfl) h
  simp only [Node.runTxs, hwhole.scriptFlags, List.tail_cons, h.length_eq]
  exact Node.connectTxs_congr h.length_eq _ _

/-- What `ConnectBlock` computes of a block after genesis: the fees and the claim of the coinbase,
and with them the new index entry. -/
theorem Node.connectBlock_eq_accept_of_new {node : Node} {block : CBlock} {state : CValidationState}
    {view : CCoinsViewCache} {r : Connected}
    (hnew : block.getHash node.hashes ≠ node.params.hashGenesisBlock)
    (h : node.connectBlock block state (block.indexEntry node.hashes :: p) view false = .accept r) :
    ∃ cb vtx s, block.vtx = cb :: vtx ∧
      node.runTxs block state (block.indexEntry node.hashes :: p) view block.vtx = .accept s ∧
      r.pindex = { block.indexEntry node.hashes with
        nMoneySupply := Bitmark.moneySupply (block.indexEntry node.hashes :: p)
          (sumValues cb.vout) s.nFees
        subsidyScalingFactor := connectedFactor (block.indexEntry node.hashes) p } :: p ∧
      r.view = s.view.setBestBlock (block.getHash node.hashes) := by
  obtain ⟨-, -, -, b, pprev, cb, vtx, hidx, hvtx, ⟨heq, -⟩ | ⟨-, -, s, hrun, hfinish⟩⟩ :=
    Node.connectBlock_eq_accept h
  · exact absurd heq hnew
  obtain ⟨-, -, e, rest, hscaled, hr⟩ := Node.finishBlock_eq_accept hfinish
  obtain ⟨factor, hfactor⟩ := scaledIndex_cons (block.indexEntry node.hashes) p false
  have hconnected : connectedFactor (block.indexEntry node.hashes) p = factor := by
    change ((scaledIndex (block.indexEntry node.hashes :: p) false).head?.map
      (·.subsidyScalingFactor)).getD 0 = factor
    rw [hfactor]
    rfl
  obtain ⟨he, hrest⟩ := List.cons.inj (hscaled.symm.trans hfactor)
  rw [if_neg Bool.false_ne_true, he, hrest] at hr
  refine ⟨cb, vtx, s, hvtx, hrun, ?_, by rw [hr]; rfl⟩
  rw [hr, hconnected]
  exact congrArg (fun n ↦ ({ block.indexEntry node.hashes with
    nMoneySupply := n, subsidyScalingFactor := factor } : CBlockIndex) :: p)
    (moneySupply_head rfl p _ _)

/-- A chain that agrees with one on which a block is accepted accepts it too. -/
theorem Agrees.connectBlock {node : Node} {block : CBlock} {state : CValidationState}
    {view : CCoinsViewCache} {r : Connected} (h : Agrees p q) (hp : Coherent p) (hq : Coherent q)
    (hconnect : node.connectBlock block state (block.indexEntry node.hashes :: p) view false =
      .accept r) :
    ∃ r', node.connectBlock block state (block.indexEntry node.hashes :: q) view false =
      .accept r' := by
  have hwhole := Agrees.cons (b := block.indexEntry node.hashes) rfl rfl rfl rfl (fun _ ↦ rfl) h
  obtain ⟨hp', fp, hsetp, hcohp⟩ := setScalingFactor_new (b := block.indexEntry node.hashes) hp rfl
  obtain ⟨hq', fq, hsetq, hcohq⟩ := setScalingFactor_new (b := block.indexEntry node.hashes) hq rfl
  have hvalue : ∀ nFees, Bitmark.getBlockValue node.params
      (setScalingFactor (block.indexEntry node.hashes :: p)) nFees =
      Bitmark.getBlockValue node.params
        (setScalingFactor (block.indexEntry node.hashes :: q)) nFees := by
    intro nFees
    rw [hsetp, hsetq]
    refine h.getBlockValue ?_ hcohp hcohq nFees
    rfl
  have hcached : ∃ e, cacheScalingFactor (setScalingFactor (block.indexEntry node.hashes :: q)) =
      e :: q := by
    obtain ⟨factor, hfactor⟩ := scaledIndex_cons (block.indexEntry node.hashes) q false
    exact ⟨_, hfactor⟩
  obtain ⟨e, hcached⟩ := hcached
  simp only [Node.connectBlock, Verdict.bind_eq_accept, Verdict.require_eq_accept,
    Verdict.check_eq_accept, Unique.exists_iff, ite_eq_iff, reduceCtorEq, and_false, and_true,
    or_false, ← hwhole.versionRules, ← h.prevBlockHash (block.indexEntry node.hashes)] at hconnect ⊢
  obtain ⟨hcheck, hrules, hbest, hconnect⟩ := hconnect
  split at hconnect
  · next b pprev cb vtx hidx hvtx =>
    obtain ⟨rfl, rfl⟩ := List.cons.inj hidx
    by_cases hgenesis : block.getHash node.hashes = node.params.hashGenesisBlock
    · exact ⟨_, hcheck, hrules, hbest, by rw [hvtx]; simp only [hgenesis, if_true]; rfl⟩
    · rw [if_neg hgenesis] at hconnect
      simp only [Verdict.bind_eq_accept, Verdict.check_eq_accept, Unique.exists_iff,
        h.runTxs node block state] at hconnect
      obtain ⟨hbip30, s, hrun, hfinish⟩ := hconnect
      obtain ⟨r', hfinish'⟩ : ∃ r', node.finishBlock cb state
          (block.indexEntry node.hashes :: q) s false = .accept r' := by
        simp only [Node.finishBlock, Bool.false_eq_true, if_false, Verdict.bind_eq_accept,
          Verdict.require_eq_accept, Verdict.check_eq_accept, Unique.exists_iff, hvalue] at hfinish ⊢
        obtain ⟨nValueOut, hout, hle, hchecks, hdisk⟩ := hfinish
        rw [hcached]
        split at hdisk
        · cases hdisk
        · simp only [Verdict.bind_eq_accept, Verdict.check_eq_accept, Unique.exists_iff] at hdisk ⊢
          exact ⟨_, nValueOut, hout, hle, hchecks, hdisk.1, rfl⟩
      refine ⟨r', hcheck, hrules, hbest, ?_⟩
      rw [hvtx] at hrun ⊢
      simp only [if_neg hgenesis, hbip30, hrun, hfinish', Verdict.check, if_true,
        Verdict.accept_bind]
  · cases hconnect

end

/-! ### Runs with restarts -/

theorem moneySupply_lt (pindex : ChainIndex) (nValueOut nFees : Int) :
    moneySupply pindex nValueOut nFees < 2 ^ 63 := by
  unfold moneySupply
  split
  · exact (toInt64_range _).2
  · split
    · exact (toInt64_range _).2
    · decide

theorem storedSupply_lt {n : Int} (h : n < 2 ^ 63) : storedSupply n < 2 ^ 63 := by
  rcases lt_or_ge n 0 with hneg | hpos
  · rw [storedSupply_of_neg hneg]
    omega
  · rwa [storedSupply_of_nonneg hpos h]

/-- Recorded supplies are `int64_t` values. -/
theorem AcceptedChain.supply_lt {H : Hashes} {params : CChainParams} {p : ChainIndex}
    {view : CCoinsViewCache} {issued : List Int} (h : AcceptedChain H params p view issued) :
    ∀ b ∈ p, b.nMoneySupply < 2 ^ 63 := by
  refine h.induction_on (motive := fun p _ _ ↦ ∀ b ∈ p, b.nMoneySupply < 2 ^ 63)
    (fun b _ _ hsupply _ ↦ ?_) fun b pprev _ _ _ _ _ ih hext ↦ ?_
  · simp [hsupply]
  · obtain ⟨nValueOut, nFees, -, -, -, hsupply, -⟩ := hext.value
    refine List.forall_mem_cons.mpr ⟨?_, ih⟩
    rw [hsupply]
    exact moneySupply_lt _ _ _

/-- The restarted node is in step with the other one. -/
structure InStep (H : Hashes) (params : CChainParams) (p : ChainIndex) (view : CCoinsViewCache)
    (q : ChainIndex) (view' : CCoinsViewCache) : Prop where
  accepted : ∃ issued, AcceptedChain H params p view issued
  agrees : Agrees p q
  base : p.length ≤ 1 → q = p
  coherent : Coherent q
  fits : ∀ b ∈ q, b.nMoneySupply < 2 ^ 63
  coins : view' = view

section

variable {H : Hashes} {params : CChainParams} {p q : ChainIndex} {view view' : CCoinsViewCache}
  {restarts : List ChainIndex}

theorem InStep.restart (h : InStep H params p view q view') (hkeep : KeepsSupplies q) :
    InStep H params p view (reload q) view' where
  accepted := h.accepted
  agrees := by
    refine h.agrees.trans (agrees_reload fun b rest hsuf _ ↦ ?_)
    have hmem := hsuf.subset List.mem_cons_self
    exact ⟨hkeep.2 b hmem, h.fits b hmem⟩
  base hlength := by
    have := hkeep.1
    rw [← h.agrees.length_eq] at this
    omega
  coherent := coherent_reload q
  fits := by
    have hfits := h.fits
    clear h hkeep
    induction q with
    | nil => simp [reload]
    | cons b q ih =>
      rw [List.forall_mem_cons] at hfits
      refine List.forall_mem_cons.mpr ⟨storedSupply_lt ?_, ih hfits.2⟩
      split
      · decide
      · exact hfits.1
  coins := h.coins

theorem InStep.block {node : Node} {block : CBlock} {state : CValidationState} {r r' : Connected}
    {issued : List Int} (h : InStep node.hashes node.params p view q view')
    (hnew : block.getHash node.hashes ≠ node.params.hashGenesisBlock)
    (haccepted : AcceptedChain node.hashes node.params r.pindex r.view issued)
    (hconnect : node.connectBlock block state (block.indexEntry node.hashes :: p) view false =
      .accept r)
    (hconnect' : node.connectBlock block state (block.indexEntry node.hashes :: q) view' false =
      .accept r') :
    InStep node.hashes node.params r.pindex r.view r'.pindex r'.view := by
  obtain ⟨cb, vtx, s, hvtx, hrun, hindex, hview⟩ := Node.connectBlock_eq_accept_of_new hnew hconnect
  obtain ⟨cb', vtx', s', hvtx', hrun', hindex', hview'⟩ :=
    Node.connectBlock_eq_accept_of_new hnew hconnect'
  obtain ⟨rfl, rfl⟩ := List.cons.inj (hvtx.symm.trans hvtx')
  rw [h.coins, ← h.agrees.runTxs] at hrun'
  obtain rfl : s = s' := Verdict.accept.inj (hrun.symm.trans hrun')
  have hsupply := h.agrees.moneySupply (b := block.indexEntry node.hashes) rfl h.base
    (sumValues cb.vout) s.nFees
  refine ⟨⟨issued, haccepted⟩, ?_, fun hlength ↦ ?_, ?_, ?_, by rw [hview, hview']⟩
  · rw [hindex, hindex']
    exact .cons rfl rfl rfl rfl (fun _ ↦ hsupply) h.agrees
  · obtain ⟨issued₀, hprev⟩ := h.accepted
    have := List.length_pos_of_ne_nil hprev.ne_nil
    rw [hindex, List.length_cons] at hlength
    omega
  · rw [hindex']
    exact coherent_connected h.coherent rfl
  · rw [hindex', List.forall_mem_cons]
    exact ⟨moneySupply_lt _ _ _, h.fits⟩

/-- Restarts that keep the supplies leave the nodes in step. -/
theorem Restarted.inStep (h : Restarted H params p view q view' restarts)
    (hkeep : ∀ s ∈ restarts, KeepsSupplies s) : InStep H params p view q view' := by
  induction h with
  | start haccepted =>
    exact ⟨⟨_, haccepted⟩, .refl _, fun _ ↦ rfl, haccepted.coherent, haccepted.supply_lt, rfl⟩
  | restart hprev ih =>
    rw [List.forall_mem_cons] at hkeep
    exact (ih hkeep.2).restart hkeep.1
  | block hprev hhashes hparams hnew haccepted hconnect hconnect' ih =>
    subst hhashes hparams
    exact (ih hkeep).block hnew haccepted hconnect hconnect'

/-- In step, every block one node accepts the other accepts too. -/
theorem InStep.accepts {node : Node} {block : CBlock} {state : CValidationState} {r : Connected}
    (h : InStep node.hashes node.params p view q view')
    (hconnect : node.connectBlock block state (block.indexEntry node.hashes :: p) view false =
      .accept r) :
    ∃ r', node.connectBlock block state (block.indexEntry node.hashes :: q) view' false =
      .accept r' := by
  obtain ⟨issued, haccepted⟩ := h.accepted
  rw [h.coins]
  exact h.agrees.connectBlock haccepted.coherent h.coherent hconnect

/-- The value of a template is that of any block of its version on an agreeing chain. -/
theorem templateValue_eq {p' q' : ChainIndex} {b : CBlockIndex} {block : CBlock} (h : Agrees p' q')
    (hp : Coherent (b :: p')) (hq : Coherent q') (hversion : block.nVersion = b.nVersion)
    (nFees : Int) :
    templateValue params block q' nFees = getBlockValue params (b :: p') nFees :=
  (h.getBlockValue hversion.symm hp (setScalingFactor_new hq rfl).1 nFees).symm

/-- In step, all block values are the same. -/
theorem InStep.sameValues (h : InStep H params p view q view') : SameValues H params p q := by
  obtain ⟨issued, haccepted⟩ := h.accepted
  have hp := haccepted.coherent
  refine ⟨fun i nFees ↦ ?_, fun i b hb block hversion nFees ↦ ?_, fun block nFees ↦ ?_⟩
  · have hdrop := h.agrees.drop i
    have hcohp := hp.suffix (List.drop_suffix i p)
    have hcohq := h.coherent.suffix (List.drop_suffix i q)
    generalize p.drop i = p' at hdrop hcohp ⊢
    generalize q.drop i = q' at hdrop hcohq ⊢
    cases hdrop with
    | nil => rfl
    | cons _ hversion _ _ _ hrest => exact (hrest.getBlockValue hversion hcohp hcohq nFees).symm
  · have hdrop : p.drop i = b :: p.drop (i + 1) := by
      obtain ⟨hi, rfl⟩ := List.getElem?_eq_some_iff.mp hb
      exact List.drop_eq_getElem_cons hi
    have hcoh := hp.suffix (List.drop_suffix i p)
    rw [hdrop] at hcoh ⊢
    refine ⟨templateValue_eq (.refl _) hcoh (hp.suffix (List.drop_suffix _ p)) hversion nFees, ?_⟩
    exact templateValue_eq (h.agrees.drop _) hcoh (h.coherent.suffix (List.drop_suffix _ q))
      hversion nFees
  · obtain ⟨-, fp, hsetp, hcohp⟩ := setScalingFactor_new (b := block.indexEntry H) hp rfl
    obtain ⟨-, fq, hsetq, hcohq⟩ := setScalingFactor_new (b := block.indexEntry H) h.coherent rfl
    rw [hsetp, hsetq]
    refine ⟨(h.agrees.getBlockValue ?_ hcohp hcohq nFees).symm, templateValue_eq (.refl _) hcohp hp
      ?_ nFees, templateValue_eq h.agrees hcohp h.coherent ?_ nFees⟩ <;> rfl

end

/-! ### Two restarts -/

/-- The last block of an accepted chain was connected to the chain before it. -/
theorem AcceptedChain.exists_connect {H : Hashes} {params : CChainParams} {b : CBlockIndex}
    {pprev : ChainIndex} {view : CCoinsViewCache} {issued : List Int}
    (h : AcceptedChain H params (b :: pprev) view issued) (hprev : pprev ≠ []) :
    ∃ (node : Node) (block : CBlock) (state : CValidationState) (view₀ : CCoinsViewCache)
      (issued₀ : List Int) (r : Connected), node.hashes = H ∧ node.params = params ∧
      AcceptedChain H params pprev view₀ issued₀ ∧
      block.getHash H ≠ params.hashGenesisBlock ∧
      node.connectBlock block state (block.indexEntry H :: pprev) view₀ false = .accept r ∧
      r.pindex = b :: pprev ∧ r.view = view := by
  generalize hp : b :: pprev = p at h
  cases h with
  | genesis hhashes hparams hgenesis hconnect =>
    obtain ⟨-, -, -, b', pprev', cb, vtx, hidx, -, hcase⟩ := Node.connectBlock_eq_accept hconnect
    obtain ⟨rfl, rfl⟩ := List.cons.inj hidx
    rcases hcase with ⟨-, rfl⟩ | ⟨hne, -⟩
    · exact absurd (List.cons.inj hp).2 hprev
    · subst hhashes hparams
      exact absurd hgenesis hne
  | @block nodeA nodeC block stateA stateC pindexPrev view₀ issued₀ pcheckpoint q r haccepted hlink
      hown hhashesA hparamsA haccept hhashesC hparamsC hnew hconnect hrun =>
    subst hhashesC hparamsC
    obtain ⟨cb, vtx, s, -, -, hindex, -⟩ := Node.connectBlock_eq_accept_of_new hnew hconnect
    obtain ⟨-, rfl⟩ := List.cons.inj (hp.trans hindex)
    exact ⟨nodeC, block, stateC, view₀, issued₀, r, rfl, rfl, haccepted, hnew, hconnect, rfl, rfl⟩

theorem headers_reload (q : ChainIndex) : headerOnly.apply (reload q) = headerOnly.apply q := by
  induction q with
  | nil => rfl
  | cons b q ih => rw [reload, HeaderMap.apply_cons, HeaderMap.apply_cons, ih]; rfl

theorem Unflagged.reload {q : ChainIndex} (h : Unflagged q) : Unflagged (reload q) := by
  induction q with
  | nil => exact h
  | cons b q ih =>
    obtain ⟨⟨hflag, -⟩, hq⟩ := unflagged_cons.mp h
    exact unflagged_cons.mpr ⟨⟨hflag, rfl⟩, ih hq⟩

/-- Without updates the template of a block on the fork has the base reward. -/
theorem templateValue_of_unflagged {params : CChainParams} {block : CBlock} {p : ChainIndex}
    (hp : Unflagged p) (hflag : updateSsf block.nVersion = false)
    (hfork : onFork (indexDummy block p) = true) :
    templateValue params block p 0 = baseSubsidy params (indexDummy block p) := by
  have hall : Unflagged (indexDummy block p) := unflagged_cons.mpr ⟨⟨hflag, rfl⟩, hp⟩
  have hzero : toUint32 0 = 0 := rfl
  rw [templateValue, getBlockValue_zero, subsidy, if_pos hfork, if_neg Bool.false_ne_true,
    indexDummy, hall.scalingFactor, scaledSubsidy, if_pos hzero]

end Bitmark
