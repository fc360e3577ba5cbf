import Bitmark.Consensus.Conservation

/-!
# The script checks of a block

`ConnectBlock` (`src/main.cpp:2122`) verifies the scripts of a transaction on the spot, or puts the
checks on a queue and waits for them at the end. Both ways a block is accepted with the same result,
and every input of an accepted block has passed its check.
-/

namespace Bitmark

/-- The node with or without threads for script checks. -/
def Node.withThreads (node : Node) (scriptCheckThreads : Bool) : Node :=
  { node with scriptCheckThreads }

namespace Node

variable {node : Node} {state : CValidationState} {view : CCoinsViewCache} {pprev : ChainIndex}
  {fScriptChecks : Bool} {flags : BitVec 32} {tx : CTransaction} {p p' : Progress}

theorem runChecks_eq_accept {checks : List CScriptCheck} {u : Unit} :
    node.runChecks state checks = .accept u ↔ checks.all node.runCheck = true := by
  induction checks with
  | nil => simp [runChecks]
  | cons c checks ih =>
    rw [runChecks, List.all_cons]
    cases hrun : node.runCheck c with
    | true => simpa using ih
    | false =>
      rw [if_neg Bool.false_ne_true, Bool.false_and]
      split <;> simp

/-- Checks on the spot are those that would be put on the queue, and they pass. -/
theorem checkInputs_false_eq_accept {checks : List CScriptCheck} :
    node.checkInputs tx state view pprev fScriptChecks flags false = .accept checks ↔ checks = [] ∧
      ∃ queued, node.checkInputs tx state view pprev fScriptChecks flags true = .accept queued ∧
        queued.all node.runCheck = true := by
  unfold checkInputs
  by_cases hcb : tx.isCoinBase = true
  · rw [if_pos hcb, if_pos hcb, Verdict.accept.injEq]
    constructor
    · rintro rfl
      exact ⟨rfl, [], rfl, rfl⟩
    · rintro ⟨rfl, -⟩
      rfl
  · rw [if_neg hcb, if_neg hcb]
    simp only [Verdict.bind_eq_accept, Bool.false_eq_true, if_false, if_true, runChecks_eq_accept,
      Verdict.accept.injEq]
    constructor
    · rintro ⟨_, h₁, _, h₂, a, h₃, b, h₄, _, h₅, _, h₆, _, h₇, queued, h₈, _, hall, rfl⟩
      exact ⟨rfl, queued, ⟨_, h₁, _, h₂, a, h₃, b, h₄, _, h₅, _, h₆, _, h₇, queued, h₈, rfl⟩, hall⟩
    · rintro ⟨rfl, queued, ⟨_, h₁, _, h₂, a, h₃, b, h₄, _, h₅, _, h₆, _, h₇, queued', h₈, rfl⟩, hall⟩
      exact ⟨_, h₁, _, h₂, a, h₃, b, h₄, _, h₅, _, h₆, _, h₇, _, h₈, (), hall, rfl⟩

/-- One round of the loop, with the checks that it would put on the queue. -/
def gatherTx (node : Node) (state : CValidationState) (pprev : ChainIndex) (fScriptChecks : Bool)
    (flags : BitVec 32) (p : Progress) (tx : CTransaction) : Verdict Progress :=
  (node.withThreads true).connectTx state pprev fScriptChecks flags { p with vChecks := [] } tx

/-- A round of the loop with threads puts its checks behind the others. -/
theorem connectTx_threads_eq_accept :
    (node.withThreads true).connectTx state pprev fScriptChecks flags p tx = .accept p' ↔
      ∃ g, node.gatherTx state pprev fScriptChecks flags p tx = .accept g ∧
        p' = { g with vChecks := p.vChecks ++ g.vChecks } := by
  unfold gatherTx connectTx
  dsimp only
  by_cases hcb : tx.isCoinBase = true
  · simp only [if_pos hcb, Verdict.bind_eq_accept, Verdict.accept.injEq]
    constructor
    · rintro ⟨_, h₁, ⟨view', txundo⟩, h₂, rfl⟩
      exact ⟨_, ⟨_, h₁, ⟨view', txundo⟩, h₂, rfl⟩, by simp⟩
    · rintro ⟨_, ⟨_, h₁, ⟨view', txundo⟩, h₂, rfl⟩, rfl⟩
      exact ⟨_, h₁, ⟨view', txundo⟩, h₂, by simp⟩
  · simp only [if_neg hcb, Verdict.bind_eq_accept, Verdict.accept.injEq]
    constructor
    · rintro ⟨_, h₁, _, h₂, a, h₃, _, h₄, b, h₅, c, h₆, queued, h₇, ⟨view', txundo⟩, h₈, rfl⟩
      exact ⟨_, ⟨_, h₁, _, h₂, a, h₃, _, h₄, b, h₅, c, h₆, queued, h₇, ⟨view', txundo⟩, h₈, rfl⟩,
        by simp⟩
    · rintro ⟨_, ⟨_, h₁, _, h₂, a, h₃, _, h₄, b, h₅, c, h₆, queued, h₇, ⟨view', txundo⟩, h₈, rfl⟩,
        rfl⟩
      exact ⟨_, h₁, _, h₂, a, h₃, _, h₄, b, h₅, c, h₆, queued, h₇, ⟨view', txundo⟩, h₈, by simp⟩

theorem runCheck_withThreads (node : Node) (b : Bool) :
    (node.withThreads b).runCheck = node.runCheck := rfl

theorem checkInputs_withThreads (node : Node) (b : Bool) :
    (node.withThreads b).checkInputs = node.checkInputs := by
  have hruns : (node.withThreads b).runChecks = node.runChecks := by
    funext state checks
    induction checks with
    | nil => rfl
    | cons c checks ih => rw [runChecks, runChecks, ih, runCheck_withThreads]
  funext tx state view pprev fScriptChecks flags pvChecks
  rw [checkInputs, checkInputs, hruns]

/-- A round of the loop without threads makes its checks. -/
theorem connectTx_serial_eq_accept :
    (node.withThreads false).connectTx state pprev fScriptChecks flags p tx = .accept p' ↔
      ∃ g, node.gatherTx state pprev fScriptChecks flags p tx = .accept g ∧
        g.vChecks.all node.runCheck = true ∧ p' = { g with vChecks := p.vChecks } := by
  have hserial : (node.withThreads false).scriptCheckThreads = false := rfl
  have hthreads : (node.withThreads true).scriptCheckThreads = true := rfl
  have hhashes : ∀ b, (node.withThreads b).hashes = node.hashes := fun _ ↦ rfl
  unfold gatherTx connectTx
  dsimp only
  rw [hserial, hthreads, checkInputs_withThreads, checkInputs_withThreads, hhashes, hhashes]
  by_cases hcb : tx.isCoinBase = true
  · simp only [if_pos hcb, Verdict.bind_eq_accept, Verdict.accept.injEq]
    constructor
    · rintro ⟨_, h₁, ⟨view', txundo⟩, h₂, rfl⟩
      exact ⟨_, ⟨_, h₁, ⟨view', txundo⟩, h₂, rfl⟩, rfl, rfl⟩
    · rintro ⟨_, ⟨_, h₁, ⟨view', txundo⟩, h₂, rfl⟩, -, rfl⟩
      exact ⟨_, h₁, ⟨view', txundo⟩, h₂, rfl⟩
  · simp only [if_neg hcb, Verdict.bind_eq_accept, Verdict.accept.injEq, checkInputs_false_eq_accept]
    constructor
    · rintro ⟨_, h₁, _, h₂, a, h₃, _, h₄, b, h₅, c, h₆, _, ⟨rfl, queued, h₇, hall⟩, ⟨view', txundo⟩,
        h₈, rfl⟩
      exact ⟨_, ⟨_, h₁, _, h₂, a, h₃, _, h₄, b, h₅, c, h₆, queued, h₇, ⟨view', txundo⟩, h₈, rfl⟩,
        hall, by simp⟩
    · rintro ⟨_, ⟨_, h₁, _, h₂, a, h₃, _, h₄, b, h₅, c, h₆, queued, h₇, ⟨view', txundo⟩, h₈, rfl⟩,
        hall, rfl⟩
      exact ⟨_, h₁, _, h₂, a, h₃, _, h₄, b, h₅, c, h₆, _, ⟨rfl, queued, h₇, hall⟩, ⟨view', txundo⟩,
        h₈, by simp⟩

/-- The loop, with the checks that it would put on the queue. -/
def gatherTxs (node : Node) (state : CValidationState) (pprev : ChainIndex) (fScriptChecks : Bool)
    (flags : BitVec 32) (p : Progress) (vtx : List CTransaction) : Verdict Progress :=
  (node.withThreads true).connectTxs state pprev fScriptChecks flags { p with vChecks := [] } vtx

variable {vtx : List CTransaction}

theorem connectTxs_threads_eq_accept :
    (node.withThreads true).connectTxs state pprev fScriptChecks flags p vtx = .accept p' ↔
      ∃ g, node.gatherTxs state pprev fScriptChecks flags p vtx = .accept g ∧
        p' = { g with vChecks := p.vChecks ++ g.vChecks } := by
  induction vtx generalizing p p' with
  | nil =>
    simp only [gatherTxs, connectTxs, Verdict.accept.injEq, exists_eq_left', List.append_nil]
    exact eq_comm
  | cons tx vtx ih =>
    rw [gatherTxs, connectTxs, connectTxs]
    simp only [Verdict.bind_eq_accept, connectTx_threads_eq_accept, ih]
    constructor
    · rintro ⟨_, ⟨g, hg, rfl⟩, g', hg', rfl⟩
      refine ⟨_, ⟨_, ⟨g, hg, rfl⟩, g', hg', rfl⟩, ?_⟩
      simp
    · rintro ⟨_, ⟨_, ⟨g, hg, rfl⟩, g', hg', rfl⟩, rfl⟩
      refine ⟨_, ⟨g, hg, rfl⟩, g', hg', ?_⟩
      simp

theorem connectTxs_serial_eq_accept :
    (node.withThreads false).connectTxs state pprev fScriptChecks flags p vtx = .accept p' ↔
      ∃ g, node.gatherTxs state pprev fScriptChecks flags p vtx = .accept g ∧
        g.vChecks.all node.runCheck = true ∧ p' = { g with vChecks := p.vChecks } := by
  induction vtx generalizing p p' with
  | nil =>
    simp only [gatherTxs, connectTxs, Verdict.accept.injEq, exists_eq_left', List.all_nil, true_and]
    exact eq_comm
  | cons tx vtx ih =>
    rw [gatherTxs, connectTxs, connectTxs]
    simp only [Verdict.bind_eq_accept, connectTx_threads_eq_accept, connectTx_serial_eq_accept,
      connectTxs_threads_eq_accept, ih]
    constructor
    · rintro ⟨_, ⟨g, hg, hall, rfl⟩, g', hg', hall', rfl⟩
      refine ⟨_, ⟨_, ⟨g, hg, rfl⟩, g', hg', rfl⟩, ?_, rfl⟩
      simpa using ⟨by simpa using hall, by simpa using hall'⟩
    · rintro ⟨_, ⟨_, ⟨g, hg, rfl⟩, g', hg', rfl⟩, hall, rfl⟩
      rw [List.nil_append, List.all_append, Bool.and_eq_true] at hall
      exact ⟨_, ⟨g, hg, hall.1, rfl⟩, g', hg', hall.2, rfl⟩

/-! ### The whole block -/

variable {block : CBlock} {pindex : ChainIndex} {fJustCheck : Bool} {r : Connected}

/-- The loop over the transactions of a block, with the checks that it would put on the queue. -/
def gather (node : Node) (block : CBlock) (state : CValidationState) (pindex : ChainIndex)
    (view : CCoinsViewCache) (vtx : List CTransaction) : Verdict Progress :=
  (node.withThreads true).runTxs block state pindex view vtx

theorem runTxs_threads_eq_accept :
    (node.withThreads true).runTxs block state pindex view vtx = .accept p' ↔
      node.gather block state pindex view vtx = .accept p' := Iff.rfl

theorem runTxs_serial_eq_accept :
    (node.withThreads false).runTxs block state pindex view vtx = .accept p' ↔
      ∃ g, node.gather block state pindex view vtx = .accept g ∧
        g.vChecks.all node.runCheck = true ∧ p' = { g with vChecks := [] } :=
  connectTxs_serial_eq_accept (p := { view })

/-- After the loop the queue has to pass. The other threads change nothing. -/
theorem finishBlock_eq_accept_iff (node : Node) (b : Bool) {cb : CTransaction} {g : Progress} :
    (node.withThreads b).finishBlock cb state pindex g fJustCheck = .accept r ↔
      g.vChecks.all node.runCheck = true ∧
        node.finishBlock cb state pindex { g with vChecks := [] } fJustCheck = .accept r := by
  unfold finishBlock
  simp only [Verdict.bind_eq_accept, Verdict.check_eq_accept, runCheck_withThreads, List.all_nil]
  constructor
  · rintro ⟨nValueOut, hout, _, hle, _, hall, h⟩
    exact ⟨hall, nValueOut, hout, (), hle, (), trivial, h⟩
  · rintro ⟨hall, nValueOut, hout, _, hle, _, -, h⟩
    exact ⟨nValueOut, hout, (), hle, (), hall, h⟩

/-- What either way of checking comes to: the loop, the checks and the end. -/
theorem runTxs_finishBlock_iff {cb : CTransaction} (b : Bool) :
    (∃ p, (node.withThreads b).runTxs block state pindex view vtx = .accept p ∧
      (node.withThreads b).finishBlock cb state pindex p fJustCheck = .accept r) ↔
    ∃ g, node.gather block state pindex view vtx = .accept g ∧ g.vChecks.all node.runCheck = true ∧
      node.finishBlock cb state pindex { g with vChecks := [] } fJustCheck = .accept r := by
  cases b with
  | true => simp only [runTxs_threads_eq_accept, finishBlock_eq_accept_iff]
  | false =>
    simp only [runTxs_serial_eq_accept, finishBlock_eq_accept_iff]
    constructor
    · rintro ⟨_, ⟨g, hg, hall, rfl⟩, -, h⟩
      exact ⟨g, hg, hall, h⟩
    · rintro ⟨g, hg, hall, h⟩
      exact ⟨_, ⟨g, hg, hall, rfl⟩, rfl, h⟩

/-- With the checks on the spot or on the queue, `ConnectBlock` accepts the same blocks, with the
same coins, index entry and undo data. -/
theorem connectBlock_withThreads (node : Node) (block : CBlock) (state : CValidationState)
    (pindex : ChainIndex) (view : CCoinsViewCache) (fJustCheck : Bool) (r : Connected) :
    (node.withThreads true).connectBlock block state pindex view fJustCheck = .accept r ↔
      (node.withThreads false).connectBlock block state pindex view fJustCheck = .accept r := by
  have hcheck : ∀ b, (node.withThreads b).checkBlock = node.checkBlock := fun _ ↦ rfl
  have hparams : ∀ b, (node.withThreads b).params = node.params := fun _ ↦ rfl
  have hhashes : ∀ b, (node.withThreads b).hashes = node.hashes := fun _ ↦ rfl
  unfold connectBlock
  simp only [hcheck, hparams, hhashes, Verdict.bind_eq_accept]
  refine exists_congr fun _ ↦ and_congr_right fun _ ↦ exists_congr fun _ ↦ and_congr_right fun _ ↦
    exists_congr fun _ ↦ and_congr_right fun _ ↦ ?_
  split
  · split
    · rfl
    · simp only [Verdict.bind_eq_accept, runTxs_finishBlock_iff]
  · rfl

/-! ### Every input -/

theorem mem_scriptChecks {vin : List CTxIn} {k i : Nat} {checks : List CScriptCheck} {txin : CTxIn}
    (h : scriptChecks view tx flags k vin = some checks) (htxin : vin[i]? = some txin) :
    ∃ coins, view.getCoins txin.prevout.hash = some coins ∧
      ⟨(coins.outAt txin.prevout.n.toNat).scriptPubKey, tx, k + i, flags⟩ ∈ checks := by
  induction vin generalizing k i checks with
  | nil => cases htxin
  | cons first vin ih =>
    obtain ⟨coins, hcoins, h⟩ := Option.bind_eq_some_iff.mp h
    obtain ⟨rest, hrest, h⟩ := Option.bind_eq_some_iff.mp h
    obtain rfl := Option.some.inj h
    cases i with
    | zero =>
      obtain rfl := Option.some.inj htxin
      exact ⟨coins, hcoins, List.mem_cons_self⟩
    | succ i =>
      obtain ⟨coins', hcoins', hmem⟩ := ih hrest htxin
      refine ⟨coins', hcoins', List.mem_cons_of_mem _ ?_⟩
      rwa [show k + (i + 1) = k + 1 + i by omega]

/-- A round of the loop gathers a check for each input. -/
theorem mem_vChecks_of_gatherTx (hcb : tx.isCoinBase = false)
    (h : node.gatherTx state pprev true flags p tx = .accept p') {i : Nat} {txin : CTxIn}
    (htxin : tx.vin[i]? = some txin) :
    ∃ coins, p.view.getCoins txin.prevout.hash = some coins ∧
      ⟨(coins.outAt txin.prevout.n.toNat).scriptPubKey, tx, i, flags⟩ ∈ p'.vChecks := by
  have hthreads : (node.withThreads true).scriptCheckThreads = true := rfl
  unfold gatherTx connectTx checkInputs at h
  simp only [hcb, Bool.false_eq_true, if_false, if_true, hthreads, Verdict.bind_eq_accept,
    Verdict.require_eq_accept, Verdict.accept.injEq] at h
  obtain ⟨_, -, _, -, a, -, _, -, b, -, c, -, _, ⟨_, -, _, -, d, -, e, -, _, -, _, -, _, -, checks,
    hchecks, rfl⟩, ⟨view', txundo⟩, -, rfl⟩ := h
  obtain ⟨coins, hcoins, hmem⟩ := mem_scriptChecks hchecks htxin
  rw [Nat.zero_add] at hmem
  exact ⟨coins, hcoins, List.mem_append_right _ hmem⟩

/-- The loop over the first transactions is the same with threads, but for the queue. -/
theorem gather_of_runTxs (h : node.runTxs block state pindex view vtx = .accept p) :
    ∃ g, node.gather block state pindex view vtx = .accept g ∧ g.view = p.view := by
  obtain ⟨b, hb⟩ : ∃ b, node.withThreads b = node := ⟨node.scriptCheckThreads, rfl⟩
  rw [← hb] at h
  cases b with
  | true => exact ⟨p, h, rfl⟩
  | false =>
    obtain ⟨g, hg, -, rfl⟩ := runTxs_serial_eq_accept.mp h
    exact ⟨g, hg, rfl⟩

/-- Every input of every transaction but the coinbase of an accepted block has passed its check, for
the output that it spends where the transaction stands in the block. -/
theorem verifyScript_of_connectBlock
    (h : node.connectBlock block state pindex view fJustCheck = .accept r)
    (hnew : block.getHash node.hashes ≠ node.params.hashGenesisBlock)
    (hestimate : node.totalBlocksEstimate ≤ pindex.tail.length) {pre post : List CTransaction}
    (hvtx : block.vtx = pre ++ tx :: post) (hcb : tx.isCoinBase = false) :
    ∃ q, node.runTxs block state pindex view pre = .accept q ∧
      ∀ i txin, tx.vin[i]? = some txin → ∃ coins, q.view.getCoins txin.prevout.hash = some coins ∧
        node.verifyScript txin.scriptSig (coins.outAt txin.prevout.n.toNat).scriptPubKey tx i
          (scriptFlags block.nVersion pindex) = true := by
  obtain ⟨-, -, -, b, pprev, cb, rest, rfl, hcons, ⟨hgenesis, -⟩ | ⟨-, -, p, hp, hfinish⟩⟩ :=
    connectBlock_eq_accept h
  · exact absurd hgenesis hnew
  obtain ⟨q, -, hq, -⟩ := runTxs_split hvtx hp
  obtain ⟨g₁, hg₁, hview⟩ := gather_of_runTxs hq
  obtain ⟨g, hg, hall, -⟩ := (runTxs_finishBlock_iff node.scriptCheckThreads).mp ⟨p, hp, hfinish⟩
  rw [gather, runTxs, hvtx, connectTxs_append] at hg
  obtain ⟨g₁', hg₁', hrest⟩ := hg
  obtain rfl := Verdict.accept.inj (hg₁.symm.trans hg₁')
  rw [connectTxs, Verdict.bind_eq_accept] at hrest
  obtain ⟨g₂, hg₂, hpost⟩ := hrest
  obtain ⟨t, ht, rfl⟩ := connectTx_threads_eq_accept.mp hg₂
  obtain ⟨t', -, rfl⟩ := connectTxs_threads_eq_accept.mp hpost
  have hscripts : decide ((node.withThreads true).totalBlocksEstimate ≤ (b :: pprev).tail.length) =
      true := decide_eq_true hestimate
  rw [hscripts] at ht
  refine ⟨q, hq, fun i txin htxin ↦ ?_⟩
  obtain ⟨coins, hcoins, hmem⟩ := mem_vChecks_of_gatherTx hcb ht htxin
  rw [hview] at hcoins
  have hpass := List.all_eq_true.mp hall _
    (List.mem_append_left t'.vChecks (List.mem_append_right g₁.vChecks hmem))
  rw [runCheck, htxin] at hpass
  exact ⟨coins, hcoins, hpass⟩

end Node

end Bitmark
