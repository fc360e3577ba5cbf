import Bitmark.Chain.BestChain
import Bitmark.Merkle.Branch
import Mathlib.Algebra.Order.BigOperators.Group.List

/-!
# Scanning the chain for wallet transactions

`ScanForWalletTransactions` (`src/wallet.cpp:892`) goes along the active chain and adds to the
wallet what pays to it or spends from it. What a transaction spends is known from the wallet, so a
transaction is found because of those that were found before it.
-/

namespace Bitmark

/-! ### Along a chain -/

namespace CChain

variable {β Hash : Type} [DecidableEq β] {T : BlockTree β Hash} (C : CChain T)

/-- `Next`, `src/core.h:1421`. -/
def next (pindex : β) : Option β :=
  if C.contains pindex then C.entryAt (T.nHeight pindex + 1) else none

/-- The turns that are left to a loop over the chain. -/
def turnsLeft (pindex : Option β) : ℕ := pindex.elim 0 (C.vChain.length - T.nHeight · + 1)

variable {C}

theorem lt_of_contains {b : β} (h : C.contains b = true) : T.nHeight b < C.vChain.length := by
  rw [contains, beq_iff_eq, entryAt] at h
  split at h
  · cases h
  · omega

theorem next_eq_some_iff {b b' : β} :
    C.next b = some b' ↔
      C.contains b = true ∧ C.contains b' = true ∧ T.nHeight b' = T.nHeight b + 1 := by
  have hcast : (T.nHeight b : ℤ) + 1 = (T.nHeight b + 1 : ℕ) := by push_cast; rfl
  rw [next]
  split
  case isTrue hb =>
    obtain ⟨t, ht, -⟩ := C.contains_iff.mp hb
    rw [hcast, entryAt_natCast, ht, T.entry_eq_some_iff, and_iff_right hb, contains_iff, ht]
    constructor
    · rintro ⟨hanc, hheight⟩
      exact ⟨⟨t, rfl, hanc⟩, hheight⟩
    · rintro ⟨⟨t', ht', hanc⟩, hheight⟩
      obtain rfl := Option.some.inj ht'
      exact ⟨hanc, hheight⟩
  case isFalse hb =>
    constructor
    · intro h
      cases h
    · rintro ⟨hb', -⟩
      exact absurd hb' hb

theorem turnsLeft_next (C : CChain T) (b : β) : C.turnsLeft (C.next b) < C.turnsLeft (some b) := by
  cases h : C.next b with
  | none => exact Nat.succ_pos _
  | some b' =>
    obtain ⟨hb, -, hheight⟩ := next_eq_some_iff.mp h
    have := lt_of_contains hb
    simp only [turnsLeft, Option.elim_some]
    omega

/-- The blocks from one on, as `Next` gives them. -/
def following (C : CChain T) : Option β → List β
  | none => []
  | some pindex => pindex :: C.following (C.next pindex)
  termination_by pindex => C.turnsLeft pindex
  decreasing_by exact C.turnsLeft_next pindex

@[simp] theorem following_none : C.following none = [] := by rw [following]

theorem following_some (C : CChain T) (b : β) :
    C.following (some b) = b :: C.following (C.next b) := by rw [following]

@[simp] theorem head?_following (pindex : Option β) : (C.following pindex).head? = pindex := by
  cases pindex with
  | none => rw [following_none, List.head?_nil]
  | some b => rw [following_some, List.head?_cons]

/-- From a block of the chain on: the blocks of the chain that are not below it. -/
theorem mem_following_iff {b c : β} (hb : C.contains b = true) :
    c ∈ C.following (some b) ↔ C.contains c = true ∧ T.nHeight b ≤ T.nHeight c := by
  induction hn : C.turnsLeft (some b) using Nat.strong_induction_on generalizing b with
  | h n ih =>
    rw [following_some, List.mem_cons]
    constructor
    · rintro (rfl | hc)
      · exact ⟨hb, le_rfl⟩
      · cases hnext : C.next b with
        | none =>
          rw [hnext, following_none] at hc
          cases hc
        | some b' =>
          have hturns := C.turnsLeft_next b
          rw [hnext] at hc hturns
          obtain ⟨-, hb', hheight⟩ := next_eq_some_iff.mp hnext
          obtain ⟨hmem, hle⟩ := (ih _ (hn ▸ hturns) hb' rfl).mp hc
          exact ⟨hmem, by omega⟩
    · rintro ⟨hc, hle⟩
      obtain ⟨t, ht, hbt⟩ := C.contains_iff.mp hb
      obtain ⟨t', ht', hct⟩ := C.contains_iff.mp hc
      obtain rfl := Option.some.inj (ht.symm.trans ht')
      rcases hle.eq_or_lt with heq | hlt
      · exact .inl (hct.eq_of_height hbt heq.symm)
      · have hanc : T.tree.IsAncestor (T.tree.ancestorAt c (T.nHeight b + 1)) t :=
          (T.tree.isAncestor_ancestorAt c _).trans hct
        have hnext : C.next b = some (T.tree.ancestorAt c (T.nHeight b + 1)) :=
          next_eq_some_iff.mpr ⟨hb, C.contains_iff.mpr ⟨t, ht, hanc⟩,
            T.tree.height_ancestorAt hlt⟩
        have hturns := C.turnsLeft_next b
        obtain ⟨-, hb', hheight⟩ := next_eq_some_iff.mp hnext
        rw [hnext] at hturns ⊢
        exact .inr ((ih _ (hn ▸ hturns) hb' rfl).mpr ⟨hc, by omega⟩)

theorem pairwise_following (C : CChain T) (pindex : Option β) :
    (C.following pindex).Pairwise (T.nHeight · < T.nHeight ·) := by
  induction hn : C.turnsLeft pindex using Nat.strong_induction_on generalizing pindex with
  | h n ih =>
    cases pindex with
    | none =>
      rw [following_none]
      exact .nil
    | some b =>
      have hturns := C.turnsLeft_next b
      rw [following_some, List.pairwise_cons]
      refine ⟨fun c hc ↦ ?_, ih _ (hn ▸ hturns) _ rfl⟩
      cases hnext : C.next b with
      | none =>
        rw [hnext, following_none] at hc
        cases hc
      | some b' =>
        rw [hnext] at hc
        obtain ⟨-, hb', hheight⟩ := next_eq_some_iff.mp hnext
        have := ((mem_following_iff hb').mp hc).2
        omega

end CChain

/-! ### The wallet's transactions -/

/-- `CWalletTx` with the data that a block gives it. The times and the order position of an entry
are left out. -/
structure CWalletTx extends CMerkleTx where
  fFromMe : Bool := false
deriving DecidableEq, Repr

/-- `mapWallet`, with the whole entries. -/
abbrev WalletMap := Uint256 → Option CWalletTx

/-- `operator==` of transactions, `src/core.h:271`. -/
def CTransaction.same (a b : CTransaction) : Bool :=
  a.nVersion = b.nVersion ∧ a.vin = b.vin ∧ a.vout = b.vout ∧ a.nLockTime = b.nLockTime

/-- The failures of a scan: the progress report reads the height of a null entry, and `GetDebit`
throws. -/
inductive ScanError where
  | nullIndex
  | valueOutOfRange
deriving DecidableEq, Repr

/-- What a scan reads: the active chain, the time of an entry, what `ReadBlockFromDisk` leaves in
the block, `IsMine` for a script, the key birthday, whether `WriteToDisk` succeeds, and the readings
of `GetTime`. The indices of a block are of type `int`. -/
structure Rescan {β Hash : Type} (T : BlockTree β Hash) where
  hashes : Hashes
  chainActive : CChain T
  nTime : β → ℕ
  readBlock : β → CBlock
  length_vtx_lt : ∀ b, (readBlock b).vtx.length < 2 ^ 31
  isMine : Bytes → Bool
  nTimeFirstKey : ℤ
  writeToDisk : CWalletTx → Bool
  getTime : ℕ → ℤ

/-- The wallet, the number of transactions that were added or updated, the time of the last progress
report, and how often the clock was read. -/
structure ScanState where
  mapWallet : WalletMap
  ret : ℕ
  nNow : ℤ
  readings : ℕ

/-- `CMerkleTx::SetMerkleBranch` for a block, `src/main.cpp:696`. -/
def CMerkleTx.setMerkleBranch (H : Hashes) (wtx : CMerkleTx) (pblock : CBlock) : CMerkleTx :=
  match pblock.vtx.findIdx? (·.same wtx.toCTransaction) with
  | none => { wtx with hashBlock := pblock.getHash H, vMerkleBranch := [], nIndex := -1 }
  | some nIndex =>
    { wtx with
      hashBlock := pblock.getHash H
      vMerkleBranch := pblock.getMerkleBranch H nIndex
      nIndex := BitVec.ofNat 32 nIndex }

/-- The merge of `AddToWallet`, with whether it changed the entry. -/
def CWalletTx.merge (wtx wtxIn : CWalletTx) : CWalletTx × Bool :=
  let fBlock := wtxIn.hashBlock ≠ 0 ∧ wtxIn.hashBlock ≠ wtx.hashBlock
  let fIndex := wtxIn.nIndex ≠ -1 ∧
    (wtxIn.vMerkleBranch ≠ wtx.vMerkleBranch ∨ wtxIn.nIndex ≠ wtx.nIndex)
  let fFromMe := wtxIn.fFromMe ∧ wtxIn.fFromMe ≠ wtx.fFromMe
  ({ wtx with
      hashBlock := if fBlock then wtxIn.hashBlock else wtx.hashBlock
      vMerkleBranch := if fIndex then wtxIn.vMerkleBranch else wtx.vMerkleBranch
      nIndex := if fIndex then wtxIn.nIndex else wtx.nIndex
      fFromMe := if fFromMe then wtxIn.fFromMe else wtx.fFromMe },
    fBlock ∨ fIndex ∨ fFromMe)

namespace Rescan

variable {β Hash : Type} {T : BlockTree β Hash} (W : Rescan T)

/-- `IsMine(const CTransaction&)`, `src/wallet.h:310`. -/
def paysToMe (tx : CTransaction) : Bool := tx.vout.any (W.isMine ·.scriptPubKey)

/-- `GetDebit(const CTxIn&)`, `src/wallet.cpp:710`. -/
def inputDebit (mapWallet : WalletMap) (txin : CTxIn) : ℤ :=
  match mapWallet txin.prevout.hash with
  | none => 0
  | some prev =>
    match prev.vout[txin.prevout.n.toNat]? with
    | none => 0
    | some txout => if W.isMine txout.scriptPubKey then txout.nValue else 0

/-- The loop of `GetDebit(const CTransaction&)`, `src/wallet.h:328`. -/
def debitLoop (mapWallet : WalletMap) (nDebit : ℤ) : List CTxIn → Except ScanError ℤ
  | [] => .ok nDebit
  | txin :: vin =>
    let nDebit := nDebit + W.inputDebit mapWallet txin
    if moneyRange nDebit then debitLoop mapWallet nDebit vin else .error .valueOutOfRange

/-- `IsFromMe`, `src/wallet.h:317`. -/
def isFromMe (mapWallet : WalletMap) (tx : CTransaction) : Except ScanError Bool := do
  let nDebit ← W.debitLoop mapWallet 0 tx.vin
  pure (decide (nDebit > 0))

/-- `AddToWallet`, `src/wallet.cpp:499`, for an entry that is not loaded from the wallet file. -/
def addToWallet (mapWallet : WalletMap) (wtxIn : CWalletTx) : WalletMap × Bool :=
  let hash := wtxIn.getHash W.hashes
  match mapWallet hash with
  | none => (Function.update mapWallet hash (some wtxIn), W.writeToDisk wtxIn)
  | some wtx =>
    let (wtx, fUpdated) := wtx.merge wtxIn
    (Function.update mapWallet hash (some wtx), !fUpdated || W.writeToDisk wtx)

/-- `fExisted || IsMine(tx) || IsFromMe(tx)`. -/
def involvesMe (mapWallet : WalletMap) (hash : Uint256) (tx : CTransaction) : Except ScanError Bool :=
  if (mapWallet hash).isSome || W.paysToMe tx then .ok true else W.isFromMe mapWallet tx

/-- `AddToWalletIfInvolvingMe`, `src/wallet.cpp:644`. -/
def addToWalletIfInvolvingMe (mapWallet : WalletMap) (hash : Uint256) (tx : CTransaction)
    (pblock : Option CBlock) (fUpdate : Bool) : Except ScanError (WalletMap × Bool) :=
  if (mapWallet hash).isSome && !fUpdate then .ok (mapWallet, false)
  else do
    if ← W.involvesMe mapWallet hash tx then
      let wtx : CMerkleTx := { tx with }
      let wtx := match pblock with
        | none => wtx
        | some pblock => wtx.setMerkleBranch W.hashes pblock
      return W.addToWallet mapWallet { wtx with }
    return (mapWallet, false)

/-- One turn over the transactions of a block. -/
def scanTx (fUpdate : Bool) (block : CBlock) (s : ScanState) (tx : CTransaction) :
    Except ScanError ScanState := do
  let (mapWallet, fAdded) ←
    W.addToWalletIfInvolvingMe s.mapWallet (tx.getHash W.hashes) tx (some block) fUpdate
  pure { s with mapWallet, ret := if fAdded then s.ret + 1 else s.ret }

/-- The progress report after a block, which reads the entry the scan goes on with. -/
def reportProgress (s : ScanState) (pindex : Option β) : Except ScanError ScanState :=
  if W.getTime s.readings ≥ s.nNow + 60 then
    if pindex.isNone then .error .nullIndex
    else .ok { s with nNow := W.getTime (s.readings + 1), readings := s.readings + 2 }
  else .ok { s with readings := s.readings + 1 }

/-- A block from before the birthday, which is not read. -/
def beforeBirthday (pindex : β) : Bool :=
  W.nTimeFirstKey ≠ 0 ∧ (W.nTime pindex : ℤ) < W.nTimeFirstKey - 7200

variable [DecidableEq β]

/-- The first loop. -/
def skipOld : Option β → Option β
  | none => none
  | some pindex =>
    if W.beforeBirthday pindex then skipOld (W.chainActive.next pindex) else some pindex
  termination_by pindex => W.chainActive.turnsLeft pindex
  decreasing_by exact W.chainActive.turnsLeft_next pindex

/-- The second loop. -/
def scanLoop (fUpdate : Bool) (s : ScanState) : Option β → Except ScanError ScanState
  | none => .ok s
  | some pindex => do
    let block := W.readBlock pindex
    let s ← block.vtx.foldlM (W.scanTx fUpdate block) s
    let next := W.chainActive.next pindex
    let s ← W.reportProgress s next
    scanLoop fUpdate s next
  termination_by pindex => W.chainActive.turnsLeft pindex
  decreasing_by exact W.chainActive.turnsLeft_next pindex

/-- `ScanForWalletTransactions`, `src/wallet.cpp:892`. -/
def scanForWalletTransactions (mapWallet : WalletMap) (pindexStart : Option β) (fUpdate : Bool) :
    Except ScanError ScanState :=
  W.scanLoop fUpdate ⟨mapWallet, 0, W.getTime 0, 1⟩ (W.skipOld pindexStart)

/-! ### What a scan finds -/

/-- The blocks that are read. -/
def scanned (pindexStart : Option β) : List β := W.chainActive.following (W.skipOld pindexStart)

/-- The transactions of some blocks, with their blocks. -/
def blockVisits (blocks : List β) : List (β × CTransaction) :=
  blocks.flatMap fun b ↦ (W.readBlock b).vtx.map (b, ·)

/-- The transactions that are looked at. -/
def visits (pindexStart : Option β) : List (β × CTransaction) :=
  W.blockVisits (W.scanned pindexStart)

end Rescan

/-- The transactions of a wallet, by their hashes. -/
abbrev KnownTxs := Uint256 → Option CTransaction

/-- The transactions of the entries. -/
def WalletMap.txs (mapWallet : WalletMap) : KnownTxs :=
  fun hash ↦ (mapWallet hash).map fun wtx ↦ wtx.toCTransaction

namespace Rescan

variable {β Hash : Type} {T : BlockTree β Hash} (W : Rescan T)

/-- The value of the own output that an input spends. -/
def ownValue (known : KnownTxs) (txin : CTxIn) : Option ℤ := do
  let prev ← known txin.prevout.hash
  let txout ← prev.vout[txin.prevout.n.toNat]?
  if W.isMine txout.scriptPubKey then some txout.nValue else none

/-- The values of the own outputs that a transaction spends. -/
def ownSpent (known : KnownTxs) (tx : CTransaction) : List ℤ := tx.vin.filterMap (W.ownValue known)

/-- The transactions that belong to the wallet: those it has, those that pay to it, and those that
spend an own output of some value. -/
def Finds (known : KnownTxs) (tx : CTransaction) : Prop :=
  (known (tx.getHash W.hashes)).isSome ∨ W.paysToMe tx = true ∨ ∃ v ∈ W.ownSpent known tx, 0 < v

instance (known : KnownTxs) (tx : CTransaction) : Decidable (W.Finds known tx) :=
  inferInstanceAs (Decidable (_ ∨ _ ∨ _))

/-- The wallet's transactions after one more was looked at. -/
def learn (known : KnownTxs) (tx : CTransaction) : KnownTxs :=
  if W.Finds known tx then
    Function.update known (tx.getHash W.hashes) (some ((known (tx.getHash W.hashes)).getD tx))
  else known

/-- The wallet's transactions after a list of them was looked at. -/
def known (mapWallet : WalletMap) (visits : List (β × CTransaction)) : KnownTxs :=
  visits.foldl (fun known v ↦ W.learn known v.2) mapWallet.txs

/-- The own outputs that a transaction spends do not leave the range of money. -/
def InRange (known : KnownTxs) (tx : CTransaction) : Prop :=
  (∀ v ∈ W.ownSpent known tx, 0 ≤ v) ∧ (W.ownSpent known tx).sum ≤ maxMoney

instance (known : KnownTxs) (tx : CTransaction) : Decidable (W.InRange known tx) :=
  inferInstanceAs (Decidable (_ ∧ _))

/-- The time of the last progress report, and how often the clock was read, after so many blocks. -/
def reportClock : ℕ → ℤ × ℕ
  | 0 => (W.getTime 0, 1)
  | n + 1 =>
    let (nNow, readings) := reportClock n
    if W.getTime readings ≥ nNow + 60 then (W.getTime (readings + 1), readings + 2)
    else (nNow, readings + 1)

/-- No report is due after the last of so many blocks. -/
def InTime (blocks : ℕ) : Prop :=
  ∀ n, blocks = n + 1 → W.getTime (W.reportClock n).2 < (W.reportClock n).1 + 60

/-- An entry that has a block and the position of a transaction in it, with the branch from there to
the root. -/
def Records (b : β) (tx : CTransaction) (wtx : CWalletTx) : Prop :=
  ∃ i tx', (W.readBlock b).vtx[i]? = some tx' ∧ tx'.same tx = true ∧
    wtx.hashBlock = (W.readBlock b).getHash W.hashes ∧ wtx.nIndex = BitVec.ofNat 32 i ∧
      wtx.vMerkleBranch = (W.readBlock b).getMerkleBranch W.hashes i ∧
        checkMerkleBranch W.hashes (tx'.getHash W.hashes) wtx.vMerkleBranch wtx.nIndex =
          (W.readBlock b).buildMerkleTree W.hashes

/-! ### One transaction -/

theorem inputDebit_eq (mapWallet : WalletMap) (txin : CTxIn) :
    W.inputDebit mapWallet txin = (W.ownValue mapWallet.txs txin).getD 0 := by
  rw [inputDebit, ownValue, WalletMap.txs]
  cases mapWallet txin.prevout.hash with
  | none => rfl
  | some prev =>
    simp only [Option.map_some, Option.bind_eq_bind, Option.bind_some]
    cases prev.vout[txin.prevout.n.toNat]? with
    | none => rfl
    | some txout =>
      simp only [Option.bind_some]
      split
      · rfl
      · rfl

theorem debitLoop_eq (mapWallet : WalletMap) {nDebit : ℤ} {vin : List CTxIn} (h0 : 0 ≤ nDebit)
    (hnonneg : ∀ v ∈ vin.filterMap (W.ownValue mapWallet.txs), 0 ≤ v)
    (hle : nDebit + (vin.filterMap (W.ownValue mapWallet.txs)).sum ≤ maxMoney) :
    W.debitLoop mapWallet nDebit vin =
      .ok (nDebit + (vin.filterMap (W.ownValue mapWallet.txs)).sum) := by
  induction vin generalizing nDebit with
  | nil => rw [debitLoop, List.filterMap_nil, List.sum_nil, add_zero]
  | cons txin vin ih =>
    rw [debitLoop, inputDebit_eq]
    cases hv : W.ownValue mapWallet.txs txin with
    | none =>
      rw [List.filterMap_cons_none hv] at hnonneg hle ⊢
      have hrest := List.sum_nonneg hnonneg
      rw [Option.getD_none, add_zero, if_pos (moneyRange_iff.mpr ⟨h0, by omega⟩)]
      exact ih h0 hnonneg hle
    | some v =>
      rw [List.filterMap_cons_some hv] at hnonneg hle ⊢
      rw [List.sum_cons] at hle ⊢
      have hv0 := hnonneg v List.mem_cons_self
      have hnonneg' := fun w hw ↦ hnonneg w (List.mem_cons_of_mem _ hw)
      have hrest := List.sum_nonneg hnonneg'
      rw [Option.getD_some, if_pos (moneyRange_iff.mpr ⟨by omega, by omega⟩),
        ih (by omega) hnonneg' (by omega), add_assoc]

theorem sum_pos_iff_exists {l : List ℤ} (h : ∀ v ∈ l, 0 ≤ v) : 0 < l.sum ↔ ∃ v ∈ l, 0 < v := by
  constructor
  · intro hpos
    by_contra! hnone
    have hzero : l.sum = 0 := List.sum_eq_zero fun v hv ↦ le_antisymm (hnone v hv) (h v hv)
    omega
  · rintro ⟨v, hv, hpos⟩
    exact lt_of_lt_of_le hpos (List.single_le_sum h v hv)

theorem isFromMe_eq {mapWallet : WalletMap} {tx : CTransaction}
    (hrange : W.InRange mapWallet.txs tx) :
    W.isFromMe mapWallet tx = .ok (decide (∃ v ∈ W.ownSpent mapWallet.txs tx, 0 < v)) := by
  obtain ⟨hnonneg, hle⟩ := hrange
  have hdebit := W.debitLoop_eq mapWallet le_rfl hnonneg (by rw [zero_add]; exact hle)
  rw [isFromMe, hdebit, zero_add]
  change Except.ok _ = _
  congr 1
  exact decide_eq_decide.mpr (sum_pos_iff_exists hnonneg)

/-- The entry that a block gives a transaction. -/
def foundTx (b : β) (tx : CTransaction) : CWalletTx :=
  { CMerkleTx.setMerkleBranch W.hashes { tx with } (W.readBlock b) with }

@[simp] theorem toCTransaction_foundTx (b : β) (tx : CTransaction) :
    (W.foundTx b tx).toCTransaction = tx := by
  rw [foundTx, CMerkleTx.setMerkleBranch]
  split
  · rfl
  · rfl

theorem same_self (tx : CTransaction) : tx.same tx = true := by
  simp [CTransaction.same]

/-- A transaction of a block is recorded with its place. -/
theorem records_foundTx {b : β} {tx : CTransaction} (htx : tx ∈ (W.readBlock b).vtx) :
    W.Records b tx (W.foundTx b tx) ∧ (W.foundTx b tx).nIndex ≠ -1 := by
  have hint := W.length_vtx_lt b
  cases hfind : (W.readBlock b).vtx.findIdx? (·.same tx) with
  | none => exact absurd (same_self tx) (by simpa using List.findIdx?_eq_none_iff.mp hfind tx htx)
  | some i =>
    obtain ⟨hlt, hsame, -⟩ := List.findIdx?_eq_some_iff_getElem.mp hfind
    have hget := List.getElem?_eq_getElem hlt
    have hfound : W.foundTx b tx =
        { tx with
          hashBlock := (W.readBlock b).getHash W.hashes
          vMerkleBranch := (W.readBlock b).getMerkleBranch W.hashes i
          nIndex := BitVec.ofNat 32 i } := by
      rw [foundTx, CMerkleTx.setMerkleBranch, hfind]
    rw [hfound]
    refine ⟨⟨i, _, hget, hsame, rfl, rfl, rfl, ?_⟩, ?_⟩
    · exact checkMerkleBranch_getMerkleBranch W.hashes _ hget (hlt.trans hint)
    · intro h
      have := congrArg BitVec.toNat h
      rw [BitVec.toNat_ofNat] at this
      change i % 2 ^ 32 = 2 ^ 32 - 1 at this
      omega

/-- An entry takes over the place of what is merged into it. -/
theorem Records.merge {b : β} {tx : CTransaction} {wtx wtxIn : CWalletTx}
    (h : W.Records b tx wtxIn) (hindex : wtxIn.nIndex ≠ -1)
    (hblock : (W.readBlock b).getHash W.hashes ≠ 0) : W.Records b tx (wtx.merge wtxIn).1 := by
  obtain ⟨i, tx', hget, hsame, hhash, hnIndex, hbranch, hcheck⟩ := h
  have hmergedHash : (wtx.merge wtxIn).1.hashBlock = wtxIn.hashBlock := by
    rw [hhash, CWalletTx.merge]
    dsimp only
    rw [hhash]
    split
    · rfl
    · next hsame =>
      by_contra hne
      exact hsame ⟨hblock, fun heq ↦ hne heq.symm⟩
  have hmerged : (wtx.merge wtxIn).1.nIndex = wtxIn.nIndex ∧
      (wtx.merge wtxIn).1.vMerkleBranch = wtxIn.vMerkleBranch := by
    rw [CWalletTx.merge]
    dsimp only
    split
    · exact ⟨rfl, rfl⟩
    · next hkept =>
      have hboth : ¬ (wtxIn.vMerkleBranch ≠ wtx.vMerkleBranch ∨ wtxIn.nIndex ≠ wtx.nIndex) :=
        fun hdiffers ↦ hkept ⟨hindex, hdiffers⟩
      push Not at hboth
      exact ⟨hboth.2.symm, hboth.1.symm⟩
  refine ⟨i, tx', hget, hsame, hmergedHash.trans hhash, hmerged.1.trans hnIndex,
    hmerged.2.trans hbranch, ?_⟩
  rw [hmerged.1, hmerged.2]
  exact hcheck

theorem isSome_txs (mapWallet : WalletMap) (hash : Uint256) :
    (mapWallet.txs hash).isSome = (mapWallet hash).isSome := Option.isSome_map

theorem addToWalletIfInvolvingMe_eq {mapWallet : WalletMap} {b : β} {tx : CTransaction}
    (fUpdate : Bool) (hrange : W.InRange mapWallet.txs tx) :
    W.addToWalletIfInvolvingMe mapWallet (tx.getHash W.hashes) tx (some (W.readBlock b)) fUpdate =
      .ok (if (mapWallet (tx.getHash W.hashes)).isSome && !fUpdate then (mapWallet, false)
        else if W.Finds mapWallet.txs tx then W.addToWallet mapWallet (W.foundTx b tx)
        else (mapWallet, false)) := by
  have hinvolved : W.involvesMe mapWallet (tx.getHash W.hashes) tx =
      .ok (decide (W.Finds mapWallet.txs tx)) := by
    rw [involvesMe]
    split
    case isTrue h =>
      have hfinds : W.Finds mapWallet.txs tx := by
        rw [Finds, isSome_txs]
        rcases Bool.or_eq_true _ _ ▸ h with hexisted | hpays
        · exact .inl hexisted
        · exact .inr (.inl hpays)
      rw [decide_eq_true hfinds]
    case isFalse h =>
      rw [Bool.or_eq_true, not_or] at h
      rw [isFromMe_eq W hrange]
      congr 1
      refine decide_eq_decide.mpr ?_
      rw [Finds, isSome_txs, or_iff_right h.1, or_iff_right h.2]
  rw [addToWalletIfInvolvingMe]
  by_cases hskip : ((mapWallet (tx.getHash W.hashes)).isSome && !fUpdate) = true
  · rw [if_pos hskip, if_pos hskip]
  · rw [if_neg hskip, if_neg hskip, hinvolved]
    by_cases hfinds : W.Finds mapWallet.txs tx
    · rw [if_pos hfinds, decide_eq_true hfinds]
      rfl
    · rw [if_neg hfinds, decide_eq_false hfinds]
      rfl

/-- What one turn does to the wallet. -/
theorem addToWalletIfInvolvingMe_spec {mapWallet : WalletMap} {b : β} {tx : CTransaction}
    (fUpdate : Bool) (htx : tx ∈ (W.readBlock b).vtx) (hrange : W.InRange mapWallet.txs tx) :
    ∃ mapWallet' fAdded,
      W.addToWalletIfInvolvingMe mapWallet (tx.getHash W.hashes) tx (some (W.readBlock b)) fUpdate =
        .ok (mapWallet', fAdded) ∧
      mapWallet'.txs = W.learn mapWallet.txs tx ∧
      (∀ hash, hash ≠ tx.getHash W.hashes → mapWallet' hash = mapWallet hash) ∧
      (fUpdate = true → (W.readBlock b).getHash W.hashes ≠ 0 → W.Finds mapWallet.txs tx →
        ∀ wtx, mapWallet' (tx.getHash W.hashes) = some wtx → W.Records b tx wtx) := by
  have hkeep : (W.Finds mapWallet.txs tx → (mapWallet (tx.getHash W.hashes)).isSome) →
      mapWallet.txs = W.learn mapWallet.txs tx := by
    intro hknown
    rw [learn]
    split
    case isTrue hfinds =>
      obtain ⟨known, hknown⟩ := Option.isSome_iff_exists.mp
        ((isSome_txs mapWallet _).trans (hknown hfinds))
      rw [hknown, Option.getD_some, ← hknown, Function.update_eq_self]
    case isFalse => rfl
  have hfound : (W.foundTx b tx).getHash W.hashes = tx.getHash W.hashes := by
    rw [toCTransaction_foundTx]
  obtain ⟨hrecords, hindex⟩ := W.records_foundTx htx
  rw [addToWalletIfInvolvingMe_eq W fUpdate hrange]
  by_cases hskip : ((mapWallet (tx.getHash W.hashes)).isSome && !fUpdate) = true
  · rw [if_pos hskip]
    rw [Bool.and_eq_true, Bool.not_eq_true'] at hskip
    refine ⟨_, _, rfl, hkeep fun _ ↦ hskip.1, fun _ _ ↦ rfl, ?_⟩
    intro hupdate
    rw [hskip.2] at hupdate
    cases hupdate
  rw [if_neg hskip]
  by_cases hfinds : W.Finds mapWallet.txs tx
  case neg =>
    rw [if_neg hfinds]
    exact ⟨_, _, rfl, hkeep fun h ↦ absurd h hfinds, fun _ _ ↦ rfl, fun _ _ h ↦ absurd h hfinds⟩
  case pos =>
    rw [if_pos hfinds, addToWallet, hfound]
    dsimp only
    cases hold : mapWallet (tx.getHash W.hashes) with
    | none =>
      refine ⟨_, _, rfl, ?_, fun hash hne ↦ Function.update_of_ne hne _ _, ?_⟩
      · rw [learn, if_pos hfinds]
        funext hash
        by_cases heq : hash = tx.getHash W.hashes
        · subst heq
          rw [WalletMap.txs, Function.update_self, Function.update_self, WalletMap.txs, hold]
          exact congrArg some (W.toCTransaction_foundTx b tx)
        · rw [WalletMap.txs, Function.update_of_ne heq, Function.update_of_ne heq, WalletMap.txs]
      · intro _ _ _ wtx hwtx
        rw [Function.update_self] at hwtx
        obtain rfl := Option.some.inj hwtx
        exact hrecords
    | some wtx =>
      refine ⟨_, _, rfl, ?_, fun hash hne ↦ Function.update_of_ne hne _ _, ?_⟩
      · rw [learn, if_pos hfinds]
        funext hash
        by_cases heq : hash = tx.getHash W.hashes
        · subst heq
          rw [WalletMap.txs, Function.update_self, Function.update_self, WalletMap.txs, hold]
          rfl
        · rw [WalletMap.txs, Function.update_of_ne heq, Function.update_of_ne heq, WalletMap.txs]
      · intro _ hblock _ wtx' hwtx
        rw [Function.update_self] at hwtx
        obtain rfl := Option.some.inj hwtx
        exact Records.merge W hrecords hindex hblock

/-! ### A run -/

/-- What is known of a transaction stays. -/
theorem learn_of_known {known : KnownTxs} {hash : Uint256} {tx : CTransaction}
    (h : known hash = some tx) (tx' : CTransaction) : W.learn known tx' hash = some tx := by
  rw [learn]
  split
  · by_cases heq : hash = tx'.getHash W.hashes
    · subst heq
      rw [Function.update_self, h, Option.getD_some]
    · rw [Function.update_of_ne heq, h]
  · exact h

theorem foldl_learn_of_known {known : KnownTxs} {hash : Uint256} {tx : CTransaction}
    (h : known hash = some tx) (visits : List (β × CTransaction)) :
    visits.foldl (fun known v ↦ W.learn known v.2) known hash = some tx := by
  induction visits generalizing known with
  | nil => exact h
  | cons v visits ih => exact ih (W.learn_of_known h v.2)

theorem learn_of_finds {known : KnownTxs} {tx : CTransaction} (h : W.Finds known tx) :
    W.learn known tx (tx.getHash W.hashes) = some ((known (tx.getHash W.hashes)).getD tx) := by
  rw [learn, if_pos h, Function.update_self]

theorem known_append {mapWallet mapWallet' : WalletMap} {visits : List (β × CTransaction)}
    (h : mapWallet'.txs = W.known mapWallet visits) (visits' : List (β × CTransaction)) :
    W.known mapWallet (visits ++ visits') = W.known mapWallet' visits' := by
  rw [known, List.foldl_append, ← known, ← h, known]

/-- A transaction that was found is in the wallet from then on. -/
theorem known_of_finds {mapWallet : WalletMap} {pre post : List (β × CTransaction)} {b : β}
    {tx : CTransaction} (h : W.Finds (W.known mapWallet pre) tx) :
    W.known mapWallet (pre ++ (b, tx) :: post) (tx.getHash W.hashes) =
      some ((W.known mapWallet pre (tx.getHash W.hashes)).getD tx) := by
  rw [known, List.foldl_append, List.foldl_cons, ← known]
  exact foldl_learn_of_known W (W.learn_of_finds h) post

/-- What the visits of a run have done to the wallet. -/
structure Outcome (fUpdate : Bool) (mapWallet : WalletMap) (visits : List (β × CTransaction))
    (mapWallet' : WalletMap) : Prop where
  txs : mapWallet'.txs = W.known mapWallet visits
  others : ∀ hash, (∀ v ∈ visits, hash ≠ v.2.getHash W.hashes) → mapWallet' hash = mapWallet hash
  records : fUpdate = true → ∀ pre b tx post, visits = pre ++ (b, tx) :: post →
    W.Finds (W.known mapWallet pre) tx → (W.readBlock b).getHash W.hashes ≠ 0 →
      (∀ v ∈ post, tx.getHash W.hashes ≠ v.2.getHash W.hashes) →
        ∀ wtx, mapWallet' (tx.getHash W.hashes) = some wtx → W.Records b tx wtx

/-- The own outputs that the visited transactions spend do not leave the range of money. -/
def AllInRange (mapWallet : WalletMap) (visits : List (β × CTransaction)) : Prop :=
  ∀ pre v post, visits = pre ++ v :: post → W.InRange (W.known mapWallet pre) v.2

variable {W}

theorem Outcome.refl (fUpdate : Bool) (mapWallet : WalletMap) :
    W.Outcome fUpdate mapWallet [] mapWallet where
  txs := rfl
  others _ _ := rfl
  records := by
    rintro - pre b tx post h
    exact absurd h.symm (List.append_ne_nil_of_right_ne_nil _ (List.cons_ne_nil _ _))

theorem Outcome.trans {fUpdate : Bool} {m m' m'' : WalletMap}
    {visits visits' : List (β × CTransaction)} (h : W.Outcome fUpdate m visits m')
    (h' : W.Outcome fUpdate m' visits' m'') : W.Outcome fUpdate m (visits ++ visits') m'' where
  txs := by rw [W.known_append h.txs, h'.txs]
  others hash hne := by
    rw [h'.others hash fun v hv ↦ hne v (List.mem_append_right _ hv),
      h.others hash fun v hv ↦ hne v (List.mem_append_left _ hv)]
  records := by
    intro hupdate pre b tx post hsplit hfinds hblock hlast wtx hwtx
    rcases List.append_eq_append_iff.mp hsplit with ⟨mid, rfl, hsecond⟩ | ⟨mid, hfirst, hsecond⟩
    · rw [W.known_append h.txs] at hfinds
      exact h'.records hupdate mid b tx post hsecond hfinds hblock hlast wtx hwtx
    · cases mid with
      | nil =>
        rw [List.append_nil] at hfirst
        subst hfirst
        rw [← List.append_nil visits, W.known_append h.txs] at hfinds
        exact h'.records hupdate [] b tx post hsecond.symm hfinds hblock hlast wtx hwtx
      | cons v mid =>
        obtain ⟨rfl, rfl⟩ := List.cons.inj hsecond
        -- the later visits do not touch the entry
        rw [h'.others _ fun v hv ↦ hlast v (List.mem_append_right _ hv)] at hwtx
        exact h.records hupdate pre b tx mid hfirst hfinds hblock
          (fun v hv ↦ hlast v (List.mem_append_left _ hv)) wtx hwtx

theorem AllInRange.append {m : WalletMap} {visits visits' : List (β × CTransaction)}
    (h : W.AllInRange m (visits ++ visits')) :
    W.AllInRange m visits ∧
      ∀ m' : WalletMap, m'.txs = W.known m visits → W.AllInRange m' visits' := by
  constructor
  · intro pre v post hsplit
    exact h pre v (post ++ visits') (by rw [hsplit, List.append_assoc, List.cons_append])
  · intro m' hm' pre v post hsplit
    rw [← W.known_append hm']
    exact h (visits ++ pre) v post (by rw [hsplit, List.append_assoc])

theorem scanTx_spec {s : ScanState} {b : β} {tx : CTransaction} (fUpdate : Bool)
    (htx : tx ∈ (W.readBlock b).vtx) (hrange : W.InRange s.mapWallet.txs tx) :
    ∃ s', W.scanTx fUpdate (W.readBlock b) s tx = .ok s' ∧
      W.Outcome fUpdate s.mapWallet [(b, tx)] s'.mapWallet ∧
      s'.nNow = s.nNow ∧ s'.readings = s.readings := by
  obtain ⟨m', fAdded, hadd, htxs, hothers, hrecords⟩ :=
    W.addToWalletIfInvolvingMe_spec fUpdate htx hrange
  rw [scanTx, hadd]
  refine ⟨_, rfl, ⟨htxs, fun hash hne ↦ hothers hash (hne _ List.mem_cons_self), ?_⟩, rfl, rfl⟩
  intro hupdate pre b' tx' post hsplit hfinds hblock _ wtx hwtx
  obtain ⟨rfl, hv⟩ : pre = [] ∧ (b', tx') = (b, tx) := by
    cases pre with
    | nil => exact ⟨rfl, (List.cons.inj hsplit).1.symm⟩
    | cons v pre =>
      exact absurd (List.cons.inj hsplit).2.symm
        (List.append_ne_nil_of_right_ne_nil _ (List.cons_ne_nil _ _))
  obtain ⟨rfl, rfl⟩ := Prod.mk.inj hv
  exact hrecords hupdate hblock hfinds wtx hwtx

theorem scanTxs_spec (fUpdate : Bool) (b : β) {txs : List CTransaction} {s : ScanState}
    (htxs : ∀ tx ∈ txs, tx ∈ (W.readBlock b).vtx)
    (hrange : W.AllInRange s.mapWallet (txs.map (b, ·))) :
    ∃ s', txs.foldlM (W.scanTx fUpdate (W.readBlock b)) s = .ok s' ∧
      W.Outcome fUpdate s.mapWallet (txs.map (b, ·)) s'.mapWallet ∧
      s'.nNow = s.nNow ∧ s'.readings = s.readings := by
  induction txs generalizing s with
  | nil => exact ⟨s, rfl, .refl _ _, rfl, rfl⟩
  | cons tx txs ih =>
    obtain ⟨s₁, hs₁, hstep, hnow₁, hreadings₁⟩ :=
      scanTx_spec (W := W) (s := s) fUpdate (htxs tx List.mem_cons_self) (hrange [] _ _ rfl)
    have hsplit : W.AllInRange s.mapWallet ([(b, tx)] ++ txs.map (b, ·)) := hrange
    have hrest := hsplit.append.2 _ hstep.txs
    obtain ⟨s₂, hs₂, hrun, hnow₂, hreadings₂⟩ :=
      ih (fun tx' h ↦ htxs tx' (List.mem_cons_of_mem _ h)) hrest
    refine ⟨s₂, ?_, hstep.trans hrun, hnow₂.trans hnow₁, hreadings₂.trans hreadings₁⟩
    rw [List.foldlM_cons, hs₁]
    exact hs₂

/-- The second loop over the blocks it comes to. -/
def scanBlocks (W : Rescan T) (fUpdate : Bool) : ScanState → List β → Except ScanError ScanState
  | s, [] => .ok s
  | s, b :: blocks => do
    let s ← (W.readBlock b).vtx.foldlM (W.scanTx fUpdate (W.readBlock b)) s
    let s ← W.reportProgress s blocks.head?
    W.scanBlocks fUpdate s blocks

theorem reportProgress_spec {s : ScanState} {n : ℕ} {pindex : Option β}
    (hclock : W.reportClock n = (s.nNow, s.readings)) (hintime : pindex = none → W.InTime (n + 1)) :
    ∃ s', W.reportProgress s pindex = .ok s' ∧ s'.mapWallet = s.mapWallet ∧
      W.reportClock (n + 1) = (s'.nNow, s'.readings) := by
  rw [reportProgress, reportClock, hclock]
  dsimp only
  split
  case isTrue hlate =>
    cases pindex with
    | none =>
      have := hintime rfl n rfl
      rw [hclock] at this
      exact absurd hlate (not_le.mpr this)
    | some b => exact ⟨_, rfl, rfl, rfl⟩
  case isFalse => exact ⟨_, rfl, rfl, rfl⟩

theorem scanBlocks_spec (fUpdate : Bool) {blocks : List β} {s : ScanState} {n : ℕ}
    (hclock : W.reportClock n = (s.nNow, s.readings)) (hintime : W.InTime (n + blocks.length))
    (hrange : W.AllInRange s.mapWallet (W.blockVisits blocks)) :
    ∃ s', W.scanBlocks fUpdate s blocks = .ok s' ∧
      W.Outcome fUpdate s.mapWallet (W.blockVisits blocks) s'.mapWallet := by
  induction blocks generalizing s n with
  | nil => exact ⟨s, rfl, .refl _ _⟩
  | cons b blocks ih =>
    obtain ⟨hfirst, hrest⟩ := hrange.append
    obtain ⟨s₁, hs₁, hblock, hnow, hreadings⟩ :=
      scanTxs_spec (W := W) fUpdate b (fun _ h ↦ h) hfirst
    have hlast : blocks.head? = none → W.InTime (n + 1) := by
      intro hnone
      rw [List.head?_eq_none_iff.mp hnone] at hintime
      exact hintime
    obtain ⟨s₂, hs₂, hmap, hclock₂⟩ :=
      reportProgress_spec (W := W) (s := s₁) (by rw [hnow, hreadings, hclock]) hlast
    rw [← hmap] at hblock
    obtain ⟨s₃, hs₃, hrun⟩ := ih hclock₂
      (by rw [Nat.add_right_comm, Nat.add_assoc, ← List.length_cons]; exact hintime)
      (hrest _ hblock.txs)
    refine ⟨s₃, ?_, hblock.trans hrun⟩
    rw [scanBlocks, hs₁]
    change (do let s ← W.reportProgress s₁ blocks.head?; W.scanBlocks fUpdate s blocks) = _
    rw [hs₂]
    exact hs₃

variable [DecidableEq β]

theorem scanLoop_eq (fUpdate : Bool) (s : ScanState) (pindex : Option β) :
    W.scanLoop fUpdate s pindex = W.scanBlocks fUpdate s (W.chainActive.following pindex) := by
  induction hn : W.chainActive.turnsLeft pindex using Nat.strong_induction_on
    generalizing pindex s with
  | h n ih =>
    cases pindex with
    | none => rw [scanLoop, CChain.following_none, scanBlocks]
    | some b =>
      have hturns := W.chainActive.turnsLeft_next b
      rw [scanLoop, CChain.following_some, scanBlocks, CChain.head?_following]
      dsimp only
      congr 1
      funext s₁
      congr 1
      funext s₂
      exact ih _ (hn ▸ hturns) s₂ _ rfl

/-- The first loop leaves out the blocks before the first one that is young enough. -/
theorem following_skipOld (pindex : Option β) :
    W.chainActive.following (W.skipOld pindex) =
      (W.chainActive.following pindex).dropWhile W.beforeBirthday := by
  induction hn : W.chainActive.turnsLeft pindex using Nat.strong_induction_on
    generalizing pindex with
  | h n ih =>
    cases pindex with
    | none => rw [skipOld, CChain.following_none, List.dropWhile_nil]
    | some b =>
      have hturns := W.chainActive.turnsLeft_next b
      rw [skipOld, CChain.following_some, List.dropWhile_cons]
      split
      · exact ih _ (hn ▸ hturns) _ rfl
      · rw [CChain.following_some]

/-- In a list that rises, an element is after the first that fails a test if one up to it does. -/
theorem mem_dropWhile_iff {α : Type} {key : α → ℕ} {old : α → Bool} {l : List α} {a : α}
    (hl : l.Pairwise (key · < key ·)) :
    a ∈ l.dropWhile old ↔ a ∈ l ∧ ∃ b ∈ l, key b ≤ key a ∧ old b = false := by
  induction l with
  | nil => simp
  | cons c l ih =>
    obtain ⟨hfirst, hrest⟩ := List.pairwise_cons.mp hl
    rw [List.dropWhile_cons]
    split
    case isTrue hold =>
      rw [ih hrest]
      constructor
      · rintro ⟨ha, b, hb, hle, hyoung⟩
        exact ⟨List.mem_cons_of_mem _ ha, b, List.mem_cons_of_mem _ hb, hle, hyoung⟩
      · rintro ⟨ha, b, hb, hle, hyoung⟩
        obtain rfl | hbl := List.mem_cons.mp hb
        · rw [hold] at hyoung
          cases hyoung
        obtain rfl | hal := List.mem_cons.mp ha
        · exact absurd (hfirst b hbl) (not_lt.mpr hle)
        · exact ⟨hal, b, hbl, hle, hyoung⟩
    case isFalse hyoung =>
      constructor
      · intro ha
        refine ⟨ha, c, List.mem_cons_self, ?_, Bool.eq_false_of_not_eq_true hyoung⟩
        obtain rfl | ha := List.mem_cons.mp ha
        · exact le_rfl
        · exact (hfirst a ha).le
      · rintro ⟨ha, -⟩
        exact ha

theorem mem_scanned_iff {start b : β} (hstart : W.chainActive.contains start = true) :
    b ∈ W.scanned (some start) ↔ W.chainActive.contains b = true ∧
      ∃ b₀, W.chainActive.contains b₀ = true ∧ T.nHeight start ≤ T.nHeight b₀ ∧
        T.nHeight b₀ ≤ T.nHeight b ∧ W.beforeBirthday b₀ = false := by
  rw [scanned, following_skipOld, mem_dropWhile_iff (W.chainActive.pairwise_following _),
    CChain.mem_following_iff hstart]
  constructor
  · rintro ⟨⟨hb, -⟩, b₀, hb₀, hle, hyoung⟩
    obtain ⟨hcontains, habove⟩ := (CChain.mem_following_iff hstart).mp hb₀
    exact ⟨hb, b₀, hcontains, habove, hle, hyoung⟩
  · rintro ⟨hb, b₀, hcontains, habove, hle, hyoung⟩
    exact ⟨⟨hb, habove.trans hle⟩, b₀, (CChain.mem_following_iff hstart).mpr ⟨hcontains, habove⟩,
      hle, hyoung⟩

end Rescan

/-- A tree that is a chain of two blocks. -/
def pairTree : BlockTree Bool Bool where
  pprev b := if b then some false else none
  nHeight b := b.toNat
  getBlockHash := id
  genesis := false
  nHeight_genesis := rfl
  eq_genesis {b} h := by cases b <;> simp_all
  nHeight_pprev {b p} h := by cases b <;> simp_all
  nHeight_lt b := by cases b <;> decide
  getBlockHash_injective := Function.injective_id

/-- Both blocks. -/
def pairChain : CChain pairTree := ⟨pairTree.branch (some true), some true, rfl⟩

/-- A payment of some value to the wallet's one script. -/
def fundingTx (nValue : ℤ) : CTransaction where
  vout := [⟨nValue, [1]⟩]

/-- A transaction that spends it. -/
def fundingSpend (nValue : ℤ) : CTransaction where
  vin := [{ prevout := ⟨(fundingTx nValue).getHash toyHashes, 0⟩ }]

/-- The first block has the payment, the second one spends it. -/
def pairRescan (nValue : ℤ) (getTime : ℕ → ℤ) : Rescan pairTree where
  hashes := toyHashes
  chainActive := pairChain
  nTime _ := 0
  readBlock b := { vtx := if b then [fundingSpend nValue] else [fundingTx nValue] }
  length_vtx_lt b := by
    cases b
    · exact Nat.one_lt_two_pow (by decide)
    · exact Nat.one_lt_two_pow (by decide)
  isMine scriptPubKey := scriptPubKey = [1]
  nTimeFirstKey := 0
  writeToDisk _ := true
  getTime

section Sample

variable {nValue : ℤ} {getTime : ℕ → ℤ}

theorem following_pairChain :
    pairChain.following (some false) = [false, true] ∧
      pairChain.following (some true) = [true] := by
  have hsecond : pairChain.next false = some true := by decide
  have hlast : pairChain.next true = none := by decide
  rw [CChain.following_some, hsecond, CChain.following_some, hlast, CChain.following_none]
  exact ⟨rfl, rfl⟩

theorem scanned_pairRescan :
    (pairRescan nValue getTime).scanned (some false) = [false, true] ∧
      (pairRescan nValue getTime).scanned (some true) = [true] := by
  simp only [Rescan.scanned, Rescan.following_skipOld]
  change List.dropWhile _ (pairChain.following _) = _ ∧
    List.dropWhile _ (pairChain.following _) = _
  rw [following_pairChain.1, following_pairChain.2]
  exact ⟨rfl, rfl⟩

theorem scan_pairRescan (mapWallet : WalletMap) (pindexStart : Option Bool) (fUpdate : Bool) :
    (pairRescan nValue getTime).scanForWalletTransactions mapWallet pindexStart fUpdate =
      (pairRescan nValue getTime).scanBlocks fUpdate ⟨mapWallet, 0, getTime 0, 1⟩
        ((pairRescan nValue getTime).scanned pindexStart) :=
  Rescan.scanLoop_eq _ _ _

end Sample

theorem visits_pairRescan :
    (pairRescan 5 fun _ ↦ 0).visits (some false) =
      [(false, fundingTx 5), (true, fundingSpend 5)] := by
  rw [Rescan.visits, scanned_pairRescan.1]
  rfl

end Bitmark
