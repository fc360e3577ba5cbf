import Bitmark.Chain.Index

/-!
# The warning about forks

`CheckForkWarningConditions` and its callers (`src/main.cpp:1731–1850`, and the end of
`AddToBlockIndex`, `src/main.cpp:2690`) with the globals they keep: the best fork with its base, the
best invalid chain and the flags of the warning. A pointer that is used without a check for null is
dereferenced in `Except`.
-/

namespace Bitmark

/-- A null pointer that is dereferenced, by the place where it happens. -/
inductive NullDeref where
  | forkBase
  | forkTip
  | activeTip
  /-- The active tip, in the log of `InvalidChainFound`. -/
  | invalidChainLog
deriving DecidableEq, Repr

/-- Dereferencing a pointer. -/
def deref (e : NullDeref) : ChainIndex → Except NullDeref Unit
  | [] => .error e
  | _ :: _ => .ok ()

/-- `nHeight` of a block, and `Height()` of the chain it is the tip of: `-1` for no block. -/
def blockHeight (p : ChainIndex) : Int := p.length - 1

/-- `nChainWork`. -/
def chainWork : ChainIndex → Uint256
  | [] => 0
  | b :: pprev => chainWork pprev + getUint256 b.getBlockWorkBoost

/-- `GetBlockWorkAv`, `src/core.h:1021`. -/
def getBlockWorkAv (p : ChainIndex) : Nat :=
  ((p.take 50).map CBlockIndex.getBlockWorkBoost).sum / (p.take 50).length

/-- What `IsInitialBlockDownload` reads apart from the chain, `src/main.cpp:1713`. -/
structure DownloadStatus where
  fImporting : Bool := false
  fReindex : Bool := false
  nTotalBlocksEstimate : Nat := 0
  /-- The tip is new, and its block is more than a day old. -/
  fCatchingUp : Bool := false
deriving DecidableEq, Repr

def isInitialBlockDownload (status : DownloadStatus) (chainActive : ChainIndex) : Bool :=
  status.fImporting || status.fReindex ||
    blockHeight chainActive < status.nTotalBlocksEstimate || status.fCatchingUp

structure ForkWarning where
  chainActive : ChainIndex
  pindexBestInvalid : ChainIndex
  fLargeWorkForkFound : Bool := false
  fLargeWorkInvalidChainFound : Bool := false
  pindexBestForkTip : ChainIndex := []
  pindexBestForkBase : ChainIndex := []
deriving DecidableEq, Repr

namespace ForkWarning

/-- A chain has more work than the active one and 30 of its blocks. -/
def Overtakes (s : ForkWarning) (p : ChainIndex) : Prop :=
  chainWork p > chainWork s.chainActive + getUint256 (getBlockWorkAv s.chainActive * 30 : Nat)

/-- The best invalid chain does. -/
def LargeInvalidChain (s : ForkWarning) : Prop :=
  s.pindexBestInvalid ≠ [] ∧ s.Overtakes s.pindexBestInvalid

instance (s : ForkWarning) (p : ChainIndex) : Decidable (s.Overtakes p) :=
  inferInstanceAs (Decidable (_ > _))

instance (s : ForkWarning) : Decidable s.LargeInvalidChain := inferInstanceAs (Decidable (_ ∧ _))

/-- The best fork is dropped when it is 180 blocks behind. -/
def dropOldFork (s : ForkWarning) : ForkWarning :=
  if s.pindexBestForkTip ≠ [] ∧
      blockHeight s.chainActive - blockHeight s.pindexBestForkTip ≥ 180 then
    { s with pindexBestForkTip := [] }
  else s

/-- `CheckForkWarningConditions`. -/
def checkForkWarningConditions (status : DownloadStatus) (s : ForkWarning) :
    Except NullDeref ForkWarning := do
  if isInitialBlockDownload status s.chainActive then
    return s
  let s := s.dropOldFork
  -- the tip is looked at when there is an invalid chain to compare it with
  if s.pindexBestForkTip = [] ∧ s.pindexBestInvalid ≠ [] then
    deref .activeTip s.chainActive
  if s.pindexBestForkTip ≠ [] ∨ s.LargeInvalidChain then
    if !s.fLargeWorkForkFound then
      deref .forkBase s.pindexBestForkBase
    if s.pindexBestForkTip ≠ [] then
      deref .forkBase s.pindexBestForkBase
      deref .forkTip s.pindexBestForkTip
      return { s with fLargeWorkForkFound := true }
    else
      return { s with fLargeWorkInvalidChainFound := true }
  else
    return { s with fLargeWorkForkFound := false, fLargeWorkInvalidChainFound := false }

/-- The inner loop of `CheckForkWarningConditionsOnNewFork`: down the active chain to a height. -/
def lower (nHeight : Int) : ChainIndex → ChainIndex
  | [] => []
  | b :: pprev => if blockHeight (b :: pprev) > nHeight then lower nHeight pprev else b :: pprev

/-- The loop of `CheckForkWarningConditionsOnNewFork`: where the new fork leaves the active chain. -/
def findFork : ChainIndex → ChainIndex → ChainIndex
  | [], _ => []
  | b :: pprev, plonger =>
    if b :: pprev = plonger then b :: pprev
    else
      let plonger := lower (blockHeight (b :: pprev)) plonger
      if b :: pprev = plonger then b :: pprev else findFork pprev plonger

/-- The new fork is large and near, and higher than the best one. -/
def LargeFork (s : ForkWarning) (pindexNewForkTip pfork : ChainIndex) : Prop :=
  pfork ≠ [] ∧ (s.pindexBestForkTip = [] ∨
      blockHeight pindexNewForkTip > blockHeight s.pindexBestForkTip) ∧
    chainWork pindexNewForkTip - chainWork pfork > getUint256 (getBlockWorkAv pfork * 31 : Nat) ∧
    blockHeight s.chainActive - blockHeight pindexNewForkTip < 180

instance (s : ForkWarning) (pindexNewForkTip pfork : ChainIndex) :
    Decidable (s.LargeFork pindexNewForkTip pfork) := inferInstanceAs (Decidable (_ ∧ _))

/-- The part of `CheckForkWarningConditionsOnNewFork` that records the fork. -/
def recordFork (s : ForkWarning) (pindexNewForkTip : ChainIndex) : ForkWarning :=
  let pfork := findFork pindexNewForkTip s.chainActive
  if s.LargeFork pindexNewForkTip pfork then
    { s with pindexBestForkTip := pindexNewForkTip, pindexBestForkBase := pfork }
  else s

def checkForkWarningConditionsOnNewFork (status : DownloadStatus) (pindexNewForkTip : ChainIndex)
    (s : ForkWarning) : Except NullDeref ForkWarning :=
  (s.recordFork pindexNewForkTip).checkForkWarningConditions status

/-- An invalid chain becomes the best one when it has more work. -/
def betterInvalid (s : ForkWarning) (pindexNew : ChainIndex) : ForkWarning :=
  if s.pindexBestInvalid = [] ∨ chainWork pindexNew > chainWork s.pindexBestInvalid then
    { s with pindexBestInvalid := pindexNew }
  else s

def invalidChainFound (status : DownloadStatus) (pindexNew : ChainIndex) (s : ForkWarning) :
    Except NullDeref ForkWarning := do
  let s := s.betterInvalid pindexNew
  deref .invalidChainLog s.chainActive
  s.checkForkWarningConditions status

/-- What happens to the block index. A block is given with its ancestors, so that it is not null. -/
inductive Action where
  /-- `chainActive.SetTip`. -/
  | setTip (pindex : ChainIndex)
  /-- `FindMostWorkChain` comes across a chain that is known to be invalid. -/
  | mostWorkInvalid (pindexNew : CBlockIndex) (pprev : ChainIndex)
  | invalidChainFound (status : DownloadStatus) (pindexNew : CBlockIndex) (pprev : ChainIndex)
  /-- The end of `AddToBlockIndex`, after `ActivateBestChain`. -/
  | addToBlockIndex (status : DownloadStatus) (pindexNew : CBlockIndex) (pprev : ChainIndex)

def step (s : ForkWarning) : Action → Except NullDeref ForkWarning
  | .setTip pindex => .ok { s with chainActive := pindex }
  | .mostWorkInvalid pindexNew pprev => .ok (s.betterInvalid (pindexNew :: pprev))
  | .invalidChainFound status pindexNew pprev => s.invalidChainFound status (pindexNew :: pprev)
  | .addToBlockIndex status pindexNew pprev =>
    if pindexNew :: pprev = s.chainActive then s.checkForkWarningConditions status
    else s.checkForkWarningConditionsOnNewFork status (pindexNew :: pprev)

/-- A run, up to the first null pointer that is dereferenced. -/
def run : ForkWarning → List Action → Except NullDeref ForkWarning
  | s, [] => .ok s
  | s, a :: actions =>
    match s.step a with
    | .error e => .error e
    | .ok s => run s actions

/-- The program starts without a fork; an invalid chain may be known from the block index. -/
def init (chainActive pindexBestInvalid : ChainIndex) : ForkWarning :=
  { chainActive := chainActive, pindexBestInvalid := pindexBestInvalid }

/-! ### What one step does -/

/-- A fork is recorded with its base; without a base there is neither a fork nor its warning. -/
structure Inv (s : ForkWarning) : Prop where
  fork : s.pindexBestForkTip ≠ [] →
    s.pindexBestForkBase ≠ [] ∧ s.pindexBestForkBase <:+ s.pindexBestForkTip
  flag : s.fLargeWorkForkFound = true → s.pindexBestForkBase ≠ []

/-- `CheckForkWarningConditions` has no reason to name a base that is not there. -/
def Quiet (status : DownloadStatus) (s : ForkWarning) : Prop :=
  isInitialBlockDownload status s.chainActive = true ∨ s.pindexBestForkBase ≠ [] ∨
    ¬ s.LargeInvalidChain

/-- The fork is the one before, or none. -/
structure SameFork (s s' : ForkWarning) : Prop where
  chainActive : s'.chainActive = s.chainActive
  base : s'.pindexBestForkBase = s.pindexBestForkBase
  tip : s'.pindexBestForkTip = s.pindexBestForkTip ∨ s'.pindexBestForkTip = []

variable {s s' : ForkWarning} {status : DownloadStatus}

theorem SameFork.refl (s : ForkWarning) : SameFork s s := ⟨rfl, rfl, .inl rfl⟩

theorem SameFork.trans {s'' : ForkWarning} (h : SameFork s s') (h' : SameFork s' s'') :
    SameFork s s'' where
  chainActive := h'.chainActive.trans h.chainActive
  base := h'.base.trans h.base
  tip := by
    rcases h'.tip with heq | hnil
    · rw [heq]
      exact h.tip
    · exact .inr hnil

theorem deref_of_ne_nil {e : NullDeref} {p : ChainIndex} (h : p ≠ []) : deref e p = .ok () := by
  cases p with
  | nil => exact absurd rfl h
  | cons => rfl

theorem chainActive_ne_nil (h : isInitialBlockDownload status s.chainActive = false) :
    s.chainActive ≠ [] := by
  intro hnil
  rw [hnil] at h
  have hlt : blockHeight [] < (status.nTotalBlocksEstimate : Int) := by
    show (-1 : Int) < _
    omega
  simp [isInitialBlockDownload, hlt] at h

theorem sameFork_dropOldFork (s : ForkWarning) : SameFork s s.dropOldFork := by
  rw [dropOldFork]
  split
  · exact ⟨rfl, rfl, .inr rfl⟩
  · exact .refl s

theorem largeInvalidChain_dropOldFork : s.dropOldFork.LargeInvalidChain ↔ s.LargeInvalidChain := by
  rw [dropOldFork]
  split <;> rfl

theorem Inv.dropOldFork (h : Inv s) : Inv s.dropOldFork := by
  rw [ForkWarning.dropOldFork]
  split
  · exact ⟨fun hne ↦ absurd rfl hne, h.flag⟩
  · exact h

/-- `CheckForkWarningConditions` behind the initial download: the only pointer that may be null is
the base of a fork that was never found. -/
theorem checkForkWarningConditions_eq (h : isInitialBlockDownload status s.chainActive = false)
    (hinv : Inv s) : s.checkForkWarningConditions status =
      if s.dropOldFork.pindexBestForkTip ≠ [] then
        .ok { s.dropOldFork with fLargeWorkForkFound := true }
      else if s.LargeInvalidChain then
        if s.pindexBestForkBase = [] then .error .forkBase
        else .ok { s.dropOldFork with fLargeWorkInvalidChainFound := true }
      else
        .ok { s.dropOldFork with fLargeWorkForkFound := false,
                                 fLargeWorkInvalidChainFound := false } := by
  have hsame := sameFork_dropOldFork s
  have hdrop := hinv.dropOldFork
  have htip : deref .activeTip s.dropOldFork.chainActive = .ok () :=
    deref_of_ne_nil (hsame.chainActive ▸ chainActive_ne_nil h)
  rw [checkForkWarningConditions, h, ← hsame.base]
  by_cases hfork : s.dropOldFork.pindexBestForkTip ≠ []
  · have hbase : deref .forkBase s.dropOldFork.pindexBestForkBase = .ok () :=
      deref_of_ne_nil (hdrop.fork hfork).1
    have hderef : deref .forkTip s.dropOldFork.pindexBestForkTip = .ok () :=
      deref_of_ne_nil hfork
    cases hflag : s.dropOldFork.fLargeWorkForkFound <;>
      simp [hfork, hbase, hderef, hflag, bind, Except.bind, pure, Except.pure]
  · by_cases hlarge : s.LargeInvalidChain
    · by_cases hbase : s.dropOldFork.pindexBestForkBase = []
      · have hflag : s.dropOldFork.fLargeWorkForkFound = false :=
          Bool.eq_false_of_not_eq_true fun hf ↦ hdrop.flag hf hbase
        have hderef : deref .forkBase s.dropOldFork.pindexBestForkBase = .error .forkBase := by
          rw [hbase]
          rfl
        cases hinvalid : decide (s.dropOldFork.pindexBestInvalid = []) <;>
          simp_all [largeInvalidChain_dropOldFork, bind, Except.bind]
      · have hderef : deref .forkBase s.dropOldFork.pindexBestForkBase = .ok () :=
          deref_of_ne_nil hbase
        cases hflag : s.dropOldFork.fLargeWorkForkFound <;>
          cases hinvalid : decide (s.dropOldFork.pindexBestInvalid = []) <;>
          simp_all [largeInvalidChain_dropOldFork, bind, Except.bind, pure, Except.pure]
    · cases hinvalid : decide (s.dropOldFork.pindexBestInvalid = []) <;>
        simp_all [largeInvalidChain_dropOldFork, bind, Except.bind, pure, Except.pure]

/-- A call of `CheckForkWarningConditions` in a state that gives it no reason to fail. -/
theorem Inv.check (h : Inv s) (hquiet : Quiet status s) :
    ∃ s', s.checkForkWarningConditions status = .ok s' ∧ Inv s' ∧ SameFork s s' := by
  by_cases hdownload : isInitialBlockDownload status s.chainActive = true
  · refine ⟨s, ?_, h, .refl s⟩
    rw [checkForkWarningConditions, hdownload]
    rfl
  · have hsame := sameFork_dropOldFork s
    have hdrop := h.dropOldFork
    rw [checkForkWarningConditions_eq (Bool.eq_false_of_not_eq_true hdownload) h]
    split
    · next hfork =>
      exact ⟨_, rfl, ⟨hdrop.fork, fun _ ↦ (hdrop.fork hfork).1⟩, hsame.chainActive, hsame.base,
        hsame.tip⟩
    · split
      · next hlarge =>
        have hbase : s.pindexBestForkBase ≠ [] := by
          rcases hquiet with hq | hq | hq
          · exact absurd hq hdownload
          · exact hq
          · exact absurd hlarge hq
        rw [if_neg hbase]
        exact ⟨_, rfl, ⟨hdrop.fork, hdrop.flag⟩, hsame.chainActive, hsame.base, hsame.tip⟩
      · exact ⟨_, rfl, ⟨hdrop.fork, nofun⟩, hsame.chainActive, hsame.base, hsame.tip⟩

/-- And in any other state it fails. -/
theorem Inv.check_error (h : Inv s) (hquiet : ¬ Quiet status s) :
    s.checkForkWarningConditions status = .error .forkBase := by
  rw [Quiet, not_or, not_or, not_not, not_not] at hquiet
  obtain ⟨hdownload, hbase, hlarge⟩ := hquiet
  have hfork : ¬ s.dropOldFork.pindexBestForkTip ≠ [] := fun hne ↦
    (h.dropOldFork.fork hne).1 ((sameFork_dropOldFork s).base.trans hbase)
  rw [checkForkWarningConditions_eq (Bool.eq_false_of_not_eq_true hdownload) h, if_neg hfork,
    if_pos hlarge, if_pos hbase]

/-! ### The fork -/

theorem lower_suffix (nHeight : Int) (p : ChainIndex) : lower nHeight p <:+ p := by
  induction p with
  | nil => exact List.suffix_refl _
  | cons b pprev ih =>
    rw [lower]
    split
    · exact ih.trans (List.suffix_cons b pprev)
    · exact List.suffix_refl _

/-- Where the new fork leaves the active chain is a block of both, if there is one. -/
theorem findFork_suffix (p plonger : ChainIndex) :
    findFork p plonger <:+ p ∧ findFork p plonger <:+ plonger := by
  induction p generalizing plonger with
  | nil => exact ⟨List.suffix_refl _, List.nil_suffix⟩
  | cons b pprev ih =>
    rw [findFork]
    split
    · next heq => exact ⟨List.suffix_refl _, heq ▸ List.suffix_refl _⟩
    · have hlower := lower_suffix (blockHeight (b :: pprev)) plonger
      dsimp only
      split
      · next heq =>
        rw [← heq] at hlower
        exact ⟨List.suffix_refl _, hlower⟩
      · obtain ⟨hp, hq⟩ := ih (lower (blockHeight (b :: pprev)) plonger)
        exact ⟨hp.trans (List.suffix_cons b pprev), hq.trans hlower⟩

/-- A fork that is recorded leaves the active chain at its base. -/
theorem Inv.recordFork (h : Inv s) (p : ChainIndex) :
    Inv (s.recordFork p) ∧ (s.recordFork p = s ∨ (s.recordFork p).pindexBestForkTip = p ∧
      (s.recordFork p).pindexBestForkBase <:+ s.chainActive) := by
  obtain ⟨hp, hactive⟩ := findFork_suffix p s.chainActive
  rw [ForkWarning.recordFork]
  split
  · next hlarge => exact ⟨⟨fun _ ↦ ⟨hlarge.1, hp⟩, fun _ ↦ hlarge.1⟩, .inr ⟨rfl, hactive⟩⟩
  · exact ⟨h, .inl rfl⟩

theorem Inv.betterInvalid (h : Inv s) (p : ChainIndex) :
    Inv (s.betterInvalid p) ∧ SameFork s (s.betterInvalid p) := by
  rw [ForkWarning.betterInvalid]
  split
  · exact ⟨⟨h.fork, h.flag⟩, rfl, rfl, .inl rfl⟩
  · exact ⟨h, .refl s⟩

/-! ### Runs -/

/-- The condition on a step: past the initial download, as long as no fork has been recorded, no
invalid chain overtakes the active one. -/
def QuietStep (s : ForkWarning) : Action → Prop
  | .setTip _ | .mostWorkInvalid .. => True
  | .invalidChainFound status pindexNew pprev =>
    isInitialBlockDownload status s.chainActive = true ∨ s.pindexBestForkBase ≠ [] ∨
      ¬ s.LargeInvalidChain ∧ ¬ s.Overtakes (pindexNew :: pprev)
  | .addToBlockIndex status pindexNew pprev =>
    isInitialBlockDownload status s.chainActive = true ∨ s.pindexBestForkBase ≠ [] ∨
      ¬ s.LargeInvalidChain ∨ pindexNew :: pprev ≠ s.chainActive ∧
        s.LargeFork (pindexNew :: pprev) (findFork (pindexNew :: pprev) s.chainActive)

theorem largeInvalidChain_betterInvalid (b : CBlockIndex) (pprev : ChainIndex) :
    (s.betterInvalid (b :: pprev)).LargeInvalidChain ↔
      s.LargeInvalidChain ∨ s.Overtakes (b :: pprev) := by
  rw [ForkWarning.betterInvalid]
  split
  · next hbetter =>
    constructor
    · exact fun h ↦ .inr h.2
    · rintro (h | h)
      · have hless : chainWork s.pindexBestInvalid < chainWork (b :: pprev) :=
          hbetter.resolve_left h.1
        exact ⟨List.cons_ne_nil _ _, BitVec.lt_trans h.2 hless⟩
      · exact ⟨List.cons_ne_nil _ _, h⟩
  · next hworse =>
    rw [not_or] at hworse
    constructor
    · exact .inl
    · rintro (h | h)
      · exact h
      · have hle : chainWork (b :: pprev) ≤ chainWork s.pindexBestInvalid :=
          BitVec.not_lt.mp hworse.2
        exact ⟨hworse.1, Nat.lt_of_lt_of_le (BitVec.lt_def.mp h) (BitVec.le_def.mp hle)⟩

theorem quiet_betterInvalid (status : DownloadStatus) (b : CBlockIndex) (pprev : ChainIndex) :
    Quiet status (s.betterInvalid (b :: pprev)) ↔
      s.QuietStep (.invalidChainFound status b pprev) := by
  have hsame : (s.betterInvalid (b :: pprev)).chainActive = s.chainActive ∧
      (s.betterInvalid (b :: pprev)).pindexBestForkBase = s.pindexBestForkBase := by
    rw [ForkWarning.betterInvalid]
    split <;> exact ⟨rfl, rfl⟩
  rw [Quiet, largeInvalidChain_betterInvalid, hsame.1, hsame.2, not_or]
  rfl

theorem quiet_recordFork (status : DownloadStatus) {b : CBlockIndex} {pprev : ChainIndex}
    (hne : b :: pprev ≠ s.chainActive) : Quiet status (s.recordFork (b :: pprev)) ↔
      s.QuietStep (.addToBlockIndex status b pprev) := by
  rw [ForkWarning.recordFork, QuietStep]
  split
  · next hlarge =>
    exact iff_of_true (.inr (.inl hlarge.1)) (.inr (.inr (.inr ⟨hne, hlarge⟩)))
  · next hsmall =>
    rw [Quiet]
    simp only [hsmall, and_false, or_false]

/-- What a step does: a fork that is there afterwards was there before, or has been recorded, with a
base on the active chain. -/
structure Moves (s : ForkWarning) (a : Action) (s' : ForkWarning) : Prop where
  inv : Inv s'
  fork : s'.pindexBestForkTip ≠ [] →
    s'.pindexBestForkTip = s.pindexBestForkTip ∧ s'.pindexBestForkBase = s.pindexBestForkBase ∨
    (∃ status b pprev, a = .addToBlockIndex status b pprev ∧
      s'.pindexBestForkTip = b :: pprev ∧ s'.pindexBestForkBase <:+ s.chainActive)

theorem Inv.moves_of_sameFork (h : Inv s') (a : Action) (hsame : SameFork s s') : Moves s a s' where
  inv := h
  fork := fun hne ↦ .inl ⟨hsame.tip.resolve_right hne, hsame.base⟩

/-- The log of `InvalidChainFound` is the only place outside the two functions that can fail. -/
theorem Inv.step (h : Inv s) (a : Action) :
    (s.QuietStep a → s.step a = .error .invalidChainLog ∨ ∃ s', s.step a = .ok s' ∧ Moves s a s') ∧
      (¬ s.QuietStep a → s.step a = .error .forkBase) := by
  cases a with
  | setTip p =>
    refine ⟨fun _ ↦ .inr ⟨_, rfl, ⟨h.fork, h.flag⟩, fun _ ↦ .inl ⟨rfl, rfl⟩⟩, fun hnot ↦ ?_⟩
    exact absurd trivial hnot
  | mostWorkInvalid b pprev =>
    obtain ⟨hinv, hsame⟩ := h.betterInvalid (b :: pprev)
    exact ⟨fun _ ↦ .inr ⟨_, rfl, hinv.moves_of_sameFork _ hsame⟩, fun hnot ↦ absurd trivial hnot⟩
  | invalidChainFound status b pprev =>
    obtain ⟨hinv, hsame⟩ := h.betterInvalid (b :: pprev)
    rw [← quiet_betterInvalid status b pprev]
    by_cases hnil : (s.betterInvalid (b :: pprev)).chainActive = []
    · have hquiet : Quiet status (s.betterInvalid (b :: pprev)) := by
        refine .inl (Bool.eq_true_of_not_eq_false fun hf ↦ ?_)
        exact chainActive_ne_nil hf hnil
      refine ⟨fun _ ↦ .inl ?_, fun hnot ↦ absurd hquiet hnot⟩
      rw [ForkWarning.step, ForkWarning.invalidChainFound, hnil]
      rfl
    · have hstep : s.step (.invalidChainFound status b pprev) =
          (s.betterInvalid (b :: pprev)).checkForkWarningConditions status := by
        rw [ForkWarning.step, ForkWarning.invalidChainFound, deref_of_ne_nil hnil]
        rfl
      rw [hstep]
      refine ⟨fun hquiet ↦ .inr ?_, hinv.check_error⟩
      obtain ⟨s', hcheck, hinv', hsame'⟩ := hinv.check hquiet
      exact ⟨s', hcheck, hinv'.moves_of_sameFork _ (hsame.trans hsame')⟩
  | addToBlockIndex status b pprev =>
    by_cases htip : b :: pprev = s.chainActive
    · have hstep : s.step (.addToBlockIndex status b pprev) =
          s.checkForkWarningConditions status := if_pos htip
      have hiff : Quiet status s ↔ s.QuietStep (.addToBlockIndex status b pprev) := by
        simp only [QuietStep, Quiet, htip, ne_eq, not_true_eq_false, false_and, or_false]
      rw [hstep, ← hiff]
      refine ⟨fun hquiet ↦ .inr ?_, h.check_error⟩
      obtain ⟨s', hcheck, hinv', hsame⟩ := h.check hquiet
      exact ⟨s', hcheck, hinv'.moves_of_sameFork _ hsame⟩
    · have hstep : s.step (.addToBlockIndex status b pprev) =
          (s.recordFork (b :: pprev)).checkForkWarningConditions status := if_neg htip
      obtain ⟨hinv, hrecord⟩ := h.recordFork (b :: pprev)
      rw [hstep, ← quiet_recordFork status htip]
      refine ⟨fun hquiet ↦ .inr ?_, hinv.check_error⟩
      obtain ⟨s', hcheck, hinv', hsame⟩ := hinv.check hquiet
      refine ⟨s', hcheck, hinv', fun hne ↦ ?_⟩
      have hfork := hsame.tip.resolve_right hne
      rcases hrecord with heq | ⟨hnew, hactive⟩
      · rw [heq] at hfork hsame
        exact .inl ⟨hfork, hsame.base⟩
      · exact .inr ⟨status, b, pprev, rfl, hfork.trans hnew, hsame.base ▸ hactive⟩

/-- Every step of a run meets the condition. -/
def QuietRun : ForkWarning → List Action → Prop
  | _, [] => True
  | s, a :: actions => s.QuietStep a ∧ ∀ s', s.step a = .ok s' → QuietRun s' actions

theorem Inv.run_error_iff (h : Inv s) (actions : List Action) :
    (∀ e, s.run actions = .error e → e = .invalidChainLog) ↔ s.QuietRun actions := by
  induction actions generalizing s with
  | nil => exact iff_of_true nofun trivial
  | cons a actions ih =>
    obtain ⟨hquiet, hloud⟩ := h.step a
    rw [QuietRun, ForkWarning.run]
    by_cases hstep : s.QuietStep a
    · rcases hquiet hstep with herror | ⟨s', hok, hmoves⟩
      · rw [herror]
        refine iff_of_true (fun e he ↦ (Except.error.inj he).symm) ⟨hstep, nofun⟩
      · rw [hok]
        simp only [hstep, true_and, Except.ok.injEq, forall_eq']
        exact ih hmoves.inv
    · rw [hloud hstep]
      exact iff_of_false (fun he ↦ absurd (he _ rfl) (by decide)) fun hq ↦ hstep hq.1

theorem run_append (actions : List Action) (a : Action) :
    s.run (actions ++ [a]) = (s.run actions).bind fun s ↦ s.step a := by
  induction actions generalizing s with
  | nil =>
    rw [List.nil_append, ForkWarning.run, ForkWarning.run, Except.bind]
    cases s.step a <;> rfl
  | cons b actions ih =>
    rw [List.cons_append, ForkWarning.run, ForkWarning.run]
    cases s.step b with
    | error => rfl
    | ok => exact ih

theorem inv_init (chainActive pindexBestInvalid : ChainIndex) :
    Inv (init chainActive pindexBestInvalid) where
  fork := fun h ↦ absurd rfl h
  flag := nofun

/-- A fork was recorded in a state of the run in which its base was on the active chain. -/
theorem run_recorded {chainActive pindexBestInvalid : ChainIndex} (actions : List Action)
    (hrun : (init chainActive pindexBestInvalid).run actions = .ok s) :
    Inv s ∧ (s.pindexBestForkTip ≠ [] → ∃ before status b pprev later s₁,
      actions = before ++ .addToBlockIndex status b pprev :: later ∧
        (init chainActive pindexBestInvalid).run before = .ok s₁ ∧
        s.pindexBestForkTip = b :: pprev ∧ s.pindexBestForkBase <:+ s₁.chainActive) := by
  induction actions using List.reverseRecOn generalizing s with
  | nil =>
    rw [ForkWarning.run, Except.ok.injEq] at hrun
    subst hrun
    exact ⟨inv_init _ _, fun h ↦ absurd rfl h⟩
  | append_singleton actions a ih =>
    rw [run_append] at hrun
    cases hbefore : (init chainActive pindexBestInvalid).run actions with
    | error => rw [hbefore] at hrun; cases hrun
    | ok s₁ =>
      rw [hbefore] at hrun
      change s₁.step a = .ok s at hrun
      obtain ⟨hinv, hhistory⟩ := ih hbefore
      obtain ⟨hquiet, hloud⟩ := hinv.step a
      have hmoves : Moves s₁ a s := by
        by_cases hstep : s₁.QuietStep a
        · rcases hquiet hstep with herror | ⟨s', hok, hmoves⟩
          · rw [herror] at hrun
            cases hrun
          · rw [hok, Except.ok.injEq] at hrun
            exact hrun ▸ hmoves
        · rw [hloud hstep] at hrun
          cases hrun
      refine ⟨hmoves.inv, fun hne ↦ ?_⟩
      rcases hmoves.fork hne with ⟨htip, hbase⟩ | ⟨status, b, pprev, rfl, htip, hactive⟩
      · obtain ⟨before, status, b, pprev, later, s₂, rfl, hrun₂, htip₂, hactive₂⟩ :=
          hhistory (htip ▸ hne)
        refine ⟨before, status, b, pprev, later ++ [a], s₂, ?_, hrun₂, htip.trans htip₂,
          hbase ▸ hactive₂⟩
        rw [List.append_assoc, List.cons_append]
      · exact ⟨actions, status, b, pprev, [], s₁, rfl, hbefore, htip, hactive⟩

/-- The bookkeeping of forks. The two functions dereference no null pointer in exactly the runs in
which, past the initial download and before the first fork is recorded, no invalid chain overtakes
the active one by 30 blocks; and in every run a fork that is recorded has a base, an ancestor of it
that was on the active chain when it was recorded. -/
theorem forkWarning_safe_iff (chainActive pindexBestInvalid : ChainIndex) (actions : List Action) :
    ((∀ e, (init chainActive pindexBestInvalid).run actions = .error e → e = .invalidChainLog) ↔
        (init chainActive pindexBestInvalid).QuietRun actions) ∧
      ∀ s, (init chainActive pindexBestInvalid).run actions = .ok s → s.pindexBestForkTip ≠ [] →
        s.pindexBestForkBase ≠ [] ∧ s.pindexBestForkBase <:+ s.pindexBestForkTip ∧
          ∃ before status b pprev later s₁,
            actions = before ++ .addToBlockIndex status b pprev :: later ∧
              (init chainActive pindexBestInvalid).run before = .ok s₁ ∧
              s.pindexBestForkTip = b :: pprev ∧ s.pindexBestForkBase <:+ s₁.chainActive := by
  refine ⟨(inv_init _ _).run_error_iff actions, fun s hrun hne ↦ ?_⟩
  obtain ⟨hinv, hhistory⟩ := run_recorded actions hrun
  obtain ⟨hbase, hancestor⟩ := hinv.fork hne
  exact ⟨hbase, hancestor, hhistory hne⟩

/-- A chain of blocks of the difficulty of the genesis block. -/
def plainChain : Nat → ChainIndex
  | 0 => []
  | n + 1 => ⟨BitVec.ofNat 256 n, 1, BitVec.ofNat 32 n, 0x1d00ffff, 0, 0⟩ :: plainChain n

/-- The active chain has been disconnected down to the point where a chain of 31 blocks leaves it,
the first of which has turned out invalid. -/
theorem invalid_chain_null_base :
    (init (plainChain 1) []).run
      [.invalidChainFound {} ⟨31, 1, 31, 0x1d00ffff, 0, 0⟩ (plainChain 31)] =
        .error .forkBase := by
  decide

end ForkWarning

end Bitmark
