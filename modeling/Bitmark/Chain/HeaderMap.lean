import Bitmark.Chain.Retarget
import Bitmark.Chain.Subsidy

/-!
# Rewriting index entries

Most functions on the block index read only what a block header says: version, time and bits.
They commute with every change of the other fields, the recorded money supply and the cached
scaling factor among them.
-/

namespace Bitmark

/-- A change of index entries that keeps version, time and bits. -/
structure HeaderMap where
  toFun : CBlockIndex → CBlockIndex
  nVersion_eq : ∀ b, (toFun b).nVersion = b.nVersion
  nTime_eq : ∀ b, (toFun b).nTime = b.nTime
  nBits_eq : ∀ b, (toFun b).nBits = b.nBits

namespace HeaderMap

variable (f : HeaderMap)

/-- The change of every entry of a chain. -/
def apply (p : ChainIndex) : ChainIndex := p.map f.toFun

@[simp] theorem apply_nil : f.apply [] = [] := rfl

@[simp] theorem apply_cons (b : CBlockIndex) (p : ChainIndex) :
    f.apply (b :: p) = f.toFun b :: f.apply p := rfl

@[simp] theorem length_apply (p : ChainIndex) : (f.apply p).length = p.length := List.length_map _

@[simp] theorem isEmpty_apply (p : ChainIndex) : (f.apply p).isEmpty = p.isEmpty := by
  cases p <;> rfl

@[simp] theorem tail_apply (p : ChainIndex) : (f.apply p).tail = f.apply p.tail := by
  cases p <;> rfl

/-! ### Fork and algorithm -/

theorem superMajorityLoop_apply (minVersion nRequired i nFound : Nat) (p : ChainIndex) :
    superMajorityLoop minVersion nRequired i nFound (f.apply p) =
      superMajorityLoop minVersion nRequired i nFound p := by
  induction i generalizing nFound p with
  | zero => rfl
  | succ i ih =>
    cases p with
    | nil => rfl
    | cons b p => simp only [apply_cons, superMajorityLoop, f.nVersion_eq, ih]

@[simp] theorem isSuperMajority_apply (minVersion nRequired nToCheck : Nat) (p : ChainIndex) :
    isSuperMajority minVersion (f.apply p) nRequired nToCheck =
      isSuperMajority minVersion p nRequired nToCheck := by
  rw [isSuperMajority, isSuperMajority, superMajorityLoop_apply]

@[simp] theorem onFork_apply (p : ChainIndex) : onFork (f.apply p) = onFork p := by
  cases p <;> simp [onFork]

theorem prevOfAlgo_apply (algo : Algo) (p : ChainIndex) :
    prevOfAlgo algo (f.apply p) = f.apply (prevOfAlgo algo p) := by
  induction p with
  | nil => rfl
  | cons b p ih =>
    have hfork := f.onFork_apply (b :: p)
    rw [apply_cons] at hfork
    simp only [apply_cons, prevOfAlgo, f.nVersion_eq, hfork, ih]
    split <;> [split; skip] <;> rfl

@[simp] theorem getPprevAlgo_apply (p : ChainIndex) (useAlgo : Option Algo) :
    getPprevAlgo (f.apply p) useAlgo = f.apply (getPprevAlgo p useAlgo) := by
  cases p with
  | nil => rfl
  | cons b p =>
    have hfork := f.onFork_apply (b :: p)
    rw [apply_cons] at hfork
    simp only [apply_cons, getPprevAlgo, hfork, prevOfAlgo_apply, f.nVersion_eq]
    split <;> rfl

theorem medianTimes_apply (i : Nat) (wasOnFork : Bool) (p : ChainIndex) :
    medianTimes i wasOnFork (f.apply p) = medianTimes i wasOnFork p := by
  induction i generalizing wasOnFork p with
  | zero => rfl
  | succ i ih =>
    cases p with
    | nil => rfl
    | cons b p =>
      have hfork := f.onFork_apply (b :: p)
      rw [apply_cons] at hfork
      simp only [apply_cons, medianTimes, f.nTime_eq, hfork, ih]

@[simp] theorem getMedianTimePast_apply (p : ChainIndex) :
    getMedianTimePast (f.apply p) = getMedianTimePast p := by
  rw [getMedianTimePast, getMedianTimePast, medianTimes_apply]

theorem getBlockWorkBoost_toFun (b : CBlockIndex) :
    (f.toFun b).getBlockWorkBoost = b.getBlockWorkBoost := by
  simp only [CBlockIndex.getBlockWorkBoost, f.nBits_eq, f.nVersion_eq]

/-! ### The subsidy scaling factor -/

theorem ssfPeriod_apply (j : Nat) (p : ChainIndex) (hashes timeI : Nat) :
    ssfPeriod j (f.apply p) hashes timeI =
      (f.apply (ssfPeriod j p hashes timeI).1, (ssfPeriod j p hashes timeI).2) := by
  induction j generalizing p hashes timeI with
  | zero => rfl
  | succ j ih =>
    rw [ssfPeriod, ssfPeriod, getPprevAlgo_apply]
    cases getPprevAlgo p with
    | nil => rfl
    | cons b rest =>
      have htime := f.getMedianTimePast_apply (b :: rest)
      rw [apply_cons] at htime
      simp only [apply_cons, getBlockWorkBoost_toFun, htime]
      exact ih (b :: rest) _ _

theorem preForkTime_apply (p : ChainIndex) : preForkTime (f.apply p) = preForkTime p := by
  induction p with
  | nil => rfl
  | cons b p ih =>
    have hfork := f.onFork_apply (b :: p)
    rw [apply_cons] at hfork
    simp only [apply_cons, preForkTime, hfork, ih, f.nTime_eq]

theorem ssfTimeI_apply (p : ChainIndex) (timeI : Nat) :
    ssfTimeI (f.apply p) timeI = ssfTimeI p timeI := by
  rw [ssfTimeI, ssfTimeI, getPprevAlgo_apply, preForkTime_apply]
  cases getPprevAlgo p with
  | nil => rfl
  | cons b rest => exact f.getMedianTimePast_apply (b :: rest)

theorem ssfRates_apply (i : Nat) (first : Bool) (p : ChainIndex) (peak cur : Nat) :
    ssfRates i first (f.apply p) peak cur = ssfRates i first p peak cur := by
  induction i generalizing first p peak cur with
  | zero => rfl
  | succ i ih =>
    rw [ssfRates, ssfRates, getPprevAlgo_apply]
    cases getPprevAlgo p with
    | nil => rfl
    | cons b rest =>
      have hperiod := f.ssfPeriod_apply (nSSF - 1) (b :: rest) b.getBlockWorkBoost 0
      have htime := f.getMedianTimePast_apply (b :: rest)
      rw [apply_cons] at hperiod htime
      simp only [apply_cons, getBlockWorkBoost_toFun, hperiod, htime, ssfTimeI_apply, ih]

@[simp] theorem getSsf_apply (p : ChainIndex) : getSsf (f.apply p) = getSsf p := by
  rw [getSsf, getSsf, ssfRates_apply]

@[simp] theorem keyBlock_apply (p : ChainIndex) : keyBlock (f.apply p) = f.apply (keyBlock p) := by
  induction p using keyBlock.induct with
  | case1 => simp [keyBlock]
  | case2 b pprev hflag =>
    rw [apply_cons, keyBlock, keyBlock, f.nVersion_eq, if_pos hflag, if_pos hflag, apply_cons]
  | case3 b pprev hflag ih =>
    have hstep := f.getPprevAlgo_apply (b :: pprev) none
    rw [apply_cons] at hstep
    rw [apply_cons, keyBlock, keyBlock, f.nVersion_eq, if_neg hflag, if_neg hflag, hstep, ih]

@[simp] theorem keyFactor_apply (p : ChainIndex) : keyFactor (f.apply p) = keyFactor p := by
  rw [keyFactor, keyFactor, keyBlock_apply]
  cases keyBlock p with
  | nil => rfl
  | cons b rest => exact congrArg some (f.getSsf_apply (b :: rest))

/-! ### Retargeting -/

theorem gravityWave_loop_apply (algo : Algo) (s : GravityWave) (p : ChainIndex) :
    GravityWave.loop algo s (f.apply p) =
      ((GravityWave.loop algo s p).1, f.apply (GravityWave.loop algo s p).2) := by
  induction p generalizing s with
  | nil => rfl
  | cons b p ih =>
    have hfork := f.onFork_apply (b :: p)
    have htime := f.getMedianTimePast_apply (b :: p)
    rw [apply_cons] at hfork htime
    have hbefore : ∀ s : GravityWave, s.beforeFork (f.toFun b) = s.beforeFork b := by
      intro s
      simp only [GravityWave.beforeFork, f.nTime_eq]
    have hsame : ∀ (s : GravityWave) (t : Int), s.sameAlgo (f.toFun b) t = s.sameAlgo b t := by
      intro s t
      simp only [GravityWave.sameAlgo, f.nBits_eq]
    simp only [apply_cons, GravityWave.loop, length_apply, hfork, htime, hbefore, hsame,
      f.nVersion_eq, isEmpty_apply, ih]
    split_ifs <;> rfl

theorem gravityWave_pastInRow_apply (algo : Algo) (p : ChainIndex) :
    GravityWave.pastInRow algo (f.apply p) = GravityWave.pastInRow algo p := by
  induction p with
  | nil => rfl
  | cons b p ih =>
    have hfork := f.onFork_apply (b :: p)
    rw [apply_cons] at hfork
    simp only [apply_cons, GravityWave.pastInRow, f.nVersion_eq, hfork, ih]

theorem headBits_apply (p : ChainIndex) :
    (f.apply p).head?.map (·.nBits) = p.head?.map (·.nBits) := by
  cases p with
  | nil => rfl
  | cons b p => simp [f.nBits_eq]

variable (params : CChainParams)

theorem darkGravityWave_apply (p : ChainIndex) (algo : Algo) :
    darkGravityWave params (f.apply p) algo = darkGravityWave params p algo := by
  simp only [darkGravityWave, length_apply, gravityWave_loop_apply, tail_apply,
    gravityWave_pastInRow_apply, headBits_apply]

theorem preForkWork_apply (p : ChainIndex) :
    preForkWork params (f.apply p) = preForkWork params p := by
  cases p with
  | nil => rfl
  | cons b p =>
    have hfirst : ((f.apply (b :: p))[nInterval - 1]?.getD (f.toFun b)).nTime =
        ((b :: p)[nInterval - 1]?.getD b).nTime := by
      rw [apply, List.getElem?_map]
      cases (b :: p)[nInterval - 1]? with
      | none => exact f.nTime_eq b
      | some c => exact f.nTime_eq c
    rw [apply_cons] at hfirst
    simp only [apply_cons, preForkWork, length_apply, isEmpty_apply, f.nBits_eq, f.nTime_eq, hfirst]

@[simp] theorem getNextWorkRequired_apply (p : ChainIndex) (algo : Algo) :
    getNextWorkRequired params (f.apply p) algo = getNextWorkRequired params p algo := by
  simp only [getNextWorkRequired, length_apply, isSuperMajority_apply, preForkWork_apply,
    darkGravityWave_apply]

end HeaderMap

end Bitmark
