import Bitmark.Chain.Index

/-!
# Block values

`GetBlockValue` and the subsidy scaling factor, `src/main.cpp:1214–1392` and `4989–5069`.
The subsidy follows the height before the fork and the coins emitted so far after it; on the
fork it is lowered by a factor computed from the hash rate of the algorithm.
-/

namespace Bitmark

/-- `get_mpow_ms_correction`, `src/main.cpp:4989`: the share of one algorithm in the money
supply of the last ancestor before the fork. -/
def mpowMsCorrectionFrom : ChainIndex → Int
  | [] => 0
  | b :: pprev =>
    if onFork (b :: pprev) then mpowMsCorrectionFrom pprev
    else if pprev.length = 0 then 2000000000 / 8
    else b.nMoneySupply.tdiv 8

@[inherit_doc mpowMsCorrectionFrom]
def getMpowMsCorrection (p : ChainIndex) : Int := mpowMsCorrectionFrom p.tail

/-! ### The subsidy scaling factor -/

/-- The inner loop of `get_ssf`, `src/main.cpp:5024`: it adds up the work of one period and
keeps the time of its last block. -/
def ssfPeriod : Nat → ChainIndex → Nat → Nat → ChainIndex × Nat × Nat
  | 0, pprevAlgo, hashes, timeI => (pprevAlgo, hashes, timeI)
  | j + 1, pprevAlgo, hashes, timeI =>
    match getPprevAlgo pprevAlgo with
    | [] => ([], 0, timeI)
    | b :: rest =>
      ssfPeriod j (b :: rest) (hashes + b.getBlockWorkBoost) (getMedianTimePast (b :: rest))

/-- The time of the last block before the fork, `src/main.cpp:5038`; `none` without one. -/
def preForkTime : ChainIndex → Option Nat
  | [] => none
  | b :: pprev => if onFork (b :: pprev) then preForkTime pprev else some b.nTime.toNat

/-- The start of a period, `src/main.cpp:5033–5043`. -/
def ssfTimeI (pprevAlgo : ChainIndex) (timeI : Nat) : Nat :=
  match getPprevAlgo pprevAlgo with
  | b :: rest => getMedianTimePast (b :: rest)
  | [] => (preForkTime pprevAlgo).getD timeI

/-- The outer loop of `get_ssf`, `src/main.cpp:5015`: `none` when a period has no duration, in
which case the factor is zero; otherwise the peak rate and the rate of the first period. -/
def ssfRates : Nat → Bool → ChainIndex → Nat → Nat → Option (Nat × Nat)
  | 0, _, _, peak, cur => some (peak, cur)
  | i + 1, first, pprevAlgo, peak, cur =>
    match getPprevAlgo pprevAlgo with
    | [] => some (peak, cur)
    | b :: rest =>
      let (pprevAlgo, hashes, timeI) := ssfPeriod (nSSF - 1) (b :: rest) b.getBlockWorkBoost 0
      let timeF := getMedianTimePast (b :: rest)
      let timeI := ssfTimeI pprevAlgo timeI
      if timeI < timeF then
        let rate := hashes * 100000000 / (timeF - timeI)
        ssfRates i false pprevAlgo (if peak < rate then rate else peak) (if first then rate else cur)
      else none

/-- The factor for a peak and a current rate, `src/main.cpp:5055–5065`: the exact quotient is
cut to 64 bits at most and then to its low 32 bits. -/
def ssfOfRates (peak cur : Nat) : Nat :=
  if 0 < peak ∧ cur ≠ peak then
    toUint32 (min (100000000 * peak / (peak - cur)) (2 ^ 64 - 1))
  else 0

/-- `get_ssf`, `src/main.cpp:5008`; its `onFork2` branch is never taken. -/
def getSsf (pindex : ChainIndex) : Nat :=
  match ssfRates 365 true pindex 0 0 with
  | some (peak, cur) => ssfOfRates peak cur
  | none => 0

/-- The block from which `GetBlockValue` recomputes a missing factor: the nearest block of the
algorithm, the block itself included, that carries the update flag. -/
def keyBlock (p : ChainIndex) : ChainIndex :=
  match _h : p with
  | [] => []
  | b :: pprev =>
    if updateSsf b.nVersion then b :: pprev
    else keyBlock (getPprevAlgo (b :: pprev))
  termination_by p.length
  decreasing_by
    subst _h
    exact length_getPprevAlgo_lt (by simp) none

/-- The factor of the key block. -/
def keyFactor (pindex : ChainIndex) : Option Nat :=
  match keyBlock pindex with
  | [] => none
  | key => some (getSsf key)

/-- The factor `GetBlockValue` uses on the fork, and leaves in the index entry: the stored one
unless its low 32 bits are zero. -/
def scalingFactor (pindex : ChainIndex) : Nat :=
  match pindex with
  | [] => 0
  | b :: _ =>
    if toUint32 b.subsidyScalingFactor ≠ 0 then b.subsidyScalingFactor
    else (keyFactor pindex).getD b.subsidyScalingFactor

/-! ### The emission schedule -/

/-- The emission stages, `src/main.cpp:1273–1380`: eight times the supply of the algorithm and
the base reward below it. -/
def emissionStages : List (Nat × Int) :=
  [(788000000000000, 2000000000), (1379000000000000, 1500000000), (1773000000000000, 1000000000),
    (2068500000000000, 750000000), (2265500000000000, 500000000), (2413250000000000, 375000000),
    (2511750000000000, 250000000), (2585625000000000, 187500000), (2634875000000000, 125000000),
    (2671812500000000, 93750000), (2696437500000000, 62500000), (2714906250000000, 46875000),
    (2727218750000000, 31250000), (2736453125000000, 23437500), (2742609375000000, 15625000),
    (2747226562500000, 11718750), (2750304687500000, 7812500), (2752613281250000, 5859375),
    (2754152343750000, 3906250), (2755306640428000, 2929687), (2756076171284000, 1953124),
    (2756653319426000, 1464843), (2757038084854000, 976562), (2757326658728000, 732421),
    (2757519041048000, 488280), (2757663327788000, 366210), (2757759518948000, 244140),
    (2757831662318000, 183105), (2757879757898000, 122070), (2757915829386000, 91552),
    (2757939876782000, 61034), (2757957912132000, 45775), (2757969935436000, 30516),
    (2757978952914000, 22887), (2757984964566000, 15258)]

/-- The base reward for an amount emitted: that of the first stage not yet passed, or nothing. -/
def stageSubsidy : List (Nat × Int) → Nat → Int
  | [], _ => 0
  | (limit, subsidy) :: stages, emitted =>
    if emitted < limit then subsidy else stageSubsidy stages emitted

/-- The supply of the algorithm before this block: that of its last block, or its share of the
supply before the fork. -/
def prevMoneySupply (pindex : ChainIndex) : Int :=
  match getPprevAlgo pindex with
  | b :: _ => b.nMoneySupply
  | [] => getMpowMsCorrection pindex

/-- `emitted` of `GetBlockValue`, as a 64-bit product assigned to a `uint256`. -/
def emitted (pindex : ChainIndex) : Nat := toUint64 (8 * prevMoneySupply pindex)

variable (params : CChainParams)

/-- `baseSubsidy` of `GetBlockValue` on the fork. -/
def baseSubsidy (pindex : ChainIndex) : Int :=
  if params.networkID = .regtest then 1500000000
  else stageSubsidy emissionStages (emitted pindex)

/-- The reduced subsidy, `src/main.cpp:1391`: the quotient is cut to 32 bits and halved. -/
def scaledSubsidy (base : Int) (factor : Nat) : Int :=
  if toUint32 factor = 0 then base
  else base - (toUint32 (base.toNat * 100000000 / factor) / 2 : Nat)

/-- The subsidy before the fork, `src/main.cpp:1220–1234`. -/
def preForkSubsidy (nHeight : Nat) : Int :=
  let nHalfReward : Nat := 1000000000
  let halvings := nHeight / params.nSubsidyHalvingInterval
  if 18 ≤ halvings then 0
  else
    ((nHalfReward >>> halvings + nHalfReward >>>
      ((nHeight + params.subsidyInterimInterval) / params.nSubsidyHalvingInterval) : Nat) : Int)

/-- The subsidy of a block, without fees. -/
def subsidy (pindex : ChainIndex) (noScale : Bool) : Int :=
  if onFork pindex then
    scaledSubsidy (baseSubsidy params pindex) (if noScale then 0 else scalingFactor pindex)
  else preForkSubsidy params (pindex.length - 1)

/-- `GetBlockValue`, `src/main.cpp:1214`. -/
def getBlockValue (pindex : ChainIndex) (nFees : Int) (noScale : Bool := false) : Int :=
  toInt64 (nFees + subsidy params pindex noScale)

/-- The index entry after `GetBlockValue`, which keeps the factor it recomputed. -/
def cacheScalingFactor (pindex : ChainIndex) : ChainIndex :=
  match pindex with
  | [] => []
  | b :: pprev =>
    if onFork pindex then { b with subsidyScalingFactor := scalingFactor pindex } :: pprev
    else pindex

/-! ### What a block value depends on -/

/-- A walk along an algorithm reads only the version of the entry it starts from. -/
theorem getPprevAlgo_head {b b' : CBlockIndex} (h : b.nVersion = b'.nVersion) (pprev : ChainIndex)
    (useAlgo : Option Algo) :
    getPprevAlgo (b :: pprev) useAlgo = getPprevAlgo (b' :: pprev) useAlgo := by
  simp only [getPprevAlgo, h]
  rfl

theorem getSsf_head {b b' : CBlockIndex} (h : b.nVersion = b'.nVersion) (pprev : ChainIndex) :
    getSsf (b :: pprev) = getSsf (b' :: pprev) := by
  rw [getSsf, getSsf, ssfRates, ssfRates, getPprevAlgo_head h]

theorem keyFactor_head {b b' : CBlockIndex} (h : b.nVersion = b'.nVersion) (pprev : ChainIndex) :
    keyFactor (b :: pprev) = keyFactor (b' :: pprev) := by
  rw [keyFactor, keyFactor, keyBlock, keyBlock, ← h, getPprevAlgo_head h]
  by_cases hflag : updateSsf b.nVersion = true
  · simp only [hflag, if_true, getSsf_head h]
  · simp only [hflag, if_false, Bool.false_eq_true]

theorem scalingFactor_head {b b' : CBlockIndex} (hv : b.nVersion = b'.nVersion)
    (hf : b.subsidyScalingFactor = b'.subsidyScalingFactor) (pprev : ChainIndex) :
    scalingFactor (b :: pprev) = scalingFactor (b' :: pprev) := by
  simp only [scalingFactor, hf, keyFactor_head hv]

/-- A block value reads only the version and the scaling factor of the entry it is for. -/
theorem subsidy_head {b b' : CBlockIndex} {pprev : ChainIndex} (hv : b.nVersion = b'.nVersion)
    (hf : scalingFactor (b :: pprev) = scalingFactor (b' :: pprev)) (noScale : Bool) :
    subsidy params (b :: pprev) noScale = subsidy params (b' :: pprev) noScale := by
  have hbase : baseSubsidy params (b :: pprev) = baseSubsidy params (b' :: pprev) := by
    simp only [baseSubsidy, emitted, prevMoneySupply, getPprevAlgo_head hv, getMpowMsCorrection,
      List.tail_cons]
  simp only [subsidy, hbase, hf, List.length_cons]
  rfl

/-- The cached factor is the one `GetBlockValue` finds again. -/
theorem scalingFactor_cached (b : CBlockIndex) (pprev : ChainIndex) :
    scalingFactor ({ b with subsidyScalingFactor := scalingFactor (b :: pprev) } :: pprev) =
      scalingFactor (b :: pprev) := by
  have hkey : keyFactor ({ b with subsidyScalingFactor := scalingFactor (b :: pprev) } :: pprev) =
      keyFactor (b :: pprev) := by
    refine keyFactor_head ?_ pprev
    rfl
  rw [scalingFactor, hkey]
  by_cases hb : toUint32 b.subsidyScalingFactor = 0
  · cases hk : keyFactor (b :: pprev) <;> simp [scalingFactor, hb, hk]
  · simp [scalingFactor, hb]

/-- Keeping the factor changes no subsidy. -/
theorem subsidy_cacheScalingFactor (pindex : ChainIndex) :
    subsidy params (cacheScalingFactor pindex) false = subsidy params pindex false := by
  cases pindex with
  | nil => rfl
  | cons b pprev =>
    unfold cacheScalingFactor
    simp only
    split
    · refine subsidy_head params ?_ ?_ false
      · rfl
      · exact scalingFactor_cached b pprev
    · rfl

/-- The base reward of a stage is one of the 35 rewards, or nothing. -/
theorem baseSubsidy_range (pindex : ChainIndex) :
    0 ≤ baseSubsidy params pindex ∧ baseSubsidy params pindex ≤ 2000000000 := by
  have hstages : ∀ (stages : List (Nat × Int)) (n : Nat),
      (∀ s ∈ stages, 0 ≤ s.2 ∧ s.2 ≤ 2000000000) →
      0 ≤ stageSubsidy stages n ∧ stageSubsidy stages n ≤ 2000000000 := by
    intro stages n h
    induction stages with
    | nil => simp [stageSubsidy]
    | cons s stages ih =>
      rw [List.forall_mem_cons] at h
      rw [stageSubsidy]
      split
      · exact h.1
      · exact ih h.2
  unfold baseSubsidy
  split
  · decide
  · exact hstages _ _ (by decide)

private theorem mpowMsCorrectionFrom_range {p : ChainIndex} {m : Int} (hm : 250000000 ≤ m)
    (h : ∀ e ∈ p, 0 ≤ e.nMoneySupply ∧ e.nMoneySupply ≤ m) :
    0 ≤ mpowMsCorrectionFrom p ∧ mpowMsCorrectionFrom p ≤ m := by
  induction p with
  | nil => exact ⟨le_rfl, by rw [mpowMsCorrectionFrom]; omega⟩
  | cons b p ih =>
    rw [List.forall_mem_cons] at h
    rw [mpowMsCorrectionFrom]
    split
    · exact ih h.2
    · split
      · omega
      · rw [Int.tdiv_eq_ediv_of_nonneg h.1.1]
        omega

/-- The supply before a block is in the range of the recorded supplies. -/
theorem prevMoneySupply_range {b : CBlockIndex} {p : ChainIndex} {m : Int} (hm : 250000000 ≤ m)
    (h : ∀ e ∈ p, 0 ≤ e.nMoneySupply ∧ e.nMoneySupply ≤ m) :
    0 ≤ prevMoneySupply (b :: p) ∧ prevMoneySupply (b :: p) ≤ m := by
  have hsuf := getPprevAlgo_suffix b p none
  unfold prevMoneySupply
  split
  · next c rest hprev =>
    rw [hprev] at hsuf
    exact h c (hsuf.subset List.mem_cons_self)
  · exact mpowMsCorrectionFrom_range hm h

private theorem scaledSubsidy_range {base : Int} (h : 0 ≤ base ∧ base ≤ 2000000000)
    (factor : Nat) : -2 ^ 31 ≤ scaledSubsidy base factor ∧ scaledSubsidy base factor ≤ base := by
  unfold scaledSubsidy toUint32
  split
  · omega
  · have hcut := Nat.mod_lt (base.toNat * 100000000 / factor) (show 0 < 2 ^ 32 by decide)
    generalize base.toNat * 100000000 / factor % 2 ^ 32 = x at hcut ⊢
    omega

/-- Before the fork the subsidy is nonnegative and at most 20 coins. -/
theorem preForkSubsidy_range (nHeight : Nat) :
    0 ≤ preForkSubsidy params nHeight ∧ preForkSubsidy params nHeight ≤ 2000000000 := by
  have hhalf : ∀ k, 1000000000 >>> k ≤ 1000000000 := fun k ↦ Nat.shiftRight_le _ _
  unfold preForkSubsidy
  simp only
  split
  · decide
  · have h1 := hhalf (nHeight / params.nSubsidyHalvingInterval)
    have h2 := hhalf ((nHeight + params.subsidyInterimInterval) / params.nSubsidyHalvingInterval)
    generalize 1000000000 >>> (nHeight / params.nSubsidyHalvingInterval) = x at h1 ⊢
    generalize 1000000000 >>> _ = y at h2 ⊢
    omega

/-- A subsidy is at most 20 coins, and at least what a 32-bit reduction leaves. -/
theorem subsidy_range (pindex : ChainIndex) (noScale : Bool) :
    -2 ^ 31 ≤ subsidy params pindex noScale ∧ subsidy params pindex noScale ≤ 2000000000 := by
  have hbase := baseSubsidy_range params pindex
  unfold subsidy
  split
  · have hscaled := scaledSubsidy_range hbase (if noScale then 0 else scalingFactor pindex)
    omega
  · have hpre := preForkSubsidy_range params (pindex.length - 1)
    omega

/-- `GetBlockValue` without fees is the subsidy. -/
theorem getBlockValue_zero (pindex : ChainIndex) :
    getBlockValue params pindex 0 = subsidy params pindex false := by
  have h := subsidy_range params pindex false
  rw [getBlockValue, zero_add]
  exact toInt64_of_range (by omega) (by omega)

/-- With nonnegative fees `GetBlockValue` never gives more than their sum with the subsidy. -/
theorem getBlockValue_le {pindex : ChainIndex} {nFees : Int} (h : 0 ≤ nFees) :
    getBlockValue params pindex nFees ≤ nFees + subsidy params pindex false := by
  have hs := subsidy_range params pindex false
  have hr := toInt64_range (nFees + subsidy params pindex false)
  obtain ⟨k, hk⟩ := toInt64_eq_sub (nFees + subsidy params pindex false)
  rw [getBlockValue]
  omega

end Bitmark
