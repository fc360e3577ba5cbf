import Bitmark.Chain.ScalingSpec
import Bitmark.Consensus.ForkActivation
import Bitmark.Consensus.ScalingFactor

/-!
# Bounds on the subsidy

On the fork the subsidy is the base reward less half of the base reward divided by the scaling
factor, where the factor stands for a quotient of hash rates in units of `10^-8`. The quotient is
at least `10^8`, but `get_ssf` (`src/main.cpp:5055`) keeps only its low 32 bits.
-/

namespace Bitmark

/-- Where the walk back from a block comes to an end, its peak rate is the current one, or far
enough above it: the quotient of the peak and the distance is below `2^32`. -/
def QuotientFits (key : ChainIndex) : Prop :=
  PeriodsPositive (ssfPeriods key) → incompleteOk (ssfIncomplete key) = true →
    curRate key = peakRate key ∨ 100000000 * peakRate key < 2 ^ 32 * (peakRate key - curRate key)

/-- A quotient that fits is not cut, and it is at least `10^8` because no rate is above the peak. -/
theorem QuotientFits.getSsf {key : ChainIndex} (h : QuotientFits key) :
    getSsf key = 0 ∨ 100000000 ≤ getSsf key ∧ getSsf key < 2 ^ 32 := by
  rw [getSsf_eq]
  split
  case isTrue hwalk =>
    by_cases heq : curRate key = peakRate key
    · exact .inl (if_neg fun hcond ↦ hcond.2 heq)
    · have hlt := (scalingSpec_lt_iff heq).mpr ((h hwalk.1 hwalk.2).resolve_left heq)
      rw [ssfOfRates_eq heq, Nat.min_eq_left (by omega), toUint32, Nat.mod_eq_of_lt hlt]
      exact .inr ⟨le_scalingSpec heq, hlt⟩
  case isFalse => exact .inl rfl

/-- The factor of a block, where the quotient at its key block fits. -/
theorem keyFactor_of_quotientFits {p : ChainIndex} (h : QuotientFits (keyBlock p)) :
    (keyFactor p).getD 0 = 0 ∨ 100000000 ≤ (keyFactor p).getD 0 ∧ (keyFactor p).getD 0 < 2 ^ 32 := by
  cases hkey : keyBlock p with
  | nil => simp [keyFactor, hkey]
  | cons b rest =>
    have hfactor : keyFactor p = some (getSsf (b :: rest)) := by simp [keyFactor, hkey]
    rw [hfactor, Option.getD_some]
    exact QuotientFits.getSsf (hkey ▸ h)

/-- A factor of `10^8` or more takes at most half of the base reward away. -/
theorem scaledSubsidy_bounds {base : Int} {factor : Nat}
    (hbase : 0 ≤ base ∧ base ≤ 2000000000)
    (hfactor : factor = 0 ∨ 100000000 ≤ factor ∧ factor < 2 ^ 32) :
    base ≤ 2 * scaledSubsidy base factor ∧ scaledSubsidy base factor ≤ base := by
  unfold scaledSubsidy
  rcases hfactor with rfl | ⟨hge, hlt⟩
  · have hzero : toUint32 0 = 0 := rfl
    rw [if_pos hzero]
    omega
  · have hword : toUint32 factor = factor := Nat.mod_eq_of_lt hlt
    rw [hword, if_neg (by omega)]
    have hquot : base.toNat * 100000000 / factor ≤ base.toNat :=
      Nat.div_le_of_le_mul (by rw [Nat.mul_comm]; exact Nat.mul_le_mul_right _ hge)
    have hcut : toUint32 (base.toNat * 100000000 / factor) = base.toNat * 100000000 / factor :=
      Nat.mod_eq_of_lt (by omega)
    rw [hcut]
    omega

/-- Before the last emission stage ends there is a base reward. -/
theorem stageSubsidy_pos {stages : List (Nat × Int)} (hpos : ∀ s ∈ stages, 0 < s.2) {n : Nat}
    (h : ∃ s ∈ stages, n < s.1) : 0 < stageSubsidy stages n := by
  induction stages with
  | nil => simp at h
  | cons s stages ih =>
    rw [List.forall_mem_cons] at hpos
    rw [stageSubsidy]
    split
    · exact hpos.1
    · next hn =>
      obtain ⟨t, ht, hlt⟩ := h
      rcases List.mem_cons.mp ht with rfl | ht
      · exact absurd hlt hn
      · exact ih hpos.2 ⟨t, ht, hlt⟩

/-- Eight times the supply of an algorithm at which emission ends. -/
def emissionCap : Int := 2757984964566000

theorem baseSubsidy_pos {params : CChainParams} {p : ChainIndex}
    (hlo : params.networkID ≠ .regtest → 0 ≤ prevMoneySupply p)
    (hhi : 8 * prevMoneySupply p < emissionCap) : 0 < baseSubsidy params p := by
  unfold baseSubsidy
  split
  case isTrue => decide
  case isFalse hpublic =>
    refine stageSubsidy_pos (by decide) ⟨(2757984964566000, 15258), by decide, ?_⟩
    rw [emissionCap] at hhi
    have hlo := hlo hpublic
    have hvalue := toUint64_of_nonneg (x := 8 * prevMoneySupply p) (by omega) (by omega)
    change toUint64 (8 * prevMoneySupply p) < 2757984964566000
    omega

/-- What the subsidy of a new block on the fork should satisfy: it is between one half of the base
reward and the base reward, and positive while emission goes on. -/
structure SubsidyInBounds (params : CChainParams) (pindex : ChainIndex) : Prop where
  half : baseSubsidy params pindex ≤ 2 * getBlockValue params (setScalingFactor pindex) 0
  full : getBlockValue params (setScalingFactor pindex) 0 ≤ baseSubsidy params pindex
  pos : 8 * prevMoneySupply pindex < emissionCap →
    0 < getBlockValue params (setScalingFactor pindex) 0

/-- The block value of a new block on the fork, from the factor of its key block. -/
theorem getBlockValue_setScalingFactor (params : CChainParams) {b : CBlockIndex} {p : ChainIndex}
    (hp : Coherent p) (hfork : onFork (b :: p) = true) (hnew : b.subsidyScalingFactor = 0) :
    getBlockValue params (setScalingFactor (b :: p)) 0 =
      scaledSubsidy (baseSubsidy params (b :: p)) ((keyFactor (b :: p)).getD 0) := by
  obtain ⟨factor, hset, -⟩ := setScalingFactor_coherent hp hfork hnew
  have hscale := scalingFactor_setScalingFactor hp hfork hnew
  have hon : onFork ({ b with subsidyScalingFactor := factor } :: p) = true := hfork
  have hbase : baseSubsidy params ({ b with subsidyScalingFactor := factor } :: p) =
      baseSubsidy params (b :: p) := by
    have hprev : getPprevAlgo ({ b with subsidyScalingFactor := factor } :: p) =
        getPprevAlgo (b :: p) := by
      refine getPprevAlgo_head ?_ p none
      rfl
    simp only [baseSubsidy, emitted, prevMoneySupply, hprev, getMpowMsCorrection, List.tail_cons]
  rw [getBlockValue_zero, hset, subsidy, if_pos hon, hbase, ← hset, hscale]
  rfl

/-- In an accepted chain every new block on the fork has its subsidy in bounds, where the rates at
its key block give a quotient that fits and, on the public networks, the recorded supply of its
algorithm is not negative. -/
theorem AcceptedChain.subsidyInBounds {H : Hashes} {params : CChainParams} {p : ChainIndex}
    {view : CCoinsViewCache} {issued : List Int} (h : AcceptedChain H params p view issued)
    {b : CBlockIndex} (hnew : b.subsidyScalingFactor = 0) (hfork : onFork (b :: p) = true)
    (hrates : QuotientFits (keyBlock (b :: p)))
    (hsupply : params.networkID ≠ .regtest → 0 ≤ prevMoneySupply (b :: p)) :
    SubsidyInBounds params (b :: p) := by
  have hvalue := getBlockValue_setScalingFactor params h.coherent hfork hnew
  have hbase := baseSubsidy_range params (b :: p)
  have hbounds := scaledSubsidy_bounds hbase (keyFactor_of_quotientFits hrates)
  rw [← hvalue] at hbounds
  refine ⟨hbounds.1, hbounds.2, fun hcap ↦ ?_⟩
  have hpos := baseSubsidy_pos hsupply hcap
  omega

/-! ### Two chains -/

/-- Blocks of version 4 before and on the fork: ninety intervals in 420 time units behind the
fork, and the next ninety in 430. -/
def slowingDown (h : Nat) : Mined where
  nVersion := 4
  nTime := BitVec.ofNat 32 (if h < 200 then h + 1
    else 4 * h - 596 + (if 250 ≤ h then 80 else 0) + if 320 ≤ h then 70 else 0)

/-- A block that updates the factor on top of them. -/
def updateBlock : CBlockIndex := ⟨0, 0x1004, 2000, 0x207fffff, 0, 0⟩

private theorem exists_updatable {m : Nat → Mined} {n : Nat} (hn : n < 2 ^ 31)
    (hplan : Plan minerParams 0x207fffff m n) : ∃ p view issued,
    AcceptedChain minerHashes minerParams p view issued ∧ Unflagged p ∧
      headerOnly.apply (updateBlock :: p) = updateBlock :: planned 0x207fffff m (n + 1) ∧
      0 ≤ prevMoneySupply (updateBlock :: p) := by
  obtain ⟨p, view, issued, hp⟩ := hplan.exists_planned rfl hn
  have hclaims := hplan.claims_nonneg
  refine ⟨p, view, issued, hp.accepted, hp.unflagged, ?_, ?_⟩
  · rw [HeaderMap.apply_cons, hp.headers]
    rfl
  · exact (prevMoneySupply_range (by omega) hp.supply).1

/-- `subsidyInBounds` for the first update of a chain with equal intervals, whose older period is
a little shorter because it counts from the last block before the fork. -/
theorem subsidyInBounds_stayingOnFork : ∃ p view issued,
    AcceptedChain minerHashes minerParams p view issued ∧
      peakRate (updateBlock :: p) = 1694117647058 ∧ curRate (updateBlock :: p) = 1600000000000 ∧
      SubsidyInBounds minerParams (updateBlock :: p) := by
  obtain ⟨p, view, issued, hp, -, hheaders, hsupply⟩ :=
    exists_updatable (by decide) (plan_stayingOnFork (n := 379) (by decide))
  have hfork : onFork (updateBlock :: p) = true := by
    rw [← headerOnly.onFork_apply, hheaders]
    decide +kernel
  have hrates : ssfRates 365 true (updateBlock :: p) 0 0 = some (1694117647058, 1600000000000) := by
    rw [← headerOnly.ssfRates_apply, hheaders]
    decide +kernel
  obtain ⟨-, -, hpeak, hcur⟩ := periods_of_ssfRates hrates
  have hflag : updateSsf updateBlock.nVersion = true := by decide
  have hkey : keyBlock (updateBlock :: p) = updateBlock :: p := by rw [keyBlock, if_pos hflag]
  refine ⟨p, view, issued, hp, hpeak, hcur, hp.subsidyInBounds rfl hfork ?_ fun _ ↦ hsupply⟩
  rw [hkey]
  intro _ _
  right
  rw [hpeak, hcur]
  decide

/-- A miner's block with the update flag. -/
def updating : Mined where
  nVersion := 0x1004
  nTime := 2000

/-- The header of the block is that of `updateBlock`, whatever its factor and its supply. -/
private theorem updating_values {p : ChainIndex}
    (hp : headerOnly.apply p = planned 0x207fffff stayingOnFork 380) {c : CBlockIndex}
    (hc : headerOnly.toFun c = updateBlock) :
    onFork (c :: p) = true ∧ keyFactor (c :: p) = some 1800000000 := by
  have hheaders : headerOnly.apply (c :: p) = updateBlock :: planned 0x207fffff stayingOnFork 380 := by
    rw [HeaderMap.apply_cons, hp, hc]
  have hflag : updateSsf c.nVersion = true := by
    rw [show c.nVersion = 0x1004 from congrArg CBlockIndex.nVersion hc]
    decide
  rw [keyFactor_of_flagged hflag, ← headerOnly.onFork_apply, ← headerOnly.getSsf_apply, hheaders]
  decide +kernel

/-- An accepted chain that ends in a block with the update flag: the current rate is below the peak
rate there, so the block has a factor. -/
theorem exists_updated : ∃ b p view issued,
    AcceptedChain minerHashes minerParams (b :: p) view issued ∧ b.nVersion = 0x1004 ∧
      onFork (b :: p) = true ∧ keyFactor (b :: p) = some 1800000000 ∧
      ∀ e ∈ b :: p, 0 ≤ e.nMoneySupply := by
  have hplan := plan_stayingOnFork (n := 379) (by decide)
  obtain ⟨p, view, issued, hp⟩ := hplan.exists_planned rfl (by decide)
  generalize hentry : (minedBlock minerParams p updating).indexEntry minerHashes = entry
  have hheader : headerOnly.toFun entry = updateBlock := by
    rw [← hentry]
    simp only [CBlock.indexEntry, minedBlock, getNextWorkRequired_minerParams]
    rfl
  have hnew : entry.subsidyScalingFactor = 0 := by
    rw [← hentry]
    rfl
  obtain ⟨hfork, hkey⟩ := updating_values hp.headers hheader
  have hvalid : updating.Valid minerParams p := by
    refine ⟨by decide, .inl (by decide), ?_, ?_, by decide, ?_, ?_⟩
    · rw [getNextWorkRequired_minerParams]
      decide
    · rw [hp.length]
      decide
    · exact hp.unflagged.versionRules fun _ ↦ by decide
    · have hbase : baseSubsidy minerParams (entry :: p) = 1500000000 := if_pos rfl
      rw [hentry, ← getBlockValue_zero, getBlockValue_setScalingFactor minerParams
        hp.accepted.coherent hfork hnew, hkey, hbase]
      decide
  have htime : ∀ e ∈ p, e.nTime.toNat < updating.nTime.toNat := fun e he ↦
    (hp.time e he).trans_lt (by decide)
  have hext := (hp.toMinedChain.extend rfl hvalid htime (by decide) (.inl (by decide))).accepted
  obtain ⟨factor, hfactor⟩ := scaledIndex_cons entry p false
  rw [mine, hentry, hfactor] at hext
  have hsupply := prevMoneySupply_range (b := { entry with subsidyScalingFactor := factor })
    (by have := hplan.claims_nonneg; omega) hp.supply
  have hclaims := hplan.claims
  have hmax : maxMoney = 2800000000000000 := rfl
  refine ⟨_, p, _, _, hext, ?_, (updating_values hp.headers ?_).1, (updating_values hp.headers ?_).2,
    List.forall_mem_cons.mpr ⟨?_, fun e he ↦ (hp.supply e he).1⟩⟩
  · exact congrArg CBlockIndex.nVersion hheader
  · exact hheader
  · exact hheader
  · have hon := (updating_values hp.headers (c := { entry with subsidyScalingFactor := factor })
      hheader).1
    change 0 ≤ moneySupply _ 0 0
    rw [moneySupply, if_pos hon, toInt64_of_range] <;> omega

/-- The block value is negative when the quotient of the rates does not fit: the block may claim
nothing at all. -/
theorem subsidy_negative : ∃ p view issued, AcceptedChain minerHashes minerParams p view issued ∧
    versionRules updateBlock.nVersion (updateBlock :: p) = true ∧ onFork (updateBlock :: p) = true ∧
    getBlockValue minerParams (setScalingFactor (updateBlock :: p)) 0 = -517626633 := by
  have hplan : Plan minerParams 0x207fffff slowingDown 379 := by
    refine plan_of_version4 (fun _ ↦ rfl) (fun _ ↦ rfl) fun h hh ↦ ?_
    simp only [slowingDown, BitVec.toNat_ofNat]
    split_ifs <;> omega
  obtain ⟨p, view, issued, hp, hunflagged, hheaders, -⟩ := exists_updatable (by decide) hplan
  have hfork : onFork (updateBlock :: p) = true := by
    rw [← headerOnly.onFork_apply, hheaders]
    decide +kernel
  have hfactor : keyFactor (updateBlock :: p) = some 5032703 := by
    rw [keyFactor_of_flagged (by decide), ← headerOnly.getSsf_apply, hheaders]
    decide +kernel
  refine ⟨p, view, issued, hp, hunflagged.versionRules fun _ ↦ by decide, hfork, ?_⟩
  have hbase : baseSubsidy minerParams (updateBlock :: p) = 1500000000 := if_pos rfl
  rw [getBlockValue_setScalingFactor minerParams hp.coherent hfork rfl, hfactor, hbase]
  decide

end Bitmark
