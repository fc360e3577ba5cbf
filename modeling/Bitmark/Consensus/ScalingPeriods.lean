import Bitmark.Chain.ScalingSpec
import Bitmark.Consensus.SubsidyBounds

/-!
# When the scaling factor is exact

`get_ssf` (`src/main.cpp:5008`) against the exact factor of the complete periods, with two accepted
chains.
-/

namespace Bitmark

/-- Where the complete periods have a duration, `get_ssf` is the exact factor if and only if the
rates are equal, or the walk gets past an incomplete oldest period and the quotient fits into 32
bits. -/
theorem getSsf_eq_scalingSpec_iff {p : ChainIndex} (h : PeriodsPositive (ssfPeriods p)) :
    getSsf p = scalingSpec p ↔
      curRate p = peakRate p ∨ incompleteOk (ssfIncomplete p) = true ∧
        100000000 * peakRate p < 2 ^ 32 * (peakRate p - curRate p) := by
  rw [getSsf_eq]
  by_cases heq : curRate p = peakRate p
  · rw [scalingSpec_of_eq heq, heq]
    simp [ssfOfRates]
  · have hlarge := le_scalingSpec heq
    rw [or_iff_right heq, ← scalingSpec_lt_iff heq]
    by_cases hok : incompleteOk (ssfIncomplete p) = true
    · rw [if_pos ⟨h, hok⟩, ssfOfRates_eq heq, and_iff_right hok, toUint32]
      constructor
      · intro hcut
        rw [← hcut]
        exact Nat.mod_lt _ (by decide)
      · intro hlt
        rw [Nat.min_eq_left (by omega), Nat.mod_eq_of_lt hlt]
    · rw [if_neg fun hboth ↦ hok hboth.2]
      constructor
      · intro hzero
        omega
      · intro hboth
        exact absurd hboth.1 hok

/-- A mined chain whose headers have these rates. -/
private theorem exists_rates {m : Nat → Mined} {n peak cur : Nat} (hn : n < 2 ^ 31)
    (hplan : Plan minerParams 0x207fffff m n)
    (hrates : ssfRates 365 true (planned 0x207fffff m (n + 1)) 0 0 = some (peak, cur))
    (hfork : onFork (planned 0x207fffff m (n + 1)) = true) :
    ∃ p view issued, AcceptedChain minerHashes minerParams p view issued ∧ onFork p = true ∧
      PeriodsPositive (ssfPeriods p) ∧ incompleteOk (ssfIncomplete p) = true ∧
      peakRate p = peak ∧ curRate p = cur := by
  obtain ⟨p, view, issued, hp⟩ := hplan.exists_planned rfl hn
  refine ⟨p, view, issued, hp.accepted, ?_, periods_of_ssfRates ?_⟩
  · rw [← headerOnly.onFork_apply, hp.headers]
    exact hfork
  · rw [← headerOnly.ssfRates_apply, hp.headers]
    exact hrates

/-- Two periods of equal intervals: the older one is a little shorter because it counts from the
last block before the fork. -/
theorem getSsf_eq_scalingSpec_stayingOnFork : ∃ p view issued,
    AcceptedChain minerHashes minerParams p view issued ∧ onFork p = true ∧
      getSsf p = scalingSpec p ∧ scalingSpec p = 1800000000 := by
  obtain ⟨p, view, issued, hp, hfork, hpositive, hincomplete, hpeak, hcur⟩ :=
    exists_rates (by decide) (plan_stayingOnFork (n := 380) (by decide))
      (show _ = some (1694117647058, 1600000000000) by decide +kernel) (by decide +kernel)
  refine ⟨p, view, issued, hp, hfork,
    (getSsf_eq_scalingSpec_iff hpositive).mpr (.inr ⟨hincomplete, ?_⟩), ?_⟩
  · rw [hpeak, hcur]
    decide
  · rw [scalingSpec_of_ne (by rw [hpeak, hcur]; decide), hpeak, hcur]

/-- When the current period is only a little slower than the peak, the quotient does not fit. -/
theorem getSsf_ne_scalingSpec : ∃ p view issued,
    AcceptedChain minerHashes minerParams p view issued ∧ onFork p = true ∧
      PeriodsPositive (ssfPeriods p) ∧ getSsf p = 5032703 ∧ scalingSpec p = 4299999999 := by
  have hplan : Plan minerParams 0x207fffff slowingDown 380 := by
    refine plan_of_version4 (fun _ ↦ rfl) (fun _ ↦ rfl) fun h hh ↦ ?_
    simp only [slowingDown, BitVec.toNat_ofNat]
    split_ifs <;> omega
  obtain ⟨p, view, issued, hp, hfork, hpositive, hincomplete, hpeak, hcur⟩ :=
    exists_rates (by decide) hplan
      (show _ = some (342857142857, 334883720930) by decide +kernel) (by decide +kernel)
  have hne : curRate p ≠ peakRate p := by
    rw [hpeak, hcur]
    decide
  have hspec : scalingSpec p = 4299999999 := by
    rw [scalingSpec_of_ne hne, hpeak, hcur]
  refine ⟨p, view, issued, hp, hfork, hpositive, ?_, hspec⟩
  rw [getSsf_eq, if_pos ⟨hpositive, hincomplete⟩, ssfOfRates_eq hne, hspec]
  rfl

end Bitmark
