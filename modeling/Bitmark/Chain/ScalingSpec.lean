import Bitmark.Chain.Subsidy

/-!
# The scaling factor from complete periods

`get_ssf` (`src/main.cpp:5008`) walks back along an algorithm and compares the hash rates of its
periods of `nSSF` blocks. Here the blocks come first, then the periods and their rates, and the
factor is an exact quotient. The code gives it up to two defects: an oldest period that is not
complete can end the walk with a factor of zero, and the quotient is cut to 32 bits.
-/

namespace Bitmark

/-! ### Periods -/

/-- At most `i` periods of `n` elements from the front. -/
def completePeriods {α : Type} (n : Nat) : Nat → List α → List (List α)
  | 0, _ => []
  | i + 1, l => if l.length < n then [] else l.take n :: completePeriods n i (l.drop n)

/-- What is left after them when there are fewer than `i`: a period that is not complete. -/
def incompletePeriod {α : Type} (n : Nat) : Nat → List α → List α
  | 0, _ => []
  | i + 1, l => if l.length < n then l else incompletePeriod n i (l.drop n)

/-- The blocks of the algorithm before a block, newest first, as far as the fork reaches back from
it. -/
def earlierBlocks (p : ChainIndex) : List ChainIndex :=
  match _h : getPprevAlgo p with
  | [] => []
  | b :: rest => (b :: rest) :: earlierBlocks (b :: rest)
  termination_by p.length
  decreasing_by
    rw [← _h]
    apply length_getPprevAlgo_lt
    rintro rfl
    cases _h

/-- The periods before a block that count: at most 365 complete ones. -/
def ssfPeriods (p : ChainIndex) : List (List ChainIndex) :=
  completePeriods nSSF 365 (earlierBlocks p)

/-- The work of a block. -/
def tipWork : ChainIndex → Nat
  | [] => 0
  | b :: _ => b.getBlockWorkBoost

def periodWork (period : List ChainIndex) : Nat := (period.map tipWork).sum

/-- The median time of the newest block. -/
def periodEnd (period : List ChainIndex) : Nat := (period.head?.map getMedianTimePast).getD 0

/-- The median time of the block of the algorithm before a block, or the time of the last block
before the fork. -/
def timeBefore (q : ChainIndex) : Nat :=
  match getPprevAlgo q with
  | b :: rest => getMedianTimePast (b :: rest)
  | [] => (preForkTime q).getD 0

def periodStart (period : List ChainIndex) : Nat := (period.getLast?.map timeBefore).getD 0

/-- Work per time, in units of `10^-8`. -/
def periodRate (period : List ChainIndex) : Nat :=
  periodWork period * 100000000 / (periodEnd period - periodStart period)

def periodRates (p : ChainIndex) : List Nat := (ssfPeriods p).map periodRate

def peakRate (p : ChainIndex) : Nat := (periodRates p).foldl max 0

def curRate (p : ChainIndex) : Nat := (periodRates p).headD 0

/-- The scaling factor: a peak rate over its distance to the current one. -/
def scalingSpec (p : ChainIndex) : Nat :=
  if periodRates p = [] ∨ curRate p = peakRate p then 0
  else 100000000 * peakRate p / (peakRate p - curRate p)

/-- A last period without all its blocks lets the walk go on: the median time of its newest block is
above that of the oldest one it has. -/
def incompleteOk : List ChainIndex → Bool
  | [] => true
  | q :: older => (older.getLast?.map getMedianTimePast).getD 0 < getMedianTimePast q

/-! ### The walk -/

theorem earlierBlocks_of_nil {p : ChainIndex} (h : getPprevAlgo p = []) : earlierBlocks p = [] := by
  rw [earlierBlocks]
  split
  · rfl
  next heq =>
    rw [h] at heq
    cases heq

theorem earlierBlocks_of_cons {p rest : ChainIndex} {b : CBlockIndex}
    (h : getPprevAlgo p = b :: rest) :
    earlierBlocks p = (b :: rest) :: earlierBlocks (b :: rest) := by
  rw [earlierBlocks]
  split
  next heq =>
    rw [h] at heq
    cases heq
  next heq =>
    rw [h] at heq
    obtain ⟨rfl, rfl⟩ := List.cons.inj heq
    rfl

/-- The blocks before one of the blocks are those behind it in the list. -/
theorem earlierBlocks_getElem {p q : ChainIndex} {k : Nat} (h : (earlierBlocks p)[k]? = some q) :
    q ≠ [] ∧ earlierBlocks q = (earlierBlocks p).drop (k + 1) := by
  induction k generalizing p with
  | zero =>
    cases hprev : getPprevAlgo p with
    | nil =>
      rw [earlierBlocks_of_nil hprev] at h
      cases h
    | cons b rest =>
      rw [earlierBlocks_of_cons hprev] at h ⊢
      obtain rfl := Option.some.inj h
      exact ⟨List.cons_ne_nil b rest, rfl⟩
  | succ k ih =>
    cases hprev : getPprevAlgo p with
    | nil =>
      rw [earlierBlocks_of_nil hprev] at h
      cases h
    | cons b rest =>
      rw [earlierBlocks_of_cons hprev] at h ⊢
      exact ih h

/-- Behind every block there is one before the fork: the first block of a chain is not on it. -/
theorem preForkTime_eq_some {p : ChainIndex} (h : p ≠ []) : ∃ t, preForkTime p = some t := by
  induction p with
  | nil => exact absurd rfl h
  | cons b pprev ih =>
    rw [preForkTime]
    split
    next hfork =>
      apply ih
      rintro rfl
      simp [onFork, nForkHeight] at hfork
    next => exact ⟨_, rfl⟩

theorem ssfTimeI_eq {q : ChainIndex} (h : q ≠ []) (timeI : Nat) :
    ssfTimeI q timeI = timeBefore q := by
  unfold ssfTimeI timeBefore
  cases getPprevAlgo q with
  | cons b rest => rfl
  | nil =>
    obtain ⟨t, ht⟩ := preForkTime_eq_some h
    rw [ht]
    rfl

/-- The inner loop over the next `j` blocks. -/
theorem ssfPeriod_eq (j : Nat) (q : ChainIndex) (hashes timeI : Nat) :
    ssfPeriod j q hashes timeI =
      if (earlierBlocks q).length < j then
        ([], 0, ((earlierBlocks q).getLast?.map getMedianTimePast).getD timeI)
      else (((earlierBlocks q).take j).getLast?.getD q,
        hashes + periodWork ((earlierBlocks q).take j),
        (((earlierBlocks q).take j).getLast?.map getMedianTimePast).getD timeI) := by
  induction j generalizing q hashes timeI with
  | zero => simp [ssfPeriod, periodWork]
  | succ j ih =>
    rw [ssfPeriod]
    cases hprev : getPprevAlgo q with
    | nil =>
      rw [earlierBlocks_of_nil hprev]
      rfl
    | cons b rest =>
      rw [earlierBlocks_of_cons hprev]
      dsimp only
      rw [ih, List.length_cons, List.take_succ_cons]
      by_cases hlt : (earlierBlocks (b :: rest)).length < j
      · rw [if_pos hlt, if_pos (Nat.succ_lt_succ hlt), List.getLast?_cons]
        cases (earlierBlocks (b :: rest)).getLast? <;> rfl
      · rw [if_neg hlt, if_neg fun h ↦ hlt (Nat.lt_of_succ_lt_succ h), List.getLast?_cons]
        have hwork (l : List ChainIndex) :
            hashes + periodWork ((b :: rest) :: l) =
              hashes + b.getBlockWorkBoost + periodWork l := by
          rw [periodWork, List.map_cons, List.sum_cons, ← Nat.add_assoc]
          rfl
        rw [hwork]
        cases ((earlierBlocks (b :: rest)).take j).getLast? <;> rfl

/-- A walk over some periods, with the peak so far. -/
def ratesFrom (i : Nat) (first : Bool) (l : List ChainIndex) (peak cur : Nat) : Nat × Nat :=
  let rates := (completePeriods nSSF i l).map periodRate
  (rates.foldl max peak, if first then rates.headD 0 else cur)

/-- All complete periods have a positive duration. -/
def PeriodsPositive (periods : List (List ChainIndex)) : Prop :=
  ∀ period ∈ periods, periodStart period < periodEnd period

instance (periods : List (List ChainIndex)) : Decidable (PeriodsPositive periods) :=
  inferInstanceAs (Decidable (∀ _ ∈ periods, _))

/-- The first of the complete periods. -/
theorem completePeriods_succ {α : Type} {n i : Nat} {l : List α} (h : n ≤ l.length) :
    completePeriods n (i + 1) l = l.take n :: completePeriods n i (l.drop n) :=
  if_neg (Nat.not_lt.mpr h)

theorem incompletePeriod_succ {α : Type} {n i : Nat} {l : List α} (h : n ≤ l.length) :
    incompletePeriod n (i + 1) l = incompletePeriod n i (l.drop n) :=
  if_neg (Nat.not_lt.mpr h)

theorem ssfRates_nil (i : Nat) (first : Bool) (peak cur : Nat) :
    ssfRates i first [] peak cur = some (peak, cur) := by
  cases i <;> rfl

/-- A period as the inner loop leaves it. -/
theorem ssfPeriod_complete {q : ChainIndex} {n : Nat} (h : ¬ (earlierBlocks q).length < n)
    (hn : 0 < n) :
    ∃ last, ((earlierBlocks q).take n).getLast?.getD q = last ∧ last ≠ [] ∧
      (q :: (earlierBlocks q).take n).getLast? = some last ∧
      earlierBlocks last = (earlierBlocks q).drop n := by
  obtain ⟨m, rfl⟩ := Nat.exists_eq_succ_of_ne_zero hn.ne'
  have hlt : m < (earlierBlocks q).length := by omega
  have hget := List.getElem?_eq_getElem hlt
  have hlast : ((earlierBlocks q).take (m + 1)).getLast? = some (earlierBlocks q)[m] := by
    rw [List.getLast?_take, if_neg (Nat.succ_ne_zero m), Nat.add_sub_cancel, hget]
    rfl
  obtain ⟨hne, hdrop⟩ := earlierBlocks_getElem hget
  refine ⟨(earlierBlocks q)[m], ?_, hne, ?_, hdrop⟩
  · rw [Nat.succ_eq_add_one, hlast]
    rfl
  · rw [List.getLast?_cons, Nat.succ_eq_add_one, hlast]
    rfl

/-- The outer loop: it stops with nothing at a period without a duration. -/
theorem ssfRates_eq (i : Nat) (first : Bool) (p : ChainIndex) (peak cur : Nat)
    (hcur : first = true → cur = 0) :
    ssfRates i first p peak cur =
      if PeriodsPositive (completePeriods nSSF i (earlierBlocks p)) ∧
          incompleteOk (incompletePeriod nSSF i (earlierBlocks p)) = true then
        some (ratesFrom i first (earlierBlocks p) peak cur)
      else none := by
  have hfirst : (if first = true then 0 else cur) = cur := by
    split
    next h => exact (hcur h).symm
    next => rfl
  induction i generalizing first p peak cur with
  | zero =>
    rw [if_pos ⟨fun _ h ↦ absurd h List.not_mem_nil, rfl⟩, ssfRates]
    exact congrArg some (Prod.ext rfl hfirst.symm)
  | succ i ih =>
    cases hprev : getPprevAlgo p with
    | nil =>
      rw [ssfRates, hprev, earlierBlocks_of_nil hprev,
        if_pos ⟨fun _ h ↦ absurd h List.not_mem_nil, rfl⟩]
      exact congrArg some (Prod.ext rfl hfirst.symm)
    | cons b rest =>
      rw [ssfRates, hprev, earlierBlocks_of_cons hprev]
      dsimp only
      rw [ssfPeriod_eq]
      by_cases hlt : (earlierBlocks (b :: rest)).length < nSSF - 1
      · -- the oldest period is not complete: it ends the walk, with a rate of zero
        have hshort : ((b :: rest) :: earlierBlocks (b :: rest)).length < nSSF := by
          rw [List.length_cons]
          omega
        have hperiods :
            completePeriods nSSF (i + 1) ((b :: rest) :: earlierBlocks (b :: rest)) = [] :=
          if_pos hshort
        have hincomplete :
            incompletePeriod nSSF (i + 1) ((b :: rest) :: earlierBlocks (b :: rest)) =
              (b :: rest) :: earlierBlocks (b :: rest) := if_pos hshort
        rw [if_pos hlt, hperiods, hincomplete, ratesFrom, hperiods]
        dsimp only
        rw [Nat.zero_mul, Nat.zero_div, if_neg (Nat.not_lt_zero _), ssfRates_nil]
        have htime (t : Nat) : ssfTimeI [] t = t := rfl
        rw [htime]
        by_cases hok : ((earlierBlocks (b :: rest)).getLast?.map getMedianTimePast).getD 0 <
            getMedianTimePast (b :: rest)
        · exact (if_pos hok).trans
            (if_pos ⟨fun _ h ↦ absurd h List.not_mem_nil, decide_eq_true hok⟩).symm
        · exact (if_neg hok).trans (if_neg fun h ↦ hok (of_decide_eq_true h.2)).symm
      · have hlong : nSSF ≤ ((b :: rest) :: earlierBlocks (b :: rest)).length := by
          rw [List.length_cons]
          omega
        obtain ⟨last, hlast, hne, hgetLast, hdrop⟩ := ssfPeriod_complete hlt (by decide)
        have htake : ((b :: rest) :: earlierBlocks (b :: rest)).take nSSF =
            (b :: rest) :: (earlierBlocks (b :: rest)).take (nSSF - 1) := rfl
        have hrest : ((b :: rest) :: earlierBlocks (b :: rest)).drop nSSF = earlierBlocks last := by
          rw [hdrop]
          rfl
        rw [if_neg hlt]
        dsimp only
        rw [ratesFrom, completePeriods_succ hlong, incompletePeriod_succ hlong, hrest, hlast,
          ssfTimeI_eq hne, htake]
        generalize hperiod :
          (b :: rest) :: (earlierBlocks (b :: rest)).take (nSSF - 1) = period at hgetLast
        have hstart : timeBefore last = periodStart period := by
          rw [periodStart, hgetLast]
          rfl
        have hend : getMedianTimePast (b :: rest) = periodEnd period := by
          rw [← hperiod]
          rfl
        have hwork :
            b.getBlockWorkBoost + periodWork ((earlierBlocks (b :: rest)).take (nSSF - 1)) =
              periodWork period := by
          rw [← hperiod, periodWork, periodWork, List.map_cons, List.sum_cons]
          rfl
        rw [hstart, hend, hwork]
        by_cases hpositive : periodStart period < periodEnd period
        · have hmax (rate : Nat) : (if peak < rate then rate else peak) = max peak rate := by
            rw [max_def_lt]
          rw [if_pos hpositive, ih _ _ _ _ (by simp) (by simp), hmax]
          have hall : PeriodsPositive (period :: completePeriods nSSF i (earlierBlocks last)) ↔
              PeriodsPositive (completePeriods nSSF i (earlierBlocks last)) := by
            rw [PeriodsPositive, List.forall_mem_cons, and_iff_right hpositive]
            rfl
          simp only [hall]
          rfl
        · rw [if_neg hpositive, if_neg]
          exact fun h ↦ hpositive (h.1 period List.mem_cons_self)

/-! ### The factor -/

/-- The oldest period when it is not complete and may still be reached. -/
def ssfIncomplete (p : ChainIndex) : List ChainIndex := incompletePeriod nSSF 365 (earlierBlocks p)

/-- `get_ssf`, from the periods. -/
theorem getSsf_eq (p : ChainIndex) :
    getSsf p =
      if PeriodsPositive (ssfPeriods p) ∧ incompleteOk (ssfIncomplete p) = true then
        ssfOfRates (peakRate p) (curRate p)
      else 0 := by
  have hrates : ssfRates 365 true p 0 0 =
      if PeriodsPositive (ssfPeriods p) ∧ incompleteOk (ssfIncomplete p) = true then
        some (peakRate p, curRate p)
      else none := ssfRates_eq 365 true p 0 0 fun _ ↦ rfl
  rw [getSsf, hrates]
  by_cases h : PeriodsPositive (ssfPeriods p) ∧ incompleteOk (ssfIncomplete p) = true
  · rw [if_pos h, if_pos h]
  · rw [if_neg h, if_neg h]

theorem le_foldl_max (l : List Nat) (n : Nat) : n ≤ l.foldl max n := by
  induction l generalizing n with
  | nil => exact Nat.le_refl n
  | cons a l ih => exact (Nat.le_max_left n a).trans (ih _)

theorem curRate_le_peakRate (p : ChainIndex) : curRate p ≤ peakRate p := by
  unfold curRate peakRate
  cases periodRates p with
  | nil => exact Nat.le_refl 0
  | cons rate rates => exact (Nat.le_max_right 0 rate).trans (le_foldl_max rates _)

theorem scalingSpec_of_eq {p : ChainIndex} (h : curRate p = peakRate p) : scalingSpec p = 0 :=
  if_pos (.inr h)

theorem scalingSpec_of_ne {p : ChainIndex} (h : curRate p ≠ peakRate p) :
    scalingSpec p = 100000000 * peakRate p / (peakRate p - curRate p) := by
  apply if_neg
  rintro (hnil | heq)
  · apply h
    rw [curRate, peakRate, hnil]
    rfl
  · exact h heq

/-- The quotient is at least `10^8`. -/
theorem le_scalingSpec {p : ChainIndex} (h : curRate p ≠ peakRate p) :
    100000000 ≤ scalingSpec p := by
  have hle := curRate_le_peakRate p
  rw [scalingSpec_of_ne h, Nat.le_div_iff_mul_le (by omega)]
  exact Nat.mul_le_mul_left _ (Nat.sub_le _ _)

theorem scalingSpec_lt_iff {p : ChainIndex} (h : curRate p ≠ peakRate p) :
    scalingSpec p < 2 ^ 32 ↔ 100000000 * peakRate p < 2 ^ 32 * (peakRate p - curRate p) := by
  have hle := curRate_le_peakRate p
  rw [scalingSpec_of_ne h, Nat.div_lt_iff_lt_mul (by omega)]

/-- What the two cuts leave of the quotient. -/
theorem ssfOfRates_eq {p : ChainIndex} (h : curRate p ≠ peakRate p) :
    ssfOfRates (peakRate p) (curRate p) = toUint32 (min (scalingSpec p) (2 ^ 64 - 1)) := by
  have hle := curRate_le_peakRate p
  rw [ssfOfRates, if_pos ⟨by omega, h⟩, scalingSpec_of_ne h]

/-- A walk that comes to an end has only periods with a duration. -/
theorem periods_of_ssfRates {p : ChainIndex} {peak cur : Nat}
    (h : ssfRates 365 true p 0 0 = some (peak, cur)) :
    PeriodsPositive (ssfPeriods p) ∧ incompleteOk (ssfIncomplete p) = true ∧
      peakRate p = peak ∧ curRate p = cur := by
  rw [ssfRates_eq 365 true p 0 0 fun _ ↦ rfl] at h
  split at h
  next hall =>
    obtain ⟨hpeak, hcur⟩ := Prod.mk.inj (Option.some.inj h)
    exact ⟨hall.1, hall.2, hpeak, hcur⟩
  next => cases h

end Bitmark
