import Bitmark.Chain.Retarget
import Bitmark.Lib.Runs

/-!
# What the loop of `DarkGravityWave` finds

The loop of `src/main.cpp:1455–1527` walks back from a tip to the 25th block of an algorithm, or
to the last block before the fork. Its counters are described by the marks of the blocks it looks
at: which of them are of the algorithm.
-/

namespace Bitmark

namespace GravityWave

variable {algo : Algo}

/-! ### The loop, step by step -/

/-- The first block of the loop gives the time the others are compared with. -/
def seeTime (s : GravityWave) (medianTime : Int) : GravityWave :=
  if s.lastBlockTimeOtherAlgos = 0 then { s with lastBlockTimeOtherAlgos := medianTime } else s

theorem loop_beforeFork {s : GravityWave} {b : CBlockIndex} {pprev : ChainIndex}
    (hheight : nForkHeight ≤ pprev.length + 1) (hfork : onFork (b :: pprev) = false) :
    loop algo s (b :: pprev) = (s.beforeFork b, b :: pprev) := by
  rw [loop, if_neg (by omega), if_pos (by simp [hfork])]

theorem loop_otherAlgo {s : GravityWave} {b : CBlockIndex} {pprev : ChainIndex}
    (hheight : nForkHeight ≤ pprev.length + 1) (hfork : onFork (b :: pprev) = true)
    (halgo : getAlgo b.nVersion ≠ algo) :
    loop algo s (b :: pprev) =
      loop algo (s.seeTime (getMedianTimePast (b :: pprev))).otherAlgo pprev := by
  rw [loop, if_neg (by omega), if_neg (by simp [hfork])]
  simp only [halgo, ne_eq, not_false_eq_true, if_true]
  rfl

theorem loop_sameAlgo {s : GravityWave} {b : CBlockIndex} {pprev : ChainIndex}
    (hheight : nForkHeight ≤ pprev.length + 1) (hfork : onFork (b :: pprev) = true)
    (halgo : getAlgo b.nVersion = algo) :
    loop algo s (b :: pprev) =
      let medianTime : Int := getMedianTimePast (b :: pprev)
      let s := (s.seeTime medianTime).sameAlgo b medianTime
      if pastBlocks ≤ s.countBlocks then (s.stopAt medianTime, b :: pprev)
      else loop algo s pprev := by
  have hpprev : pprev.isEmpty = false := by
    cases pprev with
    | nil => exact absurd hheight (by decide)
    | cons c rest => rfl
  rw [loop, if_neg (by omega), if_neg (by simp [hfork])]
  simp only [halgo, ne_eq, not_true_eq_false, if_false, hpprev, Bool.false_eq_true, false_or]
  rfl

@[simp] theorem countBlocks_seeTime (s : GravityWave) (m : Int) :
    (s.seeTime m).countBlocks = s.countBlocks := by
  unfold seeTime
  split <;> rfl

@[simp] theorem countBlocks_otherAlgo (s : GravityWave) :
    s.otherAlgo.countBlocks = s.countBlocks := by
  unfold otherAlgo endRow
  split <;> rfl

/-- What a block of the algorithm changes, the average and the start of the time span aside. -/
theorem sameAlgo_eq (s : GravityWave) (b : CBlockIndex) (m : Int) : s.sameAlgo b m =
    { s with
      lastDifficultyAlgo := if s.countBlocks = 0 then setCompact b.nBits else s.lastDifficultyAlgo
      countBlocks := s.countBlocks + 1
      nInRow := if s.nInRowDone then s.nInRow else s.nInRow + 1
      lastInRow := if s.lastInRowDone then s.lastInRow else s.lastInRow + 1
      pastDifficultyAverage := (s.sameAlgo b m).pastDifficultyAverage
      timeSinceLastAlgo :=
        if s.countBlocks = 0 ∧ 0 < s.lastBlockTimeOtherAlgos then s.lastBlockTimeOtherAlgos - m
        else s.timeSinceLastAlgo
      lastBlockTime := (s.sameAlgo b m).lastBlockTime } := by
  by_cases hfull : pastBlocks < s.countBlocks + 1
  · have hcount : s.countBlocks ≠ 0 := by
      unfold pastBlocks at hfull
      omega
    simp only [sameAlgo, hfull, if_true, hcount, false_and, if_false]
  · by_cases hcount : s.countBlocks = 0
    · by_cases htime : 0 < s.lastBlockTimeOtherAlgos
      · simp only [sameAlgo, hcount, htime, pastBlocks, Nat.zero_add, true_and, if_true,
          show ¬ 25 < 1 by decide, if_false]
      · simp only [sameAlgo, hcount, htime, pastBlocks, Nat.zero_add, true_and, if_true,
          show ¬ 25 < 1 by decide, if_false]
    · simp only [sameAlgo, hfull, hcount, Nat.add_eq_right, false_and, if_false]

@[simp] theorem countBlocks_sameAlgo (s : GravityWave) (b : CBlockIndex) (m : Int) :
    (s.sameAlgo b m).countBlocks = s.countBlocks + 1 := by
  rw [sameAlgo_eq]

@[simp] theorem countBlocks_beforeFork (s : GravityWave) (b : CBlockIndex) :
    (s.beforeFork b).countBlocks = s.countBlocks + 1 := by
  simp only [beforeFork, endRow]
  split <;> rfl

@[simp] theorem countBlocks_stopAt (s : GravityWave) (m : Int) :
    (s.stopAt m).countBlocks = s.countBlocks := by
  unfold stopAt
  split <;> rfl

/-- The rule for the loop: `P` holds along the walk, `Q` where it stops. -/
theorem loop_rule {P Q : GravityWave → ChainIndex → Prop}
    (hbefore : ∀ s b pprev, P s (b :: pprev) → onFork (b :: pprev) = false →
      Q (s.beforeFork b) (b :: pprev))
    (hother : ∀ s b pprev, P s (b :: pprev) → onFork (b :: pprev) = true →
      getAlgo b.nVersion ≠ algo → P (s.seeTime (getMedianTimePast (b :: pprev))).otherAlgo pprev)
    (hsame : ∀ s b pprev, P s (b :: pprev) → onFork (b :: pprev) = true →
      getAlgo b.nVersion = algo → s.countBlocks + 1 < pastBlocks →
      P ((s.seeTime (getMedianTimePast (b :: pprev))).sameAlgo b (getMedianTimePast (b :: pprev)))
        pprev)
    (hstop : ∀ s b pprev, P s (b :: pprev) → onFork (b :: pprev) = true →
      getAlgo b.nVersion = algo → s.countBlocks + 1 = pastBlocks →
      Q (((s.seeTime (getMedianTimePast (b :: pprev))).sameAlgo b
        (getMedianTimePast (b :: pprev))).stopAt (getMedianTimePast (b :: pprev))) (b :: pprev))
    {s : GravityWave} {p : ChainIndex} (hcount : s.countBlocks < pastBlocks)
    (hheight : nForkHeight ≤ p.length) (h : P s p) : Q (loop algo s p).1 (loop algo s p).2 := by
  induction p generalizing s with
  | nil => exact absurd hheight (by decide)
  | cons b pprev ih =>
    rw [List.length_cons] at hheight
    cases hfork : onFork (b :: pprev) with
    | false =>
      rw [loop_beforeFork hheight hfork]
      exact hbefore s b pprev h hfork
    | true =>
      have hpprev : nForkHeight ≤ pprev.length := by
        simp only [onFork, Bool.and_eq_true, decide_eq_true_eq] at hfork
        exact hfork.1
      by_cases halgo : getAlgo b.nVersion = algo
      · rw [loop_sameAlgo hheight hfork halgo]
        simp only [countBlocks_sameAlgo, countBlocks_seeTime]
        by_cases hlast : pastBlocks ≤ s.countBlocks + 1
        · rw [if_pos hlast]
          exact hstop s b pprev h hfork halgo (le_antisymm hcount hlast)
        · rw [if_neg hlast]
          refine ih ?_ hpprev (hsame s b pprev h hfork halgo (not_le.mp hlast))
          rw [countBlocks_sameAlgo, countBlocks_seeTime]
          exact not_le.mp hlast
      · rw [loop_otherAlgo hheight hfork halgo]
        refine ih ?_ hpprev (hother s b pprev h hfork halgo)
        rwa [countBlocks_otherAlgo, countBlocks_seeTime]

/-! ### The blocks it looks at -/

/-- Which of the blocks from a tip back are of the algorithm, up to the `left`-th of them. The
last block before the fork counts as one of another algorithm. -/
def marks (algo : Algo) : Nat → ChainIndex → List Bool
  | _, [] => []
  | left, b :: pprev =>
    if !onFork (b :: pprev) then [false]
    else if getAlgo b.nVersion ≠ algo then false :: marks algo left pprev
    else if left ≤ 1 then [true]
    else true :: marks algo (left - 1) pprev

/-- The block the loop stops at. -/
def stop (algo : Algo) : Nat → ChainIndex → ChainIndex
  | _, [] => []
  | left, b :: pprev =>
    if !onFork (b :: pprev) then b :: pprev
    else if getAlgo b.nVersion ≠ algo then stop algo left pprev
    else if left ≤ 1 then b :: pprev
    else stop algo (left - 1) pprev

section Walk

variable {b : CBlockIndex} {pprev : ChainIndex} {left : Nat}

theorem walk_beforeFork (algo : Algo) (hfork : onFork (b :: pprev) = false) (left : Nat) :
    marks algo left (b :: pprev) = [false] ∧ stop algo left (b :: pprev) = b :: pprev := by
  simp [marks, stop, hfork]

theorem walk_otherAlgo (hfork : onFork (b :: pprev) = true) (halgo : getAlgo b.nVersion ≠ algo)
    (left : Nat) : marks algo left (b :: pprev) = false :: marks algo left pprev ∧
      stop algo left (b :: pprev) = stop algo left pprev := by
  simp [marks, stop, hfork, halgo]

theorem walk_sameAlgo (hfork : onFork (b :: pprev) = true) (halgo : getAlgo b.nVersion = algo)
    (hleft : 1 < left) : marks algo left (b :: pprev) = true :: marks algo (left - 1) pprev ∧
      stop algo left (b :: pprev) = stop algo (left - 1) pprev := by
  simp [marks, stop, hfork, halgo, hleft.not_ge]

theorem walk_last (hfork : onFork (b :: pprev) = true) (halgo : getAlgo b.nVersion = algo) :
    marks algo 1 (b :: pprev) = [true] ∧ stop algo 1 (b :: pprev) = b :: pprev := by
  simp [marks, stop, hfork, halgo]

end Walk

/-- The blocks of the algorithm still to come. -/
def left (s : GravityWave) : Nat := pastBlocks - s.countBlocks

/-- The count of a run in the window: its length, and whether it is kept. -/
def row (s : GravityWave) : Nat × Bool := (s.nInRow, s.nInRowDone)

theorem row_seeTime (s : GravityWave) (m : Int) : (s.seeTime m).row = s.row := by
  unfold seeTime
  split <;> rfl

theorem row_endRow (s : GravityWave) : s.endRow.row = Runs.step 9 s.row false := by
  unfold endRow row Runs.step
  split <;> rfl

theorem row_otherAlgo (s : GravityWave) : s.otherAlgo.row = Runs.step 9 s.row false :=
  row_endRow _

theorem row_beforeFork (s : GravityWave) (b : CBlockIndex) :
    (s.beforeFork b).row = Runs.step 9 s.row false := row_endRow _

theorem row_sameAlgo (s : GravityWave) (b : CBlockIndex) (m : Int) :
    (s.sameAlgo b m).row = Runs.step 9 s.row true := by
  rw [sameAlgo_eq, row, row, Runs.step]
  cases s.nInRowDone <;> rfl

theorem row_stopAt (s : GravityWave) (m : Int) : (s.stopAt m).row = s.row := by
  unfold stopAt
  split <;> rfl

private theorem left_sameAlgo (s : GravityWave) (b : CBlockIndex) (m : Int) :
    ((s.seeTime m).sameAlgo b m).left = s.left - 1 := by
  rw [left, left, countBlocks_sameAlgo, countBlocks_seeTime]
  omega

private theorem left_otherAlgo (s : GravityWave) (m : Int) :
    (s.seeTime m).otherAlgo.left = s.left := by
  rw [left, left, countBlocks_otherAlgo, countBlocks_seeTime]

/-- Where the loop stops, how many blocks it counted and the run it counted last. -/
theorem loop_window (algo : Algo) {p : ChainIndex} (hheight : nForkHeight ≤ p.length) :
    (loop algo {} p).2 = stop algo pastBlocks p ∧
      (loop algo {} p).1.countBlocks =
        min pastBlocks ((marks algo pastBlocks p).count true + 1) ∧
      (loop algo {} p).1.row = Runs.scan 9 (marks algo pastBlocks p) := by
  -- along the walk, what is left determines the same results
  refine loop_rule
    (P := fun s rest ↦ s.countBlocks < pastBlocks ∧
      stop algo s.left rest = stop algo pastBlocks p ∧
      s.countBlocks + (marks algo s.left rest).count true = (marks algo pastBlocks p).count true ∧
      (marks algo s.left rest).foldl (Runs.step 9) s.row = Runs.scan 9 (marks algo pastBlocks p))
    (Q := fun s reading ↦ reading = stop algo pastBlocks p ∧
      s.countBlocks = min pastBlocks ((marks algo pastBlocks p).count true + 1) ∧
      s.row = Runs.scan 9 (marks algo pastBlocks p))
    ?_ ?_ ?_ ?_ (by decide) hheight ⟨by decide, rfl, Nat.zero_add _, rfl⟩
  · intro s b pprev h hfork
    obtain ⟨hmarks, hstop⟩ := walk_beforeFork algo hfork s.left
    rw [hmarks, hstop] at h
    obtain ⟨hlt, hreading, hcount, hrow⟩ := h
    refine ⟨hreading, ?_, ?_⟩
    · rw [countBlocks_beforeFork, ← hcount]
      exact (min_eq_right hlt).symm
    · rw [row_beforeFork]
      exact hrow
  · intro s b pprev h hfork halgo
    obtain ⟨hmarks, hstop⟩ := walk_otherAlgo hfork halgo s.left
    rw [hmarks, hstop] at h
    obtain ⟨hlt, hreading, hcount, hrow⟩ := h
    rw [left_otherAlgo, row_otherAlgo, row_seeTime, countBlocks_otherAlgo, countBlocks_seeTime]
    exact ⟨hlt, hreading, by simpa using hcount, hrow⟩
  · intro s b pprev h hfork halgo hnext
    have hleft : 1 < s.left := by
      unfold left
      omega
    obtain ⟨hmarks, hstop⟩ := walk_sameAlgo hfork halgo hleft
    rw [hmarks, hstop] at h
    obtain ⟨-, hreading, hcount, hrow⟩ := h
    rw [left_sameAlgo, row_sameAlgo, row_seeTime, countBlocks_sameAlgo, countBlocks_seeTime]
    refine ⟨hnext, hreading, ?_, hrow⟩
    rw [← hcount, List.count_cons_self]
    omega
  · intro s b pprev h hfork halgo hlast
    have hleft : s.left = 1 := by
      unfold left
      omega
    obtain ⟨hmarks, hstop⟩ := walk_last hfork halgo
    rw [hleft, hmarks, hstop] at h
    obtain ⟨-, hreading, hcount, hrow⟩ := h
    refine ⟨hreading, ?_, ?_⟩
    · rw [countBlocks_stopAt, countBlocks_sameAlgo, countBlocks_seeTime, ← hcount, hlast]
      have hone : [true].count true = 1 := rfl
      rw [hone, hlast]
      rfl
    · rw [row_stopAt, row_sameAlgo, row_seeTime]
      exact hrow

/-! ### The run up to the last block of the algorithm -/

/-- The length of the newest run of blocks of the algorithm. -/
def newestRun (ms : List Bool) : Nat := ((ms.dropWhile (!·)).takeWhile id).length

/-- Whether a block of another algorithm ends the newest run. -/
def newestRunEnds (ms : List Bool) : Bool := decide (1 < ((ms.dropWhile (!·)).dropWhile id).length)

/-- The count of the newest run: its length, and whether it has ended. -/
def lastRow (s : GravityWave) : Nat × Bool := (s.lastInRow, s.lastInRowDone)

theorem lastRow_otherAlgo (s : GravityWave) (m : Int) : (s.seeTime m).otherAlgo.lastRow =
    (s.lastInRow, s.lastInRowDone || s.countBlocks ≠ 0) := by
  unfold seeTime otherAlgo endRow lastRow
  split <;> split <;> rfl

theorem lastRow_sameAlgo (s : GravityWave) (b : CBlockIndex) (m : Int) :
    ((s.seeTime m).sameAlgo b m).lastRow =
      (if s.lastInRowDone then s.lastInRow else s.lastInRow + 1, s.lastInRowDone) := by
  rw [sameAlgo_eq, lastRow]
  unfold seeTime
  split <;> rfl

theorem lastRow_beforeFork (s : GravityWave) (b : CBlockIndex) :
    (s.beforeFork b).lastRow = s.lastRow := by
  simp only [beforeFork, endRow, lastRow]
  split <;> rfl

theorem lastRow_stopAt (s : GravityWave) (m : Int) : (s.stopAt m).lastRow = s.lastRow := by
  unfold stopAt lastRow
  split <;> rfl

private theorem marks_ne_nil (algo : Algo) {p : ChainIndex} (h : p ≠ []) (left : Nat) :
    marks algo left p ≠ [] := by
  cases p with
  | nil => exact absurd rfl h
  | cons b pprev =>
    rw [marks]
    split
    · exact List.cons_ne_nil _ _
    · split
      · exact List.cons_ne_nil _ _
      · split <;> exact List.cons_ne_nil _ _

private theorem pprev_ne_nil {b : CBlockIndex} {pprev : ChainIndex}
    (h : onFork (b :: pprev) = true) : pprev ≠ [] := by
  rintro rfl
  simp [onFork, nForkHeight] at h

/-- What the marks that are left add to the count of the newest run. -/
private def lastRowOf (s : GravityWave) (ms : List Bool) : Nat × Bool :=
  if s.countBlocks = 0 then (newestRun ms, newestRunEnds ms)
  else if s.lastInRowDone then (s.lastInRow, true)
  else (s.lastInRow + (ms.takeWhile id).length, decide (1 < (ms.dropWhile id).length))

/-- The loop counts the newest run of the window. -/
theorem loop_lastRow (algo : Algo) {p : ChainIndex} (hheight : nForkHeight ≤ p.length) :
    (loop algo {} p).1.lastRow =
      (newestRun (marks algo pastBlocks p), newestRunEnds (marks algo pastBlocks p)) := by
  refine loop_rule
    (P := fun s rest ↦ (s.countBlocks = 0 → s.lastRow = (0, false)) ∧
      lastRowOf s (marks algo s.left rest) =
        (newestRun (marks algo pastBlocks p), newestRunEnds (marks algo pastBlocks p)))
    (Q := fun s _ ↦ s.lastRow =
      (newestRun (marks algo pastBlocks p), newestRunEnds (marks algo pastBlocks p)))
    ?_ ?_ ?_ ?_ (by decide) hheight ⟨fun _ ↦ rfl, rfl⟩
  · intro s b pprev h hfork
    rw [(walk_beforeFork algo hfork s.left).1] at h
    rw [lastRow_beforeFork, ← h.2, lastRowOf]
    split
    · next hzero => exact h.1 hzero
    · split
      · next hdone => rw [lastRow, hdone]
      · next hopen => rw [lastRow, Bool.eq_false_iff.mpr hopen]; rfl
  · intro s b pprev h hfork halgo
    obtain ⟨hzero, hrow⟩ := h
    have hnext := marks_ne_nil algo (pprev_ne_nil hfork) s.left
    rw [(walk_otherAlgo hfork halgo s.left).1] at hrow
    have hlast := lastRow_otherAlgo s (getMedianTimePast (b :: pprev))
    rw [left_otherAlgo]
    generalize hs' : (s.seeTime (getMedianTimePast (b :: pprev))).otherAlgo = s' at hlast
    have hcount : s'.countBlocks = s.countBlocks := by
      rw [← hs', countBlocks_otherAlgo, countBlocks_seeTime]
    obtain ⟨hrun, hdone⟩ := Prod.mk.inj hlast
    rw [← hrow]
    unfold lastRowOf
    rw [hrun, hdone, hcount, hlast]
    by_cases hc : s.countBlocks = 0
    · obtain ⟨hr, hd⟩ := Prod.mk.inj (hzero hc)
      simp [hc, hr, hd, newestRun, newestRunEnds]
    · have hlong : 1 < (false :: marks algo s.left pprev).length := by
        rw [List.length_cons]
        exact Nat.succ_lt_succ (List.length_pos_iff.mpr hnext)
      by_cases hd : s.lastInRowDone = true
      · simp [hc, hd]
      · simp [hc, hd, hnext, List.length_pos_iff]
  · intro s b pprev h hfork halgo hnext
    obtain ⟨hzero, hrow⟩ := h
    have hleft : 1 < s.left := by
      unfold left
      omega
    rw [(walk_sameAlgo hfork halgo hleft).1] at hrow
    have hlast := lastRow_sameAlgo s b (getMedianTimePast (b :: pprev))
    rw [left_sameAlgo]
    generalize hs' : (s.seeTime (getMedianTimePast (b :: pprev))).sameAlgo b
      (getMedianTimePast (b :: pprev)) = s' at hlast
    have hcount : s'.countBlocks = s.countBlocks + 1 := by
      rw [← hs', countBlocks_sameAlgo, countBlocks_seeTime]
    obtain ⟨hrun, hdone⟩ := Prod.mk.inj hlast
    refine ⟨fun h ↦ absurd (hcount.symm.trans h) (Nat.succ_ne_zero _), ?_⟩
    rw [← hrow]
    unfold lastRowOf
    rw [hrun, hdone, hcount]
    by_cases hc : s.countBlocks = 0
    · obtain ⟨hr, hd⟩ := Prod.mk.inj (hzero hc)
      simp [hc, hr, hd, newestRun, newestRunEnds, Nat.add_comm]
    · by_cases hd : s.lastInRowDone = true
      · simp [hc, hd]
      · simp [hc, hd]
        omega
  · intro s b pprev h hfork halgo hlast
    obtain ⟨hzero, hrow⟩ := h
    have hleft : s.left = 1 := by
      unfold left
      omega
    rw [hleft, (walk_last hfork halgo).1] at hrow
    rw [lastRow_stopAt, lastRow_sameAlgo, ← hrow, lastRowOf]
    by_cases hc : s.countBlocks = 0
    · exact absurd hlast (by rw [hc]; decide)
    · by_cases hd : s.lastInRowDone = true
      · simp [hc, hd]
      · simp [hc, hd]

/-! ### The last block of the algorithm -/

@[simp] theorem lastDifficultyAlgo_seeTime (s : GravityWave) (m : Int) :
    (s.seeTime m).lastDifficultyAlgo = s.lastDifficultyAlgo := by
  unfold seeTime
  split <;> rfl

@[simp] theorem timeSinceLastAlgo_seeTime (s : GravityWave) (m : Int) :
    (s.seeTime m).timeSinceLastAlgo = s.timeSinceLastAlgo := by
  unfold seeTime
  split <;> rfl

@[simp] theorem lastDifficultyAlgo_otherAlgo (s : GravityWave) :
    s.otherAlgo.lastDifficultyAlgo = s.lastDifficultyAlgo := by
  unfold otherAlgo endRow
  split <;> rfl

@[simp] theorem timeSinceLastAlgo_otherAlgo (s : GravityWave) :
    s.otherAlgo.timeSinceLastAlgo = s.timeSinceLastAlgo := by
  unfold otherAlgo endRow
  split <;> rfl

@[simp] theorem lastBlockTimeOtherAlgos_otherAlgo (s : GravityWave) :
    s.otherAlgo.lastBlockTimeOtherAlgos = s.lastBlockTimeOtherAlgos := by
  unfold otherAlgo endRow
  split <;> rfl

@[simp] theorem lastDifficultyAlgo_beforeFork (s : GravityWave) (b : CBlockIndex) :
    (s.beforeFork b).lastDifficultyAlgo = s.lastDifficultyAlgo := by
  simp only [beforeFork, endRow]
  split <;> rfl

theorem timeSinceLastAlgo_beforeFork {s : GravityWave} (h : s.timeSinceLastAlgo ≠ -1)
    (b : CBlockIndex) : (s.beforeFork b).timeSinceLastAlgo = s.timeSinceLastAlgo := by
  simp only [beforeFork, endRow]
  split <;> simp [h]

@[simp] theorem lastDifficultyAlgo_stopAt (s : GravityWave) (m : Int) :
    (s.stopAt m).lastDifficultyAlgo = s.lastDifficultyAlgo := by
  unfold stopAt
  split <;> rfl

@[simp] theorem timeSinceLastAlgo_stopAt (s : GravityWave) (m : Int) :
    (s.stopAt m).timeSinceLastAlgo = s.timeSinceLastAlgo := by
  unfold stopAt
  split <;> rfl

/-- The loop takes the target of the last block of the algorithm and the time since it. -/
theorem loop_lastBlock {p rest : ChainIndex} {b : CBlockIndex} (hheight : nForkHeight ≤ p.length)
    (hlast : prevOfAlgo algo p = b :: rest)
    (htime : getMedianTimePast (b :: rest) < getMedianTimePast p) :
    (loop algo {} p).1.lastDifficultyAlgo = setCompact b.nBits ∧
      (loop algo {} p).1.timeSinceLastAlgo =
        (getMedianTimePast p : Int) - getMedianTimePast (b :: rest) := by
  have htip : ∀ (s : GravityWave) (q : ChainIndex),
      s.lastBlockTimeOtherAlgos = getMedianTimePast p ∨
        s.lastBlockTimeOtherAlgos = 0 ∧ getMedianTimePast q = getMedianTimePast p →
      (s.seeTime (getMedianTimePast q)).lastBlockTimeOtherAlgos = getMedianTimePast p := by
    intro s q h
    unfold seeTime
    rcases h with h | ⟨hzero, hq⟩
    · rw [if_neg (by omega), h]
    · rw [if_pos hzero, hq]
  -- a block of the algorithm is the last one when it is the first that is counted
  have hblock : ∀ (s : GravityWave) (c : CBlockIndex) (pprev : ChainIndex),
      onFork (c :: pprev) = true → getAlgo c.nVersion = algo →
      ((s.countBlocks = 0 ∧ prevOfAlgo algo (c :: pprev) = b :: rest ∧
        (s.lastBlockTimeOtherAlgos = getMedianTimePast p ∨ s.lastBlockTimeOtherAlgos = 0 ∧
          getMedianTimePast (c :: pprev) = getMedianTimePast p)) ∨
      (s.countBlocks ≠ 0 ∧ s.lastDifficultyAlgo = setCompact b.nBits ∧
        s.timeSinceLastAlgo = (getMedianTimePast p : Int) - getMedianTimePast (b :: rest))) →
      ((s.seeTime (getMedianTimePast (c :: pprev))).sameAlgo c
          (getMedianTimePast (c :: pprev))).lastDifficultyAlgo = setCompact b.nBits ∧
        ((s.seeTime (getMedianTimePast (c :: pprev))).sameAlgo c
          (getMedianTimePast (c :: pprev))).timeSinceLastAlgo =
            (getMedianTimePast p : Int) - getMedianTimePast (b :: rest) := by
    intro s c pprev hfork halgo h
    rw [sameAlgo_eq]
    rcases h with ⟨hzero, hprev, hseen⟩ | ⟨hcount, htarget, hsince⟩
    · rw [prevOfAlgo, if_pos hfork, if_pos halgo] at hprev
      obtain ⟨rfl, rfl⟩ := List.cons.inj hprev
      have hmax : 0 < (getMedianTimePast p : Int) := by omega
      simp only [countBlocks_seeTime, hzero, htip s _ hseen, hmax, and_self, if_true]
    · simp only [countBlocks_seeTime, hcount, false_and, if_false, lastDifficultyAlgo_seeTime,
        timeSinceLastAlgo_seeTime]
      exact ⟨htarget, hsince⟩
  refine loop_rule
    (P := fun s q ↦
      (s.countBlocks = 0 ∧ prevOfAlgo algo q = b :: rest ∧
        (s.lastBlockTimeOtherAlgos = getMedianTimePast p ∨
          s.lastBlockTimeOtherAlgos = 0 ∧ getMedianTimePast q = getMedianTimePast p)) ∨
      (s.countBlocks ≠ 0 ∧ s.lastDifficultyAlgo = setCompact b.nBits ∧
        s.timeSinceLastAlgo = (getMedianTimePast p : Int) - getMedianTimePast (b :: rest)))
    (Q := fun s _ ↦ s.lastDifficultyAlgo = setCompact b.nBits ∧
      s.timeSinceLastAlgo = (getMedianTimePast p : Int) - getMedianTimePast (b :: rest))
    ?_ ?_ ?_ ?_ (by decide) hheight (.inl ⟨rfl, hlast, .inr ⟨rfl, rfl⟩⟩)
  · intro s c pprev h hfork
    rcases h with ⟨-, hprev, -⟩ | ⟨-, htarget, hsince⟩
    · rw [prevOfAlgo, if_neg (by simp [hfork])] at hprev
      cases hprev
    · rw [lastDifficultyAlgo_beforeFork, timeSinceLastAlgo_beforeFork (by omega)]
      exact ⟨htarget, hsince⟩
  · intro s c pprev h hfork halgo
    simp only [countBlocks_otherAlgo, countBlocks_seeTime, lastDifficultyAlgo_otherAlgo,
      lastDifficultyAlgo_seeTime, timeSinceLastAlgo_otherAlgo, timeSinceLastAlgo_seeTime,
      lastBlockTimeOtherAlgos_otherAlgo]
    rcases h with ⟨hzero, hprev, hseen⟩ | h
    · rw [prevOfAlgo, if_pos hfork, if_neg halgo] at hprev
      exact .inl ⟨hzero, hprev, .inl (htip s _ hseen)⟩
    · exact .inr h
  · intro s c pprev h hfork halgo hnext
    exact .inr ⟨by simp, hblock s c pprev hfork halgo h⟩
  · intro s c pprev h hfork halgo hnext
    rw [lastDifficultyAlgo_stopAt, timeSinceLastAlgo_stopAt]
    exact hblock s c pprev hfork halgo h

end GravityWave

end Bitmark
