import Bitmark.Chain.Index
import Bitmark.Lib.Median

/-!
# Median time past

`AcceptBlock` asks that a block is later than the median time of its parent
(`src/main.cpp:2942`). Along a chain where every block is, the median time never falls, whatever
the window does at the fork: a block enters it above the median, and where the window is cut down to
two blocks the later of the two is the median.
-/

namespace Bitmark

open Median

/-- The times that `GetMedianTimePast` sorts. -/
abbrev medianWindow (p : ChainIndex) : List Nat := medianTimes nMedianTimeSpan false p

/-- Every block that has a parent is later than the median time of the parent. -/
def TimesPastMedian (p : ChainIndex) : Prop :=
  ∀ b pprev, b :: pprev <:+ p → pprev ≠ [] → getMedianTimePast pprev < b.nTime.toNat

variable {b : CBlockIndex} {p q : ChainIndex}

/-! ### The window -/

theorem length_medianTimes_le (i : Nat) (wasOnFork : Bool) (p : ChainIndex) :
    (medianTimes i wasOnFork p).length ≤ i := by
  induction i generalizing wasOnFork p with
  | zero => exact Nat.le_refl _
  | succ i ih =>
    cases p with
    | nil => exact Nat.zero_le _
    | cons b p =>
      rw [medianTimes]
      split
      · exact Nat.succ_le_succ (Nat.zero_le _)
      · exact Nat.succ_le_succ (ih _ _)

theorem medianTimes_eq_take (i : Nat) (wasOnFork : Bool) (p : ChainIndex) :
    medianTimes i wasOnFork p = (medianTimes (i + 1) wasOnFork p).take i := by
  induction i generalizing wasOnFork p with
  | zero => rfl
  | succ i ih =>
    cases p with
    | nil => rfl
    | cons b p =>
      rw [medianTimes, medianTimes]
      split
      · rw [List.take_succ_cons, List.take_nil]
      · rw [List.take_succ_cons, ih]

/-- A block on the fork makes no difference to what was seen before it. -/
theorem medianTimes_of_onFork {i : Nat} (h : onFork p = true) :
    medianTimes i true p = medianTimes i false p := by
  cases i with
  | zero => rfl
  | succ i =>
    cases p with
    | nil => rfl
    | cons b p => simp only [medianTimes, h, Bool.or_true]

/-- The window of a block is the block before the window of its parent, except for the first block
on the fork, whose window ends with its parent. -/
theorem medianWindow_cons (hp : p ≠ []) :
    (∃ c, medianWindow (b :: p) = [b.nTime.toNat, c]) ∨
      medianWindow (b :: p) = b.nTime.toNat :: (medianWindow p).take 10 := by
  have hfirst : medianWindow (b :: p) = b.nTime.toNat :: medianTimes 10 (onFork (b :: p)) p := by
    rw [medianWindow, nMedianTimeSpan, medianTimes]
    simp
  rw [hfirst, medianWindow, nMedianTimeSpan, ← medianTimes_eq_take]
  by_cases hb : onFork (b :: p) = true
  · by_cases hfork : onFork p = true
    · right
      rw [hb, medianTimes_of_onFork hfork]
    · left
      obtain ⟨c, rest, rfl⟩ := List.exists_cons_of_ne_nil hp
      refine ⟨c.nTime.toNat, ?_⟩
      rw [hb, medianTimes]
      simp [hfork]
  · right
    rw [Bool.eq_false_of_not_eq_true hb]

/-! ### The middle of the window -/

theorem medianWindow_ne_nil (hp : p ≠ []) : medianWindow p ≠ [] := by
  obtain ⟨b, rest, rfl⟩ := List.exists_cons_of_ne_nil hp
  rw [medianWindow, nMedianTimeSpan, medianTimes]
  split <;> exact List.cons_ne_nil _ _

theorem getElem?_sorted_window (hp : p ≠ []) :
    ((medianWindow p).insertionSort (· ≤ ·))[(medianWindow p).length / 2]? =
      some (getMedianTimePast p) := by
  have hlength : ((medianWindow p).insertionSort (· ≤ ·)).length = (medianWindow p).length :=
    List.length_insertionSort _ _
  have hpos := List.length_pos_iff.mpr (medianWindow_ne_nil hp)
  rw [getMedianTimePast, List.getD_eq_getElem?_getD, hlength, List.getElem?_eq_getElem (by omega)]
  rfl

/-- At most half of the window is below the median. -/
theorem countP_lt_getMedianTimePast (hp : p ≠ []) :
    (medianWindow p).countP (· < getMedianTimePast p) ≤ (medianWindow p).length / 2 := by
  rw [← (List.perm_insertionSort (· ≤ ·) (medianWindow p)).countP_eq]
  exact countP_lt_le (List.pairwise_insertionSort (· ≤ ·) _) (getElem?_sorted_window hp)

/-- What has at most half of the window below it is not above the median. -/
theorem le_getMedianTimePast {m : Nat} (hp : p ≠ [])
    (hcount : (medianWindow p).countP (· < m) ≤ (medianWindow p).length / 2) :
    m ≤ getMedianTimePast p := by
  rw [← (List.perm_insertionSort (· ≤ ·) (medianWindow p)).countP_eq] at hcount
  exact le_of_countP_lt_le (List.pairwise_insertionSort (· ≤ ·) _) (getElem?_sorted_window hp) hcount

/-- One block after the median of its parent does not lower it. -/
theorem getMedianTimePast_le_cons (hp : p ≠ []) (hb : getMedianTimePast p < b.nTime.toNat) :
    getMedianTimePast p ≤ getMedianTimePast (b :: p) := by
  apply le_getMedianTimePast (List.cons_ne_nil _ _)
  have hnew : ∀ l : List Nat, (b.nTime.toNat :: l).countP (· < getMedianTimePast p) =
      l.countP (· < getMedianTimePast p) := by
    intro l
    apply List.countP_cons_of_neg
    rw [decide_eq_true_eq]
    omega
  rcases medianWindow_cons (b := b) hp with ⟨c, hshort⟩ | hslide
  · have hone : [c].countP (· < getMedianTimePast p) ≤ 1 := List.countP_le_length
    rw [hshort, hnew, List.length_cons, List.length_singleton]
    exact hone
  · have hold := countP_lt_getMedianTimePast hp
    have htake := ((medianWindow p).take_sublist 10).countP_le (p := (· < getMedianTimePast p))
    have hlength : (medianWindow p).length ≤ 11 := length_medianTimes_le nMedianTimeSpan false p
    rw [hslide, hnew, List.length_cons, List.length_take]
    omega

/-! ### Along a chain -/

theorem timesPastMedian_cons :
    TimesPastMedian (b :: p) ↔
      (p ≠ [] → getMedianTimePast p < b.nTime.toNat) ∧ TimesPastMedian p := by
  constructor
  · intro h
    exact ⟨h b p List.suffix_rfl, fun c pprev hc ↦ h c pprev (hc.trans (List.suffix_cons _ _))⟩
  · rintro ⟨hb, hp⟩ c pprev hc hne
    rcases List.suffix_cons_iff.mp hc with heq | hsuffix
    · obtain ⟨rfl, rfl⟩ := List.cons.inj heq
      exact hb hne
    · exact hp c pprev hsuffix hne

theorem timesPastMedian_nil : TimesPastMedian [] := by
  intro b pprev h
  cases List.suffix_nil.mp h

instance decidableTimesPastMedian : (p : ChainIndex) → Decidable (TimesPastMedian p)
  | [] => isTrue timesPastMedian_nil
  | _ :: p =>
    have := decidableTimesPastMedian p
    decidable_of_iff _ timesPastMedian_cons.symm

/-- The median time past of a block is not below that of any of its ancestors. -/
theorem getMedianTimePast_mono (htimes : TimesPastMedian p) (hq : q <:+ p) (hne : q ≠ []) :
    getMedianTimePast q ≤ getMedianTimePast p := by
  induction p with
  | nil => exact absurd (List.suffix_nil.mp hq) hne
  | cons b p ih =>
    rcases List.suffix_cons_iff.mp hq with rfl | hsuffix
    · exact Nat.le_refl _
    have hp : p ≠ [] := by
      rintro rfl
      exact hne (List.suffix_nil.mp hsuffix)
    obtain ⟨hb, hrest⟩ := timesPastMedian_cons.mp htimes
    exact (ih hrest hsuffix).trans (getMedianTimePast_le_cons hp (hb hp))

/-- Blocks of version 4, one every ten minutes. -/
def everyTenMinutes (n : Nat) : ChainIndex :=
  (List.range n).reverse.map fun k ↦ ⟨BitVec.ofNat 256 k, 4, BitVec.ofNat 32 (600 * k), 0, 0, 0⟩

/-- The first blocks on the fork, of which the first is earlier than its parent. -/
def acrossFork : ChainIndex :=
  ⟨201, 4, 119500, 0, 0, 0⟩ :: ⟨200, 4, 117000, 0, 0, 0⟩ :: everyTenMinutes 200

/-- Where the window is cut at the fork. -/
theorem getMedianTimePast_mono_sample :
    onFork (everyTenMinutes 200) = false ∧ onFork acrossFork = true ∧
      getMedianTimePast (everyTenMinutes 200) ≤ getMedianTimePast acrossFork := by
  refine ⟨by decide +kernel, by decide +kernel, ?_⟩
  apply getMedianTimePast_mono
  · decide +kernel
  · exact ⟨[⟨201, 4, 119500, 0, 0, 0⟩, ⟨200, 4, 117000, 0, 0, 0⟩], rfl⟩
  · apply List.ne_nil_of_length_pos
    rw [everyTenMinutes, List.length_map, List.length_reverse, List.length_range]
    exact Nat.zero_lt_succ 199

end Bitmark
