import Mathlib.Data.List.Sort
import Bitmark.Primitives.Pow

/-!
# The block index

A `CBlockIndex*` is modelled by the list of index entries from the block back to genesis, newest
first: the null pointer is the empty list, `pprev` is the tail and `nHeight` is the length of the
tail. The functions are those of `src/core.h:906–1128` and `src/main.cpp:4966–5003` that walk
such chains.
-/

namespace Bitmark

/-- The fields of `CBlockIndex` that validation reads or writes. -/
structure CBlockIndex where
  blockHash : Uint256
  nVersion : Version
  nTime : BitVec 32
  nBits : BitVec 32
  nMoneySupply : Int := 0
  subsidyScalingFactor : Nat := 0
deriving DecidableEq, Repr

/-- A pointer to an index entry: the entry and its ancestors, newest first. -/
abbrev ChainIndex := List CBlockIndex

/-- `nForkHeight`, `src/core.h:898`. -/
def nForkHeight : Nat := 200

/-- `nSSF`, `src/core.h:21`. -/
def nSSF : Nat := 90

/-- `nMedianTimeSpan`, `src/core.h:1031`. -/
def nMedianTimeSpan : Nat := 11

/-- The loop of `IsSuperMajority`: `i` more entries may be looked at. -/
def superMajorityLoop (minVersion nRequired : Nat) : Nat → Nat → ChainIndex → Nat
  | 0, nFound, _ => nFound
  | _ + 1, nFound, [] => nFound
  | i + 1, nFound, pstart :: pprev =>
    if nFound < nRequired then
      superMajorityLoop minVersion nRequired i
        (if minVersion ≤ getBlockVersion pstart.nVersion then nFound + 1 else nFound) pprev
    else nFound

/-- `CBlockIndex::IsSuperMajority`, `src/core.cpp:348`. -/
def isSuperMajority (minVersion : Nat) (pstart : ChainIndex) (nRequired nToCheck : Nat) : Bool :=
  nRequired ≤ superMajorityLoop minVersion nRequired nToCheck 0 pstart

/-- `CBlockIndex::onFork`, `src/core.h:925`: it depends on the ancestors only. -/
def onFork : ChainIndex → Bool
  | [] => false
  | _ :: pprev => nForkHeight ≤ pprev.length && isSuperMajority 4 pprev 75 100

/-- `CBlockIndex::onFork2`, `src/core.h:930`: not activated. -/
def onFork2 (_ : ChainIndex) : Bool := false

/-- `CBlockIndex::onFork3`, `src/core.h:935`: not activated. -/
def onFork3 (_ : ChainIndex) : Bool := false

/-- The walk of `get_pprev_algo` from the parent on. -/
def prevOfAlgo (algo : Algo) : ChainIndex → ChainIndex
  | [] => []
  | pprev :: rest =>
    if onFork (pprev :: rest) then
      if getAlgo pprev.nVersion = algo then pprev :: rest else prevOfAlgo algo rest
    else []

/-- `get_pprev_algo`, `src/main.cpp:4966`; `none` stands for `use_algo = -1`. -/
def getPprevAlgo (p : ChainIndex) (useAlgo : Option Algo := none) : ChainIndex :=
  match p with
  | [] => []
  | b :: pprev =>
    if onFork (b :: pprev) then prevOfAlgo (useAlgo.getD (getAlgo b.nVersion)) pprev else []

/-- The times `GetMedianTimePast` collects, newest first: it stops after the first block before
the fork once it has seen one on it. -/
def medianTimes : Nat → Bool → ChainIndex → List Nat
  | 0, _, _ => []
  | _ + 1, _, [] => []
  | i + 1, wasOnFork, b :: pprev =>
    let wasOnFork := wasOnFork || onFork (b :: pprev)
    if wasOnFork && !onFork (b :: pprev) then [b.nTime.toNat]
    else b.nTime.toNat :: medianTimes i wasOnFork pprev

/-- `CBlockIndex::GetMedianTimePast`, `src/core.h:1033`. -/
def getMedianTimePast (pindex : ChainIndex) : Nat :=
  let times := (medianTimes nMedianTimeSpan false pindex).insertionSort (· ≤ ·)
  times.getD (times.length / 2) 0

/-- `CBlockIndex::GetBlockWorkBoost`, `src/core.h:1000`. -/
def CBlockIndex.getBlockWorkBoost (b : CBlockIndex) : Nat :=
  let bnTarget := setCompact b.nBits
  if bnTarget ≤ 0 then 0
  else 2 ^ 256 / (bnTarget.toNat / getAlgoWeight (getAlgo b.nVersion) + 1)

/-! ### The supermajority count -/

private theorem superMajorityLoop_ge (minVersion nRequired i nFound : Nat) (p : ChainIndex) :
    nRequired ≤ superMajorityLoop minVersion nRequired i nFound p ↔
      nRequired ≤ nFound +
        (p.take i).countP fun b ↦ decide (minVersion ≤ getBlockVersion b.nVersion) := by
  induction i generalizing nFound p with
  | zero => simp [superMajorityLoop]
  | succ i ih =>
    cases p with
    | nil => simp [superMajorityLoop]
    | cons b p =>
      rw [superMajorityLoop]
      split
      · rw [ih, List.take_succ_cons, List.countP_cons]
        by_cases hb : minVersion ≤ getBlockVersion b.nVersion
        · simp only [hb, decide_true, if_true]
          omega
        · simp only [hb, decide_false, Bool.false_eq_true, if_false]
          omega
      · omega

/-- `IsSuperMajority` counts the versions in a window, whether or not it stops early. -/
theorem isSuperMajority_iff (minVersion nRequired nToCheck : Nat) (p : ChainIndex) :
    isSuperMajority minVersion p nRequired nToCheck = true ↔
      nRequired ≤ (p.take nToCheck).countP fun b ↦
        decide (minVersion ≤ getBlockVersion b.nVersion) := by
  rw [isSuperMajority, decide_eq_true_eq, superMajorityLoop_ge, Nat.zero_add]

/-! ### Walking back along an algorithm -/

/-- A walk ends in an entry on the fork of the wanted algorithm, or finds none. -/
theorem prevOfAlgo_spec (algo : Algo) (p : ChainIndex) :
    prevOfAlgo algo p = [] ∨ ∃ b rest, prevOfAlgo algo p = b :: rest ∧
      onFork (b :: rest) = true ∧ getAlgo b.nVersion = algo ∧ (b :: rest) <:+ p := by
  induction p with
  | nil => exact .inl rfl
  | cons b rest ih =>
    rw [prevOfAlgo]
    split
    · next hfork =>
      split
      · next halgo => exact .inr ⟨b, rest, rfl, hfork, halgo, List.suffix_rfl⟩
      · rcases ih with h | ⟨c, rest', h, hf, ha, hsuf⟩
        · exact .inl h
        · exact .inr ⟨c, rest', h, hf, ha, hsuf.trans (List.suffix_cons _ _)⟩
    · exact .inl rfl

/-- The previous block of the algorithm is a proper ancestor. -/
theorem getPprevAlgo_suffix (b : CBlockIndex) (pprev : ChainIndex) (useAlgo : Option Algo) :
    getPprevAlgo (b :: pprev) useAlgo <:+ pprev := by
  unfold getPprevAlgo
  simp only
  split
  · rcases prevOfAlgo_spec (useAlgo.getD (getAlgo b.nVersion)) pprev with
      h | ⟨c, rest, h, -, -, hsuf⟩
    · rw [h]
      exact List.nil_suffix
    · rw [h]
      exact hsuf
  · exact List.nil_suffix

theorem length_getPprevAlgo_lt {p : ChainIndex} (hp : p ≠ []) (useAlgo : Option Algo) :
    (getPprevAlgo p useAlgo).length < p.length := by
  cases p with
  | nil => exact absurd rfl hp
  | cons b pprev =>
    have := (getPprevAlgo_suffix b pprev useAlgo).length_le
    simp only [List.length_cons]
    omega

end Bitmark
