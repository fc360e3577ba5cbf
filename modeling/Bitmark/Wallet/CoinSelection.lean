import Bitmark.Lib.Shuffle
import Bitmark.Primitives.Transaction
import Mathlib.Algebra.BigOperators.Group.List.Basic
import Mathlib.Algebra.BigOperators.Group.Finset.Basic
import Mathlib.Algebra.Order.BigOperators.Group.List

/-!
# Coin selection

`SelectCoinsMinConf` and the random search it makes use of (`src/wallet.cpp:1151–1296`). Amounts are
of `int64_t`, and nothing checks the sums of them: the target with a cent on top, and the totals,
wrap around where they leave its range.
-/

namespace Bitmark

/-- `COutput`; transactions are known by their addresses. -/
structure COutput (ω : Type) where
  tx : ω
  i : ℕ
  nDepth : ℤ
  fSpendable : Bool
deriving DecidableEq

/-- What the wallet has of its transactions: `vout[i].nValue` and `IsFromMe(ISMINE_ALL)`. -/
structure WalletTxs (ω : Type) where
  nValue : ω → ℕ → ℤ
  isFromMe : ω → Bool

/-! ### The random search -/

/-- The variables of `ApproximateBestSubset`. -/
structure SubsetSearch where
  vfIncluded : List Bool
  nTotal : ℤ
  fReachedTarget : Bool
  vfBest : List Bool
  nBest : ℤ
deriving DecidableEq

namespace SubsetSearch

/-- The value at a position is added, and taken away again where it reaches the target. -/
def tryValue (nTargetValue : ℤ) (i : ℕ) (n : ℤ) (s : SubsetSearch) : SubsetSearch :=
  let nTotal := toInt64 (s.nTotal + n)
  let vfIncluded := s.vfIncluded.set i true
  if nTotal ≥ nTargetValue then
    let best := if nTotal < s.nBest then (nTotal, vfIncluded) else (s.nBest, s.vfBest)
    { vfIncluded := vfIncluded.set i false
      nTotal := toInt64 (nTotal - n)
      fReachedTarget := true
      nBest := best.1
      vfBest := best.2 }
  else { s with nTotal := nTotal, vfIncluded := vfIncluded }

/-- One pass over the values from position `i` on. -/
def pass (nTargetValue : ℤ) (pick : ℕ → List Bool → Bool) :
    List ℤ → ℕ → SubsetSearch → SubsetSearch
  | [], _, s => s
  | n :: values, i, s =>
    pass nTargetValue pick values (i + 1)
      (if pick i s.vfIncluded then s.tryValue nTargetValue i n else s)

/-- One repetition: a pass over values drawn at random, and one over those that are left. -/
def repetition (values : List ℤ) (nTargetValue : ℤ) (rand : ℕ → ℕ) (s : SubsetSearch) :
    SubsetSearch :=
  let s := { s with
    vfIncluded := List.replicate values.length false
    nTotal := 0
    fReachedTarget := false }
  let s := s.pass nTargetValue (fun i _ ↦ rand i % 2 = 1) values 0
  if s.fReachedTarget then s
  else s.pass nTargetValue (fun i vfIncluded ↦ vfIncluded[i]? = some false) values 0

/-- The repetitions that are left, from number `nRep` on. -/
def repetitions (values : List ℤ) (nTargetValue : ℤ) (rand : ℕ → ℕ → ℕ) :
    ℕ → ℕ → SubsetSearch → SubsetSearch
  | 0, _, s => s
  | left + 1, nRep, s =>
    if s.nBest = nTargetValue then s
    else
      repetitions values nTargetValue rand left (nRep + 1)
        (s.repetition values nTargetValue (rand nRep))

end SubsetSearch

/-- `ApproximateBestSubset`, `src/wallet.cpp:1151`, with `vfBest` and `nBest`. The draws are those of
`insecure_rand` by repetition and position. -/
def approximateBestSubset (values : List ℤ) (nTotalLower nTargetValue : ℤ) (rand : ℕ → ℕ → ℕ)
    (iterations : ℕ) : List Bool × ℤ :=
  let s := SubsetSearch.repetitions values nTargetValue rand iterations 0
    { vfIncluded := []
      nTotal := 0
      fReachedTarget := false
      vfBest := List.replicate values.length true
      nBest := nTotalLower }
  (s.vfBest, s.nBest)

/-! ### The selection -/

/-- `random_shuffle` exchanges each position with a random one up to it. -/
def randomShuffle {α : Type} (draw : ℕ → ℕ) (l : List α) : List α :=
  Shuffle.rounds (fun k ↦ draw k % (k + 1)) l.length l

/-- A coin with its value. -/
abbrev ValuedCoin (ω : Type) := ℤ × (ω × ℕ)

/-- The coins by value, and the smallest of those that are larger; without one its value is
`std::numeric_limits<int64_t>::max()`. -/
structure CollectedCoins (ω : Type) where
  vValue : List (ValuedCoin ω) := []
  nTotalLower : ℤ := 0
  lowestLargerValue : ℤ := 2 ^ 63 - 1
  lowestLarger : Option (ω × ℕ) := none

/-- What `SelectCoinsMinConf` returns. -/
structure Selection (ω : Type) where
  found : Bool
  setCoinsRet : Finset (ω × ℕ)
  nValueRet : ℤ
deriving DecidableEq

/-- The random numbers of a selection. -/
structure SelectionDraws where
  shuffle : ℕ → ℕ
  first : ℕ → ℕ → ℕ
  second : ℕ → ℕ → ℕ

namespace WalletTxs

variable {ω : Type} (W : WalletTxs ω)

/-- `nTargetValue + CENT`. -/
def withCent (nTargetValue : ℤ) : ℤ := toInt64 (nTargetValue + cent)

/-- Spendable, with the confirmations that are asked for. -/
def eligible (nConfMine nConfTheirs : ℤ) (output : COutput ω) : Bool :=
  output.fSpendable &&
    !(output.nDepth < if W.isFromMe output.tx then nConfMine else nConfTheirs)

/-- The loop over the outputs; on the left a coin of exactly the target. -/
def collectCoins (nTargetValue nConfMine nConfTheirs : ℤ) :
    List (COutput ω) → CollectedCoins ω → ValuedCoin ω ⊕ CollectedCoins ω
  | [], c => .inr c
  | output :: vCoins, c =>
    if !W.eligible nConfMine nConfTheirs output then
      collectCoins nTargetValue nConfMine nConfTheirs vCoins c
    else
      let n := W.nValue output.tx output.i
      let coin := (n, (output.tx, output.i))
      if n = nTargetValue then .inl coin
      else if n < withCent nTargetValue then
        collectCoins nTargetValue nConfMine nConfTheirs vCoins
          { c with vValue := c.vValue ++ [coin], nTotalLower := toInt64 (c.nTotalLower + n) }
      else if n < c.lowestLargerValue then
        collectCoins nTargetValue nConfMine nConfTheirs vCoins
          { c with lowestLargerValue := n, lowestLarger := some coin.2 }
      else collectCoins nTargetValue nConfMine nConfTheirs vCoins c

/-- The coins inserted one by one, and their values added up. -/
def selectionOf [DecidableEq ω] (coins : List (ValuedCoin ω)) : Selection ω where
  found := true
  setCoinsRet := (coins.map Prod.snd).toFinset
  nValueRet := coins.foldl (fun nValueRet coin ↦ toInt64 (nValueRet + coin.1)) 0

/-- The searches of `SelectCoinsMinConf`: for the target, and for one with change. -/
def bestSubset (values : List ℤ) (nTotalLower nTargetValue : ℤ) (draws : SelectionDraws) :
    List Bool × ℤ :=
  let first := approximateBestSubset values nTotalLower nTargetValue draws.first 1000
  if first.2 ≠ nTargetValue ∧ nTotalLower ≥ withCent nTargetValue then
    approximateBestSubset values nTotalLower (withCent nTargetValue) draws.second 1000
  else first

/-- `SelectCoinsMinConf` from the comment on the subset sum on: the coins by falling value, the
searches, and the larger coin where it is better. -/
def solveSubsetSum [DecidableEq ω] (nTargetValue : ℤ) (c : CollectedCoins ω)
    (draws : SelectionDraws) : Selection ω :=
  let vValue := c.vValue.mergeSort fun t1 t2 ↦ t2.1 ≤ t1.1
  let best := bestSubset (vValue.map Prod.fst) c.nTotalLower nTargetValue draws
  let subset := selectionOf (((vValue.zip best.1).filter Prod.snd).map Prod.fst)
  match c.lowestLarger with
  | some coin =>
    if (best.2 ≠ nTargetValue ∧ best.2 < withCent nTargetValue) ∨ c.lowestLargerValue ≤ best.2 then
      selectionOf [(c.lowestLargerValue, coin)]
    else subset
  | none => subset

/-- `SelectCoinsMinConf`, `src/wallet.cpp:1201`. -/
def selectCoinsMinConf [DecidableEq ω] (nTargetValue nConfMine nConfTheirs : ℤ)
    (vCoins : List (COutput ω)) (draws : SelectionDraws) : Selection ω :=
  match W.collectCoins nTargetValue nConfMine nConfTheirs (randomShuffle draws.shuffle vCoins) {} with
  | .inl coin => selectionOf [coin]
  | .inr c =>
    if c.nTotalLower = nTargetValue then selectionOf c.vValue
    else if c.nTotalLower < nTargetValue then
      match c.lowestLarger with
      | none => ⟨false, ∅, 0⟩
      | some coin => selectionOf [(c.lowestLargerValue, coin)]
    else solveSubsetSum nTargetValue c draws

end WalletTxs

/-! ### What the search finds -/

/-- The sum of the values that are included. -/
def selectedSum : List ℤ → List Bool → ℤ
  | n :: values, fIncluded :: vfIncluded =>
    (if fIncluded then n else 0) + selectedSum values vfIncluded
  | _, _ => 0

theorem selectedSum_none (values : List ℤ) :
    selectedSum values (List.replicate values.length false) = 0 := by
  induction values with
  | nil => rfl
  | cons n values ih =>
    rw [List.length_cons, List.replicate_succ, selectedSum, ih]
    rfl

theorem selectedSum_all (values : List ℤ) :
    selectedSum values (List.replicate values.length true) = values.sum := by
  induction values with
  | nil => rfl
  | cons n values ih =>
    rw [List.length_cons, List.replicate_succ, selectedSum, ih, List.sum_cons]
    rfl

theorem selectedSum_set {values : List ℤ} {vfIncluded : List Bool} {i : ℕ} {n : ℤ}
    (hn : values[i]? = some n) (hi : vfIncluded[i]? = some false) :
    selectedSum values (vfIncluded.set i true) = selectedSum values vfIncluded + n := by
  induction values generalizing vfIncluded i with
  | nil => cases hn
  | cons m values ih =>
    cases vfIncluded with
    | nil => cases hi
    | cons fIncluded vfIncluded =>
      cases i with
      | zero =>
        obtain rfl := Option.some.inj hn
        obtain rfl := Option.some.inj hi
        rw [List.set_cons_zero, selectedSum, selectedSum, if_pos rfl, if_neg Bool.false_ne_true]
        omega
      | succ i =>
        rw [List.set_cons_succ, selectedSum, selectedSum, ih hn hi]
        omega

theorem sum_filter_zip {α : Type} (f : α → ℤ) (l : List α) (vf : List Bool) :
    ((((l.zip vf).filter Prod.snd).map Prod.fst).map f).sum = selectedSum (l.map f) vf := by
  induction l generalizing vf with
  | nil => rfl
  | cons a l ih =>
    cases vf with
    | nil => rfl
    | cons b vf =>
      rw [List.zip_cons_cons, List.map_cons, selectedSum, ← ih]
      cases b with
      | true => rfl
      | false => exact (zero_add _).symm

namespace SubsetSearch

variable {values : List ℤ} {nTargetValue : ℤ} {s : SubsetSearch}

/-- The totals are those of the values that are included, and the best one reaches the target. -/
structure Sound (values : List ℤ) (nTargetValue : ℤ) (s : SubsetSearch) : Prop where
  nTotal : s.nTotal = toInt64 (selectedSum values s.vfIncluded)
  nBest : s.nBest = toInt64 (selectedSum values s.vfBest)
  target_le : nTargetValue ≤ s.nBest

theorem set_set_false {vf : List Bool} {i : ℕ} (hi : vf[i]? = some false) :
    (vf.set i true).set i false = vf := by
  obtain ⟨hlt, hget⟩ := List.getElem?_eq_some_iff.mp hi
  rw [List.set_set, ← hget, List.set_getElem_self]

theorem Sound.tryValue (h : s.Sound values nTargetValue) {i : ℕ} {n : ℤ}
    (hn : values[i]? = some n) (hi : s.vfIncluded[i]? = some false) :
    (s.tryValue nTargetValue i n).Sound values nTargetValue := by
  have hadd : toInt64 (s.nTotal + n) = toInt64 (selectedSum values (s.vfIncluded.set i true)) := by
    rw [selectedSum_set hn hi, h.nTotal, toInt64_add_toInt64]
  rw [SubsetSearch.tryValue]
  split
  case isTrue hreached =>
    refine ⟨?_, ?_, ?_⟩
    · change toInt64 (toInt64 (s.nTotal + n) - n) =
        toInt64 (selectedSum values ((s.vfIncluded.set i true).set i false))
      rw [set_set_false hi, hadd, sub_eq_add_neg, toInt64_add_toInt64, selectedSum_set hn hi,
        add_neg_cancel_right]
    · dsimp only
      split
      · exact hadd
      · exact h.nBest
    · dsimp only
      split
      · exact hreached
      · exact h.target_le
  case isFalse =>
    exact ⟨hadd, h.nBest, h.target_le⟩

/-- No position but the one that is tried changes, and that one is only ever set. -/
theorem getElem?_tryValue {i j : ℕ} (n : ℤ) (hj : j ≠ i) :
    (s.tryValue nTargetValue i n).vfIncluded[j]? = s.vfIncluded[j]? := by
  rw [SubsetSearch.tryValue]
  split
  · change ((s.vfIncluded.set i true).set i false)[j]? = _
    rw [List.getElem?_set_ne hj.symm, List.getElem?_set_ne hj.symm]
  · exact List.getElem?_set_ne hj.symm

/-- What each position of a pass keeps, the pass keeps. -/
theorem pass_invariant {pick : ℕ → List Bool → Bool} {P : ℕ → SubsetSearch → Prop}
    (hstep : ∀ i n s, values[i]? = some n → P i s →
      P (i + 1) (if pick i s.vfIncluded then s.tryValue nTargetValue i n else s))
    (h : P 0 s) : P values.length (s.pass nTargetValue pick values 0) := by
  suffices hdrop : ∀ rest i s, values.drop i = rest → i ≤ values.length → P i s →
      P values.length (s.pass nTargetValue pick rest i) from
    hdrop values 0 s rfl (Nat.zero_le _) h
  intro rest
  induction rest with
  | nil =>
    intro i s hrest hle hi
    have hlength := congrArg List.length hrest
    rw [List.length_drop, List.length_nil] at hlength
    obtain rfl : i = values.length := by omega
    exact hi
  | cons n rest ih =>
    intro i s hrest _ hi
    have hn : values[i]? = some n := by
      have hhead := congrArg List.head? hrest
      rwa [List.head?_drop] at hhead
    have hlt : i < values.length := (List.getElem?_eq_some_iff.mp hn).1
    refine ih (i + 1) _ ?_ hlt (hstep i n s hn hi)
    rw [← List.tail_drop, hrest, List.tail_cons]

theorem Sound.pass_random (h : s.Sound values nTargetValue) (rand : ℕ → ℕ)
    (hnone : ∀ i < values.length, s.vfIncluded[i]? = some false) :
    (s.pass nTargetValue (fun i _ ↦ rand i % 2 = 1) values 0).Sound values nTargetValue := by
  -- the positions that come later are not included
  let P := fun (i : ℕ) (s : SubsetSearch) ↦ s.Sound values nTargetValue ∧
    ∀ j, i ≤ j → j < values.length → s.vfIncluded[j]? = some false
  refine (pass_invariant (P := P) (fun i n s hn ⟨hs, hlater⟩ ↦ ?_)
    ⟨h, fun j _ hj ↦ hnone j hj⟩).1
  split
  · have hi := hlater i le_rfl (List.getElem?_eq_some_iff.mp hn).1
    refine ⟨hs.tryValue hn hi, fun j hj hlt ↦ ?_⟩
    rw [getElem?_tryValue n (by omega)]
    exact hlater j (by omega) hlt
  · exact ⟨hs, fun j hj hlt ↦ hlater j (by omega) hlt⟩

theorem Sound.pass_rest (h : s.Sound values nTargetValue) :
    (s.pass nTargetValue (fun i vfIncluded ↦ vfIncluded[i]? = some false) values 0).Sound
      values nTargetValue := by
  refine pass_invariant (P := fun _ s ↦ s.Sound values nTargetValue) (fun i n s hn hs ↦ ?_) h
  split
  case isTrue hi => exact hs.tryValue hn (of_decide_eq_true hi)
  case isFalse => exact hs

theorem Sound.repetition (h : s.Sound values nTargetValue) (rand : ℕ → ℕ) :
    (s.repetition values nTargetValue rand).Sound values nTargetValue := by
  let start : SubsetSearch := { s with
    vfIncluded := List.replicate values.length false
    nTotal := 0
    fReachedTarget := false }
  have hstart : start.Sound values nTargetValue :=
    ⟨by rw [selectedSum_none]; rfl, h.nBest, h.target_le⟩
  have hfirst := hstart.pass_random rand fun i hi ↦ List.getElem?_replicate_of_lt hi
  rw [SubsetSearch.repetition]
  split
  · exact hfirst
  · exact hfirst.pass_rest

theorem Sound.repetitions (h : s.Sound values nTargetValue) (rand : ℕ → ℕ → ℕ) (left nRep : ℕ) :
    (repetitions values nTargetValue rand left nRep s).Sound values nTargetValue := by
  induction left generalizing s nRep with
  | zero => exact h
  | succ left ih =>
    rw [SubsetSearch.repetitions]
    split
    · exact h
    · exact ih (h.repetition (rand nRep)) (nRep + 1)

end SubsetSearch

/-- Whatever is drawn, the best total is that of the best set, and reaches the target. -/
theorem approximateBestSubset_spec {values : List ℤ} {nTotalLower nTargetValue : ℤ}
    (htotal : nTotalLower = toInt64 values.sum) (h : nTargetValue ≤ nTotalLower)
    (rand : ℕ → ℕ → ℕ) (iterations : ℕ) :
    let r := approximateBestSubset values nTotalLower nTargetValue rand iterations
    r.2 = toInt64 (selectedSum values r.1) ∧ nTargetValue ≤ r.2 := by
  let s : SubsetSearch :=
    { vfIncluded := []
      nTotal := 0
      fReachedTarget := false
      vfBest := List.replicate values.length true
      nBest := nTotalLower }
  have hs : s.Sound values nTargetValue := by
    refine ⟨?_, ?_, h⟩
    · cases values <;> rfl
    · rw [selectedSum_all]
      exact htotal
  have hsound := hs.repetitions rand iterations 0
  exact ⟨hsound.nBest, hsound.target_le⟩

/-! ### What the loop collects -/

namespace WalletTxs

variable {ω : Type} (W : WalletTxs ω) (nTargetValue nConfMine nConfTheirs : ℤ)

/-- The value of a coin. -/
def value (coin : ω × ℕ) : ℤ := W.nValue coin.1 coin.2

/-- The coins of the eligible outputs. -/
def eligibleCoins (vCoins : List (COutput ω)) : List (ω × ℕ) :=
  (vCoins.filter (W.eligible nConfMine nConfTheirs)).map fun output ↦ (output.tx, output.i)

/-- A coin beside its value. -/
def withValue (coin : ω × ℕ) : ValuedCoin ω := (W.value coin, coin)

/-- What is collected of these coins. -/
structure Collects (coins : List (ω × ℕ)) (c : CollectedCoins ω) : Prop where
  vValue : c.vValue = (coins.filter (W.value · < withCent nTargetValue)).map W.withValue
  nTotalLower : c.nTotalLower = toInt64 (c.vValue.map Prod.fst).sum
  ne_target : ∀ coin ∈ coins, W.value coin ≠ nTargetValue
  noLarger : c.lowestLarger = none →
    c.lowestLargerValue = 2 ^ 63 - 1 ∧ ∀ coin ∈ coins, W.value coin < withCent nTargetValue
  larger : ∀ coin, c.lowestLarger = some coin →
    coin ∈ coins ∧ c.lowestLargerValue = W.value coin ∧ withCent nTargetValue ≤ W.value coin

variable {W nTargetValue nConfMine nConfTheirs} {coins : List (ω × ℕ)} {c : CollectedCoins ω}
  {coin : ω × ℕ}

theorem Collects.addLower (h : W.Collects nTargetValue coins c) (hne : W.value coin ≠ nTargetValue)
    (hlt : W.value coin < withCent nTargetValue) :
    W.Collects nTargetValue (coins ++ [coin])
      { c with
        vValue := c.vValue ++ [W.withValue coin]
        nTotalLower := toInt64 (c.nTotalLower + W.value coin) } where
  vValue := by
    rw [List.filter_append, List.map_append, ← h.vValue, List.filter_singleton, decide_eq_true hlt]
    rfl
  nTotalLower := by
    change toInt64 (c.nTotalLower + W.value coin) = _
    rw [List.map_append, List.sum_append, List.map_singleton, List.sum_singleton, h.nTotalLower,
      toInt64_add_toInt64]
    rfl
  ne_target := List.forall_mem_append.mpr ⟨h.ne_target, List.forall_mem_singleton.mpr hne⟩
  noLarger hnone := ⟨(h.noLarger hnone).1,
    List.forall_mem_append.mpr ⟨(h.noLarger hnone).2, List.forall_mem_singleton.mpr hlt⟩⟩
  larger coin' hlarger := by
    obtain ⟨hmem, hvalue, hle⟩ := h.larger coin' hlarger
    exact ⟨List.mem_append_left _ hmem, hvalue, hle⟩

theorem Collects.addLarger (h : W.Collects nTargetValue coins c) (hne : W.value coin ≠ nTargetValue)
    (hle : withCent nTargetValue ≤ W.value coin) (hmax : W.value coin < 2 ^ 63 - 1) :
    W.Collects nTargetValue (coins ++ [coin])
      (if W.value coin < c.lowestLargerValue then
        { c with lowestLargerValue := W.value coin, lowestLarger := some coin }
      else c) := by
  have hfilter : ((coins ++ [coin]).filter (W.value · < withCent nTargetValue)) =
      coins.filter (W.value · < withCent nTargetValue) := by
    rw [List.filter_append, List.filter_singleton, decide_eq_false (not_lt.mpr hle)]
    exact List.append_nil _
  have hall : ∀ coin' ∈ coins ++ [coin], W.value coin' ≠ nTargetValue :=
    List.forall_mem_append.mpr ⟨h.ne_target, List.forall_mem_singleton.mpr hne⟩
  have hself : coin ∈ coins ++ [coin] := List.mem_append_right _ List.mem_cons_self
  split
  case isTrue hlt =>
    refine ⟨by rw [hfilter, h.vValue], h.nTotalLower, hall, nofun,
      fun coin' hlarger ↦ ?_⟩
    obtain rfl := Option.some.inj hlarger
    exact ⟨hself, rfl, hle⟩
  case isFalse hnot =>
    refine ⟨by rw [hfilter, h.vValue], h.nTotalLower, hall, fun hnone ↦ ?_, fun coin' hlarger ↦ ?_⟩
    · rw [(h.noLarger hnone).1] at hnot
      exact absurd hmax hnot
    · obtain ⟨hmem, hvalue, hle⟩ := h.larger coin' hlarger
      exact ⟨List.mem_append_left _ hmem, hvalue, hle⟩

/-- The loop stops at an eligible coin of the target, or collects all that are eligible. -/
theorem collectCoins_spec (vCoins : List (COutput ω)) (h : W.Collects nTargetValue coins c)
    (hmax : ∀ coin ∈ W.eligibleCoins nConfMine nConfTheirs vCoins, W.value coin < 2 ^ 63 - 1) :
    let r := W.collectCoins nTargetValue nConfMine nConfTheirs vCoins c
    (∀ found, r = .inl found → found.2 ∈ W.eligibleCoins nConfMine nConfTheirs vCoins ∧
        found = W.withValue found.2 ∧ found.1 = nTargetValue) ∧
      ∀ c', r = .inr c' →
        W.Collects nTargetValue (coins ++ W.eligibleCoins nConfMine nConfTheirs vCoins) c' := by
  induction vCoins generalizing coins c with
  | nil =>
    refine ⟨nofun, fun c' hc' ↦ ?_⟩
    obtain rfl := Sum.inr.inj hc'
    rwa [eligibleCoins, List.filter_nil, List.map_nil, List.append_nil]
  | cons output vCoins ih =>
    rw [collectCoins]
    cases heligible : W.eligible nConfMine nConfTheirs output with
    | false =>
      have hskip : W.eligibleCoins nConfMine nConfTheirs (output :: vCoins) =
          W.eligibleCoins nConfMine nConfTheirs vCoins := by
        rw [eligibleCoins, List.filter_cons_of_neg (by rw [heligible]; exact Bool.false_ne_true)]
        rfl
      rw [hskip] at hmax ⊢
      exact ih h hmax
    | true =>
      have htake : W.eligibleCoins nConfMine nConfTheirs (output :: vCoins) =
          (output.tx, output.i) :: W.eligibleCoins nConfMine nConfTheirs vCoins := by
        rw [eligibleCoins, List.filter_cons_of_pos heligible]
        rfl
      rw [htake] at hmax ⊢
      -- what comes after this coin
      have hnext : ∀ c', W.Collects nTargetValue (coins ++ [(output.tx, output.i)]) c' → _ :=
        fun c' hc' ↦ ih hc' fun coin hcoin ↦ hmax coin (List.mem_cons_of_mem _ hcoin)
      simp only [List.append_assoc, List.singleton_append] at hnext
      have hrest : ∀ c', W.Collects nTargetValue (coins ++ [(output.tx, output.i)]) c' →
          let r := W.collectCoins nTargetValue nConfMine nConfTheirs vCoins c'
          (∀ found, r = .inl found →
            found.2 ∈ (output.tx, output.i) :: W.eligibleCoins nConfMine nConfTheirs vCoins ∧
              found = W.withValue found.2 ∧ found.1 = nTargetValue) ∧
            ∀ c'', r = .inr c'' → W.Collects nTargetValue
              (coins ++ (output.tx, output.i) :: W.eligibleCoins nConfMine nConfTheirs vCoins)
              c'' := by
        intro c' hc'
        obtain ⟨hleft, hright⟩ := hnext c' hc'
        refine ⟨fun found hfound ↦ ?_, hright⟩
        obtain ⟨hmem, hvalue⟩ := hleft found hfound
        exact ⟨List.mem_cons_of_mem _ hmem, hvalue⟩
      rw [if_neg (by decide)]
      have hvalue : W.nValue output.tx output.i = W.value (output.tx, output.i) := rfl
      dsimp only
      rw [hvalue]
      by_cases heq : W.value (output.tx, output.i) = nTargetValue
      · rw [if_pos heq]
        refine ⟨fun found hfound ↦ ?_, nofun⟩
        obtain rfl := Sum.inl.inj hfound
        exact ⟨List.mem_cons_self, rfl, heq⟩
      · rw [if_neg heq]
        by_cases hlt : W.value (output.tx, output.i) < withCent nTargetValue
        · rw [if_pos hlt]
          exact hrest _ (h.addLower heq hlt)
        · rw [if_neg hlt]
          have hlarger := h.addLarger heq (not_lt.mp hlt) (hmax _ List.mem_cons_self)
          by_cases hless : W.value (output.tx, output.i) < c.lowestLargerValue
          · rw [if_pos hless] at hlarger ⊢
            exact hrest _ hlarger
          · rw [if_neg hless] at hlarger ⊢
            exact hrest _ hlarger

/-- The coins that are collected for the search, with their sum. -/
theorem Collects.lower_sum (h : W.Collects nTargetValue coins c) :
    c.nTotalLower =
      toInt64 ((coins.filter (W.value · < withCent nTargetValue)).map W.value).sum := by
  rw [h.nTotalLower, h.vValue, List.map_map]
  rfl

/-- Without a larger coin all of them are below. -/
theorem Collects.all_lower (h : W.Collects nTargetValue coins c) (hnone : c.lowestLarger = none) :
    (∀ coin ∈ coins, W.value coin < withCent nTargetValue) ∧
      c.nTotalLower = toInt64 (coins.map W.value).sum := by
  have hbelow := (h.noLarger hnone).2
  refine ⟨hbelow, ?_⟩
  rw [h.lower_sum]
  exact congrArg (fun l ↦ toInt64 (List.map W.value l).sum)
    (List.filter_eq_self.mpr fun coin hcoin ↦ decide_eq_true (hbelow coin hcoin))

theorem eq_map_withValue {chosen : List (ValuedCoin ω)} (h : ∀ c ∈ chosen, c = W.withValue c.2) :
    chosen = (chosen.map Prod.snd).map W.withValue := by
  rw [List.map_map]
  exact (List.map_id chosen).symm.trans (List.map_congr_left h)

/-! ### What is selected -/

variable [DecidableEq ω]

/-- A selection that is found: eligible coins, their sum, and change that is either large enough or
unavoidable. -/
structure Selects (W : WalletTxs ω) (nTargetValue : ℤ) (coins : List (ω × ℕ)) (r : Selection ω) :
    Prop where
  subset : r.setCoinsRet ⊆ coins.toFinset
  nValueRet : r.nValueRet = ∑ coin ∈ r.setCoinsRet, W.value coin
  target_le : nTargetValue ≤ r.nValueRet
  change : r.nValueRet ≠ nTargetValue → r.nValueRet < nTargetValue + cent →
    (∀ coin ∈ coins, W.value coin < nTargetValue + cent) ∧
      (coins.map W.value).sum < nTargetValue + cent

/-- No coin has a negative value, and the values of all add up to an `int64_t`. -/
structure AmountsFit (W : WalletTxs ω) (coins : List (ω × ℕ)) : Prop where
  nonneg : ∀ coin ∈ coins, 0 ≤ W.value coin
  sum_lt : (coins.map W.value).sum < 2 ^ 63

omit [DecidableEq ω] in
theorem AmountsFit.toInt64_sum (h : W.AmountsFit coins) :
    toInt64 (coins.map W.value).sum = (coins.map W.value).sum := by
  have hnonneg : 0 ≤ (coins.map W.value).sum := List.sum_nonneg <|
    List.forall_mem_map.mpr h.nonneg
  exact toInt64_of_range (by omega) h.sum_lt

omit [DecidableEq ω] in
theorem AmountsFit.subperm (h : W.AmountsFit coins) {l : List (ω × ℕ)} (hl : l.Subperm coins) :
    W.AmountsFit l := by
  obtain ⟨l', hperm, hsub⟩ := hl
  refine ⟨fun coin hcoin ↦ h.nonneg coin (hsub.subset (hperm.mem_iff.mpr hcoin)), ?_⟩
  rw [← (hperm.map W.value).sum_eq]
  exact ((hsub.map W.value).sum_le_sum (List.forall_mem_map.mpr h.nonneg)).trans_lt h.sum_lt

/-- The coins are added up one by one, which is their sum but for the wraps. -/
theorem nValueRet_selectionOf (chosen : List (ValuedCoin ω)) :
    (selectionOf chosen).nValueRet = toInt64 (chosen.map Prod.fst).sum := by
  suffices hfold : ∀ n, chosen.foldl (fun nValueRet coin ↦ toInt64 (nValueRet + coin.1)) (toInt64 n) =
      toInt64 (n + (chosen.map Prod.fst).sum) by
    have hzero := hfold 0
    rwa [zero_add] at hzero
  induction chosen with
  | nil =>
    intro n
    rw [List.map_nil, List.sum_nil, add_zero]
    rfl
  | cons coin chosen ih =>
    intro n
    rw [List.foldl_cons, toInt64_add_toInt64, ih, List.map_cons, List.sum_cons, add_assoc]

/-- Distinct coins with their values make a selection with their sum. -/
theorem selectionOf_spec {chosen : List (ValuedCoin ω)} {l : List (ω × ℕ)}
    (hchosen : chosen = l.map W.withValue) (hnodup : l.Nodup) (hfit : W.AmountsFit l) :
    (selectionOf chosen).setCoinsRet = l.toFinset ∧
      (selectionOf chosen).nValueRet = (l.map W.value).sum ∧
      (selectionOf chosen).nValueRet = ∑ coin ∈ (selectionOf chosen).setCoinsRet, W.value coin := by
  have hset : (selectionOf chosen).setCoinsRet = l.toFinset := by
    rw [selectionOf, hchosen, List.map_map]
    exact congrArg List.toFinset (List.map_id l)
  have hsum : (selectionOf chosen).nValueRet = (l.map W.value).sum := by
    rw [nValueRet_selectionOf, hchosen, List.map_map, ← hfit.toInt64_sum]
    rfl
  refine ⟨hset, hsum, ?_⟩
  rw [hset, hsum, List.sum_toFinset _ hnodup]

/-- A single coin that is far enough above the target, or equal to it. -/
theorem selects_single (hfit : W.AmountsFit coins) {coin : ω × ℕ} (hcoin : coin ∈ coins)
    (hvalue : W.value coin = nTargetValue ∨ nTargetValue + cent ≤ W.value coin) :
    W.Selects nTargetValue coins (selectionOf [W.withValue coin]) := by
  have hsingle : [W.withValue coin] = [coin].map W.withValue := rfl
  have hfit' := hfit.subperm (List.singleton_subperm_iff.mpr hcoin)
  obtain ⟨hset, hsum, htotal⟩ := selectionOf_spec hsingle (List.nodup_singleton coin) hfit'
  rw [List.map_singleton, List.sum_singleton] at hsum
  have hcent : 0 < cent := by decide
  refine ⟨?_, htotal, ?_, fun hne hlt ↦ ?_⟩
  · rw [hset]
    intro coin' hcoin'
    obtain rfl := List.mem_singleton.mp (List.mem_toFinset.mp hcoin')
    exact List.mem_toFinset.mpr hcoin
  · omega
  · omega

theorem filter_zip_sublist {α : Type} (l : List α) (vf : List Bool) :
    (((l.zip vf).filter Prod.snd).map Prod.fst).Sublist l := by
  induction l generalizing vf with
  | nil => exact .refl _
  | cons a l ih =>
    cases vf with
    | nil => exact List.nil_sublist _
    | cons b vf =>
      cases b with
      | true => exact (ih vf).cons_cons a
      | false => exact (ih vf).cons a

/-- A total that is not the target is as far above it as the coins allow. -/
theorem bestSubset_spec {values : List ℤ} {nTotalLower : ℤ}
    (htotal : nTotalLower = toInt64 values.sum) (hwith : withCent nTargetValue = nTargetValue + cent)
    (h : nTargetValue ≤ nTotalLower) (draws : SelectionDraws) :
    let best := bestSubset values nTotalLower nTargetValue draws
    best.2 = toInt64 (selectedSum values best.1) ∧ nTargetValue ≤ best.2 ∧
      (best.2 ≠ nTargetValue → best.2 < nTargetValue + cent →
        nTotalLower < nTargetValue + cent) := by
  have hcent : 0 < cent := by decide
  have hfirst := approximateBestSubset_spec htotal h draws.first 1000
  rw [bestSubset, hwith]
  dsimp only
  split
  case isTrue hagain =>
    have hsecond := approximateBestSubset_spec htotal hagain.2 draws.second 1000
    refine ⟨hsecond.1, by have := hsecond.2; omega, fun _ hlt ↦ ?_⟩
    exact absurd hsecond.2 (not_le.mpr hlt)
  case isFalse hnot =>
    refine ⟨hfirst.1, hfirst.2, fun hne _ ↦ ?_⟩
    by_contra hle
    exact hnot ⟨hne, not_lt.mp hle⟩

/-- Some of the coins below the target, by flags. -/
theorem selects_subset {lower l : List (ω × ℕ)} {vfBest : List Bool} {nBest : ℤ}
    (hperm : l.Perm lower) (hlower : lower.Sublist coins) (hnodup : coins.Nodup)
    (hfit : W.AmountsFit coins) (hsum : nBest = toInt64 (selectedSum (l.map W.value) vfBest))
    (hle : nTargetValue ≤ nBest)
    (hchange : nBest ≠ nTargetValue → nBest < nTargetValue + cent →
      (∀ coin ∈ coins, W.value coin < nTargetValue + cent) ∧
        (coins.map W.value).sum < nTargetValue + cent) :
    W.Selects nTargetValue coins
      (selectionOf (((l.map W.withValue).zip vfBest).filter Prod.snd |>.map Prod.fst)) := by
  let chosen := (((l.map W.withValue).zip vfBest).filter Prod.snd).map Prod.fst
  have hsub : chosen.Sublist (l.map W.withValue) := filter_zip_sublist _ vfBest
  have hchosen : chosen = (chosen.map Prod.snd).map W.withValue := by
    refine eq_map_withValue fun c hc ↦ ?_
    obtain ⟨coin, -, rfl⟩ := List.mem_map.mp (hsub.subset hc)
    rfl
  have hcoins : (chosen.map Prod.snd).Sublist l := by
    have hid : (l.map W.withValue).map Prod.snd = l := by
      rw [List.map_map]
      exact List.map_id l
    have hmap := hsub.map Prod.snd
    rwa [hid] at hmap
  have hsubperm := hcoins.subperm.trans (hperm.subperm.trans hlower.subperm)
  obtain ⟨hset, hvalue, htotal⟩ := selectionOf_spec hchosen
    ((hperm.nodup_iff.mpr (hnodup.sublist hlower)).sublist hcoins) (hfit.subperm hsubperm)
  have hbest : (selectionOf chosen).nValueRet = nBest := by
    rw [nValueRet_selectionOf, sum_filter_zip, List.map_map, hsum]
    rfl
  refine ⟨?_, htotal, hbest ▸ hle, hbest ▸ hchange⟩
  rw [hset]
  intro coin hcoin
  have hmem := hcoins.subset (List.mem_toFinset.mp hcoin)
  exact List.mem_toFinset.mpr (hlower.subset (hperm.subset hmem))

theorem Collects.selects_larger (h : W.Collects nTargetValue coins c)
    (hwith : withCent nTargetValue = nTargetValue + cent) (hfit : W.AmountsFit coins)
    (hcoin : c.lowestLarger = some coin) :
    W.Selects nTargetValue coins (selectionOf [(c.lowestLargerValue, coin)]) := by
  obtain ⟨hmem, hvalue, hle⟩ := h.larger coin hcoin
  rw [hvalue]
  exact selects_single hfit hmem (.inr (hwith ▸ hle))

theorem solveSubsetSum_found (c : CollectedCoins ω) (draws : SelectionDraws) :
    (solveSubsetSum nTargetValue c draws).found = true := by
  rw [solveSubsetSum]
  split
  · split
    · rfl
    · rfl
  · rfl

theorem solveSubsetSum_spec (h : W.Collects nTargetValue coins c)
    (hwith : withCent nTargetValue = nTargetValue + cent) (hfit : W.AmountsFit coins)
    (hnodup : coins.Nodup) (hle : nTargetValue ≤ c.nTotalLower) (draws : SelectionDraws) :
    W.Selects nTargetValue coins (solveSubsetSum nTargetValue c draws) := by
  let lower := coins.filter (W.value · < withCent nTargetValue)
  have hperm : (c.vValue.mergeSort fun t1 t2 ↦ t2.1 ≤ t1.1).Perm (lower.map W.withValue) := by
    rw [← h.vValue]
    exact List.mergeSort_perm _ _
  rw [solveSubsetSum]
  generalize c.vValue.mergeSort (fun t1 t2 ↦ t2.1 ≤ t1.1) = vValue at hperm ⊢
  -- the coins in the order in which the search has them
  let l := vValue.map Prod.snd
  have hvalues : vValue = l.map W.withValue := by
    refine eq_map_withValue fun v hv ↦ ?_
    obtain ⟨coin, -, rfl⟩ := List.mem_map.mp (hperm.subset hv)
    rfl
  have hl : l.Perm lower := by
    have hmap := hperm.map Prod.snd
    rw [List.map_map] at hmap
    exact hmap.trans (List.Perm.of_eq (List.map_id lower))
  have hmap : vValue.map Prod.fst = l.map W.value := by
    rw [hvalues, List.map_map]
    rfl
  have hsum : c.nTotalLower = toInt64 (l.map W.value).sum := by
    rw [h.lower_sum, (hl.map W.value).sum_eq]
  have hbest := bestSubset_spec hsum hwith hle draws
  rw [hmap, hvalues, hwith]
  generalize bestSubset (l.map W.value) c.nTotalLower nTargetValue draws = best at hbest ⊢
  obtain ⟨htotal, hreached, hfar⟩ := hbest
  split
  case h_1 coin hcoin =>
    split
    case isTrue => exact h.selects_larger hwith hfit hcoin
    case isFalse hworse =>
      refine selects_subset hl List.filter_sublist hnodup hfit htotal hreached fun hne hlt ↦ ?_
      exact absurd (.inl ⟨hne, hlt⟩) hworse
  case h_2 hnone =>
    obtain ⟨hbelow, hall⟩ := h.all_lower hnone
    rw [hwith] at hbelow
    rw [hfit.toInt64_sum] at hall
    refine selects_subset hl List.filter_sublist hnodup hfit htotal hreached fun hne hlt ↦
      ⟨hbelow, ?_⟩
    rw [← hall]
    exact hfar hne hlt

/-- `SelectCoinsMinConf` on outputs that are shuffled already. -/
theorem select_spec {vCoins : List (COutput ω)} (draws : SelectionDraws)
    (hcoins : W.eligibleCoins nConfMine nConfTheirs (randomShuffle draws.shuffle vCoins) = coins)
    (hnodup : coins.Nodup) (hwith : withCent nTargetValue = nTargetValue + cent)
    (hfit : W.AmountsFit coins) (hmax : ∀ coin ∈ coins, W.value coin < 2 ^ 63 - 1) :
    let r := W.selectCoinsMinConf nTargetValue nConfMine nConfTheirs vCoins draws
    (r.found = false ↔ (coins.map W.value).sum < nTargetValue) ∧
      (r.found = true → W.Selects nTargetValue coins r) := by
  have hcent : 0 < cent := by decide
  have hnonneg := List.forall_mem_map.mpr hfit.nonneg
  have hle_sum : ∀ coin ∈ coins, W.value coin ≤ (coins.map W.value).sum := fun coin hcoin ↦
    List.single_le_sum hnonneg _ (List.mem_map_of_mem hcoin)
  have hempty : W.Collects nTargetValue [] ({} : CollectedCoins ω) :=
    ⟨rfl, rfl, nofun, fun _ ↦ ⟨rfl, nofun⟩, nofun⟩
  obtain ⟨hexact, hcollect⟩ := collectCoins_spec (randomShuffle draws.shuffle vCoins) hempty
    fun coin hcoin ↦ hmax coin (hcoins ▸ hcoin)
  rw [hcoins] at hexact hcollect
  intro r
  -- a selection that is found, of coins that reach the target
  have hfound : ∀ r' : Selection ω, r = r' → r'.found = true →
      nTargetValue ≤ (coins.map W.value).sum → W.Selects nTargetValue coins r' →
      (r.found = false ↔ (coins.map W.value).sum < nTargetValue) ∧
        (r.found = true → W.Selects nTargetValue coins r) := by
    rintro r' rfl hr hle hselects
    exact ⟨iff_of_false (by rw [hr]; decide) (not_lt.mpr hle), fun _ ↦ hselects⟩
  cases hresult : W.collectCoins nTargetValue nConfMine nConfTheirs
      (randomShuffle draws.shuffle vCoins) {} with
  | inl found =>
    obtain ⟨hmem, hvalue, htarget⟩ := hexact found hresult
    have heq : W.value found.2 = nTargetValue := by
      rw [hvalue] at htarget
      exact htarget
    refine hfound (selectionOf [found]) ?_ rfl (heq ▸ hle_sum _ hmem) ?_
    · change selectCoinsMinConf _ _ _ _ _ _ = _
      rw [selectCoinsMinConf, hresult]
    · rw [hvalue]
      exact selects_single hfit hmem (.inl heq)
  | inr c =>
    have hc := hcollect c hresult
    rw [List.nil_append] at hc
    have hlower : (coins.filter (W.value · < withCent nTargetValue)).Sublist coins :=
      List.filter_sublist
    have hfit_lower := hfit.subperm hlower.subperm
    have hlower_sum := hc.lower_sum.trans hfit_lower.toInt64_sum
    have hlower_le : c.nTotalLower ≤ (coins.map W.value).sum := by
      rw [hlower_sum]
      exact (hlower.map W.value).sum_le_sum hnonneg
    have hr : r = W.selectCoinsMinConf nTargetValue nConfMine nConfTheirs vCoins draws := rfl
    rw [selectCoinsMinConf, hresult] at hr
    dsimp only at hr
    split at hr
    case isTrue hexact_sum =>
      obtain ⟨hset, hvalue, htotal⟩ :=
        selectionOf_spec hc.vValue (hnodup.sublist hlower) hfit_lower
      rw [← hlower_sum, hexact_sum] at hvalue
      refine hfound _ hr rfl (hexact_sum ▸ hlower_le)
        ⟨?_, htotal, hvalue.ge, fun hne ↦ absurd hvalue hne⟩
      rw [hset]
      exact fun coin hcoin ↦ List.mem_toFinset.mpr (hlower.subset (List.mem_toFinset.mp hcoin))
    case isFalse =>
      split at hr
      case isTrue hless =>
        split at hr
        case h_1 hnone =>
          have hsum := (hc.all_lower hnone).2.trans hfit.toInt64_sum
          refine ⟨iff_of_true (by rw [hr]) (hsum ▸ hless), fun htrue ↦ ?_⟩
          rw [hr] at htrue
          cases htrue
        case h_2 coin hcoin =>
          obtain ⟨hmem, -, hle⟩ := hc.larger coin hcoin
          have hle' := hle_sum coin hmem
          rw [hwith] at hle
          exact hfound _ hr rfl (by omega) (hc.selects_larger hwith hfit hcoin)
      case isFalse hnot =>
        exact hfound _ hr (solveSubsetSum_found c draws) (by omega)
          (solveSubsetSum_spec hc hwith hfit hnodup (not_lt.mp hnot) draws)

theorem Selects.perm {coins' : List (ω × ℕ)} {r : Selection ω} (hperm : coins.Perm coins')
    (h : W.Selects nTargetValue coins r) : W.Selects nTargetValue coins' r where
  subset := by
    rw [← List.toFinset_eq_of_perm _ _ hperm]
    exact h.subset
  nValueRet := h.nValueRet
  target_le := h.target_le
  change hne hlt := by
    obtain ⟨hbelow, hsum⟩ := h.change hne hlt
    refine ⟨fun coin hcoin ↦ hbelow coin (hperm.mem_iff.mpr hcoin), ?_⟩
    rwa [← (hperm.map W.value).sum_eq]

end WalletTxs

theorem lt_of_moneyRange {n : ℤ} (h : moneyRange n = true) : 0 ≤ n ∧ n < 2 ^ 63 - 1 := by
  have hmoney := moneyRange_iff.mp h
  have hmax : maxMoney = 2800000000000000 := rfl
  omega

/-- Whatever is drawn, where the target with a cent and the eligible coins are in the range of
`int64_t`: no selection is found exactly where the eligible coins do not reach the target. One that
is found consists of eligible coins, returns their sum, and leaves change below a cent only where no
larger coin and no larger sum is there. -/
theorem selectCoinsMinConf_spec {ω : Type} [DecidableEq ω] (W : WalletTxs ω)
    (nTargetValue nConfMine nConfTheirs : ℤ) {vCoins : List (COutput ω)} (hpos : 0 < nTargetValue)
    (htarget : nTargetValue + cent < 2 ^ 63)
    (hdistinct : (vCoins.map fun output ↦ (output.tx, output.i)).Nodup)
    (hrange : ∀ output ∈ vCoins, moneyRange (W.nValue output.tx output.i) = true)
    (hsum : ((W.eligibleCoins nConfMine nConfTheirs vCoins).map W.value).sum < 2 ^ 63)
    (draws : SelectionDraws) :
    let coins := W.eligibleCoins nConfMine nConfTheirs vCoins
    let r := W.selectCoinsMinConf nTargetValue nConfMine nConfTheirs vCoins draws
    (r.found = false ↔ (coins.map W.value).sum < nTargetValue) ∧
      (r.found = true → W.Selects nTargetValue coins r) := by
  intro coins r
  have hperm : (randomShuffle draws.shuffle vCoins).Perm vCoins := Shuffle.rounds_perm _ _ _
  have hcoins : (W.eligibleCoins nConfMine nConfTheirs (randomShuffle draws.shuffle vCoins)).Perm
      coins := (hperm.filter _).map _
  have hnodup : coins.Nodup := hdistinct.sublist (List.filter_sublist.map _)
  have hvalue : ∀ coin ∈ coins, 0 ≤ W.value coin ∧ W.value coin < 2 ^ 63 - 1 := by
    intro coin hcoin
    obtain ⟨output, houtput, rfl⟩ := List.mem_map.mp hcoin
    exact lt_of_moneyRange (hrange output (List.mem_of_mem_filter houtput))
  have hcent : 0 < cent := by decide
  have hwith : WalletTxs.withCent nTargetValue = nTargetValue + cent :=
    toInt64_of_range (by omega) htarget
  have hfit : W.AmountsFit coins := ⟨fun coin hcoin ↦ (hvalue coin hcoin).1, hsum⟩
  obtain ⟨hnone, hsome⟩ := WalletTxs.select_spec draws rfl (hcoins.nodup_iff.mpr hnodup) hwith
    (hfit.subperm hcoins.subperm) fun coin hcoin ↦ (hvalue coin (hcoins.mem_iff.mp hcoin)).2
  refine ⟨?_, fun hfound ↦ (hsome hfound).perm hcoins⟩
  rw [← (hcoins.map W.value).sum_eq]
  exact hnone

/-- Outputs of three and of five cents. -/
def samplePurse : WalletTxs Bool where
  nValue tx _ := if tx then 5 * cent else 3 * cent
  isFromMe _ := true

def samplePurseCoins : List (COutput Bool) := [⟨true, 0, 6, true⟩, ⟨false, 1, 6, true⟩]

theorem samplePurseCoins_distinct :
    (samplePurseCoins.map fun output ↦ (output.tx, output.i)).Nodup := by decide

theorem selectCoinsMinConf_spec_sample :
    (samplePurse.selectCoinsMinConf (4 * cent) 1 6 samplePurseCoins ⟨id, 0, 0⟩).found = true ∧
      samplePurse.Selects (4 * cent) [(true, 0), (false, 1)]
        (samplePurse.selectCoinsMinConf (4 * cent) 1 6 samplePurseCoins ⟨id, 0, 0⟩) := by
  obtain ⟨hnone, hsome⟩ := selectCoinsMinConf_spec samplePurse (4 * cent) 1 6 (by decide)
    (by decide) samplePurseCoins_distinct (by decide) (by decide) ⟨id, 0, 0⟩
  have hfound : (samplePurse.selectCoinsMinConf (4 * cent) 1 6 samplePurseCoins ⟨id, 0, 0⟩).found =
      true := by
    by_contra hnot
    exact absurd (hnone.mp (Bool.eq_false_of_not_eq_true hnot)) (by decide)
  exact ⟨hfound, hsome hfound⟩

/-- A wallet whose outputs all have the greatest value. -/
def fullPurse : WalletTxs Unit where
  nValue _ _ := maxMoney
  isFromMe _ := true

/-- Outputs of one transaction, with a sum above the range of `int64_t`. -/
def fullPurseCoins : List (COutput Unit) := (List.range 3295).map fun i ↦ ⟨(), i, 6, true⟩

theorem fullPurseCoins_distinct : (fullPurseCoins.map fun output ↦ (output.tx, output.i)).Nodup := by
  rw [fullPurseCoins, List.map_map]
  refine List.nodup_range.map fun i j h ↦ ?_
  exact congrArg Prod.snd h

theorem sum_fullPurse (coins : List (Unit × ℕ)) :
    (coins.map fullPurse.value).sum = coins.length * maxMoney := by
  have hconst : coins.map fullPurse.value = List.replicate coins.length maxMoney := List.map_const' ..
  rw [hconst, List.sum_replicate, nsmul_eq_mul]

theorem length_eligibleCoins_fullPurse {vCoins : List (COutput Unit)}
    (hperm : vCoins.Perm fullPurseCoins) : (fullPurse.eligibleCoins 1 6 vCoins).length = 3295 := by
  have heligible : ∀ output ∈ fullPurseCoins, fullPurse.eligible 1 6 output = true := by
    intro output houtput
    obtain ⟨i, -, rfl⟩ := List.mem_map.mp houtput
    rfl
  rw [WalletTxs.eligibleCoins, List.length_map, (hperm.filter _).length_eq,
    List.filter_eq_self.mpr heligible, fullPurseCoins, List.length_map, List.length_range]

/-- The sum of these outputs wraps around below zero, so that they do not seem to reach a target. -/
theorem fullPurse_not_found (draws : SelectionDraws) :
    (fullPurse.selectCoinsMinConf (maxMoney + 1) 1 6 fullPurseCoins draws).found = false := by
  have hperm : (randomShuffle draws.shuffle fullPurseCoins).Perm fullPurseCoins :=
    Shuffle.rounds_perm _ _ _
  have hempty : fullPurse.Collects (maxMoney + 1) [] ({} : CollectedCoins Unit) :=
    ⟨rfl, rfl, nofun, fun _ ↦ ⟨rfl, nofun⟩, nofun⟩
  have hmax : maxMoney < 2 ^ 63 - 1 := by decide
  obtain ⟨hexact, hcollect⟩ := WalletTxs.collectCoins_spec
    (randomShuffle draws.shuffle fullPurseCoins) hempty fun _ _ ↦ hmax
  rw [WalletTxs.selectCoinsMinConf]
  cases hresult : fullPurse.collectCoins (maxMoney + 1) 1 6
      (randomShuffle draws.shuffle fullPurseCoins) {} with
  | inl found =>
    obtain ⟨-, hvalue, htarget⟩ := hexact found hresult
    rw [hvalue] at htarget
    change maxMoney = maxMoney + 1 at htarget
    omega
  | inr c =>
    have hc := hcollect c hresult
    rw [List.nil_append] at hc
    have hnone : c.lowestLarger = none := by
      rw [Option.eq_none_iff_forall_ne_some]
      intro coin hcoin
      have hlarger : WalletTxs.withCent (maxMoney + 1) ≤ maxMoney := (hc.larger coin hcoin).2.2
      exact absurd hlarger (by decide)
    have htotal := (hc.all_lower hnone).2
    rw [sum_fullPurse, length_eligibleCoins_fullPurse hperm] at htotal
    have hneg : toInt64 ((3295 : ℕ) * maxMoney) < maxMoney + 1 := by decide
    rw [← htotal] at hneg
    dsimp only
    rw [if_neg (by omega), if_pos hneg, hnone]

/-- Beyond the range of `int64_t` a selection that does not reach the target may be found, and one
that does may be missed. -/
theorem selectCoinsMinConf_wraps :
    ((samplePurse.selectCoinsMinConf (2 ^ 63 - 1) 1 6 samplePurseCoins ⟨id, 0, 0⟩).found = true ∧
      ((samplePurse.eligibleCoins 1 6 samplePurseCoins).map samplePurse.value).sum < 2 ^ 63 - 1) ∧
    ((fullPurseCoins.map fun output ↦ (output.tx, output.i)).Nodup ∧
      (fullPurse.selectCoinsMinConf (maxMoney + 1) 1 6 fullPurseCoins ⟨id, 0, 0⟩).found = false ∧
      maxMoney + 1 ≤ ((fullPurse.eligibleCoins 1 6 fullPurseCoins).map fullPurse.value).sum) := by
  refine ⟨by decide, fullPurseCoins_distinct, fullPurse_not_found _, ?_⟩
  rw [sum_fullPurse, length_eligibleCoins_fullPurse (.refl _)]
  decide

end Bitmark
