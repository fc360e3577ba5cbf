import Mathlib.Data.Finset.Insert
import Bitmark.Lib.Median
import Bitmark.Lib.Trace
import Bitmark.Net.NetAddr

/-!
# The offset of the network-adjusted time

`AddTimeData` (`src/util.cpp:1254`) takes one sample from each address, keeps the latest two hundred
in a `CMedianFilter` (`src/util.h:436`) and moves `nTimeOffset` to their median. Samples are 64-bit
differences of a peer's time, which is not checked, and the clock.
-/

namespace Bitmark

/-! ### 64-bit arithmetic -/

/-- A computation on `int64_t`, with a flag that says whether every operation on the way had a
result in the range of the type. -/
structure Arith (α : Type) where
  value : α
  exact : Bool
deriving DecidableEq

instance : Monad Arith where
  pure a := ⟨a, true⟩
  bind x f := ⟨(f x.value).value, x.exact && (f x.value).exact⟩

namespace Arith

variable {α β : Type}

@[simp] theorem value_pure (a : α) : (pure a : Arith α).value = a := rfl

@[simp] theorem exact_pure (a : α) : (pure a : Arith α).exact = true := rfl

@[simp] theorem value_bind (x : Arith α) (f : α → Arith β) :
    (x >>= f).value = (f x.value).value := rfl

@[simp] theorem exact_bind (x : Arith α) (f : α → Arith β) :
    (x >>= f).exact = (x.exact && (f x.value).exact) := rfl

theorem pure_bind (a : α) (f : α → Arith β) : pure a >>= f = f a := by
  show Arith.mk (f a).value (true && (f a).exact) = f a
  rw [Bool.true_and]

/-- The `int64_t` result of an operation. -/
def ofInt (x : Int) : Arith Int := ⟨toInt64 x, -2 ^ 63 ≤ x && x < 2 ^ 63⟩

theorem ofInt_of_range {x : Int} (hlo : -2 ^ 63 ≤ x) (hhi : x < 2 ^ 63) : ofInt x = pure x := by
  unfold ofInt
  rw [toInt64_of_range hlo hhi, decide_eq_true hlo, decide_eq_true hhi]
  rfl

end Arith

/-- `abs64`, `src/util.h:258`. -/
def abs64 (n : Int) : Arith Int := if 0 ≤ n then pure n else Arith.ofInt (-n)

theorem abs64_of_gt {n : Int} (h : -2 ^ 63 < n) : abs64 n = pure |n| := by
  unfold abs64
  split
  case isTrue hpos => rw [abs_of_nonneg hpos]
  case isFalse hneg =>
    rw [abs_of_neg (by omega)]
    exact Arith.ofInt_of_range (by omega) (by omega)

/-! ### The filter -/

/-- `CMedianFilter<int64_t>`, `src/util.h:436`. -/
structure CMedianFilter where
  vValues : List Int
  vSorted : List Int
  nSize : Nat
deriving DecidableEq

namespace CMedianFilter

/-- The constructor. -/
def new (size : Nat) (initial_value : Int) : CMedianFilter := ⟨[initial_value], [initial_value], size⟩

/-- `input`: the oldest value makes room when the filter is full. -/
def input (f : CMedianFilter) (value : Int) : CMedianFilter :=
  let vValues := (if f.vValues.length = f.nSize then f.vValues.tail else f.vValues) ++ [value]
  { f with vValues, vSorted := vValues.insertionSort (· ≤ ·) }

/-- `median`. -/
def median (f : CMedianFilter) : Arith Int :=
  let size := f.vSorted.length
  if size % 2 = 1 then pure (f.vSorted.getD (size / 2) 0)
  else do
    let sum ← Arith.ofInt (f.vSorted.getD (size / 2 - 1) 0 + f.vSorted.getD (size / 2) 0)
    pure (sum.tdiv 2)

def size (f : CMedianFilter) : Nat := f.vValues.length

end CMedianFilter

/-! ### Time samples -/

/-- The state of `src/util.cpp:1238` and the static variables of `AddTimeData`. -/
structure TimeData where
  nTimeOffset : Int := 0
  setKnown : Finset CNetAddr := ∅
  vTimeOffsets : CMedianFilter := .new 200 0
  fDone : Bool := false
  strMiscWarning : String := ""
deriving DecidableEq

/-- A call of `AddTimeData`, with what `GetTime` returns there. -/
structure TimeSample where
  ip : CNetAddr
  nTime : BitVec 64
  now : BitVec 64
deriving DecidableEq

/-- `nOffsetSample` before it is narrowed. -/
def TimeSample.offset (c : TimeSample) : Int := c.nTime.toInt - c.now.toInt

namespace TimeData

/-- The warning of `src/util.cpp:1291`. -/
def clockWarning : String :=
  "Warning: Please check that your computer's date and time are correct! If your clock is wrong " ++
    "Bitmark will not work properly."

/-- Whether another clock is within five minutes of ours, `src/util.cpp:1282`. -/
def matchesClock (vSorted : List Int) : Arith Bool :=
  vSorted.foldlM (fun fMatch nOffset ↦ do
    if nOffset = 0 then return fMatch
    let distance ← abs64 nOffset
    return fMatch || distance < 5 * 60) false

/-- The update of the offset from a new window of odd size, `src/util.cpp:1267`. -/
def updateOffset (s : TimeData) : Arith TimeData := do
  let nMedian ← s.vTimeOffsets.median
  let distance ← abs64 nMedian
  if distance < 70 * 60 then return { s with nTimeOffset := nMedian }
  if s.fDone then return { s with nTimeOffset := 0 }
  let fMatch ← matchesClock s.vTimeOffsets.vSorted
  if fMatch then return { s with nTimeOffset := 0 }
  return { s with nTimeOffset := 0, fDone := true, strMiscWarning := clockWarning }

/-- `AddTimeData`, `src/util.cpp:1254`. -/
def addTimeData (s : TimeData) (c : TimeSample) : Arith TimeData := do
  let nOffsetSample ← Arith.ofInt c.offset
  if c.ip ∈ s.setKnown then return s
  let s := { s with
    setKnown := insert c.ip s.setKnown
    vTimeOffsets := s.vTimeOffsets.input nOffsetSample }
  if 5 ≤ s.vTimeOffsets.size ∧ s.vTimeOffsets.size % 2 = 1 then s.updateOffset
  else return s

/-- A call in a run, which keeps whether the arithmetic so far was exact. -/
def call (s : Arith TimeData) (c : TimeSample) : Arith TimeData := do (← s).addTimeData c

/-- The calls since the node was started. -/
def run (calls : List TimeSample) : Arith TimeData := calls.foldl call (pure {})

end TimeData

/-! ### What the offset can be -/

open Median Trace

namespace TimeData

/-- The samples of a sequence of calls: the first of each address. -/
def accepted : Finset CNetAddr → List TimeSample → List Int
  | _, [] => []
  | known, c :: calls =>
    if c.ip ∈ known then accepted known calls
    else c.offset :: accepted (insert c.ip known) calls

/-- The latest two hundred samples, the initial 0 included. -/
def window (samples : List Int) : List Int := (0 :: samples).drop (samples.length + 1 - 200)

theorem accepted_append (known : Finset CNetAddr) (calls : List TimeSample) (c : TimeSample) :
    accepted known (calls ++ [c]) =
      accepted known calls ++
        if c.ip ∈ known ∪ (calls.map TimeSample.ip).toFinset then [] else [c.offset] := by
  induction calls generalizing known with
  | nil =>
    rw [List.nil_append, accepted, accepted, accepted, accepted]
    simp
  | cons d calls ih =>
    rw [List.cons_append, accepted, accepted]
    split
    case isTrue hd =>
      rw [ih, List.map_cons, List.toFinset_cons, Finset.union_insert,
        Finset.insert_eq_of_mem (Finset.mem_union_left _ hd)]
    case isFalse hd =>
      rw [ih, List.cons_append, List.map_cons, List.toFinset_cons, Finset.insert_union,
        Finset.union_insert]

/-- The calls so far gave this state, and none of them was lost. -/
structure Sound (calls : List TimeSample) (s : TimeData) : Prop where
  known : s.setKnown = (calls.map TimeSample.ip).toFinset
  nSize : s.vTimeOffsets.nSize = 200
  room : s.vTimeOffsets.vValues.length ≤ 200
  values : s.vTimeOffsets.vValues = 0 :: accepted ∅ calls
  sorted : s.vTimeOffsets.vSorted = s.vTimeOffsets.vValues.insertionSort (· ≤ ·)
  range : ∀ x ∈ s.vTimeOffsets.vValues, -2 ^ 63 < x ∧ x < 2 ^ 63
  bounded : |s.nTimeOffset| < 70 * 60
  odd : 5 ≤ s.vTimeOffsets.vValues.length → s.vTimeOffsets.vValues.length % 2 = 1 →
    s.nTimeOffset = 0 ∨ IsMedian s.nTimeOffset s.vTimeOffsets.vValues
  even : 5 ≤ s.vTimeOffsets.vValues.length → s.vTimeOffsets.vValues.length % 2 = 0 →
    s.nTimeOffset = 0 ∨ IsMedian s.nTimeOffset s.vTimeOffsets.vValues.dropLast

theorem sound_start : Sound [] {} where
  known := rfl
  nSize := rfl
  room := by decide
  values := rfl
  sorted := rfl
  range := by decide
  bounded := by decide
  odd := fun h ↦ absurd h (by decide)
  even := fun h ↦ absurd h (by decide)

theorem exact_matchesClock {vSorted : List Int} (h : ∀ x ∈ vSorted, -2 ^ 63 < x) :
    (matchesClock vSorted).exact = true := by
  unfold matchesClock
  generalize false = fMatch
  induction vSorted generalizing fMatch with
  | nil => rfl
  | cons x vSorted ih =>
    rw [List.forall_mem_cons] at h
    rw [List.foldlM_cons, Arith.exact_bind, ih h.2, Bool.and_true, abs64_of_gt h.1]
    split <;> rfl

/-- An update from a window of odd size takes the median or 0. -/
theorem updateOffset_spec {s : TimeData} (hodd : s.vTimeOffsets.vValues.length % 2 = 1)
    (hsorted : s.vTimeOffsets.vSorted = s.vTimeOffsets.vValues.insertionSort (· ≤ ·))
    (hrange : ∀ x ∈ s.vTimeOffsets.vValues, -2 ^ 63 < x ∧ x < 2 ^ 63) :
    s.updateOffset.exact = true ∧
      s.updateOffset.value.setKnown = s.setKnown ∧
      s.updateOffset.value.vTimeOffsets = s.vTimeOffsets ∧
      |s.updateOffset.value.nTimeOffset| < 70 * 60 ∧
      (s.updateOffset.value.nTimeOffset = 0 ∨
        IsMedian s.updateOffset.value.nTimeOffset s.vTimeOffsets.vValues) := by
  have hlength : s.vTimeOffsets.vSorted.length = s.vTimeOffsets.vValues.length := by
    rw [hsorted, List.length_insertionSort]
  have hperm : s.vTimeOffsets.vSorted.Perm s.vTimeOffsets.vValues := by
    rw [hsorted]
    exact List.perm_insertionSort _ _
  have hpairwise : s.vTimeOffsets.vSorted.Pairwise (· ≤ ·) := by
    rw [hsorted]
    exact List.pairwise_insertionSort _ _
  obtain ⟨m, hm⟩ : ∃ m, s.vTimeOffsets.vSorted[s.vTimeOffsets.vSorted.length / 2]? = some m :=
    ⟨_, List.getElem?_eq_getElem (by omega)⟩
  have hmedian : IsMedian m s.vTimeOffsets.vValues :=
    (isMedian_middle hpairwise (hlength ▸ hodd) hm).perm hperm
  have hvalue : s.vTimeOffsets.median = pure m := by
    rw [CMedianFilter.median, if_pos (hlength ▸ hodd), List.getD_eq_getElem?_getD, hm]
    rfl
  have hclock : (matchesClock s.vTimeOffsets.vSorted).exact = true :=
    exact_matchesClock fun x hx ↦ (hrange x (hperm.mem_iff.mp hx)).1
  have hdistance := abs64_of_gt (hrange m hmedian.mem).1
  unfold updateOffset
  simp only [hvalue, hdistance, Arith.exact_bind, Arith.value_bind, Arith.value_pure,
    Arith.exact_pure, Bool.true_and]
  split
  case isTrue hnear => exact ⟨rfl, rfl, rfl, hnear, .inr hmedian⟩
  case isFalse =>
    split
    case isTrue => exact ⟨rfl, rfl, rfl, by simp, .inl rfl⟩
    case isFalse =>
      simp only [Arith.exact_bind, Arith.value_bind, hclock, Bool.true_and]
      split
      · exact ⟨rfl, rfl, rfl, by simp, .inl rfl⟩
      · exact ⟨rfl, rfl, rfl, by simp, .inl rfl⟩

/-- A repeated address changes nothing. -/
theorem addTimeData_of_known {s : TimeData} {c : TimeSample} (h : c.ip ∈ s.setKnown) :
    (s.addTimeData c).value = s := by
  unfold addTimeData
  rw [Arith.value_bind, if_pos h]
  rfl

/-- A sample whose distance from the clock is a positive or negative 64-bit number, and that finds
room in the filter when its address is new. -/
def Fits (s : TimeData) (c : TimeSample) : Prop :=
  -2 ^ 63 < c.offset ∧ c.offset < 2 ^ 63 ∧
    (c.ip ∈ s.setKnown ∨ s.vTimeOffsets.vValues.length < 200)

instance (s : TimeData) (c : TimeSample) : Decidable (s.Fits c) :=
  inferInstanceAs (Decidable (_ ∧ _ ∧ _))

/-- The state between the new sample and the new offset. -/
def sampled (s : TimeData) (c : TimeSample) : TimeData :=
  { s with
    setKnown := insert c.ip s.setKnown
    vTimeOffsets := s.vTimeOffsets.input c.offset }

theorem addTimeData_of_new {s : TimeData} {c : TimeSample} (hc : s.Fits c)
    (hnew : c.ip ∉ s.setKnown) :
    s.addTimeData c =
      if 5 ≤ (s.sampled c).vTimeOffsets.vValues.length ∧
          (s.sampled c).vTimeOffsets.vValues.length % 2 = 1 then (s.sampled c).updateOffset
      else pure (s.sampled c) := by
  unfold addTimeData
  rw [Arith.ofInt_of_range hc.1.le hc.2.1, Arith.pure_bind, if_neg hnew]
  rfl

theorem exact_addTimeData_of_known {s : TimeData} {c : TimeSample} (hc : s.Fits c)
    (h : c.ip ∈ s.setKnown) : (s.addTimeData c).exact = true := by
  unfold addTimeData
  rw [Arith.ofInt_of_range hc.1.le hc.2.1, Arith.exact_bind, if_pos h]
  rfl

theorem vValues_input {f : CMedianFilter} (h : f.vValues.length ≠ f.nSize) (x : Int) :
    (f.input x).vValues = f.vValues ++ [x] := by
  unfold CMedianFilter.input
  rw [if_neg h]

theorem accepted_of_known {calls : List TimeSample} {c : TimeSample}
    (h : c.ip ∈ (calls.map TimeSample.ip).toFinset) : accepted ∅ (calls ++ [c]) = accepted ∅ calls := by
  rw [accepted_append, Finset.empty_union, if_pos h, List.append_nil]

theorem accepted_of_new {calls : List TimeSample} {c : TimeSample}
    (h : c.ip ∉ (calls.map TimeSample.ip).toFinset) :
    accepted ∅ (calls ++ [c]) = accepted ∅ calls ++ [c.offset] := by
  rw [accepted_append, Finset.empty_union, if_neg h]

theorem toFinset_ips_append (calls : List TimeSample) (c : TimeSample) :
    ((calls ++ [c]).map TimeSample.ip).toFinset = insert c.ip (calls.map TimeSample.ip).toFinset := by
  rw [List.map_append, List.toFinset_append, Finset.union_comm]
  rfl

namespace Sound

variable {calls : List TimeSample} {s : TimeData} {c : TimeSample}

theorem vValues_sampled (h : Sound calls s) (hroom : s.vTimeOffsets.vValues.length < 200) :
    (s.sampled c).vTimeOffsets.vValues = s.vTimeOffsets.vValues ++ [c.offset] :=
  vValues_input (by rw [h.nSize]; omega) c.offset

theorem range_sampled (h : Sound calls s) (hc : s.Fits c)
    (hroom : s.vTimeOffsets.vValues.length < 200) :
    ∀ x ∈ (s.sampled c).vTimeOffsets.vValues, -2 ^ 63 < x ∧ x < 2 ^ 63 := by
  rw [h.vValues_sampled hroom]
  intro x hx
  rcases List.mem_append.mp hx with hx | hx
  · exact h.range x hx
  · obtain rfl := List.mem_singleton.mp hx
    exact ⟨hc.1, hc.2.1⟩

/-- What a new sample leaves, whatever the offset becomes. -/
theorem of_sampled (h : Sound calls s) (hc : s.Fits c) (hnew : c.ip ∉ s.setKnown)
    {s' : TimeData} (hknown : s'.setKnown = (s.sampled c).setKnown)
    (hfilter : s'.vTimeOffsets = (s.sampled c).vTimeOffsets) (hbounded : |s'.nTimeOffset| < 70 * 60)
    (hodd : 5 ≤ (s.sampled c).vTimeOffsets.vValues.length →
      (s.sampled c).vTimeOffsets.vValues.length % 2 = 1 →
      s'.nTimeOffset = 0 ∨ IsMedian s'.nTimeOffset (s.sampled c).vTimeOffsets.vValues)
    (heven : 5 ≤ (s.sampled c).vTimeOffsets.vValues.length →
      (s.sampled c).vTimeOffsets.vValues.length % 2 = 0 →
      s'.nTimeOffset = 0 ∨ IsMedian s'.nTimeOffset (s.sampled c).vTimeOffsets.vValues.dropLast) :
    Sound (calls ++ [c]) s' := by
  have hroom := hc.2.2.resolve_left hnew
  have hvalues := h.vValues_sampled (c := c) hroom
  constructor
  · rw [hknown, toFinset_ips_append, ← h.known]
    rfl
  · rw [hfilter]
    exact h.nSize
  · rw [hfilter, hvalues, List.length_append, List.length_singleton]
    exact hroom
  · rw [hfilter, hvalues, h.values, accepted_of_new (h.known ▸ hnew)]
    rfl
  · rw [hfilter]
    rfl
  · rw [hfilter]
    exact h.range_sampled hc hroom
  · exact hbounded
  · rw [hfilter]
    exact hodd
  · rw [hfilter]
    exact heven

theorem of_known (h : Sound calls s) (hknown : c.ip ∈ s.setKnown) : Sound (calls ++ [c]) s := by
  have haccepted := accepted_of_known (h.known ▸ hknown)
  constructor
  · rw [toFinset_ips_append, ← h.known, Finset.insert_eq_of_mem hknown]
  · exact h.nSize
  · exact h.room
  · rw [haccepted]
    exact h.values
  · exact h.sorted
  · exact h.range
  · exact h.bounded
  · exact h.odd
  · exact h.even

/-- One call. -/
theorem addTimeData (h : Sound calls s) (hc : s.Fits c) :
    (s.addTimeData c).exact = true ∧ Sound (calls ++ [c]) (s.addTimeData c).value := by
  by_cases hknown : c.ip ∈ s.setKnown
  case pos =>
    rw [addTimeData_of_known hknown]
    exact ⟨exact_addTimeData_of_known hc hknown, h.of_known hknown⟩
  case neg =>
    have hroom := hc.2.2.resolve_left hknown
    have hvalues := h.vValues_sampled (c := c) hroom
    rw [addTimeData_of_new hc hknown]
    split
    case isTrue hupdate =>
      obtain ⟨hexact, hsame, hfilter, hbounded, hmedian⟩ :=
        updateOffset_spec hupdate.2 rfl (h.range_sampled hc hroom)
      exact ⟨hexact, h.of_sampled hc hknown hsame hfilter hbounded (fun _ _ ↦ hmedian)
        fun _ heven ↦ by omega⟩
    case isFalse hskip =>
      refine ⟨rfl, h.of_sampled hc hknown rfl rfl h.bounded (fun hfive hodd ↦ ?_) fun hfive heven ↦ ?_⟩
      · exact absurd ⟨hfive, hodd⟩ hskip
      · -- the window before the sample has odd size, and the offset was set from it
        rw [hvalues, List.length_append, List.length_singleton] at hfive heven
        rw [hvalues, List.dropLast_concat]
        exact h.odd (by omega) (by omega)

end Sound

/-- What is expected of the offset after a sequence of calls. -/
structure Bounded (calls : List TimeSample) (s : Arith TimeData) : Prop where
  exact : s.exact = true
  bounded : |s.value.nTimeOffset| < 70 * 60
  repeated : ∀ c : TimeSample, c.ip ∈ calls.map TimeSample.ip →
    (s.value.addTimeData c).value = s.value
  values : s.value.vTimeOffsets.vValues = window (accepted ∅ calls)
  median : 5 ≤ (window (accepted ∅ calls)).length → s.value.nTimeOffset = 0 ∨
    IsMedian s.value.nTimeOffset (window (accepted ∅ calls)) ∨
    IsMedian s.value.nTimeOffset (window (accepted ∅ calls).dropLast)

theorem window_of_le {samples : List Int} (h : samples.length < 200) :
    window samples = 0 :: samples := by
  unfold window
  rw [Nat.sub_eq_zero_of_le (by omega), List.drop_zero]

theorem Sound.bounded_of_exact {calls : List TimeSample} {s : Arith TimeData}
    (h : Sound calls s.value) (hexact : s.exact = true) : Bounded calls s := by
  have hlength : (accepted ∅ calls).length < 200 := by
    have hroom := h.room
    rw [h.values, List.length_cons] at hroom
    omega
  have hwindow := window_of_le hlength
  have hbefore : window (accepted ∅ calls).dropLast = 0 :: (accepted ∅ calls).dropLast :=
    window_of_le (by rw [List.length_dropLast]; omega)
  constructor
  · exact hexact
  · exact h.bounded
  · intro c hc
    apply addTimeData_of_known
    rw [h.known]
    exact List.mem_toFinset.mpr hc
  · rw [hwindow]
    exact h.values
  · rw [hwindow, hbefore]
    intro hfive
    have hodd := h.odd
    have heven := h.even
    rw [h.values] at hodd heven
    rcases Nat.mod_two_eq_zero_or_one (0 :: accepted ∅ calls).length with hsize | hsize
    · have hne : accepted ∅ calls ≠ [] := by
        intro hnil
        rw [hnil] at hfive
        exact absurd hfive (by decide)
      rw [List.dropLast_cons_of_ne_nil hne] at heven
      exact (heven hfive hsize).imp_right .inr
    · exact (hodd hfive hsize).imp_right .inl

/-- A run of samples that fit keeps the offset bounded. -/
theorem bounded_of_fits {calls : List TimeSample}
    (h : Throughout call (fun s c ↦ s.value.Fits c) (pure {}) calls) : Bounded calls (run calls) := by
  have hrun : (run calls).exact = true ∧ Sound calls (run calls).value :=
    Throughout.invariant_run (I := fun done s ↦ s.exact = true ∧ Sound done s.value)
      (fun done s c ⟨hexact, hs⟩ hc ↦ by
        unfold call
        rw [Arith.exact_bind, Arith.value_bind, hexact, Bool.true_and]
        exact hs.addTimeData hc)
      ⟨rfl, sound_start⟩ h
  exact hrun.2.bounded_of_exact hrun.1

/-- A peer at address `n` with a version message of time `nTime`. -/
def peerSample (n : UInt8) (nTime : Int) : TimeSample where
  ip := ⟨[0, 0, 0, 0, 0, 0, 0, 0, 0, 0, 0xFF, 0xFF, 8, 8, 8, n], rfl⟩
  nTime := BitVec.ofInt 64 nTime
  now := 1500000000

/-- Three peers whose clocks are near and one that is far ahead. -/
def nearSamples : List TimeSample :=
  [peerSample 1 1500000003, peerSample 2 1499999990, peerSample 3 1500000007,
    peerSample 4 1600000000, peerSample 1 5]

theorem bounded_of_fits_nearSamples : Bounded nearSamples (run nearSamples) :=
  bounded_of_fits (by decide)

/-- Four peers whose clocks are the least 64-bit number apart from ours take the offset there: the
absolute value of that number is itself. -/
def farSamples : List TimeSample :=
  (List.range 4).map fun n ↦ peerSample n.toUInt8 (-2 ^ 63 + 1500000000)

theorem farSamples_not_bounded :
    (run farSamples).value.nTimeOffset = -2 ^ 63 ∧ ¬ ∀ calls, Bounded calls (run calls) := by
  have hoffset : (run farSamples).value.nTimeOffset = -2 ^ 63 := by decide
  constructor
  · exact hoffset
  · intro h
    have hbound := (h farSamples).bounded
    rw [hoffset] at hbound
    exact absurd hbound (by decide)

/-- The filter is full and the offset has this value. -/
structure Frozen (nTimeOffset : Int) (s : TimeData) : Prop where
  nSize : s.vTimeOffsets.nSize = 200
  full : s.vTimeOffsets.vValues.length = 200
  offset : s.nTimeOffset = nTimeOffset

theorem Frozen.addTimeData {nTimeOffset : Int} {s : TimeData} (h : Frozen nTimeOffset s)
    (c : TimeSample) : Frozen nTimeOffset (s.addTimeData c).value := by
  have hinput (x : Int) : (s.vTimeOffsets.input x).vValues.length = 200 := by
    unfold CMedianFilter.input
    rw [if_pos (h.full.trans h.nSize.symm), List.length_append, List.length_tail, h.full]
    rfl
  unfold TimeData.addTimeData
  rw [Arith.value_bind]
  split
  case isTrue => exact h
  case isFalse =>
    have heven (x : Int) : ¬ (5 ≤ (s.vTimeOffsets.input x).size ∧
        (s.vTimeOffsets.input x).size % 2 = 1) := by
      rw [CMedianFilter.size, hinput]
      decide
    rw [if_neg (heven _)]
    exact ⟨h.nSize, hinput _, h.offset⟩

/-- A window of two hundred samples has even size and keeps it, so the offset stays what it is. -/
theorem nTimeOffset_frozen {s : Arith TimeData} (hnSize : s.value.vTimeOffsets.nSize = 200)
    (hfull : s.value.vTimeOffsets.vValues.length = 200) (calls : List TimeSample) :
    (calls.foldl call s).value.nTimeOffset = s.value.nTimeOffset := by
  have hrun : Frozen s.value.nTimeOffset (calls.foldl call s).value :=
    invariant_foldl call (I := fun t ↦ Frozen s.value.nTimeOffset t.value)
      (fun _ c h ↦ h.addTimeData c) ⟨hnSize, hfull, rfl⟩ calls
  exact hrun.offset

end TimeData

end Bitmark
