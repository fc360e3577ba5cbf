import Bitmark.Net.AddrMan

/-!
# The consistency check of the address manager

`CAddrMan::Check_` (`src/addrman.cpp:434`) and what it says when it returns zero.
-/

namespace Bitmark

namespace CAddrMan

variable {nBuckets : Nat}

/-- One round of the first loop of `Check_`; zero goes on. `mapAddr[info]` is zero for an address that
is not there. -/
def checkEntry (am : CAddrMan nBuckets) (n : Int) (info : CAddrInfo) : Int :=
  let err :=
    if info.fInTried then
      if info.nLastSuccess = 0 then -1 else if info.nRefCount ≠ 0 then -2 else 0
    else if info.nRefCount < 0 ∨ (addrmanNewBucketsPerAddress : Int) < info.nRefCount then -3
    else if info.nRefCount = 0 then -4 else 0
  if err ≠ 0 then err
  else if (am.mapAddr.lookup info.toCNetAddr).getD 0 ≠ n then -5
  else if elementAt am.vRandom info.nRandomPos ≠ some n then -14
  else if info.nLastTry.toInt < 0 then -6
  else if info.nLastSuccess.toInt < 0 then -8
  else 0

/-- `setTried` after the first loop. -/
def setTried (am : CAddrMan nBuckets) : SortedMap Int Unit :=
  am.mapInfo.filterMap fun info ↦ if info.fInTried then some () else none

/-- `mapNew` after the first loop. -/
def mapNew (am : CAddrMan nBuckets) : SortedMap Int Int :=
  am.mapInfo.filterMap fun info ↦ if info.fInTried then none else some info.nRefCount

/-- The loop over the "tried" buckets. -/
def checkTried : List Int → SortedMap Int Unit → Option (SortedMap Int Unit)
  | [], setTried => some setTried
  | n :: l, setTried => if setTried.lookup n = none then none else checkTried l (setTried.erase n)

/-- The loop over the "new" buckets. -/
def checkNew : List Int → SortedMap Int Int → Option (SortedMap Int Int)
  | [], mapNew => some mapNew
  | n :: l, mapNew =>
    match mapNew.lookup n with
    | none => none
    | some c => checkNew l (if c - 1 = 0 then mapNew.erase n else mapNew.insert n (c - 1))

/-- The elements of all "tried" buckets. -/
def allTried (am : CAddrMan nBuckets) : List Int :=
  (List.finRange addrmanTriedBucketCount).flatMap am.vvTried

/-- The elements of all "new" buckets. -/
def allNew (am : CAddrMan nBuckets) : List Int :=
  (List.finRange nBuckets).flatMap fun b ↦ (am.vvNew b).keys

/-- `Check_`. -/
def check (am : CAddrMan nBuckets) : Int :=
  if (am.vRandom.length : Int) ≠ am.nTried + am.nNew then -7
  else
    match (am.mapInfo.entries.map fun e ↦ am.checkEntry e.1 e.2).find? (· ≠ 0) with
    | some err => err
    | none =>
      if (am.setTried.keys.length : Int) ≠ am.nTried then -9
      else if (am.mapNew.keys.length : Int) ≠ am.nNew then -10
      else
        match checkTried am.allTried am.setTried with
        | none => -11
        | some setTried =>
          match checkNew am.allNew am.mapNew with
          | none => -12
          | some mapNew => if setTried ≠ ∅ then -13 else if mapNew ≠ ∅ then -15 else 0

/-! ### What it says -/

/-- What the check asks of an entry. -/
structure EntryChecked (am : CAddrMan nBuckets) (n : Int) (info : CAddrInfo) : Prop where
  tried : info.fInTried = true → info.nLastSuccess ≠ 0 ∧ info.nRefCount = 0
  new : info.fInTried = false → 0 < info.nRefCount ∧ info.nRefCount ≤ addrmanNewBucketsPerAddress
  mapAddr : (am.mapAddr.lookup info.toCNetAddr).getD 0 = n
  vRandom : elementAt am.vRandom info.nRandomPos = some n
  nLastTry : 0 ≤ info.nLastTry.toInt
  nLastSuccess : 0 ≤ info.nLastSuccess.toInt

/-- The references that an entry should have in the "new" buckets. -/
def expectedNew (am : CAddrMan nBuckets) (n : Int) : Int := (am.mapNew.lookup n).getD 0

/-- What the check asks of the manager. -/
structure Checked (am : CAddrMan nBuckets) : Prop where
  size : (am.vRandom.length : Int) = am.nTried + am.nNew
  entries : ∀ n info, am.mapInfo.lookup n = some info → am.EntryChecked n info
  count_tried : (am.mapInfo.count (·.fInTried) : Int) = am.nTried
  count_new : (am.mapInfo.count (!·.fInTried) : Int) = am.nNew
  tried_nodup : am.allTried.Nodup
  tried_mem : ∀ n, n ∈ am.allTried ↔ ∃ info, am.mapInfo.lookup n = some info ∧ info.fInTried = true
  new_count : ∀ n, (am.allNew.count n : Int) = am.expectedNew n

theorem checkEntry_eq_zero_iff {am : CAddrMan nBuckets} {n : Int} {info : CAddrInfo} :
    am.checkEntry n info = 0 ↔ am.EntryChecked n info := by
  constructor
  · intro h
    refine ⟨?_, ?_, ?_, ?_, ?_, ?_⟩
    · intro htried
      simp only [checkEntry, htried] at h
      grind
    · intro htried
      simp only [checkEntry, htried] at h
      grind
    all_goals
      simp only [checkEntry] at h
      grind
  · rintro ⟨htried, hnew, hmapAddr, hvRandom, hnLastTry, hnLastSuccess⟩
    have herr : (if info.fInTried then
          if info.nLastSuccess = 0 then (-1 : Int) else if info.nRefCount ≠ 0 then -2 else 0
        else if info.nRefCount < 0 ∨ (addrmanNewBucketsPerAddress : Int) < info.nRefCount then -3
        else if info.nRefCount = 0 then -4 else 0) = 0 := by
      cases hcase : info.fInTried with
      | true =>
        obtain ⟨h₁, h₂⟩ := htried hcase
        rw [if_pos rfl, if_neg h₁, if_neg (not_not.mpr h₂)]
      | false =>
        obtain ⟨h₁, h₂⟩ := hnew hcase
        rw [if_neg (by decide), if_neg (by omega), if_neg (by omega)]
    rw [checkEntry, herr, if_neg (by decide), if_neg (not_not.mpr hmapAddr),
      if_neg (not_not.mpr hvRandom), if_neg (not_lt.mpr hnLastTry), if_neg (not_lt.mpr hnLastSuccess)]

theorem checkTried_eq_empty_iff (l : List Int) (s : SortedMap Int Unit) :
    checkTried l s = some ∅ ↔ l.Nodup ∧ ∀ n, n ∈ l ↔ s.lookup n ≠ none := by
  induction l generalizing s with
  | nil =>
    rw [checkTried, Option.some.injEq, SortedMap.eq_empty_iff]
    simp
  | cons n l ih =>
    rw [checkTried]
    split
    · next hnone =>
      refine iff_of_false (by simp) ?_
      rintro ⟨-, hmem⟩
      exact (hmem n).mp List.mem_cons_self hnone
    · next hsome =>
      rw [ih, List.nodup_cons]
      constructor
      · rintro ⟨hnodup, hmem⟩
        refine ⟨⟨fun hn ↦ ?_, hnodup⟩, fun k ↦ ?_⟩
        · have := (hmem n).mp hn
          rw [SortedMap.lookup_erase, if_pos rfl] at this
          exact this rfl
        · by_cases hk : k = n
          · subst hk
            exact iff_of_true List.mem_cons_self hsome
          · rw [List.mem_cons, or_iff_right hk, hmem, SortedMap.lookup_erase, if_neg hk]
      · rintro ⟨⟨hn, hnodup⟩, hmem⟩
        refine ⟨hnodup, fun k ↦ ?_⟩
        rw [SortedMap.lookup_erase]
        by_cases hk : k = n
        · subst hk
          simp [hn]
        · rw [if_neg hk, ← hmem, List.mem_cons, or_iff_right hk]

theorem checkNew_eq_empty_iff (l : List Int) (m : SortedMap Int Int)
    (hpos : ∀ n c, m.lookup n = some c → 0 < c) :
    checkNew l m = some ∅ ↔ ∀ n, (l.count n : Int) = (m.lookup n).getD 0 := by
  induction l generalizing m with
  | nil =>
    rw [checkNew, Option.some.injEq, SortedMap.eq_empty_iff]
    refine forall_congr' fun n ↦ ?_
    cases h : m.lookup n with
    | none => simp
    | some c =>
      have := hpos n c h
      simp
      omega
  | cons n l ih =>
    rw [checkNew]
    cases h : m.lookup n with
    | none =>
      refine iff_of_false (by simp) ?_
      intro hcount
      have := hcount n
      rw [h, List.count_cons_self] at this
      simp at this
      omega
    | some c =>
      have hc := hpos n c h
      have hlookup : ∀ k, ((if c - 1 = 0 then m.erase n else m.insert n (c - 1)).lookup k).getD 0 =
          if k = n then c - 1 else (m.lookup k).getD 0 := by
        intro k
        split
        · next hzero =>
          rw [SortedMap.lookup_erase]
          split
          · exact hzero.symm
          · rfl
        · rw [SortedMap.lookup_insert]
          split <;> rfl
      dsimp only
      rw [ih]
      · refine forall_congr' fun k ↦ ?_
        rw [hlookup, List.count_cons]
        by_cases hk : k = n
        · subst hk
          simp [h]
          omega
        · simp [hk, Ne.symm hk]
      · intro k c' hk
        split at hk
        · rw [SortedMap.lookup_erase] at hk
          split at hk
          · cases hk
          · exact hpos k c' hk
        · rw [SortedMap.lookup_insert] at hk
          split at hk
          · obtain rfl := Option.some.inj hk
            omega
          · exact hpos k c' hk

theorem lookup_setTried (am : CAddrMan nBuckets) (n : Int) :
    am.setTried.lookup n ≠ none ↔
      ∃ info, am.mapInfo.lookup n = some info ∧ info.fInTried = true := by
  rw [setTried, SortedMap.lookup_filterMap]
  cases am.mapInfo.lookup n with
  | none => simp
  | some info => cases h : info.fInTried <;> simp [h]

theorem count_setTried (am : CAddrMan nBuckets) :
    am.setTried.keys.length = am.mapInfo.count (·.fInTried) := by
  rw [setTried, SortedMap.length_keys_filterMap]
  congr 1
  ext info
  cases info.fInTried <;> rfl

theorem count_mapNew (am : CAddrMan nBuckets) :
    am.mapNew.keys.length = am.mapInfo.count (!·.fInTried) := by
  rw [mapNew, SortedMap.length_keys_filterMap]
  congr 1
  ext info
  cases info.fInTried <;> rfl

/-- The entries are counted in `mapNew` with positive counts once they have passed. -/
theorem mapNew_pos {am : CAddrMan nBuckets}
    (h : ∀ n info, am.mapInfo.lookup n = some info → am.EntryChecked n info) (n c : Int)
    (hc : am.mapNew.lookup n = some c) : 0 < c := by
  rw [mapNew, SortedMap.lookup_filterMap, Option.bind_eq_some_iff] at hc
  obtain ⟨info, hinfo, hc⟩ := hc
  cases htried : info.fInTried with
  | true => simp [htried] at hc
  | false =>
    rw [htried] at hc
    obtain rfl := Option.some.inj hc
    exact ((h n info hinfo).new htried).1

/-- `Check_` returns zero exactly on a consistent manager. -/
theorem check_eq_zero_iff (am : CAddrMan nBuckets) : am.check = 0 ↔ am.Checked := by
  have hentries : (am.mapInfo.entries.map fun e ↦ am.checkEntry e.1 e.2).find? (· ≠ 0) = none ↔
      ∀ n info, am.mapInfo.lookup n = some info → am.EntryChecked n info := by
    simp only [List.find?_eq_none, List.mem_map, decide_eq_true_eq, not_not, Prod.exists,
      forall_exists_index, and_imp, SortedMap.lookup_eq_some, ← checkEntry_eq_zero_iff]
    exact ⟨fun h n info hmem ↦ h _ n info hmem rfl, fun h _ n info hmem heq ↦ heq ▸ h n info hmem⟩
  have htried := checkTried_eq_empty_iff am.allTried am.setTried
  simp only [lookup_setTried] at htried
  constructor
  · intro h
    rw [check] at h
    split at h
    · cases h
    next hsize =>
    split at h
    · next err herr =>
      have := List.find?_some herr
      simp [h] at this
    next hnone =>
    have hpassed := hentries.mp hnone
    split at h
    · cases h
    next hcount_tried =>
    split at h
    · cases h
    next hcount_new =>
    split at h
    · cases h
    next setTried hsetTried =>
    split at h
    · cases h
    next mapNew hmapNew =>
    split at h
    · cases h
    next hemptyTried =>
    split at h
    · cases h
    next hemptyNew =>
    rw [not_not] at hsize hcount_tried hcount_new hemptyTried hemptyNew
    subst hemptyTried hemptyNew
    obtain ⟨hnodup, hmem⟩ := htried.mp hsetTried
    exact
      { size := hsize
        entries := hpassed
        count_tried := count_setTried am ▸ hcount_tried
        count_new := count_mapNew am ▸ hcount_new
        tried_nodup := hnodup
        tried_mem := hmem
        new_count := (checkNew_eq_empty_iff am.allNew am.mapNew (mapNew_pos hpassed)).mp hmapNew }
  · intro h
    have hsetTried := htried.mpr ⟨h.tried_nodup, h.tried_mem⟩
    have hmapNew :=
      (checkNew_eq_empty_iff am.allNew am.mapNew (mapNew_pos h.entries)).mpr h.new_count
    rw [check, if_neg (not_not.mpr h.size), hentries.mpr h.entries]
    dsimp only
    rw [if_neg (not_not.mpr (by rw [count_setTried, h.count_tried])),
      if_neg (not_not.mpr (by rw [count_mapNew, h.count_new])), hsetTried, hmapNew]
    simp

end CAddrMan

end Bitmark
