import Bitmark.Lib.Shuffle
import Bitmark.Net.AddrManTried

/-!
# The choice of `SelectTried`

Round `j` of the loop of `SelectTried` (`src/addrman.cpp:128–150`) exchanges the entry at a drawn
position with the one at `j` and inspects the entry that it has brought to `j`. The position it
remembers is the one it drew, where the other entry is now.
-/

namespace Bitmark

namespace CAddrMan

open Shuffle

variable {nBuckets : Nat} {am am' : CAddrMan nBuckets}

/-- `nPos` of round `j`, in a bucket of `n` entries. -/
def triedPosition (draw : Nat → Nat) (n j : Nat) : Nat := getRandInt (draw j) (n - j) + j

/-- The number of rounds in a bucket of `n` entries. -/
def triedRounds (n : Nat) : Nat := min addrmanTriedEntriesInspectOnEvict n

/-- `nTemp` of round `j`. -/
def inspected (draw : Nat → Nat) (vTried : List Int) (j : Nat) : Int :=
  ((rounds (triedPosition draw vTried.length) j vTried)[triedPosition draw vTried.length j]?).getD (-1)

/-- The time of the entry of round `j`. -/
def inspectedTime (am : CAddrMan nBuckets) (draw : Nat → Nat) (vTried : List Int) (j : Nat) : Int :=
  am.lastSuccess (inspected draw vTried j)

/-- Of `m` rounds, `j` is the first to inspect an entry of the least time. -/
def FirstStalest (am : CAddrMan nBuckets) (draw : Nat → Nat) (vTried : List Int) (m j : Nat) : Prop :=
  j < m ∧ (∀ k < j, am.inspectedTime draw vTried j < am.inspectedTime draw vTried k) ∧
    ∀ k < m, am.inspectedTime draw vTried j ≤ am.inspectedTime draw vTried k

theorem FirstStalest.unique {draw : Nat → Nat} {vTried : List Int} {m j j' : Nat}
    (h : am.FirstStalest draw vTried m j) (h' : am.FirstStalest draw vTried m j') : j = j' := by
  rcases lt_trichotomy j j' with hlt | heq | hlt
  · exact absurd (h'.2.1 j hlt) (not_lt.mpr (h.2.2 j' h'.1))
  · exact heq
  · exact absurd (h.2.1 j' hlt) (not_lt.mpr (h'.2.2 j h.1))

theorem triedPosition_spec (draw : Nat → Nat) {n j : Nat} (h : j < n) :
    j ≤ triedPosition draw n j ∧ triedPosition draw n j < n := by
  have := getRandInt_lt (draw j) (Nat.sub_pos_of_lt h)
  rw [triedPosition]
  omega

theorem lt_of_lt_triedRounds {n j : Nat} (h : j < triedRounds n) : j < n :=
  lt_of_lt_of_le h (min_le_right _ _)

theorem getElem?_inspected (draw : Nat → Nat) {vTried : List Int} {j : Nat} (h : j < vTried.length) :
    (rounds (triedPosition draw vTried.length) j vTried)[triedPosition draw vTried.length j]? =
      some (inspected draw vTried j) := by
  have hlt := (triedPosition_spec draw h).2
  rw [inspected, List.getElem?_eq_getElem (by rwa [length_rounds])]
  rfl

theorem inspected_mem (draw : Nat → Nat) {vTried : List Int} {j : Nat} (h : j < vTried.length) :
    inspected draw vTried j ∈ vTried :=
  (rounds_perm _ _ _).mem_iff.mp (List.mem_of_getElem? (getElem?_inspected draw h))

/-- The entry that round `k` has inspected ends at position `k`. -/
theorem getElem?_rounds_inspected (draw : Nat → Nat) {vTried : List Int} {m k : Nat} (hk : k < m)
    (hm : m ≤ vTried.length) :
    (rounds (triedPosition draw vTried.length) m vTried)[k]? = some (inspected draw vTried k) := by
  rw [getElem?_rounds hk fun i hi ↦ triedPosition_spec draw (lt_of_lt_of_le hi hm)]
  exact getElem?_inspected draw (lt_of_lt_of_le hk hm)

/-! ### The loop -/

/-- What the loop knows after `m` rounds. -/
structure Inspected (am : CAddrMan nBuckets) (draw : Nat → Nat) (vTried : List Int) (m : Nat)
    (c : TriedChoice) : Prop where
  bucket : c.vTried = rounds (triedPosition draw vTried.length) m vTried
  start : m = 0 → c.nOldest = -1 ∧ c.nOldestPos = -1
  oldest : 0 < m → ∃ j, am.FirstStalest draw vTried m j ∧ c.nOldest = inspected draw vTried j ∧
    c.nOldestPos = triedPosition draw vTried.length j

theorem Inspected.round {draw : Nat → Nat} {vTried : List Int} {m : Nat} {c : TriedChoice}
    (h : ∀ k ∈ vTried, (∃ info, am.mapInfo.lookup k = some info) ∧ k ≠ -1)
    (hc : am.Inspected draw vTried m c) (hm : m < vTried.length) :
    ∃ c', am.inspectTried draw c m = .ok c' ∧ am.Inspected draw vTried (m + 1) c' := by
  have hlen : c.vTried.length = vTried.length := by rw [hc.bucket, length_rounds]
  obtain ⟨-, hpos⟩ := triedPosition_spec draw hm
  have htemp : c.vTried[triedPosition draw vTried.length m]? = some (inspected draw vTried m) := by
    rw [hc.bucket]
    exact getElem?_inspected draw hm
  have hfirst : c.vTried[m]? = some (c.vTried[m]) := List.getElem?_eq_getElem (by omega)
  have hswap : (c.vTried.set (triedPosition draw vTried.length m) c.vTried[m]).set m
      (inspected draw vTried m) = rounds (triedPosition draw vTried.length) (m + 1) vTried := by
    rw [rounds, ← hc.bucket, swapAt, hfirst, htemp]
  obtain ⟨⟨info, hinfo⟩, -⟩ := h _ (inspected_mem draw hm)
  have hposition : getRandInt (draw m) (vTried.length - m) + m =
      triedPosition draw vTried.length m := rfl
  rw [inspectTried, if_pos (by omega), hlen]
  dsimp only
  rw [hposition, htemp, hfirst]
  dsimp only
  rw [hswap]
  rcases Nat.eq_zero_or_pos m with rfl | hmpos
  · rw [if_pos (hc.start rfl).1]
    refine ⟨_, rfl, rfl, fun h0 ↦ absurd h0 (Nat.succ_ne_zero _), fun _ ↦ ⟨0, ⟨Nat.one_pos, ?_, ?_⟩,
      rfl, rfl⟩⟩
    · exact fun k hk ↦ absurd hk (Nat.not_lt_zero k)
    · intro k hk
      rw [Nat.lt_one_iff.mp hk]
  · obtain ⟨j, ⟨hjm, hbefore, hleast⟩, hold, hpos'⟩ := hc.oldest hmpos
    have hne : c.nOldest ≠ -1 := by
      rw [hold]
      exact (h _ (inspected_mem draw (by omega))).2
    rw [if_neg hne, entry_eq_ok hinfo]
    dsimp only [bind, Except.bind]
    rw [hold]
    by_cases hlt : am.lastSuccess (inspected draw vTried m) < am.lastSuccess (inspected draw vTried j)
    · rw [if_pos hlt]
      refine ⟨_, rfl, rfl, fun h0 ↦ absurd h0 (Nat.succ_ne_zero _), fun _ ↦ ⟨m,
        ⟨Nat.lt_succ_self m, fun k hk ↦ lt_of_lt_of_le hlt (hleast k hk), fun k hk ↦ ?_⟩, rfl, rfl⟩⟩
      rcases Nat.lt_succ_iff_lt_or_eq.mp hk with hk | rfl
      · exact (lt_of_lt_of_le hlt (hleast k hk)).le
      · exact le_rfl
    · rw [if_neg hlt]
      refine ⟨_, rfl, rfl, fun h0 ↦ absurd h0 (Nat.succ_ne_zero _), fun _ ↦ ⟨j,
        ⟨Nat.lt_succ_of_lt hjm, hbefore, fun k hk ↦ ?_⟩, rfl, hpos'⟩⟩
      rcases Nat.lt_succ_iff_lt_or_eq.mp hk with hk | rfl
      · exact hleast k hk
      · exact not_lt.mp hlt

theorem inspectTried_of_le (draw : Nat → Nat) {c : TriedChoice} {i : Nat} (h : c.vTried.length ≤ i) :
    am.inspectTried draw c i = .ok c := by
  rw [inspectTried, if_neg (not_lt.mpr h)]

theorem inspected_loop (draw : Nat → Nat) {vTried : List Int}
    (h : ∀ k ∈ vTried, (∃ info, am.mapInfo.lookup k = some info) ∧ k ≠ -1) (m : Nat) :
    ∃ c, (List.range m).foldlM (am.inspectTried draw) { vTried } = .ok c ∧
      am.Inspected draw vTried (min m vTried.length) c := by
  induction m with
  | zero =>
    rw [Nat.zero_min]
    exact ⟨_, rfl, rfl, fun _ ↦ ⟨rfl, rfl⟩, fun h0 ↦ absurd h0 (lt_irrefl 0)⟩
  | succ m ih =>
    obtain ⟨c, hfold, hc⟩ := ih
    rw [List.range_succ, List.foldlM_append, hfold]
    dsimp only [bind, Except.bind]
    rw [List.foldlM_cons]
    by_cases hm : m < vTried.length
    · rw [min_eq_left hm.le] at hc
      obtain ⟨c', hround, hc'⟩ := hc.round h hm
      rw [min_eq_left (Nat.succ_le_of_lt hm), hround]
      exact ⟨c', rfl, hc'⟩
    · have hle : vTried.length ≤ m := not_lt.mp hm
      rw [min_eq_right hle] at hc
      rw [min_eq_right (hle.trans (Nat.le_succ m)), inspectTried_of_le draw]
      · exact ⟨c, rfl, hc⟩
      · rw [hc.bucket, length_rounds]
        exact hle

/-- `SelectTried` shuffles the bucket and gives the position drawn in the round that is the first to
inspect an entry of the least time. -/
theorem selectTried_eq (draw : Nat → Nat) {vTried : List Int}
    (h : ∀ k ∈ vTried, (∃ info, am.mapInfo.lookup k = some info) ∧ k ≠ -1) (hne : vTried ≠ []) :
    ∃ j, am.FirstStalest draw vTried (triedRounds vTried.length) j ∧
      am.selectTried draw vTried =
        .ok (rounds (triedPosition draw vTried.length) (triedRounds vTried.length) vTried,
          triedPosition draw vTried.length j) := by
  obtain ⟨c, hfold, hc⟩ := inspected_loop draw h addrmanTriedEntriesInspectOnEvict
  have hlen := List.length_pos_of_ne_nil hne
  obtain ⟨j, hj, -, hpos⟩ := hc.oldest (lt_min (by decide) hlen)
  refine ⟨j, hj, ?_⟩
  rw [selectTried, hfold]
  dsimp only [bind, Except.bind]
  rw [hc.bucket, hpos]
  rfl

/-! ### Eviction -/

theorem inspectTried_congr (hentry : ∀ k, (am.mapInfo.lookup k).isSome = (am'.mapInfo.lookup k).isSome)
    (htime : ∀ k, am.lastSuccess k = am'.lastSuccess k) (draw : Nat → Nat) :
    am.inspectTried draw = am'.inspectTried draw := by
  funext c i
  have hcheck : ∀ (k : Int) (c' : TriedChoice),
      (do let _ ← am.entry k; Except.ok c') = (do let _ ← am'.entry k; Except.ok c') := by
    intro k c'
    have hk := hentry k
    rw [entry, entry]
    cases hl : am.mapInfo.lookup k <;> cases hl' : am'.mapInfo.lookup k
    · rfl
    · simp [hl, hl'] at hk
    · simp [hl, hl'] at hk
    · rfl
  have hcheck_if : ∀ (k : Int) (P : Prop) [Decidable P] (c₁ c₂ : TriedChoice),
      (do let _ ← am.entry k; if P then Except.ok c₁ else Except.ok c₂) =
        (do let _ ← am'.entry k; if P then Except.ok c₁ else Except.ok c₂) := by
    intro k P _ c₁ c₂
    split
    · exact hcheck k c₁
    · exact hcheck k c₂
  rw [inspectTried, inspectTried]
  simp only [htime, hcheck_if]

theorem selectTried_congr (hentry : ∀ k, (am.mapInfo.lookup k).isSome = (am'.mapInfo.lookup k).isSome)
    (htime : ∀ k, am.lastSuccess k = am'.lastSuccess k) (draw : Nat → Nat) (vTried : List Int) :
    am.selectTried draw vTried = am'.selectTried draw vTried := by
  rw [selectTried, selectTried, inspectTried_congr hentry htime]

private theorem exists_mem_keys_update (vvNew : Fin nBuckets → NewBucket) (b : Fin nBuckets)
    (nId : Int) :
    ∃ b', nId ∈ (Function.update vvNew b ((vvNew b).insert nId ()) b').keys := by
  refine ⟨b, ?_⟩
  rw [Function.update_self]
  exact SortedMap.mem_keys.mpr ⟨(), SortedMap.lookup_insert_self ..⟩

theorem evictTried_ok {hash : Bytes → Uint256} [NeZero nBuckets] {draw : Nat → Nat} {nId : Int}
    {nOrigin : Fin nBuckets} {b : Fin addrmanTriedBucketCount}
    (h : am.evictTried hash draw nId nOrigin b = .ok am') :
    ∃ vTried nPos nIdOld, am.selectTried draw (am.vvTried b) = .ok (vTried, nPos) ∧
      elementAt vTried nPos = some nIdOld ∧ am'.vvTried b = vTried.set nPos.toNat nId ∧
      ∃ b', nIdOld ∈ (am'.vvNew b').keys := by
  rw [evictTried] at h
  cases hselect : am.selectTried draw (am.vvTried b) with
  | error e =>
    rw [hselect] at h
    cases h
  | ok chosen =>
    obtain ⟨vTried, nPos⟩ := chosen
    rw [hselect] at h
    dsimp only [bind, Except.bind] at h
    cases helement : elementAt vTried nPos with
    | none =>
      rw [helement] at h
      cases h
    | some nIdOld =>
      rw [helement] at h
      dsimp only at h
      cases hentry : am.entry nIdOld with
      | error e =>
        rw [hentry] at h
        cases h
      | ok infoOld =>
        rw [hentry] at h
        obtain rfl := Except.ok.inj h
        exact ⟨vTried, nPos, nIdOld, rfl, helement, Function.update_self ..,
          exists_mem_keys_update _ _ nIdOld⟩

/-- A full bucket loses the entry at the position that `SelectTried` gives. -/
theorem makeTried_evicts {hash : Bytes → Uint256} [NeZero nBuckets] {draw : Nat → Nat} {nId : Int}
    {nOrigin : Fin nBuckets} {info : CAddrInfo} (hinfo : am.mapInfo.lookup nId = some info)
    (hfull : addrmanTriedBucketSize ≤ (am.vvTried (info.getTriedBucket hash am.nKey)).length)
    (h : am.makeTried hash draw nId nOrigin = .ok am') :
    ∃ vTried nPos nIdOld,
      am.selectTried draw (am.vvTried (info.getTriedBucket hash am.nKey)) = .ok (vTried, nPos) ∧
      elementAt vTried nPos = some nIdOld ∧
      am'.vvTried (info.getTriedBucket hash am.nKey) = vTried.set nPos.toNat nId ∧
      ∃ b, nIdOld ∈ (am'.vvNew b).keys := by
  by_cases hmem : nId ∈ (am.vvNew nOrigin).keys
  case neg =>
    rw [makeTried, entry_eq_ok hinfo] at h
    dsimp only [bind, Except.bind] at h
    rw [if_pos hmem] at h
    cases h
  by_cases hzero : info.nRefCount -
      ((List.finRange nBuckets).countP fun b ↦ nId ∈ (am.vvNew b).keys : ℕ) = 0
  case neg =>
    rw [makeTried, entry_eq_ok hinfo] at h
    dsimp only [bind, Except.bind] at h
    rw [if_neg (not_not.mpr hmem), if_pos hzero] at h
    cases h
  rw [makeTried_eq_of_refs hinfo hmem hzero, if_neg (not_lt.mpr hfull)] at h
  cases hunlisted : (am.unlisted nId info).evictTried hash draw nId nOrigin
      (info.getTriedBucket hash am.nKey) with
  | error e =>
    rw [hunlisted] at h
    cases h
  | ok am₁ =>
    rw [hunlisted] at h
    obtain rfl := Except.ok.inj h
    obtain ⟨vTried, nPos, nIdOld, hselect, hrest⟩ := evictTried_ok hunlisted
    refine ⟨vTried, nPos, nIdOld, ?_, hrest⟩
    -- the entry that moves has another count of references, and no other entry has changed
    have hlookup : ∀ k, (am.unlisted nId info).mapInfo.lookup k =
        if k = nId then some { info with nRefCount := 0 } else am.mapInfo.lookup k :=
      lookup_setInfo am nId _
    have hsame : ∀ k, k ≠ nId → (am.unlisted nId info).mapInfo.lookup k = am.mapInfo.lookup k :=
      fun k hk ↦ (hlookup k).trans (if_neg hk)
    rw [← hselect]
    refine selectTried_congr (fun k ↦ ?_) (fun k ↦ ?_) draw _
    · by_cases hk : k = nId
      · rw [hlookup, if_pos hk, hk, hinfo]
        rfl
      · rw [hsame k hk]
    · rw [lastSuccess, lastSuccess]
      by_cases hk : k = nId
      · rw [hlookup, if_pos hk, hk, hinfo]
      · rw [hsame k hk]

/-- `SelectTried` keeps the entries of the bucket and gives the position of one that it has
inspected, with the least time of those inspected; that entry leaves the bucket when `MakeTried`
finds the bucket full. -/
def SelectsStalest [NeZero nBuckets] (am : CAddrMan nBuckets) (draw : Nat → Nat)
    (vTried : List Int) : Prop :=
  ∃ vTried' nPos nIdOld, am.selectTried draw vTried = .ok (vTried', nPos) ∧ vTried'.Perm vTried ∧
    elementAt vTried' nPos = some nIdOld ∧
    (∃ k < triedRounds vTried.length, inspected draw vTried k = nIdOld) ∧
    (∀ k < triedRounds vTried.length, am.lastSuccess nIdOld ≤ am.inspectedTime draw vTried k) ∧
    ∀ (hash : Bytes → Uint256) (nId : Int) (nOrigin : Fin nBuckets) (info : CAddrInfo)
      (am' : CAddrMan nBuckets), am.mapInfo.lookup nId = some info →
      am.vvTried (info.getTriedBucket hash am.nKey) = vTried →
      addrmanTriedBucketSize ≤ vTried.length → am.makeTried hash draw nId nOrigin = .ok am' →
      am'.vvTried (info.getTriedBucket hash am.nKey) = vTried'.set nPos.toNat nId ∧
        ∃ b, nIdOld ∈ (am'.vvNew b).keys

end CAddrMan

open CAddrMan Shuffle

/-- Over a bucket of different entries, the choice is right exactly when the bucket is not empty and
the first round that inspects an entry of the least time has drawn the position of a round that
inspects an entry of that time, as it does when it draws its own. -/
theorem selectTried_stalest_iff {nBuckets : Nat} [NeZero nBuckets] {am : CAddrMan nBuckets}
    (draw : Nat → Nat) {vTried : List Int} (hnodup : vTried.Nodup)
    (h : ∀ k ∈ vTried, (∃ info, am.mapInfo.lookup k = some info) ∧ k ≠ -1) :
    am.SelectsStalest draw vTried ↔ vTried ≠ [] ∧
      ∀ j, am.FirstStalest draw vTried (triedRounds vTried.length) j →
        triedPosition draw vTried.length j < triedRounds vTried.length ∧
        am.inspectedTime draw vTried (triedPosition draw vTried.length j) =
          am.inspectedTime draw vTried j := by
  constructor
  · rintro ⟨vTried', nPos, nIdOld, hselect, -, helement, ⟨k, hk, rfl⟩, hleast, -⟩
    have hne : vTried ≠ [] := by
      rintro rfl
      exact absurd (lt_of_lt_triedRounds hk) (Nat.not_lt_zero k)
    refine ⟨hne, fun j hj ↦ ?_⟩
    obtain ⟨j', hj', heq⟩ := selectTried_eq draw h hne
    obtain rfl := hj.unique hj'
    obtain ⟨rfl, rfl⟩ := Prod.mk.inj (Except.ok.inj (hselect.symm.trans heq))
    rw [elementAt_natCast] at helement
    -- each entry is in the bucket once, so the chosen position is that of the round `k`
    have hposition : triedPosition draw vTried.length j = k := by
      have hnodup' := (rounds_perm (triedPosition draw vTried.length)
        (triedRounds vTried.length) vTried).nodup_iff.mpr hnodup
      have hfinal := getElem?_rounds_inspected draw hk (min_le_right _ _)
      obtain ⟨hlt, -⟩ := List.getElem?_eq_some_iff.mp helement
      exact (List.getElem?_inj hlt hnodup').mp (helement.trans hfinal.symm)
    rw [hposition]
    refine ⟨hk, le_antisymm (hleast j hj.1) (hj.2.2 k hk)⟩
  · rintro ⟨hne, hcond⟩
    obtain ⟨j, hj, heq⟩ := selectTried_eq draw h hne
    obtain ⟨hlt, htime⟩ := hcond j hj
    have hfinal := getElem?_rounds_inspected draw hlt (min_le_right _ _)
    have helement := (elementAt_natCast _ _).trans hfinal
    refine ⟨_, _, _, heq, rounds_perm _ _ _, helement, ⟨_, hlt, rfl⟩, fun k hk ↦ ?_, ?_⟩
    · exact htime.le.trans (hj.2.2 k hk)
    · rintro hash nId nOrigin info am' hinfo rfl hfull hmake
      obtain ⟨vTried', nPos, nIdOld, hselect, helement', hset, hnew⟩ :=
        makeTried_evicts hinfo hfull hmake
      obtain ⟨rfl, rfl⟩ := Prod.mk.inj (Except.ok.inj (hselect.symm.trans heq))
      obtain rfl := Option.some.inj (helement'.symm.trans helement)
      exact ⟨hset, hnew⟩

/-- A full bucket of the entries `1, …, 64`, each of which succeeded a second before the one in
front of it. -/
def fullBucket : CAddrMan 1 :=
  { CAddrMan.empty [] with
    mapInfo := (List.range 64).foldl (fun m i ↦ m.insert (i + 1 : ℕ)
      { ip := List.replicate 16 0, size_ip := CNetAddr.size_init, port := 0,
        source := ⟨List.replicate 16 0, CNetAddr.size_init⟩,
        nLastSuccess := BitVec.ofNat 64 (64 - i), fInTried := true }) ∅
    vvTried := fun _ ↦ (List.range 64).map fun i ↦ ((i + 1 : ℕ) : Int) }

/-- The first round brings entry 11 to the front, and the others inspect entries that succeeded
later. The position of entry 11 is now that of entry 1, which succeeded last of all. -/
theorem selectTried_drops_newest :
    ¬ fullBucket.SelectsStalest (fun i ↦ if i = 0 then 10 else 0) (fullBucket.vvTried 0) := by
  rintro ⟨vTried', nPos, nIdOld, hselect, -, helement, -, hleast, -⟩
  have hchosen : (fullBucket.selectTried (fun i ↦ if i = 0 then 10 else 0)
      (fullBucket.vvTried 0)).toOption.bind (fun r ↦ elementAt r.1 r.2) = some 1 := by decide
  rw [hselect] at hchosen
  obtain rfl := Option.some.inj (helement.symm.trans hchosen)
  exact absurd (hleast 0 (by decide)) (by decide)

theorem selectTried_stalest_iff_sample :
    fullBucket.SelectsStalest (fun _ ↦ 0) (fullBucket.vvTried 0) := by
  have hknown : ∀ k ∈ fullBucket.vvTried 0, (fullBucket.mapInfo.lookup k).isSome ∧ k ≠ -1 := by decide
  refine (selectTried_stalest_iff (fun _ ↦ 0) (by decide) fun k hk ↦
    ⟨Option.isSome_iff_exists.mp (hknown k hk).1, (hknown k hk).2⟩).mpr ⟨by decide, fun j hj ↦ ?_⟩
  have hown : triedPosition (fun _ ↦ 0) (fullBucket.vvTried 0).length j = j := by
    simp [triedPosition, getRandInt]
  rw [hown]
  exact ⟨hj.1, rfl⟩

end Bitmark
