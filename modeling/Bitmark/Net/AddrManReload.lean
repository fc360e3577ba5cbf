import Bitmark.Net.AddrManLoad

/-!
# Saving and loading the address manager

A manager that passes `Check_`, each of whose tried entries is in the bucket its address determines,
is read back with the same entries in the same "tried" buckets, and in the same "new" buckets when
their number is the same. The check does not look at the choice of a "tried" bucket: an entry in
another one than its own, or in one that is too full, does not come back to it.
-/

namespace Bitmark

open Codec

namespace CAddrMan

variable {nBuckets : Nat} {hash : Bytes → Uint256} {am : CAddrMan nBuckets} {info : CAddrInfo}

/-! ### The writer -/

/-- The entries that the first loop writes. -/
def newEntries (am : CAddrMan nBuckets) : List (Int × CAddrInfo) :=
  am.mapInfo.entries.filter fun e ↦ e.2.nRefCount ≠ 0

/-- The entries that the second loop writes. -/
def triedEntries (am : CAddrMan nBuckets) : List (Int × CAddrInfo) :=
  am.mapInfo.entries.filter fun e ↦ e.2.fInTried

/-- The new number of an entry in the "new" buckets. -/
def newIndex (am : CAddrMan nBuckets) (nId : Int) : Int :=
  (am.newEntries.map Prod.fst).idxOf nId

/-- With the right count the first loop writes all entries with references, and numbers them. -/
theorem writeNew_spec {nNew : Int} {l : List (Int × CAddrInfo)} (hnodup : (l.map Prod.fst).Nodup)
    (nIds : Int) (mapUnkIds : SortedMap Int Int)
    (hcount : nIds + (l.filter fun e ↦ e.2.nRefCount ≠ 0).length = nNew) :
    (writeNew nNew l nIds mapUnkIds).1 =
        ((l.filter fun e ↦ e.2.nRefCount ≠ 0).map Prod.snd).flatMap CAddrInfo.write ∧
      (∀ (i : ℕ) n, ((l.filter fun e ↦ e.2.nRefCount ≠ 0).map Prod.fst)[i]? = some n →
        (writeNew nNew l nIds mapUnkIds).2.lookup n = some (nIds + i)) ∧
      ∀ n, n ∉ l.map Prod.fst →
        (writeNew nNew l nIds mapUnkIds).2.lookup n = mapUnkIds.lookup n := by
  induction l generalizing nIds mapUnkIds with
  | nil => simp [writeNew]
  | cons e l ih =>
    obtain ⟨nId, info⟩ := e
    obtain ⟨hnId, hl⟩ := List.nodup_cons.mp hnodup
    rw [writeNew]
    by_cases hdone : nIds = nNew
    · -- the count is reached, so that no entry with references is left
      have hnil : ((nId, info) :: l).filter (fun e ↦ e.2.nRefCount ≠ 0) = [] := by
        rw [← List.length_eq_zero_iff]
        omega
      rw [if_pos hdone, hnil]
      simp
    · rw [if_neg hdone]
      by_cases href : info.nRefCount ≠ 0
      · rw [List.filter_cons_of_pos (by simpa using href)] at hcount ⊢
        rw [List.length_cons] at hcount
        obtain ⟨hbytes, hids, hrest⟩ :=
          ih hl (nIds + 1) (mapUnkIds.insert nId nIds) (by push_cast at hcount; omega)
        dsimp only
        rw [if_pos href]
        refine ⟨?_, ?_, ?_⟩
        · rw [hbytes]
          rfl
        · rintro (_ | i) n hn
          · obtain rfl := Option.some.inj hn
            rw [hrest _ hnId, SortedMap.lookup_insert_self]
            simp
          · rw [hids i n hn]
            push_cast
            congr 1
            omega
        · intro n hn
          rw [List.map_cons, List.mem_cons, not_or] at hn
          rw [hrest n hn.2, SortedMap.lookup_insert_of_ne _ _ hn.1]
      · rw [List.filter_cons_of_neg (by simpa using href)] at hcount ⊢
        obtain ⟨hbytes, hids, hrest⟩ :=
          ih hl nIds (mapUnkIds.insert nId nIds) hcount
        dsimp only
        rw [if_neg href]
        refine ⟨hbytes, hids, ?_⟩
        intro n hn
        rw [List.map_cons, List.mem_cons, not_or] at hn
        rw [hrest n hn.2, SortedMap.lookup_insert_of_ne _ _ hn.1]

/-- With the right count the second loop writes all tried entries. -/
theorem writeTried_spec {nTried : Int} {l : List (Int × CAddrInfo)} (nIds : Int)
    (hcount : nIds + (l.filter fun e ↦ e.2.fInTried).length = nTried) :
    writeTried nTried l nIds =
      ((l.filter fun e ↦ e.2.fInTried).map Prod.snd).flatMap CAddrInfo.write := by
  induction l generalizing nIds with
  | nil => rfl
  | cons e l ih =>
    obtain ⟨nId, info⟩ := e
    rw [writeTried]
    by_cases hdone : nIds = nTried
    · have hnil : ((nId, info) :: l).filter (fun e ↦ e.2.fInTried) = [] := by
        rw [← List.length_eq_zero_iff]
        omega
      rw [if_pos hdone, hnil]
      rfl
    · rw [if_neg hdone]
      by_cases htried : info.fInTried = true
      · rw [List.filter_cons_of_pos (by simpa using htried)] at hcount ⊢
        rw [List.length_cons] at hcount
        rw [if_pos htried, ih (nIds + 1) (by push_cast at hcount; omega)]
        rfl
      · rw [List.filter_cons_of_neg (by simpa using htried)] at hcount ⊢
        rw [if_neg htried, ih nIds hcount]

/-! ### What the check says of the entries -/

theorem Checked.refs_ne_zero_iff (h : am.Checked) {n : Int} (hinfo : am.mapInfo.lookup n = some info) :
    info.nRefCount ≠ 0 ↔ info.fInTried = false := by
  have hentry := h.entries n info hinfo
  cases htried : info.fInTried with
  | true => simp [(hentry.tried htried).2]
  | false =>
    have := (hentry.new htried).1
    simp
    omega

/-- No two entries have one address. -/
theorem Checked.address_inj (h : am.Checked) {n n' : Int} {info' : CAddrInfo}
    (hinfo : am.mapInfo.lookup n = some info) (hinfo' : am.mapInfo.lookup n' = some info')
    (haddr : info.toCNetAddr = info'.toCNetAddr) : n = n' := by
  have hleft := (h.entries n info hinfo).mapAddr
  have hright := (h.entries n' info' hinfo').mapAddr
  rw [haddr] at hleft
  exact hleft.symm.trans hright

theorem Checked.expectedNew_eq (h : am.Checked) {n : Int} (hinfo : am.mapInfo.lookup n = some info) :
    am.expectedNew n = info.nRefCount := by
  rw [expectedNew, mapNew, SortedMap.lookup_filterMap, hinfo, Option.bind_some]
  cases htried : info.fInTried with
  | true => exact ((h.entries n info hinfo).tried htried).2.symm
  | false => rfl

/-- The reference count of an entry is the number of "new" buckets that hold it. -/
theorem Checked.refs_eq (h : am.Checked) {n : Int} (hinfo : am.mapInfo.lookup n = some info) :
    info.nRefCount = (holding am.vvNew n).card := by
  rw [← h.expectedNew_eq hinfo, ← h.new_count, count_allNew]

/-- What is in a "new" bucket is an entry that is not tried. -/
theorem Checked.new_entry (h : am.Checked) {n : Int} {b : Fin nBuckets}
    (hmem : n ∈ (am.vvNew b).keys) :
    ∃ info, am.mapInfo.lookup n = some info ∧ info.fInTried = false := by
  have hcount := h.new_count n
  have hpos : 0 < am.allNew.count n :=
    List.count_pos_iff.mpr (List.mem_flatMap.mpr ⟨b, List.mem_finRange b, hmem⟩)
  cases hinfo : am.mapInfo.lookup n with
  | none =>
    rw [expectedNew, mapNew, SortedMap.lookup_filterMap, hinfo] at hcount
    simp at hcount
    omega
  | some info =>
    refine ⟨info, rfl, (h.refs_ne_zero_iff hinfo).mp ?_⟩
    rw [← h.expectedNew_eq hinfo, ← hcount]
    omega

theorem mem_newEntries (h : am.Checked) {n : Int} :
    (n, info) ∈ am.newEntries ↔ am.mapInfo.lookup n = some info ∧ info.fInTried = false := by
  rw [newEntries, List.mem_filter, ← SortedMap.lookup_eq_some, decide_eq_true_eq]
  exact and_congr_right fun hinfo ↦ h.refs_ne_zero_iff hinfo

theorem mem_triedEntries {n : Int} :
    (n, info) ∈ am.triedEntries ↔ am.mapInfo.lookup n = some info ∧ info.fInTried = true := by
  rw [triedEntries, List.mem_filter, ← SortedMap.lookup_eq_some]

theorem newEntries_eq (h : am.Checked) :
    am.newEntries = am.mapInfo.entries.filter fun e ↦ !e.2.fInTried := by
  refine List.filter_congr ?_
  rintro ⟨n, info⟩ hmem
  have href := h.refs_ne_zero_iff (SortedMap.lookup_eq_some.mpr hmem)
  rw [Bool.eq_iff_iff, decide_eq_true_eq, Bool.not_eq_true']
  exact href

theorem Checked.length_newEntries (h : am.Checked) : (am.newEntries.length : Int) = am.nNew := by
  rw [newEntries_eq h, ← List.countP_eq_length_filter]
  exact h.count_new

theorem Checked.length_triedEntries (h : am.Checked) :
    (am.triedEntries.length : Int) = am.nTried := by
  rw [triedEntries, ← List.countP_eq_length_filter]
  exact h.count_tried

/-- What a checked manager writes. -/
theorem Checked.serialize_eq (h : am.Checked) :
    am.serialize = [0] ++ writeBytes am.nKey ++ writeInt am.newEntries.length ++
      writeInt am.triedEntries.length ++ writeInt nBuckets ++
      (am.newEntries.map Prod.snd).flatMap CAddrInfo.write ++
      (am.triedEntries.map Prod.snd).flatMap CAddrInfo.write ++
      ((List.finRange nBuckets).map fun b ↦ (am.vvNew b).keys.map am.newIndex).flatMap fun l ↦
        writeInt l.length ++ l.flatMap writeInt := by
  have hnew := h.length_newEntries
  have htried := h.length_triedEntries
  have hcount : 0 + (am.newEntries.length : Int) = am.nNew := by rw [zero_add, hnew]
  obtain ⟨hbytes, hids, -⟩ := writeNew_spec am.mapInfo.nodup_keys 0 ∅ hcount
  have hlookup : ∀ b, ∀ n ∈ (am.vvNew b).keys,
      (writeNew am.nNew am.mapInfo.entries 0 ∅).2.lookup n = some (am.newIndex n) := by
    intro b n hn
    obtain ⟨info, hinfo, hnot⟩ := h.new_entry hn
    have hmem : n ∈ am.newEntries.map Prod.fst :=
      List.mem_map_of_mem (f := Prod.fst) ((mem_newEntries h).mpr ⟨hinfo, hnot⟩)
    rw [hids _ n (List.getElem?_idxOf hmem), zero_add]
    rfl
  have hbuckets : ((List.finRange nBuckets).map fun b ↦ (am.vvNew b).keys.map am.newIndex).flatMap
      (fun l ↦ writeInt l.length ++ l.flatMap writeInt) = (List.finRange nBuckets).flatMap fun b ↦
        writeBucket (writeNew am.nNew am.mapInfo.entries 0 ∅).2 (am.vvNew b) := by
    rw [List.flatMap_map]
    refine List.flatMap_congr fun b _ ↦ ?_
    rw [writeBucket, List.length_map, List.flatMap_map]
    congr 1
    refine List.flatMap_congr fun n hn ↦ ?_
    rw [hlookup b n hn, Option.getD_some]
  rw [serialize, hbuckets, hnew, htried]
  dsimp only
  rw [hbytes, writeTried_spec 0 (by rw [zero_add]; exact htried)]
  rfl

/-! ### Renumbering -/

theorem nodup_newIds (am : CAddrMan nBuckets) : (am.newEntries.map Prod.fst).Nodup :=
  am.mapInfo.nodup_keys.sublist (List.filter_sublist.map _)

theorem newIndex_eq {i : ℕ} {n : Int} (h : am.newEntries[i]? = some (n, info)) :
    am.newIndex n = i := by
  obtain ⟨hi, hget⟩ := List.getElem?_eq_some_iff.mp h
  have hlen : i < (am.newEntries.map Prod.fst).length := by rwa [List.length_map]
  have hfst : (am.newEntries.map Prod.fst)[i] = n := by rw [List.getElem_map, hget]
  rw [newIndex, ← hfst, (nodup_newIds am).idxOf_getElem]

theorem exists_getElem?_newEntries (h : am.Checked) {b : Fin nBuckets} {n : Int}
    (hmem : n ∈ (am.vvNew b).keys) :
    ∃ i : ℕ, ∃ info, am.newEntries[i]? = some (n, info) ∧ am.newIndex n = i := by
  obtain ⟨info, hinfo, hnot⟩ := h.new_entry hmem
  obtain ⟨i, hi⟩ := List.mem_iff_getElem?.mp ((mem_newEntries h).mpr ⟨hinfo, hnot⟩)
  exact ⟨i, info, hi, newIndex_eq hi⟩

/-- A bucket has at most all "new" entries. -/
theorem Checked.length_keys_le (h : am.Checked) (b : Fin nBuckets) :
    (am.vvNew b).keys.length ≤ am.newEntries.length := by
  have hlen : (am.newEntries.map Prod.fst).length = am.newEntries.length := List.length_map _
  rw [← hlen]
  refine List.Subperm.length_le ((am.vvNew b).nodup_keys.subperm ?_)
  intro n hn
  obtain ⟨i, info, hi, -⟩ := exists_getElem?_newEntries h hn
  exact List.mem_map_of_mem (f := Prod.fst) (List.mem_of_getElem? hi)

/-- A new number is listed in the bucket that lists the entry. -/
theorem Checked.mem_map_newIndex (h : am.Checked) {i : ℕ} {n : Int}
    (hi : am.newEntries[i]? = some (n, info)) {b : Fin nBuckets} :
    (i : Int) ∈ (am.vvNew b).keys.map am.newIndex ↔ n ∈ (am.vvNew b).keys := by
  rw [List.mem_map]
  constructor
  · rintro ⟨m, hm, heq⟩
    obtain ⟨j, info', hj, hindex⟩ := exists_getElem?_newEntries h hm
    obtain rfl := Int.ofNat_inj.mp (hindex.symm.trans heq)
    obtain ⟨rfl, -⟩ := Prod.mk.inj (Option.some.inj (hj.symm.trans hi))
    exact hm
  · intro hn
    exact ⟨n, hn, newIndex_eq hi⟩

/-- The addresses of all entries are different. -/
theorem Checked.nodup_addresses (h : am.Checked) :
    ((am.newEntries.map Prod.snd ++ am.triedEntries.map Prod.snd).map (·.toCNetAddr)).Nodup := by
  have hperm : (am.newEntries ++ am.triedEntries).Perm am.mapInfo.entries := by
    rw [newEntries_eq h]
    exact List.perm_append_comm.trans (List.filter_append_perm _ _)
  have hentries : (am.mapInfo.entries.map fun e ↦ e.2.toCNetAddr).Nodup := by
    refine List.pairwise_map.mpr (am.mapInfo.sorted.imp_of_mem ?_)
    rintro ⟨n, x⟩ ⟨n', x'⟩ hmem hmem' hlt haddr
    have heq := h.address_inj (SortedMap.lookup_eq_some.mpr hmem) (SortedMap.lookup_eq_some.mpr hmem')
      haddr
    exact hlt.ne heq
  rw [← List.map_append, List.map_map]
  exact (hperm.map _).nodup_iff.mpr hentries

/-! ### The round trip -/

/-- Every tried entry is in the bucket its address determines, and the buckets are within their
size. -/
structure TriedPlaced (hash : Bytes → Uint256) (am : CAddrMan nBuckets) : Prop where
  bucket : ∀ b, ∀ n ∈ am.vvTried b, ∀ info, am.mapInfo.lookup n = some info →
    info.getTriedBucket hash am.nKey = b
  size : ∀ b, (am.vvTried b).length ≤ addrmanTriedBucketSize

/-- This holds after every run of calls. -/
theorem Consistent.triedPlaced (h : am.Consistent hash) (hchecked : am.Checked) :
    am.TriedPlaced hash where
  bucket := by
    intro b n hmem info hinfo
    have htried : info.fInTried = true := by
      obtain ⟨info', hinfo', htried⟩ :=
        (hchecked.tried_mem n).mp (List.mem_flatMap.mpr ⟨b, List.mem_finRange b, hmem⟩)
      obtain rfl := Option.some.inj (hinfo.symm.trans hinfo')
      exact htried
    exact (((h.tried n info hinfo htried).1 b).mp hmem).symm
  size := h.tried_size

theorem TriedPlaced.mem_iff (h : am.TriedPlaced hash) (hchecked : am.Checked)
    {b : Fin addrmanTriedBucketCount} {n : Int} : n ∈ am.vvTried b ↔ ∃ info,
      am.mapInfo.lookup n = some info ∧ info.fInTried = true ∧
        info.getTriedBucket hash am.nKey = b := by
  constructor
  · intro hmem
    obtain ⟨info, hinfo, htried⟩ :=
      (hchecked.tried_mem n).mp (List.mem_flatMap.mpr ⟨b, List.mem_finRange b, hmem⟩)
    exact ⟨info, hinfo, htried, h.bucket b n hmem info hinfo⟩
  · rintro ⟨info, hinfo, htried, rfl⟩
    obtain ⟨b, -, hmem⟩ := List.mem_flatMap.mp ((hchecked.tried_mem n).mpr ⟨info, hinfo, htried⟩)
    rwa [h.bucket b n hmem info hinfo]

/-- The reader has room for the tried entries. -/
theorem TriedPlaced.room (h : am.TriedPlaced hash) (hchecked : am.Checked)
    (b : Fin addrmanTriedBucketCount) :
    ((am.triedEntries.map Prod.snd).countP fun x ↦ x.getTriedBucket hash am.nKey = b) ≤
      addrmanTriedBucketSize := by
  rw [List.countP_map, List.countP_eq_length_filter]
  refine le_trans ?_ (h.size b)
  rw [← List.length_map (f := Prod.fst)]
  refine List.Subperm.length_le ((List.Nodup.subperm ?_) ?_)
  · exact am.mapInfo.nodup_keys.sublist ((List.filter_sublist.trans List.filter_sublist).map _)
  · intro n hn
    obtain ⟨⟨n, info⟩, he, rfl⟩ := List.mem_map.mp hn
    obtain ⟨he, hb⟩ := List.mem_filter.mp he
    obtain ⟨hinfo, htried⟩ := mem_triedEntries.mp he
    exact (h.mem_iff hchecked).mpr ⟨info, hinfo, htried, of_decide_eq_true hb⟩

/-- The entries with some numbers, as the disk keeps them. -/
def savedAt (am : CAddrMan nBuckets) (ids : Set Int) : Set CAddrInfo :=
  {x | ∃ n ∈ ids, ∃ info, am.mapInfo.lookup n = some info ∧ info.saved = x}

section Restored

variable {R : Nat} {am' : CAddrMan R} {news trieds : List CAddrInfo}

theorem Restored.savedAt_univ (h : Restored hash news trieds am') :
    am'.savedAt Set.univ = {x | ∃ info ∈ news ++ trieds, info.saved = x} := by
  ext x
  constructor
  · rintro ⟨n, -, info, hinfo, rfl⟩
    rcases (h.lookup n info).mp hinfo with ⟨i, y, hy, rfl, -⟩ | ⟨j, y, hy, rfl, -⟩
    · exact ⟨y, List.mem_append_left _ (List.mem_of_getElem? hy), rfl⟩
    · exact ⟨y, List.mem_append_right _ (List.mem_of_getElem? hy), rfl⟩
  · rintro ⟨info, hinfo, rfl⟩
    rcases List.mem_append.mp hinfo with hinfo | hinfo
    · obtain ⟨i, hi⟩ := List.mem_iff_getElem?.mp hinfo
      exact ⟨_, trivial, _, (h.lookup _ _).mpr (.inl ⟨i, info, hi, rfl, rfl⟩), rfl⟩
    · obtain ⟨j, hj⟩ := List.mem_iff_getElem?.mp hinfo
      exact ⟨_, trivial, _, (h.lookup _ _).mpr (.inr ⟨j, info, hj, rfl, rfl⟩), rfl⟩

theorem Restored.savedAt_tried (h : Restored hash news trieds am')
    (b : Fin addrmanTriedBucketCount) : am'.savedAt {n | n ∈ am'.vvTried b} =
      {x | ∃ info ∈ trieds, info.getTriedBucket hash am'.nKey = b ∧ info.saved = x} := by
  ext x
  constructor
  · rintro ⟨n, hn, info, hinfo, rfl⟩
    obtain ⟨j, y, hy, hb, rfl⟩ := (h.tried b n).mp hn
    have hlookup := (h.lookup _ _).mpr (.inr ⟨j, y, hy, rfl, rfl⟩)
    obtain rfl := Option.some.inj (hinfo.symm.trans hlookup)
    exact ⟨y, List.mem_of_getElem? hy, hb, rfl⟩
  · rintro ⟨info, hinfo, hb, rfl⟩
    obtain ⟨j, hj⟩ := List.mem_iff_getElem?.mp hinfo
    exact ⟨_, (h.tried b _).mpr ⟨j, info, hj, hb, rfl⟩, _,
      (h.lookup _ _).mpr (.inr ⟨j, info, hj, rfl, rfl⟩), rfl⟩

end Restored

theorem Checked.savedAt_univ (h : am.Checked) : am.savedAt Set.univ =
    {x | ∃ info ∈ am.newEntries.map Prod.snd ++ am.triedEntries.map Prod.snd, info.saved = x} := by
  ext x
  constructor
  · rintro ⟨n, -, info, hinfo, rfl⟩
    refine ⟨info, ?_, rfl⟩
    cases htried : info.fInTried with
    | false =>
      exact List.mem_append_left _
        (List.mem_map_of_mem (f := Prod.snd) ((mem_newEntries h).mpr ⟨hinfo, htried⟩))
    | true =>
      exact List.mem_append_right _
        (List.mem_map_of_mem (f := Prod.snd) (mem_triedEntries.mpr ⟨hinfo, htried⟩))
  · rintro ⟨info, hinfo, rfl⟩
    rcases List.mem_append.mp hinfo with hinfo | hinfo
    · obtain ⟨⟨n, info⟩, he, rfl⟩ := List.mem_map.mp hinfo
      exact ⟨n, trivial, info, ((mem_newEntries h).mp he).1, rfl⟩
    · obtain ⟨⟨n, info⟩, he, rfl⟩ := List.mem_map.mp hinfo
      exact ⟨n, trivial, info, (mem_triedEntries.mp he).1, rfl⟩

theorem TriedPlaced.savedAt_tried (h : am.TriedPlaced hash) (hchecked : am.Checked)
    (b : Fin addrmanTriedBucketCount) : am.savedAt {n | n ∈ am.vvTried b} =
      {x | ∃ info ∈ am.triedEntries.map Prod.snd,
        info.getTriedBucket hash am.nKey = b ∧ info.saved = x} := by
  ext x
  constructor
  · rintro ⟨n, hn, info, hinfo, rfl⟩
    obtain ⟨info', hinfo', htried, hb⟩ := (h.mem_iff hchecked).mp hn
    obtain rfl := Option.some.inj (hinfo.symm.trans hinfo')
    exact ⟨info, List.mem_map_of_mem (f := Prod.snd) (mem_triedEntries.mpr ⟨hinfo, htried⟩), hb, rfl⟩
  · rintro ⟨info, hmem, hb, rfl⟩
    obtain ⟨⟨n, info⟩, he, rfl⟩ := List.mem_map.mp hmem
    obtain ⟨hinfo, htried⟩ := mem_triedEntries.mp he
    exact ⟨n, (h.mem_iff hchecked).mpr ⟨info, hinfo, htried, hb⟩, info, hinfo, rfl⟩

/-- What is kept of the "new" buckets when their number is the same. -/
structure SameNew (am am' : CAddrMan nBuckets) : Prop where
  listed : ∀ b, am'.savedAt {n | n ∈ (am'.vvNew b).keys} = am.savedAt {n | n ∈ (am.vvNew b).keys}
  refs : ∀ n info n' info', am.mapInfo.lookup n = some info → am'.mapInfo.lookup n' = some info' →
    info'.toCNetAddr = info.toCNetAddr → info'.nRefCount = info.nRefCount

theorem Checked.sameNew (h : am.Checked) [NeZero nBuckets] {am' : CAddrMan nBuckets}
    (hrestored : Restored hash (am.newEntries.map Prod.snd) (am.triedEntries.map Prod.snd) am')
    (hnew : ∀ b k, k ∈ (am'.vvNew b).keys ↔ k ∈ (am.vvNew b).keys.map am.newIndex) :
    am.SameNew am' := by
  have hmap : ∀ {i : ℕ} {x}, (am.newEntries.map Prod.snd)[i]? = some x →
      ∃ n, am.newEntries[i]? = some (n, x) := by
    intro i x hx
    rw [List.getElem?_map] at hx
    obtain ⟨⟨n, y⟩, hi, rfl⟩ := Option.map_eq_some_iff.mp hx
    exact ⟨n, hi⟩
  constructor
  · intro b
    ext x
    constructor
    · rintro ⟨k, hk, info, hinfo, rfl⟩
      obtain ⟨n, hn, rfl⟩ := List.mem_map.mp ((hnew b k).mp hk)
      obtain ⟨i, y, hi, hindex⟩ := exists_getElem?_newEntries h hn
      have hlookup := (hrestored.lookup _ _).mpr
        (.inl ⟨i, y, by rw [List.getElem?_map, hi]; rfl, rfl, hindex⟩)
      obtain rfl := Option.some.inj (hinfo.symm.trans hlookup)
      exact ⟨n, hn, y, ((mem_newEntries h).mp (List.mem_of_getElem? hi)).1, rfl⟩
    · rintro ⟨n, hn, info, hinfo, rfl⟩
      obtain ⟨i, y, hi, hindex⟩ := exists_getElem?_newEntries h hn
      have hy := ((mem_newEntries h).mp (List.mem_of_getElem? hi)).1
      obtain rfl := Option.some.inj (hinfo.symm.trans hy)
      exact ⟨am.newIndex n, (hnew b _).mpr (List.mem_map_of_mem hn), _, (hrestored.lookup _ _).mpr
        (.inl ⟨i, info, by rw [List.getElem?_map, hi]; rfl, rfl, hindex⟩), rfl⟩
  · intro n info k info' hinfo hinfo' haddr
    rcases (hrestored.lookup k info').mp hinfo' with ⟨i, x, hx, rfl, rfl⟩ | ⟨j, x, hx, rfl, rfl⟩
    · obtain ⟨m, hi⟩ := hmap hx
      have hm := ((mem_newEntries h).mp (List.mem_of_getElem? hi)).1
      obtain rfl := h.address_inj hm hinfo haddr
      have hsame : holding am'.vvNew i = holding am.vvNew m := by
        ext b
        rw [mem_holding, mem_holding, hnew, h.mem_map_newIndex hi]
      rw [h.refs_eq hinfo, ← hsame]
    · obtain ⟨⟨m, y⟩, hmem, rfl⟩ := List.mem_map.mp (List.mem_of_getElem? hx)
      obtain ⟨hm, htried⟩ := mem_triedEntries.mp hmem
      obtain rfl := h.address_inj hm hinfo haddr
      obtain rfl := Option.some.inj (hinfo.symm.trans hm)
      exact ((h.entries m _ hinfo).tried htried).2.symm

/-- Saving and loading: the check passes again, the entries, their "tried" buckets and the counters are
the same, and with as many "new" buckets as before so are these and the reference counts. -/
theorem deserialize_serialize {R : Nat} [NeZero R] (hash : Bytes → Uint256)
    (am : CAddrMan nBuckets) (hcheck : am.check = 0) (hplaced : am.TriedPlaced hash)
    (hnKey : am.nKey.length ≤ maxSize) (hint : am.nNew + am.nTried < 2 ^ 31)
    (hBuckets : (nBuckets : Int) < 2 ^ 31) :
    ∃ am' : CAddrMan R, Reads (deserialize hash) am' am.serialize ∧ am'.check = 0 ∧
      am'.savedAt Set.univ = am.savedAt Set.univ ∧
      (∀ b, am'.savedAt {n | n ∈ am'.vvTried b} = am.savedAt {n | n ∈ am.vvTried b}) ∧
      am'.nNew = am.nNew ∧ am'.nTried = am.nTried ∧
      ∀ h : nBuckets = R, SameNew (h ▸ am) am' := by
  have h := (check_eq_zero_iff am).mp hcheck
  have hnew := h.length_newEntries
  have htried := h.length_triedEntries
  have hlen : ((am.newEntries.map Prod.snd).length : Int) = am.nNew := by rw [List.length_map, hnew]
  have hlen' : ((am.triedEntries.map Prod.snd).length : Int) = am.nTried := by
    rw [List.length_map, htried]
  have hindex : ∀ b, ∀ k ∈ (am.vvNew b).keys.map am.newIndex,
      ∃ i < (am.newEntries.map Prod.snd).length, k = (i : ℕ) := by
    intro b k hk
    obtain ⟨n, hn, rfl⟩ := List.mem_map.mp hk
    obtain ⟨i, info, hi, heq⟩ := exists_getElem?_newEntries h hn
    exact ⟨i, by rw [List.length_map]; exact (List.getElem?_eq_some_iff.mp hi).1, heq⟩
  have hnodup : ∀ b, ((am.vvNew b).keys.map am.newIndex).Nodup := by
    intro b
    refine List.Nodup.map_on ?_ (am.vvNew b).nodup_keys
    intro n hn n' hn' heq
    obtain ⟨i, info, hi, hn⟩ := exists_getElem?_newEntries h hn
    obtain ⟨i', info', hi', hn'⟩ := exists_getElem?_newEntries h hn'
    obtain rfl := Int.ofNat_inj.mp (hn.symm.trans (heq.trans hn'))
    exact (Prod.mk.inj (Option.some.inj (hi.symm.trans hi'))).1
  have hrefs : ∀ i < (am.newEntries.map Prod.snd).length,
      0 < (Finset.univ.filter fun b ↦ ((i : ℕ) : Int) ∈ (am.vvNew b).keys.map am.newIndex).card ∧
      (Finset.univ.filter fun b ↦ ((i : ℕ) : Int) ∈ (am.vvNew b).keys.map am.newIndex).card ≤
        addrmanNewBucketsPerAddress := by
    intro i hi
    rw [List.length_map] at hi
    obtain ⟨⟨n, info⟩, he⟩ : ∃ e, am.newEntries[i]? = some e := ⟨_, List.getElem?_eq_getElem hi⟩
    obtain ⟨hinfo, hnot⟩ := (mem_newEntries h).mp (List.mem_of_getElem? he)
    have hcard := h.refs_eq hinfo
    have hentry := (h.entries n info hinfo).new hnot
    simp only [h.mem_map_newIndex he]
    change 0 < (holding am.vvNew n).card ∧ (holding am.vvNew n).card ≤ _
    omega
  obtain ⟨am', hload, hnKey', hrestored, hsame⟩ : ∃ am' : CAddrMan R, load hash am.nKey nBuckets
        (am.newEntries.map Prod.snd) (am.triedEntries.map Prod.snd)
        ((List.finRange nBuckets).map fun b ↦ (am.vvNew b).keys.map am.newIndex) = am' ∧ _ :=
    load_restored am.nKey h.nodup_addresses (hplaced.room h) hnodup hindex hrefs
  refine ⟨am', ?_, ?_, ?_, ?_, ?_, ?_, ?_⟩
  · have hT := Int.natCast_nonneg (am.triedEntries.map Prod.snd).length
    have hN := Int.natCast_nonneg (am.newEntries.map Prod.snd).length
    have hindexes : ∀ l ∈ (List.finRange nBuckets).map fun b ↦ (am.vvNew b).keys.map am.newIndex,
        (l.length : Int) < 2 ^ 31 ∧ ∀ k ∈ l, 0 ≤ k ∧ k < 2 ^ 31 := by
      intro l hl
      obtain ⟨b, -, rfl⟩ := List.mem_map.mp hl
      have hle := h.length_keys_le b
      rw [List.length_map] at hlen hN
      rw [List.length_map]
      refine ⟨by omega, ?_⟩
      intro k hk
      obtain ⟨i, hi, rfl⟩ := hindex b k hk
      rw [List.length_map] at hi
      omega
    have hcount : ((List.finRange nBuckets).map fun b ↦
        (am.vvNew b).keys.map am.newIndex).length = nBuckets := by
      rw [List.length_map, List.length_finRange]
    have hreads : Reads (deserialize hash : Stream (CAddrMan R)) _ _ :=
      reads_load hash hnKey (by rw [hlen]; omega) (by rw [hlen']; omega)
        (by rw [hcount]; exact hBuckets) hindexes
    rw [hcount, hload, hlen, hlen'] at hreads
    rw [h.serialize_eq, hnew, htried]
    exact hreads
  · refine (check_eq_zero_iff am').mpr (hrestored.checked ?_ ?_)
    · rintro x hx
      obtain ⟨⟨n, info⟩, he, rfl⟩ := List.mem_map.mp hx
      exact (h.entries n info ((mem_newEntries h).mp he).1).nLastSuccess
    · rintro x hx
      obtain ⟨⟨n, info⟩, he, rfl⟩ := List.mem_map.mp hx
      obtain ⟨hinfo, htried⟩ := mem_triedEntries.mp he
      have hentry := h.entries n info hinfo
      have hne := (hentry.tried htried).1
      refine lt_of_le_of_ne hentry.nLastSuccess fun hzero ↦ hne ?_
      exact BitVec.eq_of_toInt_eq hzero.symm
  · rw [hrestored.savedAt_univ, h.savedAt_univ]
  · intro b
    rw [hrestored.savedAt_tried, hplaced.savedAt_tried h, hnKey']
  · rw [hrestored.nNew, hlen]
  · rw [hrestored.nTried, hlen']
  · rintro rfl
    exact h.sameNew hrestored fun b k ↦ hsame rfl b k

/-- A tried entry. -/
def triedPeer : CAddrInfo :=
  { peer with source := peer.toCNetAddr, nLastSuccess := 1, fInTried := true, nRandomPos := 0 }

/-- A manager with one entry, in some "tried" bucket. -/
def oneTried (b : Fin addrmanTriedBucketCount) : CAddrMan addrmanNewBucketCount where
  nKey := []
  nIdCount := 1
  mapInfo := .enumerate [triedPeer]
  mapAddr := Finmap.singleton peer.toCNetAddr 0
  vRandom := [0]
  nTried := 1
  vvTried := fun b' ↦ if b' = b then [0] else []
  nNew := 0
  vvNew := fun _ ↦ ∅

/-- A new entry. -/
def newPeer : CAddrInfo :=
  { peer with
    ip := CNetAddr.pchIPv4 ++ [8, 8, 4, 4]
    size_ip := rfl
    source := peer.toCNetAddr
    nRefCount := 1
    nRandomPos := 0 }

/-- A manager with both, the new entry in one of its "new" buckets. -/
def newAndTried : CAddrMan addrmanNewBucketCount where
  nKey := []
  nIdCount := 2
  mapInfo := .enumerate [newPeer, { triedPeer with nRandomPos := 1 }]
  mapAddr := (Finmap.singleton newPeer.toCNetAddr 0).insert peer.toCNetAddr 1
  vRandom := [0, 1]
  nTried := 1
  vvTried := fun b ↦ if b = 0 then [1] else []
  nNew := 1
  vvNew := fun b ↦ if b = 3 then SortedMap.insert ∅ 0 () else ∅

theorem deserialize_serialize_newAndTried :
    ∃ am' : CAddrMan addrmanNewBucketCount,
      Reads (deserialize fun _ ↦ 0) am' newAndTried.serialize ∧ am'.check = 0 ∧
      am'.savedAt Set.univ = newAndTried.savedAt Set.univ ∧
      (∀ b, am'.savedAt {n | n ∈ am'.vvTried b} =
        newAndTried.savedAt {n | n ∈ newAndTried.vvTried b}) ∧
      am'.nNew = 1 ∧ am'.nTried = 1 ∧
      ∀ h : addrmanNewBucketCount = addrmanNewBucketCount, SameNew (h ▸ newAndTried) am' := by
  refine deserialize_serialize (fun _ ↦ 0) newAndTried (by decide +kernel) ⟨?_, ?_⟩ (by decide)
    (by decide) (by decide)
  · intro b n hmem info _
    have hb : b = 0 := by
      by_contra hne
      simp [newAndTried, hne] at hmem
    rw [hb]
    rfl
  · intro b
    rw [newAndTried]
    dsimp only
    split <;> decide

/-- The check accepts a tried entry in another bucket than its own, and it is read back into its own. -/
theorem deserialize_serialize_other_bucket :
    ¬ ∀ (hash : Bytes → Uint256) (am am' : CAddrMan addrmanNewBucketCount), am.check = 0 →
      deserialize hash am.serialize = some (am', []) →
      ∀ b, am'.savedAt {n | n ∈ am'.vvTried b} = am.savedAt {n | n ∈ am.vvTried b} := by
  intro h
  have hread : ((deserialize fun _ ↦ 0 : Stream (CAddrMan addrmanNewBucketCount))
      (oneTried 1).serialize).map (fun p ↦ (p.1.vvTried 1, p.2)) = some ([], []) := by
    decide +kernel
  obtain ⟨⟨am', rest⟩, hread, hfields⟩ := Option.map_eq_some_iff.mp hread
  obtain ⟨hbucket, rfl⟩ := Prod.mk.inj hfields
  have hsame := h _ (oneTried 1) am' (by decide +kernel) hread 1
  have hmem : triedPeer.saved ∈ (oneTried 1).savedAt {n | n ∈ (oneTried 1).vvTried 1} :=
    ⟨0, by simp [oneTried], triedPeer, SortedMap.lookup_enumerate [triedPeer] 0, rfl⟩
  rw [← hsame] at hmem
  obtain ⟨n, hn, -⟩ := hmem
  have hn : n ∈ am'.vvTried 1 := hn
  rw [hbucket] at hn
  cases hn

end CAddrMan

end Bitmark
