import Mathlib.Data.Fintype.Basic
import Mathlib.Data.Finset.Card
import Bitmark.Net.AddrManIndex

/-!
# The buckets of the address manager

An entry is either in the one "tried" bucket that its address determines or in one or more "new"
buckets, as many as it counts. Each call changes the entry and the buckets of a few numbers only;
`Bucketed` is stated number by number, with room for a listing that is counted before it is made.
-/

namespace Bitmark

/-- The "new" buckets that hold a number. -/
def holding {n : Nat} (vvNew : Fin n → NewBucket) (nId : Int) : Finset (Fin n) :=
  Finset.univ.filter fun b ↦ nId ∈ (vvNew b).keys

section Holding

variable {n : Nat} {vvNew : Fin n → NewBucket} {nId : Int} {b : Fin n}

theorem mem_holding : b ∈ holding vvNew nId ↔ nId ∈ (vvNew b).keys := by
  rw [holding, Finset.mem_filter, and_iff_right (Finset.mem_univ b)]

theorem holding_update_erase (vvNew : Fin n → NewBucket) (b : Fin n) (x k : Int) :
    holding (Function.update vvNew b ((vvNew b).erase x)) k =
      if k = x then (holding vvNew k).erase b else holding vvNew k := by
  ext b'
  by_cases hb : b' = b
  · subst hb
    rw [mem_holding, Function.update_self, SortedMap.mem_keys_erase]
    split
    · next hk => simp [hk]
    · next hk => rw [and_iff_right hk, mem_holding]
  · rw [mem_holding, Function.update_of_ne hb]
    split
    · rw [Finset.mem_erase, and_iff_right hb, mem_holding]
    · rw [mem_holding]

theorem holding_update_insert (vvNew : Fin n → NewBucket) (b : Fin n) (x k : Int) :
    holding (Function.update vvNew b ((vvNew b).insert x ())) k =
      if k = x then insert b (holding vvNew k) else holding vvNew k := by
  ext b'
  by_cases hb : b' = b
  · subst hb
    rw [mem_holding, Function.update_self, SortedMap.mem_keys_insert]
    split
    · next hk => simp [hk]
    · next hk => rw [or_iff_right hk, mem_holding]
  · rw [mem_holding, Function.update_of_ne hb]
    split
    · rw [Finset.mem_insert, or_iff_right hb, mem_holding]
    · rw [mem_holding]

theorem holding_erase_all (vvNew : Fin n → NewBucket) (x k : Int) :
    holding (fun b ↦ (vvNew b).erase x) k = if k = x then ∅ else holding vvNew k := by
  ext b
  rw [mem_holding, SortedMap.mem_keys_erase]
  split
  · next hk => simp [hk]
  · next hk => rw [and_iff_right hk, mem_holding]

theorem countP_holding (vvNew : Fin n → NewBucket) (nId : Int) :
    (List.finRange n).countP (fun b ↦ nId ∈ (vvNew b).keys) = (holding vvNew nId).card := by
  rw [holding, List.countP_eq_length_filter, ← List.toFinset_card_of_nodup
    ((List.nodup_finRange n).filter _)]
  congr 1
  ext b
  simp

end Holding

/-- The "tried" buckets that hold a number. -/
def triedIn (vvTried : Fin addrmanTriedBucketCount → List Int) (nId : Int) :
    Finset (Fin addrmanTriedBucketCount) :=
  Finset.univ.filter fun b ↦ nId ∈ vvTried b

theorem mem_triedIn {vvTried : Fin addrmanTriedBucketCount → List Int} {nId : Int}
    {b : Fin addrmanTriedBucketCount} : b ∈ triedIn vvTried nId ↔ nId ∈ vvTried b := by
  rw [triedIn, Finset.mem_filter, and_iff_right (Finset.mem_univ b)]

/-- The times that the check asks for. -/
structure CAddrInfo.Timely (info : CAddrInfo) : Prop where
  nLastTry : 0 ≤ info.nLastTry.toInt
  nLastSuccess : 0 ≤ info.nLastSuccess.toInt
  tried : info.fInTried = true → 0 < info.nLastSuccess.toInt

/-- The bucket depends on the address and the port only. -/
theorem CAddrInfo.getTriedBucket_congr (hash : Bytes → Uint256) {info info' : CAddrInfo}
    (h : info'.toCService = info.toCService) (nKey : Bytes) :
    info'.getTriedBucket hash nKey = info.getTriedBucket hash nKey := by
  simp only [CAddrInfo.getTriedBucket, h]

variable {nBuckets : Nat}

/-- The buckets that hold an entry are those it should be in. -/
structure HeldBy (bucket : Fin addrmanTriedBucketCount) (info : CAddrInfo)
    (news : Finset (Fin nBuckets)) (olds : Finset (Fin addrmanTriedBucketCount)) : Prop where
  refs : (news.card : Int) = info.nRefCount
  refs_le : info.nRefCount ≤ addrmanNewBucketsPerAddress
  tried : info.fInTried = true → news = ∅ ∧ olds = {bucket}
  new : info.fInTried = false → news.Nonempty ∧ olds = ∅
  timely : info.Timely

namespace CAddrMan

variable {hash : Bytes → Uint256} {am : CAddrMan nBuckets} {nId : Int} {info : CAddrInfo}
  {pend : Int → Finset (Fin nBuckets)}

/-- What holds of a number and the buckets that hold it: an entry is held rightly, and nothing else is held. -/
def Placed (hash : Bytes → Uint256) (nKey : Bytes) (entry : Option CAddrInfo)
    (news : Finset (Fin nBuckets)) (olds : Finset (Fin addrmanTriedBucketCount)) : Prop :=
  match entry with
  | none => news = ∅ ∧ olds = ∅
  | some info => HeldBy (info.getTriedBucket hash nKey) info news olds

/-- The buckets are right, their sizes are within their limits and the counters count, once every
number `k` is put into the buckets `pend k` as well. -/
structure Bucketed (hash : Bytes → Uint256) (am : CAddrMan nBuckets)
    (pend : Int → Finset (Fin nBuckets)) : Prop where
  placed : ∀ k, Placed hash am.nKey (am.mapInfo.lookup k) (holding am.vvNew k ∪ pend k)
    (triedIn am.vvTried k)
  tried_nodup : ∀ b, (am.vvTried b).Nodup
  tried_size : ∀ b, (am.vvTried b).length ≤ addrmanTriedBucketSize
  new_size : ∀ b, (am.vvNew b).keys.length ≤ addrmanNewBucketSize
  nTried : (am.mapInfo.count (·.fInTried) : Int) = am.nTried
  nNew : (am.mapInfo.count (!·.fInTried) : Int) = am.nNew

/-- No listing is open. -/
def noPend (_ : Int) : Finset (Fin nBuckets) := ∅

/-- One listing is open. -/
def pendAt (nId : Int) (b : Fin nBuckets) (k : Int) : Finset (Fin nBuckets) :=
  if k = nId then {b} else ∅

theorem bucketed_empty (nKey : Bytes) :
    (empty nKey : CAddrMan nBuckets).Bucketed hash noPend where
  placed := by
    intro k
    refine ⟨?_, ?_⟩
    · ext b
      simp [mem_holding, noPend, empty, SortedMap.mem_keys]
    · ext b
      simp [mem_triedIn, empty]
  tried_nodup := fun _ ↦ List.nodup_nil
  tried_size := fun _ ↦ Nat.zero_le _
  new_size := fun _ ↦ Nat.zero_le _
  nTried := rfl
  nNew := rfl

theorem Bucketed.heldBy (h : am.Bucketed hash pend) (hinfo : am.mapInfo.lookup nId = some info) :
    HeldBy (info.getTriedBucket hash am.nKey) info (holding am.vvNew nId ∪ pend nId)
      (triedIn am.vvTried nId) := by
  have hplaced := h.placed nId
  rw [hinfo] at hplaced
  exact hplaced

/-- What is in a "new" bucket is an entry that is not tried. -/
theorem Bucketed.new_entry (h : am.Bucketed hash pend) {b : Fin nBuckets}
    (hmem : nId ∈ (am.vvNew b).keys) :
    ∃ info, am.mapInfo.lookup nId = some info ∧ info.fInTried = false := by
  have hb : b ∈ holding am.vvNew nId ∪ pend nId := Finset.mem_union_left _ (mem_holding.mpr hmem)
  cases hinfo : am.mapInfo.lookup nId with
  | none =>
    have hplaced := h.placed nId
    rw [hinfo] at hplaced
    rw [hplaced.1] at hb
    cases hb
  | some info =>
    refine ⟨info, rfl, Bool.eq_false_iff.mpr fun htried ↦ ?_⟩
    rw [((h.heldBy hinfo).tried htried).1] at hb
    cases hb

/-- What is in a "tried" bucket is a tried entry, and the bucket is its own. -/
theorem Bucketed.tried_entry (h : am.Bucketed hash pend) {b : Fin addrmanTriedBucketCount}
    (hmem : nId ∈ am.vvTried b) :
    ∃ info, am.mapInfo.lookup nId = some info ∧ info.fInTried = true ∧
      b = info.getTriedBucket hash am.nKey := by
  have hb : b ∈ triedIn am.vvTried nId := mem_triedIn.mpr hmem
  cases hinfo : am.mapInfo.lookup nId with
  | none =>
    have hplaced := h.placed nId
    rw [hinfo] at hplaced
    rw [hplaced.2] at hb
    cases hb
  | some info =>
    have hheld := h.heldBy hinfo
    cases htried : info.fInTried with
    | false =>
      rw [(hheld.new htried).2] at hb
      cases hb
    | true =>
      rw [(hheld.tried htried).2] at hb
      exact ⟨info, rfl, htried, Finset.mem_singleton.mp hb⟩

/-! ### Changes of one entry -/

theorem HeldBy.congr {bucket bucket' : Fin addrmanTriedBucketCount} {info info' : CAddrInfo}
    {news : Finset (Fin nBuckets)} {olds : Finset (Fin addrmanTriedBucketCount)}
    (h : HeldBy bucket info news olds) (hbucket : bucket' = bucket)
    (href : info'.nRefCount = info.nRefCount) (htried : info'.fInTried = info.fInTried)
    (htimely : info'.Timely) : HeldBy bucket' info' news olds where
  refs := href ▸ h.refs
  refs_le := href ▸ h.refs_le
  tried := fun h' ↦ hbucket ▸ h.tried (htried ▸ h')
  new := fun h' ↦ h.new (htried ▸ h')
  timely := htimely

/-- What an entry holds besides its address and its buckets can change to other good times. -/
theorem Bucketed.setInfo (h : am.Bucketed hash pend) (hinfo : am.mapInfo.lookup nId = some info)
    {info' : CAddrInfo} (haddr : info'.toCService = info.toCService)
    (href : info'.nRefCount = info.nRefCount) (htried : info'.fInTried = info.fInTried)
    (htimely : info'.Timely) : (am.setInfo nId info').Bucketed hash pend where
  placed := by
    intro k
    rw [lookup_setInfo]
    split
    · next heq =>
      subst heq
      exact HeldBy.congr (h.heldBy hinfo) (CAddrInfo.getTriedBucket_congr hash haddr _) href htried htimely
    · exact h.placed k
  tried_nodup := h.tried_nodup
  tried_size := h.tried_size
  new_size := h.new_size
  nTried := by
    have hcount := SortedMap.count_replace (·.fInTried) (b := info') hinfo
    rw [htried, Nat.add_right_cancel_iff] at hcount
    rw [CAddrMan.setInfo, hcount]
    exact h.nTried
  nNew := by
    have hcount := SortedMap.count_replace (!·.fInTried) (b := info') hinfo
    rw [htried, Nat.add_right_cancel_iff] at hcount
    rw [CAddrMan.setInfo, hcount]
    exact h.nNew

/-- A known entry counts a further listing. -/
theorem Bucketed.count_listing (h : am.Bucketed hash noPend)
    (hinfo : am.mapInfo.lookup nId = some info) (htried : info.fInTried = false)
    (hroom : info.nRefCount ≠ addrmanNewBucketsPerAddress) {b : Fin nBuckets}
    (hb : nId ∉ (am.vvNew b).keys) :
    (am.setInfo nId { info with nRefCount := info.nRefCount + 1 }).Bucketed hash (pendAt nId b) := by
  have hheld := h.heldBy hinfo
  rw [noPend, Finset.union_empty] at hheld
  have hcount : ∀ p : CAddrInfo → Bool, p { info with nRefCount := info.nRefCount + 1 } = p info →
      (am.setInfo nId { info with nRefCount := info.nRefCount + 1 }).mapInfo.count p =
        am.mapInfo.count p := by
    intro p hp
    have := SortedMap.count_replace p (b := { info with nRefCount := info.nRefCount + 1 }) hinfo
    rw [hp, Nat.add_right_cancel_iff] at this
    exact this
  refine ⟨?_, h.tried_nodup, h.tried_size, h.new_size, ?_, ?_⟩
  · intro k
    rw [lookup_setInfo]
    change Placed hash am.nKey _ (holding am.vvNew k ∪ _) _
    by_cases hk : k = nId
    · subst hk
      rw [if_pos rfl, pendAt, if_pos rfl, Finset.union_comm, ← Finset.insert_eq]
      have hcard := Finset.card_insert_of_notMem (mem_holding.not.mpr hb)
      have := hheld.refs
      have := hheld.refs_le
      refine ⟨?_, ?_, ?_, ?_, ⟨hheld.timely.nLastTry, hheld.timely.nLastSuccess, hheld.timely.tried⟩⟩
      · rw [hcard]
        push_cast
        omega
      · change info.nRefCount + 1 ≤ _
        omega
      · intro htrue
        exact absurd (htrue.symm.trans htried) (by decide)
      · intro _
        exact ⟨Finset.insert_nonempty _ _, (hheld.new htried).2⟩
    · rw [if_neg hk, pendAt, if_neg hk]
      exact h.placed k
  · rw [hcount _ rfl]
    exact h.nTried
  · rw [hcount _ rfl]
    exact h.nNew

/-- So does a new entry. -/
theorem Bucketed.count_created (h : am.Bucketed hash noPend) (hnew : am.mapInfo.lookup nId = none)
    {am' : CAddrMan nBuckets} (hmapInfo : am'.mapInfo = am.mapInfo.insert nId info)
    (hnKey : am'.nKey = am.nKey) (hvvNew : am'.vvNew = am.vvNew) (hvvTried : am'.vvTried = am.vvTried)
    (hnNew : am'.nNew = am.nNew + 1) (hnTried : am'.nTried = am.nTried) (href : info.nRefCount = 1)
    (htried : info.fInTried = false) (htimely : info.Timely) (b : Fin nBuckets) :
    am'.Bucketed hash (pendAt nId b) := by
  have hplaced := h.placed nId
  rw [hnew, noPend, Finset.union_empty] at hplaced
  refine ⟨?_, hvvTried ▸ h.tried_nodup, hvvTried ▸ h.tried_size, hvvNew ▸ h.new_size, ?_, ?_⟩
  · intro k
    rw [hmapInfo, hnKey, hvvNew, hvvTried, SortedMap.lookup_insert]
    by_cases hk : k = nId
    · subst hk
      rw [if_pos rfl, hplaced.1, hplaced.2, pendAt, if_pos rfl, Finset.empty_union]
      refine ⟨?_, ?_, ?_, ?_, htimely⟩
      · rw [Finset.card_singleton, href]
        rfl
      · rw [href]
        decide
      · intro htrue
        exact absurd (htrue.symm.trans htried) (by decide)
      · intro _
        exact ⟨Finset.singleton_nonempty b, rfl⟩
    · rw [if_neg hk, pendAt, if_neg hk]
      exact h.placed k
  · rw [hmapInfo, SortedMap.count_insert _ hnew, htried, hnTried]
    exact h.nTried
  · have := h.nNew
    rw [hmapInfo, SortedMap.count_insert _ hnew, htried, hnNew]
    push_cast
    simp only [Bool.not_false, if_true]
    omega

/-- The listing is made in a bucket that has room. -/
theorem Bucketed.list (b : Fin nBuckets) (h : am.Bucketed hash (pendAt nId b))
    (hroom : (am.vvNew b).keys.length < addrmanNewBucketSize) :
    Bucketed hash { am with
      vvNew := Function.update am.vvNew b ((am.vvNew b).insert nId ()) } noPend := by
  refine ⟨?_, h.tried_nodup, h.tried_size, ?_, h.nTried, h.nNew⟩
  · intro k
    have hplaced := h.placed k
    rw [holding_update_insert, noPend, Finset.union_empty]
    by_cases hk : k = nId
    · rw [if_pos hk, Finset.insert_eq, Finset.union_comm]
      rwa [pendAt, if_pos hk] at hplaced
    · rw [if_neg hk]
      rwa [pendAt, if_neg hk, Finset.union_empty] at hplaced
  · intro b'
    by_cases hb : b' = b
    · subst hb
      have := SortedMap.length_keys_insert_le (am.vvNew b') nId ()
      dsimp only
      rw [Function.update_self]
      omega
    · dsimp only
      rw [Function.update_of_ne hb]
      exact h.new_size b'

/-! ### Deletion -/

/-- Whether an entry is tried does not depend on its place in the random order. -/
theorem count_eq_of_still {m m' : SortedMap Int CAddrInfo} (p : CAddrInfo → Bool)
    (hp : ∀ info, p (still info) = p info)
    (h : ∀ k, (m'.lookup k).map still = (m.lookup k).map still) : m'.count p = m.count p := by
  have hcount := SortedMap.count_congr p h
  simpa only [hp] using hcount

theorem Placed.of_still {nKey : Bytes} {entry entry' : Option CAddrInfo}
    {news : Finset (Fin nBuckets)} {olds : Finset (Fin addrmanTriedBucketCount)}
    (h : Placed hash nKey entry news olds) (hstill : entry'.map still = entry.map still) :
    Placed hash nKey entry' news olds := by
  cases entry with
  | none =>
    rw [Option.map_eq_none_iff.mp hstill]
    exact h
  | some info =>
    obtain ⟨info', rfl, heq⟩ := Option.map_eq_some_iff.mp hstill
    have hservice : info'.toCService = info.toCService := congrArg (·.toCService) heq
    have href : info'.nRefCount = info.nRefCount := congrArg (·.nRefCount) heq
    have htried : info'.fInTried = info.fInTried := congrArg (·.fInTried) heq
    have hlastTry : info'.nLastTry = info.nLastTry := congrArg (·.nLastTry) heq
    have hlastSuccess : info'.nLastSuccess = info.nLastSuccess := congrArg (·.nLastSuccess) heq
    have htimely := HeldBy.timely h
    refine HeldBy.congr h (CAddrInfo.getTriedBucket_congr hash hservice nKey) href htried ⟨?_, ?_, ?_⟩
    · exact hlastTry ▸ htimely.nLastTry
    · exact hlastSuccess ▸ htimely.nLastSuccess
    · exact fun h' ↦ hlastSuccess ▸ htimely.tried (htried ▸ h')

/-- What `ShrinkNew` does to an entry that it has found in its bucket. -/
theorem Bucketed.dropNew (hindexed : am.Indexed) (h : am.Bucketed hash pend) {b : Fin nBuckets}
    (hmem : nId ∈ (am.vvNew b).keys) (hpend : pend nId = ∅) :
    ∃ am', am.dropNew b nId = .ok am' ∧ am'.Indexed ∧ am'.Bucketed hash pend ∧
      am'.vvNew = Function.update am.vvNew b ((am.vvNew b).erase nId) ∧
      am'.nIdCount = am.nIdCount := by
  obtain ⟨info, hinfo, htried⟩ := h.new_entry hmem
  have hheld := h.heldBy hinfo
  rw [hpend, Finset.union_empty] at hheld
  have hb : b ∈ holding am.vvNew nId := mem_holding.mpr hmem
  have hcard := Finset.card_erase_of_mem hb
  have hpos := Finset.card_pos.mpr ⟨b, hb⟩
  have hrefs := hheld.refs
  have hrefs_le := hheld.refs_le
  have hsizes : ∀ b', (Function.update am.vvNew b ((am.vvNew b).erase nId) b').keys.length ≤
      addrmanNewBucketSize := by
    intro b'
    by_cases hb' : b' = b
    · subst hb'
      rw [Function.update_self]
      exact (SortedMap.length_keys_erase_le _ nId).trans (h.new_size b')
    · rw [Function.update_of_ne hb']
      exact h.new_size b'
  -- the entry with one reference less, and the map with it
  let info' : CAddrInfo := { info with nRefCount := info.nRefCount - 1 }
  have hindexed' : (am.setInfo nId info').Indexed := hindexed.setInfo hinfo rfl rfl
  have hinfo' : (am.setInfo nId info').mapInfo.lookup nId = some info' := by
    rw [lookup_setInfo, if_pos rfl]
  have hcount : ∀ p : CAddrInfo → Bool, p info' = p info →
      (am.setInfo nId info').mapInfo.count p = am.mapInfo.count p := by
    intro p hp
    have := SortedMap.count_replace p (b := info') hinfo
    rw [hp, Nat.add_right_cancel_iff] at this
    exact this
  by_cases hzero : info.nRefCount - 1 = 0
  · -- the last reference: the entry is in no other bucket and goes
    obtain ⟨am', hswap, hsame, hdeleted, hstill⟩ := hindexed'.delete hinfo'
    have hdrop : am.dropNew b nId = .ok { am' with
        vRandom := am'.vRandom.dropLast, mapAddr := am'.mapAddr.erase info.toCNetAddr,
        mapInfo := am'.mapInfo.erase nId, nNew := am'.nNew - 1,
        vvNew := Function.update am'.vvNew b ((am'.vvNew b).erase nId) } := by
      rw [CAddrMan.dropNew, entry_eq_ok hinfo]
      dsimp only [bind, Except.bind]
      rw [if_pos hzero, hswap]
    obtain ⟨infoGone, hinfoGone, hgone⟩ := Option.map_eq_some_iff.mp
      ((hstill nId).trans (by rw [hinfo']; rfl) : _ = some (still info'))
    have htriedGone : infoGone.fInTried = false :=
      (congrArg (·.fInTried) hgone : infoGone.fInTried = info.fInTried).trans htried
    have hholding : (holding am.vvNew nId).erase b = ∅ := by
      rw [← Finset.card_eq_zero]
      omega
    refine ⟨_, hdrop, ⟨hdeleted.ids, hdeleted.mapAddr, hdeleted.slots⟩, ?_, by rw [hsame]; rfl,
      by rw [hsame]; rfl⟩
    refine ⟨?_, ?_, ?_, ?_, ?_, ?_⟩
    · intro k
      rw [hsame]
      dsimp only [CAddrMan.setInfo]
      rw [SortedMap.lookup_erase, holding_update_erase]
      by_cases hk : k = nId
      · subst hk
        rw [if_pos rfl, if_pos rfl, hpend, Finset.union_empty]
        exact ⟨hholding, (hheld.new htried).2⟩
      · rw [if_neg hk, if_neg hk]
        refine (h.placed k).of_still ((hstill k).trans ?_)
        rw [lookup_setInfo, if_neg hk]
    · rw [hsame]
      exact h.tried_nodup
    · rw [hsame]
      exact h.tried_size
    · rw [hsame]
      exact hsizes
    · have hcounted := SortedMap.count_erase (·.fInTried) hinfoGone
      rw [htriedGone, count_eq_of_still _ (fun _ ↦ rfl) hstill, hcount _ rfl] at hcounted
      have := h.nTried
      rw [hsame]
      dsimp only [CAddrMan.setInfo]
      simp only [Bool.false_eq_true, if_false, Nat.add_zero] at hcounted
      rw [hcounted, this]
    · have hcounted := SortedMap.count_erase (!·.fInTried) hinfoGone
      rw [htriedGone, count_eq_of_still (!·.fInTried) (fun _ ↦ rfl) hstill, hcount _ rfl] at hcounted
      have := h.nNew
      rw [hsame]
      dsimp only [CAddrMan.setInfo]
      simp only [Bool.not_false, if_true] at hcounted
      omega
  · have hdrop : am.dropNew b nId = .ok { am.setInfo nId info' with
        vvNew := Function.update am.vvNew b ((am.vvNew b).erase nId) } := by
      rw [CAddrMan.dropNew, entry_eq_ok hinfo]
      dsimp only [bind, Except.bind]
      rw [if_neg hzero]
      rfl
    refine ⟨_, hdrop, ⟨hindexed'.ids, hindexed'.mapAddr, hindexed'.slots⟩, ?_, rfl, rfl⟩
    refine ⟨?_, h.tried_nodup, h.tried_size, hsizes, ?_, ?_⟩
    · intro k
      dsimp only
      rw [lookup_setInfo, holding_update_erase]
      by_cases hk : k = nId
      · subst hk
        rw [if_pos rfl, if_pos rfl, hpend, Finset.union_empty]
        refine ⟨?_, ?_, ?_, ?_,
          ⟨hheld.timely.nLastTry, hheld.timely.nLastSuccess, hheld.timely.tried⟩⟩
        · change _ = info.nRefCount - 1
          omega
        · change info.nRefCount - 1 ≤ _
          omega
        · intro htrue
          exact absurd (htrue.symm.trans htried) (by decide)
        · intro _
          refine ⟨Finset.card_pos.mp ?_, (hheld.new htried).2⟩
          omega
      · rw [if_neg hk, if_neg hk]
        exact h.placed k
    · exact (congrArg Nat.cast (hcount _ rfl)).trans h.nTried
    · exact (congrArg Nat.cast (hcount _ rfl)).trans h.nNew

/-! ### `ShrinkNew` and the listing -/

theorem findTerrible_spec (nNow : Int) (l : List Int)
    (h : ∀ k ∈ l, ∃ info, am.mapInfo.lookup k = some info) :
    ∃ found, am.findTerrible nNow l = .ok found ∧ ∀ k, found = some k → k ∈ l := by
  induction l with
  | nil => exact ⟨none, rfl, by simp⟩
  | cons k l ih =>
    obtain ⟨info, hinfo⟩ := h k List.mem_cons_self
    obtain ⟨found, hfound, hmem⟩ := ih fun k' hk' ↦ h k' (List.mem_cons_of_mem k hk')
    rw [findTerrible, entry_eq_ok hinfo]
    by_cases hterrible : info.isTerrible nNow = true
    · refine ⟨some k, if_pos hterrible, ?_⟩
      intro k' hk'
      obtain rfl := Option.some.inj hk'
      exact List.mem_cons_self
    · refine ⟨found, (if_neg hterrible).trans hfound, ?_⟩
      intro k' hk'
      exact List.mem_cons_of_mem k (hmem k' hk')

/-- One of the places that were drawn is met, so some entry of the bucket is chosen. -/
theorem pickOldest_spec (n : List Nat) (l : List Int) (nI : Nat) (nOldest : Int)
    (h : ∀ k ∈ l, (∃ info, am.mapInfo.lookup k = some info) ∧ k ≠ -1)
    (hOldest : nOldest ≠ -1 → ∃ info, am.mapInfo.lookup nOldest = some info)
    (hmet : nOldest ≠ -1 ∨ ∃ i ∈ n, nI ≤ i ∧ i < nI + l.length) :
    ∃ k, am.pickOldest n nI nOldest l = .ok k ∧ (k ∈ l ∨ k = nOldest ∧ nOldest ≠ -1) := by
  induction l generalizing nI nOldest with
  | nil =>
    refine ⟨nOldest, rfl, .inr ⟨rfl, hmet.resolve_right ?_⟩⟩
    rintro ⟨i, -, hle, hlt⟩
    rw [List.length_nil] at hlt
    omega
  | cons k l ih =>
    obtain ⟨⟨info, hinfo⟩, hk⟩ := h k List.mem_cons_self
    have hrest : ∀ k' ∈ l, (∃ info, am.mapInfo.lookup k' = some info) ∧ k' ≠ -1 :=
      fun k' hk' ↦ h k' (List.mem_cons_of_mem k hk')
    have hcons : ∀ {o r : Int}, (r ∈ l ∨ r = o ∧ o ≠ -1) → (o = k ∨ o = nOldest) →
        r ∈ k :: l ∨ r = nOldest ∧ nOldest ≠ -1 := by
      rintro o r (hr | ⟨rfl, ho⟩) (rfl | rfl)
      · exact .inl (List.mem_cons_of_mem _ hr)
      · exact .inl (List.mem_cons_of_mem _ hr)
      · exact .inl List.mem_cons_self
      · exact .inr ⟨rfl, ho⟩
    rw [pickOldest]
    by_cases hdrawn : nI ∈ n
    · rw [if_pos hdrawn]
      by_cases hnone : nOldest = -1
      · rw [if_pos hnone]
        obtain ⟨r, hr, hmem⟩ := ih (nI + 1) k hrest (fun _ ↦ ⟨info, hinfo⟩) (.inl hk)
        exact ⟨r, hr, hcons hmem (.inl rfl)⟩
      · obtain ⟨infoOldest, hinfoOldest⟩ := hOldest hnone
        rw [if_neg hnone, entry_eq_ok hinfo, entry_eq_ok hinfoOldest]
        dsimp only [bind, Except.bind]
        split
        · obtain ⟨r, hr, hmem⟩ := ih (nI + 1) k hrest (fun _ ↦ ⟨info, hinfo⟩) (.inl hk)
          exact ⟨r, hr, hcons hmem (.inl rfl)⟩
        · obtain ⟨r, hr, hmem⟩ := ih (nI + 1) nOldest hrest hOldest (.inl hnone)
          exact ⟨r, hr, hcons hmem (.inr rfl)⟩
    · rw [if_neg hdrawn]
      have hmet' : nOldest ≠ -1 ∨ ∃ i ∈ n, nI + 1 ≤ i ∧ i < nI + 1 + l.length := by
        refine hmet.imp_right ?_
        rintro ⟨i, hi, hle, hlt⟩
        rw [List.length_cons] at hlt
        have : i ≠ nI := fun heq ↦ hdrawn (heq ▸ hi)
        exact ⟨i, hi, by omega, by omega⟩
      obtain ⟨r, hr, hmem⟩ := ih (nI + 1) nOldest hrest hOldest hmet'
      exact ⟨r, hr, hcons hmem (.inr rfl)⟩

theorem getRandInt_lt (draw : Nat) {nMax : Nat} (h : 0 < nMax) : getRandInt draw nMax < nMax := by
  rw [getRandInt, if_neg h.ne']
  exact Nat.mod_lt _ h

/-- `ShrinkNew` takes one entry out of a bucket that is not empty. -/
theorem Bucketed.shrinkNew (hindexed : am.Indexed) (h : am.Bucketed hash pend) {b : Fin nBuckets}
    (nNow : Int) (draw : Nat → Nat) (hpos : 0 < (am.vvNew b).keys.length)
    (hpend : ∀ k ∈ (am.vvNew b).keys, pend k = ∅) :
    ∃ am' code k, am.shrinkNew nNow draw b = .ok (am', code) ∧ k ∈ (am.vvNew b).keys ∧
      am'.Indexed ∧ am'.Bucketed hash pend ∧
      am'.vvNew = Function.update am.vvNew b ((am.vvNew b).erase k) ∧
      am'.nIdCount = am.nIdCount := by
  have hentries : ∀ k ∈ (am.vvNew b).keys, (∃ info, am.mapInfo.lookup k = some info) ∧ k ≠ -1 := by
    intro k hk
    obtain ⟨info, hinfo, -⟩ := h.new_entry hk
    have := (hindexed.ids k info hinfo).1
    exact ⟨⟨info, hinfo⟩, by omega⟩
  obtain ⟨found, hfound, hmem⟩ := findTerrible_spec nNow _ fun k hk ↦ (hentries k hk).1
  rw [CAddrMan.shrinkNew, hfound]
  dsimp only [bind, Except.bind]
  cases found with
  | some k =>
    obtain ⟨am', hdrop, hrest⟩ := h.dropNew hindexed (hmem k rfl) (hpend k (hmem k rfl))
    refine ⟨am', 0, k, ?_, hmem k rfl, hrest⟩
    dsimp only
    rw [hdrop]
  | none =>
    have hmet : ∃ i ∈ (List.range 4).map fun i ↦ getRandInt (draw i) (am.vvNew b).keys.length,
        0 ≤ i ∧ i < 0 + (am.vvNew b).keys.length :=
      ⟨_, List.mem_map_of_mem (List.mem_range.mpr (by decide : 0 < 4)), Nat.zero_le _,
        by rw [Nat.zero_add]; exact getRandInt_lt _ hpos⟩
    obtain ⟨k, hpick, hk⟩ := pickOldest_spec _ _ 0 (-1) hentries (fun hne ↦ absurd rfl hne) (.inr hmet)
    have hk := hk.resolve_right fun hne ↦ hne.2 rfl
    obtain ⟨am', hdrop, hrest⟩ := h.dropNew hindexed hk (hpend k hk)
    refine ⟨am', 1, k, ?_, hk, hrest⟩
    dsimp only
    rw [hpick]
    dsimp only
    rw [hdrop]

/-- The end of `Add_` lists an entry whose listing is counted, and deletes another one of a full
bucket. -/
theorem Indexed.listNew [NeZero nBuckets] (hindexed : am.Indexed)
    (hinfo : am.mapInfo.lookup nId = some info) (source : CNetAddr) (nNow : Int) (draw : Nat → Nat)
    (hlisted : nId ∈ (am.vvNew (info.getNewBucket hash am.nKey source)).keys →
      am.Bucketed hash noPend)
    (hopen : nId ∉ (am.vvNew (info.getNewBucket hash am.nKey source)).keys →
      (am.setInfo nId { info with nRefCount := info.nRefCount + 1 }).Bucketed hash
        (pendAt nId (info.getNewBucket hash am.nKey source))) :
    ∃ am', am.listNew hash draw nId info source nNow = .ok am' ∧ am'.Indexed ∧
      am'.Bucketed hash noPend ∧ am'.nIdCount = am.nIdCount := by
  generalize hbucket : (info.getNewBucket hash am.nKey source : Fin nBuckets) = b at hlisted hopen
  rw [CAddrMan.listNew, hbucket]
  by_cases hmem : nId ∈ (am.vvNew b).keys
  · exact ⟨am, if_pos hmem, hindexed, hlisted hmem, rfl⟩
  · have hindexed' : (am.setInfo nId { info with nRefCount := info.nRefCount + 1 }).Indexed :=
      hindexed.setInfo hinfo rfl rfl
    have hopen := hopen hmem
    dsimp only
    rw [if_neg hmem]
    by_cases hfull : (am.vvNew b).keys.length = addrmanNewBucketSize
    · have hpend : ∀ k ∈ (am.vvNew b).keys, pendAt nId b k = ∅ := by
        intro k hk
        refine if_neg ?_
        rintro rfl
        exact hmem hk
      obtain ⟨am', code, k, hshrink, hk, hindexed₁, h₁, hvvNew, hnIdCount⟩ :=
        hopen.shrinkNew hindexed' nNow draw (by rw [CAddrMan.setInfo, hfull]; decide) hpend
      obtain ⟨u, hu⟩ := SortedMap.mem_keys.mp hk
      have hlen := SortedMap.length_keys_erase hu
      have hroom : (am'.vvNew b).keys.length < addrmanNewBucketSize := by
        rw [hvvNew, Function.update_self]
        change ((am.vvNew b).erase k).keys.length < _
        change ((am.vvNew b).erase k).keys.length + 1 = (am.vvNew b).keys.length at hlen
        omega
      rw [CAddrMan.setInfo, if_pos hfull]
      change (am.setInfo nId { info with nRefCount := info.nRefCount + 1 }).shrinkNew nNow draw b =
        _ at hshrink
      rw [CAddrMan.setInfo] at hshrink
      rw [hshrink]
      exact ⟨_, rfl, ⟨hindexed₁.ids, hindexed₁.mapAddr, hindexed₁.slots⟩, h₁.list b hroom, hnIdCount⟩
    · have hroom : (am.vvNew b).keys.length < addrmanNewBucketSize :=
        lt_of_le_of_ne (hopen.new_size b) hfull
      rw [CAddrMan.setInfo, if_neg hfull]
      exact ⟨_, rfl, ⟨hindexed'.ids, hindexed'.mapAddr, hindexed'.slots⟩, hopen.list b hroom, rfl⟩

end CAddrMan

end Bitmark
