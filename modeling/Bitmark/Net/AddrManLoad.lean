import Bitmark.Net.AddrManStorage
import Bitmark.Net.AddrManInvariant

/-!
# Rebuilding the address manager

What the loops of the reader make of the entries and of the indexes of each bucket, when the entries
have different addresses and every "tried" bucket has room for its entries.
-/

namespace Bitmark

namespace CAddrMan

variable {nBuckets : Nat}

/-! ### The entries -/

/-- A "new" entry as the first loop leaves it. -/
def newEntry (nBuckets : Nat) (nUBuckets : Int) (i : ℕ) (info : CAddrInfo) : CAddrInfo :=
  { info.saved with nRandomPos := i, nRefCount := if nUBuckets ≠ nBuckets then 1 else 0 }

/-- A "tried" entry as the second loop leaves it. -/
def triedEntry (i : ℕ) (info : CAddrInfo) : CAddrInfo :=
  { info.saved with nRandomPos := i, fInTried := true }

/-- All entries in the order of their numbers. -/
def loadedEntries (nBuckets : Nat) (nUBuckets : Int) (news trieds : List CAddrInfo) :
    List CAddrInfo :=
  news.mapIdx (newEntry nBuckets nUBuckets) ++
    trieds.mapIdx fun j ↦ triedEntry (news.length + j)

/-- The manager after the first two loops have read some entries. -/
structure Loaded (hash : Bytes → Uint256) [NeZero nBuckets] (nUBuckets : Int)
    (news trieds : List CAddrInfo) (am : CAddrMan nBuckets) : Prop where
  mapInfo : am.mapInfo = .enumerate (loadedEntries nBuckets nUBuckets news trieds)
  indexed : Indexed { am with nIdCount := (news.length + trieds.length : ℕ) }
  tried : ∀ b n, n ∈ am.vvTried b ↔ ∃ j : ℕ, ∃ info, trieds[j]? = some info ∧
    info.getTriedBucket hash am.nKey = b ∧ n = (news.length + j : ℕ)
  tried_nodup : ∀ b, (am.vvTried b).Nodup
  tried_size : ∀ b,
    (am.vvTried b).length = trieds.countP fun info ↦ info.getTriedBucket hash am.nKey = b
  new : ∀ b n, n ∈ (am.vvNew b).keys ↔ nUBuckets ≠ nBuckets ∧ ∃ i : ℕ, ∃ info,
    news[i]? = some info ∧ info.getNewBucket hash am.nKey info.source = b ∧ n = i

variable {hash : Bytes → Uint256} [NeZero nBuckets] {nUBuckets : Int}
  {news trieds : List CAddrInfo} {am : CAddrMan nBuckets} {info : CAddrInfo}

omit [NeZero nBuckets] in
theorem mem_loadedEntries (h : info ∈ loadedEntries nBuckets nUBuckets news trieds) :
    ∃ info' ∈ news ++ trieds, info.saved = info'.saved := by
  rw [loadedEntries, List.mem_append] at h
  rcases h with h | h
  · obtain ⟨i, hi, rfl⟩ := List.exists_of_mem_mapIdx h
    exact ⟨news[i], List.mem_append_left _ (List.getElem_mem hi), rfl⟩
  · obtain ⟨j, hj, rfl⟩ := List.exists_of_mem_mapIdx h
    exact ⟨trieds[j], List.mem_append_right _ (List.getElem_mem hj), rfl⟩

omit [NeZero nBuckets] in
theorem length_loadedEntries :
    (loadedEntries nBuckets nUBuckets news trieds).length = news.length + trieds.length := by
  rw [loadedEntries, List.length_append, List.length_mapIdx, List.length_mapIdx]

/-- An address that no entry has. -/
theorem Loaded.find_eq_none (h : Loaded hash nUBuckets news trieds am)
    (hfresh : ∀ x ∈ news ++ trieds, x.toCNetAddr ≠ info.toCNetAddr) :
    am.find info.toCNetAddr = none := by
  cases hfind : am.find info.toCNetAddr with
  | none => rfl
  | some found =>
    obtain ⟨n, info'⟩ := found
    have hfind : find { am with nIdCount := (news.length + trieds.length : ℕ) } info.toCNetAddr =
      some (n, info') := hfind
    obtain ⟨hinfo', haddr⟩ := h.indexed.find_eq_some.mp hfind
    dsimp only at hinfo'
    rw [h.mapInfo, SortedMap.lookup_enumerate_eq_some] at hinfo'
    obtain ⟨i, hi, -⟩ := hinfo'
    obtain ⟨x, hx, hsaved⟩ := mem_loadedEntries (List.mem_of_getElem? hi)
    have heq : info'.toCNetAddr = x.toCNetAddr := congrArg (·.toCNetAddr) hsaved
    exact absurd (heq.symm.trans haddr) (hfresh x hx)

theorem Loaded.length_vRandom (h : Loaded hash nUBuckets news trieds am) :
    am.vRandom.length = news.length + trieds.length := by
  have hlen := h.indexed.length_vRandom
  dsimp only at hlen
  rw [hlen, h.mapInfo, SortedMap.length_enumerate, length_loadedEntries]

theorem loaded_empty (nKey : Bytes) (nNew nTried : Int) :
    Loaded hash nUBuckets [] [] { (empty nKey : CAddrMan nBuckets) with nNew, nTried } where
  mapInfo := rfl
  indexed := (indexed_empty nKey).congr rfl rfl rfl fun _ ↦ rfl
  tried := by
    intro b n
    exact iff_of_false List.not_mem_nil (by simp)
  tried_nodup := fun _ ↦ List.nodup_nil
  tried_size := fun _ ↦ rfl
  new := by
    intro b n
    exact iff_of_false List.not_mem_nil (by simp)

/-- Of the elements of a list with a new one at its end. -/
theorem exists_getElem?_concat {α : Type} {l : List α} {a : α} {P : ℕ → α → Prop} :
    (∃ i : ℕ, ∃ x, (l ++ [a])[i]? = some x ∧ P i x) ↔
      (∃ i : ℕ, ∃ x, l[i]? = some x ∧ P i x) ∨ P l.length a := by
  constructor
  · rintro ⟨i, x, hx, hP⟩
    rw [List.getElem?_append] at hx
    split at hx
    · exact .inl ⟨i, x, hx, hP⟩
    · next hge =>
      rw [List.getElem?_singleton] at hx
      split at hx
      · next hi =>
        obtain rfl := Option.some.inj hx
        obtain rfl : i = l.length := by omega
        exact .inr hP
      · cases hx
  · rintro (⟨i, x, hx, hP⟩ | hP)
    · have hi := (List.getElem?_eq_some_iff.mp hx).1
      exact ⟨i, x, by rw [List.getElem?_append_left hi, hx], hP⟩
    · exact ⟨l.length, a, by simp, hP⟩

/-- The first loop appends the entry, and lists it when the buckets are rebuilt. -/
theorem placeNew_eq {n : ℕ} (hn : am.vRandom.length = n) :
    placeNew hash nUBuckets n am info.saved = { am with
      mapInfo := am.mapInfo.insert n (newEntry nBuckets nUBuckets n info)
      mapAddr := am.mapAddr.insert info.toCNetAddr n
      vRandom := am.vRandom ++ [(n : Int)]
      vvNew :=
        if nUBuckets ≠ nBuckets then
          Function.update am.vvNew (info.getNewBucket hash am.nKey info.source)
            ((am.vvNew (info.getNewBucket hash am.nKey info.source)).insert n ())
        else am.vvNew } := by
  subst hn
  rw [placeNew, newEntry]
  dsimp only
  split
  · dsimp only [CAddrMan.setInfo]
    rw [SortedMap.insert_insert]
    rfl
  · rfl

/-- A round of the first loop. -/
theorem Loaded.placeNew (h : Loaded hash nUBuckets news [] am)
    (hfresh : ∀ x ∈ news, x.toCNetAddr ≠ info.toCNetAddr) :
    Loaded hash nUBuckets (news ++ [info]) []
      (CAddrMan.placeNew hash nUBuckets news.length am info.saved) := by
  have hlen : am.vRandom.length = news.length := h.length_vRandom
  have hfresh' : ∀ x ∈ news ++ [], x.toCNetAddr ≠ info.toCNetAddr := by simpa using hfresh
  have hnone : am.find (newEntry nBuckets nUBuckets news.length info).toCNetAddr = none :=
    h.find_eq_none hfresh'
  have hpos : (newEntry nBuckets nUBuckets news.length info).nRandomPos = am.vRandom.length := by
    rw [hlen]
    rfl
  have hpush := h.indexed.push (Int.natCast_nonneg _) hnone hpos
  rw [placeNew_eq hlen]
  constructor
  · dsimp only
    rw [h.mapInfo]
    simp only [loadedEntries, List.mapIdx_nil, List.append_nil, List.mapIdx_concat]
    rw [← SortedMap.insert_enumerate, List.length_mapIdx]
  · refine hpush.congr ?_ rfl rfl fun _ ↦ rfl
    simp
  · intro b n
    have hnone : am.vvTried b = [] := by
      rw [List.eq_nil_iff_forall_not_mem]
      intro n hn
      obtain ⟨j, info', hj, -⟩ := (h.tried b n).mp hn
      cases hj
    dsimp only
    rw [hnone]
    exact iff_of_false List.not_mem_nil (by simp)
  · exact h.tried_nodup
  · exact h.tried_size
  · intro b n
    dsimp only
    rw [exists_getElem?_concat]
    by_cases hchanged : nUBuckets ≠ nBuckets
    · rw [if_pos hchanged, and_iff_right hchanged]
      by_cases hb : b = info.getNewBucket hash am.nKey info.source
      · rw [← hb, Function.update_self, SortedMap.mem_keys_insert, h.new b n,
          and_iff_right hchanged, or_comm]
        exact or_congr_right (and_iff_right rfl).symm
      · rw [Function.update_of_ne hb, h.new b n, and_iff_right hchanged]
        exact (or_iff_left fun hnew ↦ hb hnew.1.symm).symm
    · rw [if_neg hchanged, h.new b n]
      exact iff_of_false (fun hx ↦ hchanged hx.1) fun hx ↦ hchanged hx.1

omit [NeZero nBuckets] in
/-- The second loop appends the entry to the bucket it belongs to, when that has room. -/
theorem placeTried_eq {n : ℕ} (hn : am.vRandom.length = n) (hnIdCount : am.nIdCount = n)
    {b : Fin addrmanTriedBucketCount} (hb : info.getTriedBucket hash am.nKey = b)
    (hroom : (am.vvTried b).length < addrmanTriedBucketSize) (nLost : Int) :
    placeTried hash (am, nLost) info.saved = ({ am with
      nIdCount := am.nIdCount + 1
      mapInfo := am.mapInfo.insert n (triedEntry n info)
      mapAddr := am.mapAddr.insert info.toCNetAddr n
      vRandom := am.vRandom ++ [(n : Int)]
      vvTried := Function.update am.vvTried b (am.vvTried b ++ [(n : Int)]) }, nLost) := by
  have hb' : info.saved.getTriedBucket hash am.nKey = b := hb
  rw [placeTried]
  dsimp only
  rw [hb', if_pos hroom, hnIdCount, hn]
  rfl

/-- A round of the second loop. -/
theorem Loaded.placeTried (h : Loaded hash nUBuckets news trieds am)
    (hnIdCount : am.nIdCount = (news.length + trieds.length : ℕ))
    (hfresh : ∀ x ∈ news ++ trieds, x.toCNetAddr ≠ info.toCNetAddr)
    (hroom : (trieds.countP fun x ↦ x.getTriedBucket hash am.nKey =
      info.getTriedBucket hash am.nKey) < addrmanTriedBucketSize) (nLost : Int) :
    ∃ am', CAddrMan.placeTried hash (am, nLost) info.saved = (am', nLost) ∧
      Loaded hash nUBuckets news (trieds ++ [info]) am' ∧
      am'.nIdCount = (news.length + (trieds ++ [info]).length : ℕ) ∧
      am'.nKey = am.nKey ∧ am'.nNew = am.nNew ∧ am'.nTried = am.nTried := by
  have hlen := h.length_vRandom
  have hnone : am.find (triedEntry (news.length + trieds.length) info).toCNetAddr = none :=
    h.find_eq_none hfresh
  have hpos : (triedEntry (news.length + trieds.length) info).nRandomPos = am.vRandom.length := by
    rw [hlen]
    rfl
  have hpush := h.indexed.push (Int.natCast_nonneg _) hnone hpos
  generalize hb : info.getTriedBucket hash am.nKey = b at hroom
  have hsize := h.tried_size b
  have hnot : ((news.length + trieds.length : ℕ) : Int) ∉ am.vvTried b := by
    rw [h.tried]
    rintro ⟨j, x, hj, -, heq⟩
    have := (List.getElem?_eq_some_iff.mp hj).1
    omega
  rw [placeTried_eq hlen hnIdCount hb (by rw [hsize]; exact hroom)]
  refine ⟨_, rfl, ?_, ?_, rfl, rfl, rfl⟩
  · constructor
    · dsimp only
      rw [h.mapInfo]
      simp only [loadedEntries, List.mapIdx_concat]
      rw [← List.append_assoc, ← SortedMap.insert_enumerate, List.length_append, List.length_mapIdx,
        List.length_mapIdx]
    · refine hpush.congr ?_ rfl rfl fun _ ↦ rfl
      rw [List.length_append]
      rfl
    · intro b' n
      dsimp only
      rw [exists_getElem?_concat]
      by_cases hb' : b' = b
      · rw [hb', Function.update_self, List.mem_append, List.mem_singleton, h.tried,
          and_iff_right hb]
      · rw [Function.update_of_ne hb', h.tried]
        exact (or_iff_left fun hx ↦ hb' (hx.1.symm.trans hb)).symm
    · intro b'
      dsimp only
      by_cases hb' : b' = b
      · rw [hb', Function.update_self]
        rw [← List.concat_eq_append]
        exact (h.tried_nodup b).concat hnot
      · rw [Function.update_of_ne hb']
        exact h.tried_nodup b'
    · intro b'
      dsimp only
      rw [List.countP_append, List.countP_singleton]
      by_cases hb' : b' = b
      · rw [hb', Function.update_self, List.length_append, hsize, hb, if_pos (decide_eq_true rfl)]
        rfl
      · rw [Function.update_of_ne hb', h.tried_size, hb,
          if_neg (by simpa using Ne.symm hb'), Nat.add_zero]
    · exact h.new
  · dsimp only
    rw [hnIdCount, List.length_append]
    rfl

/-! ### The first two loops -/

theorem fresh_of_nodup {l r : List CAddrInfo} (h : ((l ++ info :: r).map (·.toCNetAddr)).Nodup) :
    ∀ x ∈ l, x.toCNetAddr ≠ info.toCNetAddr := by
  rw [List.map_append, List.map_cons, List.nodup_append] at h
  intro x hx
  exact h.2.2 _ (List.mem_map_of_mem hx) _ List.mem_cons_self

theorem Loaded.foldl_placeNew (h : Loaded hash nUBuckets news [] am) (rest : List CAddrInfo)
    (hnodup : ((news ++ rest).map (·.toCNetAddr)).Nodup) :
    ∃ am', (rest.zipIdx news.length).foldl
        (fun am p ↦ CAddrMan.placeNew hash nUBuckets p.2 am p.1.saved) am = am' ∧
      Loaded hash nUBuckets (news ++ rest) [] am' ∧
      am'.nKey = am.nKey ∧ am'.nNew = am.nNew ∧ am'.nTried = am.nTried := by
  induction rest generalizing news am with
  | nil => exact ⟨am, rfl, by rwa [List.append_nil], rfl, rfl, rfl⟩
  | cons info rest ih =>
    have hplaced := h.placeNew (fresh_of_nodup hnodup)
    have hlen : am.vRandom.length = news.length := h.length_vRandom
    have hsame : CAddrMan.placeNew hash nUBuckets news.length am info.saved = _ := placeNew_eq hlen
    rw [List.append_cons] at hnodup
    obtain ⟨am', hfold, hloaded, hnKey, hnNew, hnTried⟩ := ih hplaced hnodup
    rw [List.zipIdx_cons, List.foldl_cons, List.append_cons]
    rw [List.length_append] at hfold
    refine ⟨am', hfold, hloaded, hnKey.trans ?_, hnNew.trans ?_, hnTried.trans ?_⟩
    · rw [hsame]
    · rw [hsame]
    · rw [hsame]

theorem Loaded.foldl_placeTried (h : Loaded hash nUBuckets news trieds am)
    (hnIdCount : am.nIdCount = (news.length + trieds.length : ℕ)) (rest : List CAddrInfo)
    (hnodup : ((news ++ (trieds ++ rest)).map (·.toCNetAddr)).Nodup)
    (hroom : ∀ b, ((trieds ++ rest).countP fun x ↦ x.getTriedBucket hash am.nKey = b) ≤
      addrmanTriedBucketSize) (nLost : Int) :
    ∃ am', rest.foldl (fun s info ↦ CAddrMan.placeTried hash s info.saved) (am, nLost) =
        (am', nLost) ∧
      Loaded hash nUBuckets news (trieds ++ rest) am' ∧
      am'.nIdCount = (news.length + (trieds ++ rest).length : ℕ) ∧
      am'.nKey = am.nKey ∧ am'.nNew = am.nNew ∧ am'.nTried = am.nTried := by
  induction rest generalizing trieds am with
  | nil =>
    rw [List.append_nil]
    exact ⟨am, rfl, h, hnIdCount, rfl, rfl, rfl⟩
  | cons info rest ih =>
    have hfresh : ∀ x ∈ news ++ trieds, x.toCNetAddr ≠ info.toCNetAddr := by
      rw [← List.append_assoc] at hnodup
      exact fresh_of_nodup hnodup
    have hcount : (trieds.countP fun x ↦ x.getTriedBucket hash am.nKey =
        info.getTriedBucket hash am.nKey) < addrmanTriedBucketSize := by
      have := hroom (info.getTriedBucket hash am.nKey)
      rw [List.countP_append, List.countP_cons, if_pos (decide_eq_true rfl)] at this
      omega
    obtain ⟨am₁, hstep, h₁, hnIdCount₁, hnKey₁, hnNew₁, hnTried₁⟩ :=
      h.placeTried hnIdCount hfresh hcount nLost
    rw [List.append_cons] at hnodup hroom
    obtain ⟨am', hfold, hloaded, hcount', hnKey, hnNew, hnTried⟩ :=
      ih h₁ hnIdCount₁ hnodup (by rwa [hnKey₁])
    rw [List.foldl_cons, hstep, List.append_cons]
    exact ⟨am', hfold, hloaded, hcount', hnKey.trans hnKey₁, hnNew.trans hnNew₁,
      hnTried.trans hnTried₁⟩

/-! ### The indexes of the buckets -/

/-- The manager after some indexes have been listed: pairs of a bucket and an index. -/
structure Relisted (am₀ am : CAddrMan nBuckets) (pairs : List (ℕ × Int)) : Prop where
  lookup : ∀ k, am.mapInfo.lookup k = (am₀.mapInfo.lookup k).map fun info ↦
    { info with nRefCount := info.nRefCount + (pairs.map Prod.snd).count k }
  new : ∀ b k, k ∈ (am.vvNew b).keys ↔ k ∈ (am₀.vvNew b).keys ∨ (b.val, k) ∈ pairs
  same : am = { am₀ with mapInfo := am.mapInfo, vvNew := am.vvNew }

omit [NeZero nBuckets] in
theorem relisted_nil (am : CAddrMan nBuckets) : Relisted am am [] where
  lookup := by
    intro k
    simp
  new := by
    intro b k
    simp
  same := rfl

omit [NeZero nBuckets] in
theorem setInfo_lookup {nId : Int} (h : am.mapInfo.lookup nId = some info) :
    am.setInfo nId info = am := by
  rw [setInfo, SortedMap.insert_lookup h]

/-- A round of the last loop, for an entry that has not been listed too often. -/
theorem Relisted.placeIndex {am₀ : CAddrMan nBuckets} {pairs : List (ℕ × Int)} {b : ℕ} {k : Int}
    (h : Relisted am₀ am pairs) (hb : b < nBuckets) (hinfo : am₀.mapInfo.lookup k = some info)
    (hrefs : info.nRefCount + (pairs.map Prod.snd).count k < addrmanNewBucketsPerAddress) :
    Relisted am₀ (CAddrMan.placeIndex nBuckets b am k) (pairs ++ [(b, k)]) := by
  have hinfo' : am.mapInfo.lookup k =
      some { info with nRefCount := info.nRefCount + (pairs.map Prod.snd).count k } := by
    rw [h.lookup, hinfo]
    rfl
  rw [CAddrMan.placeIndex, hinfo', Option.getD_some]
  dsimp only
  rw [setInfo_lookup hinfo', if_pos ⟨rfl, hrefs⟩]
  have hfin : (Fin.ofNat nBuckets b).val = b := Nat.mod_eq_of_lt hb
  constructor
  · intro k'
    change (CAddrMan.setInfo am k _).mapInfo.lookup k' = _
    rw [lookup_setInfo, List.map_append, List.count_append]
    by_cases hk : k' = k
    · rw [if_pos hk, hk, hinfo]
      simp [Int.add_assoc]
    · rw [if_neg hk, h.lookup]
      simp [Ne.symm hk]
  · intro b' k'
    dsimp only
    rw [List.mem_append, List.mem_singleton, Prod.mk.injEq]
    by_cases hb' : b' = Fin.ofNat nBuckets b
    · have hval : b'.val = b := by rw [hb', hfin]
      rw [hb', Function.update_self, SortedMap.mem_keys_insert, h.new, ← hb', hval,
        and_iff_right rfl, or_comm, or_assoc]
    · have hval : b'.val ≠ b := fun heq ↦ hb' (Fin.ext (heq.trans hfin.symm))
      rw [Function.update_of_ne hb', h.new, or_iff_left (a := (b'.val, k') ∈ pairs)
        fun hx ↦ hval hx.1]
  · have hsame : ∀ m (v : Fin nBuckets → NewBucket), { am with mapInfo := m, vvNew := v } =
        { am₀ with mapInfo := m, vvNew := v } := by
      intro m v
      rw [h.same]
    exact hsame _ _

/-- The last loop lists entries, none of them too often. -/
theorem relisted_foldl {pairs : List (ℕ × Int)} (hpairs : ∀ q ∈ pairs, q.1 < nBuckets ∧ ∃ info,
      am.mapInfo.lookup q.2 = some info ∧
        info.nRefCount + (pairs.map Prod.snd).count q.2 ≤ addrmanNewBucketsPerAddress) :
    Relisted am (pairs.foldl (fun am q ↦ placeIndex nBuckets q.1 am q.2) am) pairs := by
  induction pairs using List.reverseRecOn with
  | nil => exact relisted_nil am
  | append_singleton pairs q ih =>
    rw [List.foldl_append]
    have hcount : ∀ k, ((pairs ++ [q]).map Prod.snd).count k =
        (pairs.map Prod.snd).count k + [q.2].count k := by
      intro k
      rw [List.map_append, List.count_append]
      rfl
    obtain ⟨hb, info, hinfo, hrefs⟩ := hpairs q (by simp)
    rw [hcount, List.count_singleton_self] at hrefs
    refine (ih ?_).placeIndex hb hinfo (by push_cast at hrefs; omega)
    intro q' hq'
    obtain ⟨hb', info', hinfo', hrefs'⟩ := hpairs q' (List.mem_append_left _ hq')
    rw [hcount] at hrefs'
    exact ⟨hb', info', hinfo', by push_cast at hrefs'; omega⟩

/-- The last loop changes nothing when the buckets were rebuilt. -/
theorem foldl_placeIndex_of_changed (hchanged : nUBuckets ≠ nBuckets) {pairs : List (ℕ × Int)}
    (hpairs : ∀ q ∈ pairs, ∃ info, am.mapInfo.lookup q.2 = some info) :
    pairs.foldl (fun am q ↦ placeIndex nUBuckets q.1 am q.2) am = am := by
  induction pairs with
  | nil => rfl
  | cons q pairs ih =>
    obtain ⟨info, hinfo⟩ := hpairs q List.mem_cons_self
    have hstep : placeIndex nUBuckets q.1 am q.2 = am := by
      rw [placeIndex, hinfo, Option.getD_some, setInfo_lookup hinfo, if_neg fun h ↦ hchanged h.1]
    rw [List.foldl_cons, hstep]
    exact ih fun q' hq' ↦ hpairs q' (List.mem_cons_of_mem q hq')

/-! ### All loops -/

theorem Loaded.lookup_eq_some (h : Loaded hash nUBuckets news trieds am) {k : Int} :
    am.mapInfo.lookup k = some info ↔
      (∃ i : ℕ, ∃ x, news[i]? = some x ∧ info = newEntry nBuckets nUBuckets i x ∧ k = i) ∨
      ∃ j : ℕ, ∃ x, trieds[j]? = some x ∧ info = triedEntry (news.length + j) x ∧
        k = (news.length + j : ℕ) := by
  rw [h.mapInfo, SortedMap.lookup_enumerate_eq_some]
  constructor
  · rintro ⟨i, hi, rfl⟩
    rw [loadedEntries, List.getElem?_append, List.length_mapIdx, List.getElem?_mapIdx,
      List.getElem?_mapIdx] at hi
    split at hi
    · obtain ⟨x, hx, rfl⟩ := Option.map_eq_some_iff.mp hi
      exact .inl ⟨i, x, hx, rfl, rfl⟩
    · next hge =>
      obtain ⟨x, hx, rfl⟩ := Option.map_eq_some_iff.mp hi
      have heq : news.length + (i - news.length) = i := by omega
      exact .inr ⟨i - news.length, x, hx, rfl, by rw [heq]⟩
  · rintro (⟨i, x, hx, rfl, rfl⟩ | ⟨j, x, hx, rfl, rfl⟩)
    · have hi := (List.getElem?_eq_some_iff.mp hx).1
      refine ⟨i, ?_, rfl⟩
      rw [loadedEntries, List.getElem?_append_left (by rw [List.length_mapIdx]; exact hi),
        List.getElem?_mapIdx, hx]
      rfl
    · refine ⟨news.length + j, ?_, rfl⟩
      rw [loadedEntries, List.getElem?_append_right (by rw [List.length_mapIdx]; omega),
        List.length_mapIdx, Nat.add_sub_cancel_left, List.getElem?_mapIdx, hx]
      rfl

/-- The manager after all loops. -/
structure Restored (hash : Bytes → Uint256) (news trieds : List CAddrInfo)
    (am : CAddrMan nBuckets) : Prop where
  lookup : ∀ k info, am.mapInfo.lookup k = some info ↔
    (∃ i : ℕ, ∃ x, news[i]? = some x ∧
      info = { x.saved with nRandomPos := i, nRefCount := (holding am.vvNew i).card } ∧ k = i) ∨
    ∃ j : ℕ, ∃ x, trieds[j]? = some x ∧ info = triedEntry (news.length + j) x ∧
      k = (news.length + j : ℕ)
  indexed : am.Indexed
  tried : ∀ b n, n ∈ am.vvTried b ↔ ∃ j : ℕ, ∃ info, trieds[j]? = some info ∧
    info.getTriedBucket hash am.nKey = b ∧ n = (news.length + j : ℕ)
  tried_nodup : ∀ b, (am.vvTried b).Nodup
  new : ∀ b, ∀ k ∈ (am.vvNew b).keys, ∃ i < news.length, k = (i : ℕ)
  refs : ∀ i < news.length, 0 < (holding am.vvNew (i : ℕ)).card ∧
    (holding am.vvNew (i : ℕ)).card ≤ addrmanNewBucketsPerAddress
  nTried : am.nTried = trieds.length
  nNew : am.nNew = news.length
  count_tried : am.mapInfo.count (·.fInTried) = trieds.length
  count_new : am.mapInfo.count (!·.fInTried) = news.length

theorem count_loadedEntries (nBuckets : Nat) (nUBuckets : Int) (news trieds : List CAddrInfo) :
    (loadedEntries nBuckets nUBuckets news trieds).countP (·.fInTried) =
      trieds.length ∧
    (loadedEntries nBuckets nUBuckets news trieds).countP (!·.fInTried) = news.length := by
  have hall : ∀ {l : List CAddrInfo} {p : CAddrInfo → Bool}, (∀ x ∈ l, p x = true) →
      l.countP p = l.length := List.countP_eq_length.mpr
  have hnone : ∀ {l : List CAddrInfo} {p : CAddrInfo → Bool}, (∀ x ∈ l, ¬ p x = true) →
      l.countP p = 0 := List.countP_eq_zero.mpr
  have hnews : ∀ x ∈ news.mapIdx (newEntry nBuckets nUBuckets), x.fInTried = false := by
    intro x hx
    obtain ⟨i, hi, rfl⟩ := List.exists_of_mem_mapIdx hx
    rfl
  have htrieds : ∀ x ∈ trieds.mapIdx fun j ↦ triedEntry (news.length + j), x.fInTried = true := by
    intro x hx
    obtain ⟨i, hi, rfl⟩ := List.exists_of_mem_mapIdx hx
    rfl
  rw [loadedEntries, List.countP_append, List.countP_append]
  constructor
  · rw [hnone (by simpa using hnews), hall htrieds, List.length_mapIdx, Nat.zero_add]
  · rw [hall (by simpa using hnews), hnone (by simpa using htrieds), List.length_mapIdx, Nat.add_zero]

omit [NeZero nBuckets] in
/-- The check passes on what was restored. -/
theorem Restored.checked {am : CAddrMan nBuckets} (h : Restored hash news trieds am)
    (hnews : ∀ x ∈ news, 0 ≤ x.nLastSuccess.toInt)
    (htrieds : ∀ x ∈ trieds, 0 < x.nLastSuccess.toInt) : am.Checked := by
  have hnone : ∀ k : Int, (∀ i < news.length, k ≠ (i : ℕ)) → holding am.vvNew k = ∅ := by
    intro k hk
    rw [Finset.eq_empty_iff_forall_notMem]
    intro b hb
    obtain ⟨i, hi, heq⟩ := h.new b k (mem_holding.mp hb)
    exact hk i hi heq
  have hplaced : ∀ k, Placed hash am.nKey (am.mapInfo.lookup k) (holding am.vvNew k)
      (triedIn am.vvTried k) := by
    intro k
    cases hinfo : am.mapInfo.lookup k with
    | none =>
      have hnot := fun info ↦ (h.lookup k info).not.mp (by simp [hinfo])
      refine ⟨hnone k ?_, ?_⟩
      · rintro i hi rfl
        exact hnot _ (.inl ⟨i, news[i], List.getElem?_eq_getElem hi, rfl, rfl⟩)
      · rw [Finset.eq_empty_iff_forall_notMem]
        intro b hb
        obtain ⟨j, x, hx, -, rfl⟩ := (h.tried b k).mp (mem_triedIn.mp hb)
        exact hnot _ (.inr ⟨j, x, hx, rfl, rfl⟩)
    | some info =>
      rcases (h.lookup k info).mp hinfo with ⟨i, x, hx, rfl, rfl⟩ | ⟨j, x, hx, rfl, rfl⟩
      · have hi := (List.getElem?_eq_some_iff.mp hx).1
        obtain ⟨hpos, hle⟩ := h.refs i hi
        have hsuccess := hnews x (List.mem_of_getElem? hx)
        refine ⟨rfl, ?_, ?_, ?_, ⟨le_refl 0, hsuccess, ?_⟩⟩
        · exact Int.ofNat_le.mpr hle
        · intro htrue
          cases htrue
        · intro _
          refine ⟨Finset.card_pos.mp hpos, ?_⟩
          rw [Finset.eq_empty_iff_forall_notMem]
          intro b hb
          obtain ⟨j, x, -, -, heq⟩ := (h.tried b i).mp (mem_triedIn.mp hb)
          omega
        · intro htrue
          cases htrue
      · have hsuccess := htrieds x (List.mem_of_getElem? hx)
        have hempty := hnone (news.length + j : ℕ) (by omega)
        refine ⟨?_, ?_, ?_, ?_, ⟨le_refl 0, hsuccess.le, fun _ ↦ hsuccess⟩⟩
        · rw [hempty]
          rfl
        · exact Int.natCast_nonneg _
        · intro _
          refine ⟨hempty, ?_⟩
          ext b
          rw [mem_triedIn, h.tried, Finset.mem_singleton]
          constructor
          · rintro ⟨j', x', hx', rfl, heq⟩
            obtain rfl : j = j' := by omega
            obtain rfl := Option.some.inj (hx.symm.trans hx')
            rfl
          · rintro rfl
            exact ⟨j, x, hx, rfl, rfl⟩
        · intro hfalse
          cases hfalse
  refine checked_of_placed h.indexed hplaced h.tried_nodup ?_ ?_
  · rw [h.count_tried, h.nTried]
  · rw [h.count_new, h.nNew]

/-- With another number of buckets each "new" entry is in the bucket of its own source. -/
theorem Loaded.restored_of_changed (h : Loaded hash nUBuckets news trieds am)
    (hchanged : nUBuckets ≠ nBuckets) (hnIdCount : am.nIdCount = (news.length + trieds.length : ℕ))
    (hnTried : am.nTried = trieds.length) (hnNew : am.nNew = news.length) :
    Restored hash news trieds am := by
  have hholding : ∀ (i : ℕ) x, news[i]? = some x →
      holding am.vvNew (i : Int) = {x.getNewBucket hash am.nKey x.source} := by
    intro i x hx
    ext b
    rw [mem_holding, h.new, and_iff_right hchanged, Finset.mem_singleton]
    constructor
    · rintro ⟨i', x', hx', rfl, heq⟩
      obtain rfl := Int.ofNat_inj.mp heq
      obtain rfl := Option.some.inj (hx.symm.trans hx')
      rfl
    · rintro rfl
      exact ⟨i, x, hx, rfl, rfl⟩
  obtain ⟨htried, hnew⟩ := count_loadedEntries nBuckets nUBuckets news trieds
  constructor
  · intro k info
    rw [h.lookup_eq_some]
    refine or_congr_left (exists_congr fun i ↦ exists_congr fun x ↦ and_congr_right fun hx ↦ ?_)
    rw [hholding i x hx, newEntry, if_pos hchanged]
    rfl
  · exact h.indexed.congr hnIdCount rfl rfl fun _ ↦ rfl
  · exact h.tried
  · exact h.tried_nodup
  · intro b k hk
    obtain ⟨-, i, x, hx, -, rfl⟩ := (h.new b k).mp hk
    exact ⟨i, (List.getElem?_eq_some_iff.mp hx).1, rfl⟩
  · intro i hi
    rw [hholding i _ (List.getElem?_eq_getElem hi)]
    rw [Finset.card_singleton]
    exact ⟨by decide, by decide⟩
  · exact hnTried
  · exact hnNew
  · rw [h.mapInfo, SortedMap.count_enumerate, htried]
  · rw [h.mapInfo, SortedMap.count_enumerate, hnew]

/-- The pairs of a bucket and an index in the order in which they are read. -/
def indexPairs {n : ℕ} (f : Fin n → List Int) : List (ℕ × Int) :=
  (List.finRange n).flatMap fun b ↦ (f b).map (b.val, ·)

omit [NeZero nBuckets] in
theorem mem_indexPairs {f : Fin nBuckets → List Int} {b : Fin nBuckets} {k : Int} :
    (b.val, k) ∈ indexPairs f ↔ k ∈ f b := by
  rw [indexPairs, List.mem_flatMap]
  constructor
  · rintro ⟨b', -, hk⟩
    obtain ⟨k', hk', heq⟩ := List.mem_map.mp hk
    obtain ⟨hb, rfl⟩ := Prod.mk.inj heq
    obtain rfl := Fin.ext hb
    exact hk'
  · intro hk
    exact ⟨b, List.mem_finRange b, List.mem_map_of_mem hk⟩

/-- An index is listed as often as there are buckets that hold it. -/
theorem count_indexPairs {n : ℕ} {f : Fin n → List Int} (hf : ∀ b, (f b).Nodup) (k : Int) :
    ((indexPairs f).map Prod.snd).count k = (Finset.univ.filter fun b ↦ k ∈ f b).card := by
  have hsnd : (indexPairs f).map Prod.snd = (List.finRange n).flatMap f := by
    rw [indexPairs, List.map_flatMap]
    simp only [List.map_map, Function.comp_def, List.map_id']
  rw [hsnd, count_flatMap_of_nodup hf, List.countP_eq_length_filter, ← List.toFinset_card_of_nodup
    ((List.nodup_finRange n).filter _)]
  congr 1
  ext b
  simp

/-- With the same number of buckets each "new" entry is listed where it was. -/
theorem Loaded.restored_of_same (h : Loaded hash nBuckets news trieds am)
    (hnIdCount : am.nIdCount = (news.length + trieds.length : ℕ))
    (hnTried : am.nTried = trieds.length) (hnNew : am.nNew = news.length)
    {f : Fin nBuckets → List Int} (hnodup : ∀ b, (f b).Nodup)
    (hindex : ∀ b, ∀ k ∈ f b, ∃ i < news.length, k = (i : ℕ))
    (hrefs : ∀ i < news.length, 0 < (Finset.univ.filter fun b ↦ ((i : ℕ) : Int) ∈ f b).card ∧
      (Finset.univ.filter fun b ↦ ((i : ℕ) : Int) ∈ f b).card ≤ addrmanNewBucketsPerAddress)
    {am' : CAddrMan nBuckets} (hrelisted : Relisted am am' (indexPairs f)) :
    Restored hash news trieds am' ∧ ∀ b k, k ∈ (am'.vvNew b).keys ↔ k ∈ f b := by
  have hnew : ∀ b k, k ∈ (am'.vvNew b).keys ↔ k ∈ f b := by
    intro b k
    rw [hrelisted.new, mem_indexPairs, h.new]
    exact or_iff_right fun hx ↦ hx.1 rfl
  have hholding : ∀ k, holding am'.vvNew k = Finset.univ.filter fun b ↦ k ∈ f b := by
    intro k
    ext b
    rw [mem_holding, hnew, Finset.mem_filter, and_iff_right (Finset.mem_univ b)]
  have hcount : ∀ k, ((indexPairs f).map Prod.snd).count k = (holding am'.vvNew k).card := by
    intro k
    rw [count_indexPairs hnodup, hholding]
  have hfields := hrelisted.same
  have hstill : ∀ p : Bool → Bool, am'.mapInfo.count (fun info ↦ p info.fInTried) =
      am.mapInfo.count fun info ↦ p info.fInTried := by
    intro p
    refine SortedMap.count_congr p fun k ↦ ?_
    rw [hrelisted.lookup, Option.map_map]
    rfl
  obtain ⟨hcountTried, hcountNew⟩ := count_loadedEntries nBuckets nBuckets news trieds
  have hempty : ∀ j : ℕ, holding am'.vvNew ((news.length + j : ℕ) : Int) = ∅ := by
    intro j
    rw [Finset.eq_empty_iff_forall_notMem]
    intro b hb
    obtain ⟨i, hi, heq⟩ := hindex b _ ((hnew b _).mp (mem_holding.mp hb))
    omega
  have hnewEntry : ∀ i x, { newEntry nBuckets nBuckets i x with
      nRefCount := (newEntry nBuckets nBuckets i x).nRefCount + (holding am'.vvNew (i : ℕ)).card } =
        { x.saved with nRandomPos := i, nRefCount := (holding am'.vvNew (i : ℕ)).card } := by
    intro i x
    simp [newEntry]
  have htriedEntry : ∀ j x, { triedEntry (news.length + j) x with
      nRefCount := (triedEntry (news.length + j) x).nRefCount +
        (holding am'.vvNew ((news.length + j : ℕ) : Int)).card } =
          triedEntry (news.length + j) x := by
    intro j x
    rw [hempty]
    rfl
  refine ⟨?_, hnew⟩
  constructor
  · intro k info
    rw [hrelisted.lookup, Option.map_eq_some_iff]
    simp only [h.lookup_eq_some, hcount]
    constructor
    · rintro ⟨info', ⟨i, x, hx, rfl, rfl⟩ | ⟨j, x, hx, rfl, rfl⟩, rfl⟩
      · exact .inl ⟨i, x, hx, hnewEntry i x, rfl⟩
      · exact .inr ⟨j, x, hx, htriedEntry j x, rfl⟩
    · rintro (⟨i, x, hx, rfl, rfl⟩ | ⟨j, x, hx, rfl, rfl⟩)
      · exact ⟨_, .inl ⟨i, x, hx, rfl, rfl⟩, hnewEntry i x⟩
      · exact ⟨_, .inr ⟨j, x, hx, rfl, rfl⟩, htriedEntry j x⟩
  · refine h.indexed.congr ?_ ?_ ?_ ?_
    · rw [hfields]
      exact hnIdCount
    · rw [hfields]
    · rw [hfields]
    · intro k
      rw [hrelisted.lookup, Option.map_map]
      rfl
  · rw [hfields]
    exact h.tried
  · rw [hfields]
    exact h.tried_nodup
  · intro b k hk
    exact hindex b k ((hnew b k).mp hk)
  · intro i hi
    rw [hholding]
    exact hrefs i hi
  · rw [hfields]
    exact hnTried
  · rw [hfields]
    exact hnNew
  · refine (hstill id).trans ?_
    rw [h.mapInfo, SortedMap.count_enumerate]
    exact hcountTried
  · refine (hstill (!·)).trans ?_
    rw [h.mapInfo, SortedMap.count_enumerate]
    exact hcountNew

theorem zipIdx_finRange {n : ℕ} (f : Fin n → List Int) :
    ((List.finRange n).map f).zipIdx = (List.finRange n).map fun b ↦ (f b, b.val) := by
  refine List.ext_getElem (by simp) ?_
  intro i hi hi'
  rw [List.getElem_zipIdx, List.getElem_map, List.getElem_map, List.getElem_finRange]
  simp

/-- Entries with different addresses, and indexes of "new" ones, are restored. -/
theorem load_restored (nKey : Bytes) {n : ℕ} {f : Fin n → List Int}
    (hnodup : ((news ++ trieds).map (·.toCNetAddr)).Nodup)
    (hroom : ∀ b, (trieds.countP fun x ↦ x.getTriedBucket hash nKey = b) ≤ addrmanTriedBucketSize)
    (hf : ∀ b, (f b).Nodup) (hindex : ∀ b, ∀ k ∈ f b, ∃ i < news.length, k = (i : ℕ))
    (hrefs : ∀ i < news.length, 0 < (Finset.univ.filter fun b ↦ ((i : ℕ) : Int) ∈ f b).card ∧
      (Finset.univ.filter fun b ↦ ((i : ℕ) : Int) ∈ f b).card ≤ addrmanNewBucketsPerAddress) :
    ∃ am : CAddrMan nBuckets,
      load hash nKey n news trieds ((List.finRange n).map f) = am ∧ am.nKey = nKey ∧
      Restored hash news trieds am ∧
      ∀ (h : n = nBuckets) b k, k ∈ (am.vvNew (Fin.cast h b)).keys ↔ k ∈ f b := by
  have hempty : Loaded hash n [] []
      { (empty nKey : CAddrMan nBuckets) with nNew := news.length, nTried := trieds.length } :=
    loaded_empty nKey news.length trieds.length
  obtain ⟨am₁, hfold₁, h₁, hnKey₁, hnNew₁, hnTried₁⟩ := hempty.foldl_placeNew news
    (by rw [List.map_append] at hnodup; exact (List.nodup_append.mp hnodup).1)
  have hfold₁ : news.zipIdx.foldl (fun am p ↦ placeNew hash n p.2 am p.1.saved)
      { (empty nKey : CAddrMan nBuckets) with nNew := news.length, nTried := trieds.length } =
        am₁ := hfold₁
  have hnKey₁ : am₁.nKey = nKey := hnKey₁
  have h₁' : Loaded hash n news [] { am₁ with nIdCount := news.length } :=
    ⟨h₁.mapInfo, h₁.indexed, h₁.tried, h₁.tried_nodup, h₁.tried_size, h₁.new⟩
  obtain ⟨am₂, hfold₂, h₂, hnIdCount, hnKey₂, hnNew₂, hnTried₂⟩ :=
    h₁'.foldl_placeTried rfl trieds hnodup (by rw [hnKey₁]; exact hroom) 0
  have h₃ : Loaded hash n news trieds { am₂ with nTried := am₂.nTried - 0 } :=
    ⟨h₂.mapInfo, h₂.indexed.congr rfl rfl rfl fun _ ↦ rfl, h₂.tried, h₂.tried_nodup, h₂.tried_size,
      h₂.new⟩
  have hnKey : am₂.nKey = nKey := hnKey₂.trans hnKey₁
  have hnNew : am₂.nNew = news.length := hnNew₂.trans hnNew₁
  have hnTried : am₂.nTried - 0 = trieds.length := by
    rw [sub_zero, hnTried₂]
    exact hnTried₁
  have hload : load hash nKey n news trieds ((List.finRange n).map f) =
      (indexPairs f).foldl (fun am q ↦ placeIndex n q.1 am q.2)
        { am₂ with nTried := am₂.nTried - 0 } := by
    rw [load, hfold₁, hfold₂, zipIdx_finRange, indexPairs, List.foldl_flatMap]
    dsimp only
    rw [List.foldl_map]
    simp only [List.foldl_map]
  have hentry : ∀ i < news.length, ∃ x,
      am₂.mapInfo.lookup (i : ℕ) = some (newEntry nBuckets n i x) := by
    intro i hi
    exact ⟨_, h₂.lookup_eq_some.mpr (.inl ⟨i, news[i], List.getElem?_eq_getElem hi, rfl, rfl⟩)⟩
  have hmem : ∀ q ∈ indexPairs f, ∃ b : Fin n, q.1 = b ∧ ∃ i < news.length, q.2 = (i : ℕ) := by
    rintro q hq
    obtain ⟨b, -, hq⟩ := List.mem_flatMap.mp hq
    obtain ⟨k, hk, rfl⟩ := List.mem_map.mp hq
    exact ⟨b, rfl, hindex b k hk⟩
  rw [hload]
  by_cases hsame : n = nBuckets
  · subst hsame
    have hrelisted : Relisted { am₂ with nTried := am₂.nTried - 0 }
        ((indexPairs f).foldl (fun am q ↦ placeIndex n q.1 am q.2)
          { am₂ with nTried := am₂.nTried - 0 }) (indexPairs f) := by
      refine relisted_foldl ?_
      intro q hq
      obtain ⟨b, hb, i, hi, hk⟩ := hmem q hq
      obtain ⟨x, hinfo⟩ := hentry i hi
      refine ⟨hb ▸ b.isLt, _, hk ▸ hinfo, ?_⟩
      rw [hk, count_indexPairs hf]
      have := (hrefs i hi).2
      simp only [newEntry, ne_eq, not_true_eq_false, if_false]
      omega
    obtain ⟨hrestored, hnew⟩ := h₃.restored_of_same hnIdCount hnTried hnNew hf hindex hrefs hrelisted
    refine ⟨_, rfl, ?_, hrestored, fun _ b k ↦ hnew b k⟩
    rw [hrelisted.same]
    exact hnKey
  · have hchanged : (n : Int) ≠ nBuckets := fun heq ↦ hsame (Int.ofNat_inj.mp heq)
    rw [foldl_placeIndex_of_changed hchanged]
    · exact ⟨_, rfl, hnKey, h₃.restored_of_changed hchanged hnIdCount hnTried hnNew,
        fun h ↦ absurd h hsame⟩
    · intro q hq
      obtain ⟨b, hb, i, hi, hk⟩ := hmem q hq
      obtain ⟨x, hinfo⟩ := hentry i hi
      exact ⟨_, hk ▸ hinfo⟩

end CAddrMan

end Bitmark
