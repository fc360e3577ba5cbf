import Mathlib.Data.List.Perm.Basic
import Bitmark.Net.AddrManBuckets

/-!
# Moving an entry to the "tried" buckets

`MakeTried` takes an entry out of all "new" buckets into its "tried" bucket. When that is full,
another entry of it goes back to a "new" bucket: its own when that has room, and else the one the
first entry has come from.
-/

namespace Bitmark

namespace CAddrMan

variable {nBuckets : Nat} {hash : Bytes → Uint256} {am am' : CAddrMan nBuckets} {nId : Int}
  {info : CAddrInfo}

/-! ### `SelectTried` -/

/-- `SelectTried` has a candidate. -/
def Chosen (size : Nat) (c : TriedChoice) : Prop :=
  c.nOldest ≠ -1 ∧ 0 ≤ c.nOldestPos ∧ c.nOldestPos < size

theorem inspectTried_spec (draw : Nat → Nat) {vTried : List Int}
    (h : ∀ k ∈ vTried, (∃ info, am.mapInfo.lookup k = some info) ∧ k ≠ -1) {c : TriedChoice} {i : Nat}
    (hperm : c.vTried.Perm vTried) (hchosen : c.nOldest ≠ -1 → Chosen vTried.length c)
    (hmet : i < vTried.length ∨ c.nOldest ≠ -1) :
    ∃ c', am.inspectTried draw c i = .ok c' ∧ c'.vTried.Perm vTried ∧ Chosen vTried.length c' := by
  have hlen := hperm.length_eq
  rw [inspectTried]
  by_cases hi : i < c.vTried.length
  · rw [if_pos hi]
    generalize hpos : getRandInt (draw i) (c.vTried.length - i) + i = nPos
    have hnPos : nPos < c.vTried.length := by
      have hpos : 0 < c.vTried.length - i := by omega
      have := getRandInt_lt (draw i) hpos
      omega
    have hswap : ((c.vTried.set nPos c.vTried[i]).set i c.vTried[nPos]).Perm vTried :=
      (List.set_set_perm hnPos hi).trans hperm
    obtain ⟨⟨info, hinfo⟩, hne⟩ := h c.vTried[nPos] (hperm.mem_iff.mp (List.getElem_mem hnPos))
    have htaken : Chosen vTried.length
        ⟨(c.vTried.set nPos c.vTried[i]).set i c.vTried[nPos], c.vTried[nPos], nPos⟩ :=
      ⟨hne, Int.natCast_nonneg _, by dsimp only; omega⟩
    dsimp only
    rw [List.getElem?_eq_getElem hnPos, List.getElem?_eq_getElem hi]
    dsimp only
    by_cases hnone : c.nOldest = -1
    · exact ⟨_, if_pos hnone, hswap, htaken⟩
    · rw [if_neg hnone, entry_eq_ok hinfo]
      dsimp only [bind, Except.bind]
      split
      · exact ⟨_, rfl, hswap, htaken⟩
      · exact ⟨_, rfl, hswap, hchosen hnone⟩
  · rw [if_neg hi]
    exact ⟨c, rfl, hperm, hchosen (hmet.resolve_left (by omega))⟩

theorem foldlM_inspectTried (draw : Nat → Nat) {vTried : List Int}
    (h : ∀ k ∈ vTried, (∃ info, am.mapInfo.lookup k = some info) ∧ k ≠ -1) (rounds : List Nat)
    {c : TriedChoice} (hperm : c.vTried.Perm vTried) (hchosen : Chosen vTried.length c) :
    ∃ c', rounds.foldlM (am.inspectTried draw) c = .ok c' ∧ c'.vTried.Perm vTried ∧
      Chosen vTried.length c' := by
  induction rounds generalizing c with
  | nil => exact ⟨c, rfl, hperm, hchosen⟩
  | cons i rounds ih =>
    obtain ⟨c₁, hc₁, hperm₁, hchosen₁⟩ :=
      inspectTried_spec draw h (i := i) hperm (fun _ ↦ hchosen) (.inr hchosen.1)
    obtain ⟨c₂, hc₂, hrest⟩ := ih hperm₁ hchosen₁
    refine ⟨c₂, ?_, hrest⟩
    rw [List.foldlM_cons, hc₁]
    exact hc₂

/-- `SelectTried` shuffles a bucket that is not empty and gives a position in it. -/
theorem selectTried_spec (draw : Nat → Nat) {vTried : List Int}
    (h : ∀ k ∈ vTried, (∃ info, am.mapInfo.lookup k = some info) ∧ k ≠ -1) (hpos : 0 < vTried.length) :
    ∃ vTried' nPos, am.selectTried draw vTried = .ok (vTried', nPos) ∧ vTried'.Perm vTried ∧
      0 ≤ nPos ∧ nPos < vTried.length := by
  obtain ⟨c₁, hc₁, hperm₁, hchosen₁⟩ := inspectTried_spec draw h (c := { vTried }) (i := 0)
    (List.Perm.refl _) (fun hne ↦ absurd rfl hne) (.inl hpos)
  obtain ⟨c₂, hc₂, hperm₂, hchosen₂⟩ := foldlM_inspectTried draw h [1, 2, 3] hperm₁ hchosen₁
  refine ⟨c₂.vTried, c₂.nOldestPos, ?_, hperm₂, hchosen₂.2⟩
  have hfold : (List.range addrmanTriedEntriesInspectOnEvict).foldlM (am.inspectTried draw)
      { vTried } = .ok c₂ := by
    change [0, 1, 2, 3].foldlM (am.inspectTried draw) { vTried } = .ok c₂
    rw [List.foldlM_cons, hc₁]
    exact hc₂
  rw [selectTried, hfold]
  rfl

/-! ### The two ends of `MakeTried` -/

theorem mem_set_iff {l : List Int} (hnodup : l.Nodup) {p : ℕ} (hp : p < l.length) (a x : Int) :
    x ∈ l.set p a ↔ x = a ∨ x ≠ l[p] ∧ x ∈ l := by
  have hperm := List.getElem_cons_eraseIdx_perm hp
  have hnot := (List.nodup_cons.mp (hperm.nodup_iff.mpr hnodup)).1
  rw [(List.set_perm_cons_eraseIdx hp a).mem_iff, List.mem_cons, ← hperm.mem_iff, List.mem_cons]
  refine or_congr_right ⟨fun hx ↦ ⟨?_, .inr hx⟩, fun hx ↦ hx.2.resolve_left hx.1⟩
  rintro rfl
  exact hnot hx

theorem nodup_set {l : List Int} (hnodup : l.Nodup) {p : ℕ} (hp : p < l.length) {a : Int}
    (ha : a ∉ l) : (l.set p a).Nodup := by
  have hperm := List.getElem_cons_eraseIdx_perm hp
  rw [(List.set_perm_cons_eraseIdx hp a).nodup_iff, List.nodup_cons]
  refine ⟨fun hmem ↦ ha (hperm.mem_iff.mp (List.mem_cons_of_mem _ hmem)), ?_⟩
  exact (List.nodup_cons.mp (hperm.nodup_iff.mpr hnodup)).2

/-- The entry in its new place. -/
def madeTried (info : CAddrInfo) : CAddrInfo := { info with nRefCount := 0, fInTried := true }

theorem heldBy_madeTried (htimely : info.Timely) (hsuccess : 0 < info.nLastSuccess.toInt)
    (bucket : Fin addrmanTriedBucketCount) :
    HeldBy bucket (madeTried info) (∅ : Finset (Fin nBuckets)) {bucket} where
  refs := rfl
  refs_le := Int.natCast_nonneg _
  tried := fun _ ↦ ⟨rfl, rfl⟩
  new := by
    intro h
    cases h
  timely := ⟨htimely.nLastTry, htimely.nLastSuccess, fun _ ↦ hsuccess⟩

/-- There is room in the "tried" bucket. -/
theorem Bucketed.push_tried (h : am.Bucketed hash noPend)
    (hinfo : am.mapInfo.lookup nId = some info) (htried : info.fInTried = false)
    (hsuccess : 0 < info.nLastSuccess.toInt) {b : Fin addrmanTriedBucketCount}
    (hb : info.getTriedBucket hash am.nKey = b)
    (hroom : (am.vvTried b).length < addrmanTriedBucketSize) :
    Bucketed hash { am with
      mapInfo := am.mapInfo.insert nId (madeTried info)
      vvNew := fun b ↦ (am.vvNew b).erase nId
      nNew := am.nNew - 1
      vvTried := Function.update am.vvTried b (am.vvTried b ++ [nId])
      nTried := am.nTried + 1 } noPend := by
  have hheld := h.heldBy hinfo
  have hnot : ∀ b', nId ∉ am.vvTried b' := by
    intro b' hmem
    have hmem := mem_triedIn.mpr hmem
    rw [(hheld.new htried).2] at hmem
    cases hmem
  refine ⟨?_, ?_, ?_, ?_, ?_, ?_⟩
  · intro k
    dsimp only
    rw [SortedMap.lookup_insert, holding_erase_all]
    by_cases hk : k = nId
    · subst hk
      have holds : triedIn (Function.update am.vvTried b (am.vvTried b ++ [k])) k = {b} := by
        ext b'
        rw [mem_triedIn, Finset.mem_singleton]
        by_cases hb' : b' = b
        · subst hb'
          simp
        · rw [Function.update_of_ne hb']
          exact iff_of_false (hnot b') hb'
      rw [if_pos rfl, if_pos rfl, holds, noPend, Finset.union_empty, ← hb]
      exact heldBy_madeTried hheld.timely hsuccess _
    · have holds : triedIn (Function.update am.vvTried b (am.vvTried b ++ [nId])) k =
          triedIn am.vvTried k := by
        ext b'
        rw [mem_triedIn, mem_triedIn]
        by_cases hb' : b' = b
        · subst hb'
          simp [hk]
        · rw [Function.update_of_ne hb']
      rw [if_neg hk, if_neg hk, holds]
      exact h.placed k
  · intro b'
    by_cases hb' : b' = b
    · subst hb'
      dsimp only
      rw [Function.update_self, List.nodup_append]
      refine ⟨h.tried_nodup b', List.nodup_singleton nId, ?_⟩
      intro k hk k' hk' heq
      rw [List.mem_singleton] at hk'
      exact hnot b' (hk' ▸ heq ▸ hk)
    · dsimp only
      rw [Function.update_of_ne hb']
      exact h.tried_nodup b'
  · intro b'
    by_cases hb' : b' = b
    · subst hb'
      dsimp only
      rw [Function.update_self, List.length_append, List.length_singleton]
      omega
    · dsimp only
      rw [Function.update_of_ne hb']
      exact h.tried_size b'
  · intro b'
    exact (SortedMap.length_keys_erase_le _ nId).trans (h.new_size b')
  · have hcount := SortedMap.count_replace (·.fInTried) (b := madeTried info) hinfo
    have := h.nTried
    simp only [htried, madeTried, Bool.false_eq_true, if_true, if_false] at hcount
    dsimp only [madeTried]
    omega
  · have hcount := SortedMap.count_replace (!·.fInTried) (b := madeTried info) hinfo
    have := h.nNew
    simp only [htried, madeTried, Bool.not_true, Bool.not_false, Bool.false_eq_true, if_true,
      if_false] at hcount
    dsimp only [madeTried]
    omega

/-- The entry that goes back, with its one listing. -/
def madeNew (info : CAddrInfo) : CAddrInfo := { info with fInTried := false, nRefCount := 1 }

theorem heldBy_madeNew (htimely : info.Timely) (bucket : Fin addrmanTriedBucketCount)
    (b : Fin nBuckets) : HeldBy bucket (madeNew info) {b} ∅ where
  refs := rfl
  refs_le := by
    change (1 : Int) ≤ (4 : ℕ)
    decide
  tried := by
    intro h
    cases h
  new := fun _ ↦ ⟨Finset.singleton_nonempty b, rfl⟩
  timely := by
    refine ⟨htimely.nLastTry, htimely.nLastSuccess, ?_⟩
    intro h
    cases h

/-- The entry takes the place of another one, which goes to a "new" bucket that has room. -/
theorem Bucketed.replace_tried (h : am.Bucketed hash noPend)
    (hinfo : am.mapInfo.lookup nId = some info) (htried : info.fInTried = false)
    (hsuccess : 0 < info.nLastSuccess.toInt) {b : Fin addrmanTriedBucketCount}
    (hb : info.getTriedBucket hash am.nKey = b) {vTried : List Int}
    (hperm : vTried.Perm (am.vvTried b)) {p : ℕ} (hp : p < vTried.length) {infoOld : CAddrInfo}
    (hinfoOld : am.mapInfo.lookup vTried[p] = some infoOld) {back : Fin nBuckets}
    (hroom : ((am.vvNew back).erase nId).keys.length < addrmanNewBucketSize) :
    Bucketed hash { am with
      mapInfo := (am.mapInfo.insert vTried[p] (madeNew infoOld)).insert nId (madeTried info)
      vvNew := Function.update (fun b ↦ (am.vvNew b).erase nId) back
        (((am.vvNew back).erase nId).insert vTried[p] ())
      vvTried := Function.update am.vvTried b (vTried.set p nId) } noPend := by
  have hheld := h.heldBy hinfo
  have hheldOld := h.heldBy hinfoOld
  have hnot : ∀ b', nId ∉ am.vvTried b' := by
    intro b' hmem
    have hmem := mem_triedIn.mpr hmem
    rw [(hheld.new htried).2] at hmem
    cases hmem
  have hold : vTried[p] ∈ am.vvTried b := hperm.mem_iff.mp (List.getElem_mem hp)
  obtain ⟨infoOld', hinfoOld', htriedOld, hbOld⟩ := h.tried_entry hold
  obtain rfl := Option.some.inj (hinfoOld.symm.trans hinfoOld')
  have hne : vTried[p] ≠ nId := fun heq ↦ hnot b (heq ▸ hold)
  have hnodup : vTried.Nodup := hperm.nodup_iff.mpr (h.tried_nodup b)
  have hnotin : nId ∉ vTried := fun hmem ↦ hnot b (hperm.mem_iff.mp hmem)
  have hmem := mem_set_iff hnodup hp nId
  -- the "tried" buckets of every number
  have holds : ∀ k, triedIn (Function.update am.vvTried b (vTried.set p nId)) k =
      if k = nId then {b} else if k = vTried[p] then ∅ else triedIn am.vvTried k := by
    intro k
    ext b'
    rw [mem_triedIn]
    by_cases hb' : b' = b
    · subst hb'
      rw [Function.update_self, hmem]
      split
      · next hk => exact iff_of_true (.inl hk) (Finset.mem_singleton_self b')
      · next hk =>
        rw [or_iff_right hk]
        split
        · next hk' => exact iff_of_false (fun hx ↦ hx.1 hk') (Finset.notMem_empty b')
        · next hk' => rw [and_iff_right hk', hperm.mem_iff, mem_triedIn]
    · rw [Function.update_of_ne hb']
      split
      · next hk => exact iff_of_false (hk ▸ hnot b') fun hx ↦ hb' (Finset.mem_singleton.mp hx)
      · split
        · next hk =>
          refine iff_of_false ?_ (Finset.notMem_empty b')
          intro hx
          have hx := mem_triedIn.mpr hx
          rw [hk, (hheldOld.tried htriedOld).2, Finset.mem_singleton] at hx
          exact hb' (hx.trans hbOld.symm)
        · rw [mem_triedIn]
  have hnews := holding_update_insert (fun b ↦ (am.vvNew b).erase nId) back vTried[p]
  have hlookupOld : (am.mapInfo.insert vTried[p] (madeNew infoOld)).lookup nId = some info := by
    rw [SortedMap.lookup_insert_of_ne _ _ hne.symm, hinfo]
  refine ⟨?_, ?_, ?_, ?_, ?_, ?_⟩
  · intro k
    dsimp only
    rw [SortedMap.lookup_insert, SortedMap.lookup_insert, hnews, holding_erase_all, holds, noPend,
      Finset.union_empty]
    by_cases hk : k = nId
    · subst hk
      rw [if_pos rfl, if_neg hne.symm, if_pos rfl, if_pos rfl, ← hb]
      exact heldBy_madeTried hheld.timely hsuccess _
    · by_cases hk' : k = vTried[p]
      · rw [if_neg hk, if_pos hk', if_pos hk', if_neg hk, if_neg hk, if_pos hk', hk']
        have hnone := (hheldOld.tried htriedOld).1
        rw [noPend, Finset.union_empty] at hnone
        rw [hnone, insert_empty_eq]
        exact heldBy_madeNew hheldOld.timely _ back
      · rw [if_neg hk, if_neg hk', if_neg hk', if_neg hk, if_neg hk, if_neg hk']
        have hplaced := h.placed k
        rwa [noPend, Finset.union_empty] at hplaced
  · intro b'
    by_cases hb' : b' = b
    · subst hb'
      dsimp only
      rw [Function.update_self]
      exact nodup_set hnodup hp hnotin
    · dsimp only
      rw [Function.update_of_ne hb']
      exact h.tried_nodup b'
  · intro b'
    by_cases hb' : b' = b
    · subst hb'
      dsimp only
      rw [Function.update_self, List.length_set, hperm.length_eq]
      exact h.tried_size b'
    · dsimp only
      rw [Function.update_of_ne hb']
      exact h.tried_size b'
  · intro b'
    by_cases hb' : b' = back
    · subst hb'
      have := SortedMap.length_keys_insert_le ((am.vvNew b').erase nId) vTried[p] ()
      dsimp only
      rw [Function.update_self]
      omega
    · dsimp only
      rw [Function.update_of_ne hb']
      exact (SortedMap.length_keys_erase_le _ nId).trans (h.new_size b')
  · have hcount := SortedMap.count_replace (·.fInTried) (b := madeNew infoOld) hinfoOld
    have hcount' := SortedMap.count_replace (·.fInTried) (b := madeTried info) hlookupOld
    have := h.nTried
    simp only [htried, htriedOld, madeTried, madeNew, Bool.false_eq_true, if_true, if_false]
      at hcount hcount'
    dsimp only [madeTried, madeNew]
    omega
  · have hcount := SortedMap.count_replace (!·.fInTried) (b := madeNew infoOld) hinfoOld
    have hcount' := SortedMap.count_replace (!·.fInTried) (b := madeTried info) hlookupOld
    have := h.nNew
    simp only [htried, htriedOld, madeTried, madeNew, Bool.not_true, Bool.not_false,
      Bool.false_eq_true, if_true, if_false] at hcount hcount'
    dsimp only [madeTried, madeNew]
    omega

/-! ### `MakeTried` -/

/-- The manager after `MakeTried` has taken the entry out of all "new" buckets. -/
def unlisted (am : CAddrMan nBuckets) (nId : Int) (info : CAddrInfo) : CAddrMan nBuckets :=
  { am.setInfo nId { info with nRefCount := 0 } with
    vvNew := fun b ↦ (am.vvNew b).erase nId, nNew := am.nNew - 1 }

theorem makeTried_eq_of_refs [NeZero nBuckets] (hinfo : am.mapInfo.lookup nId = some info)
    {nOrigin : Fin nBuckets} (hmem : nId ∈ (am.vvNew nOrigin).keys)
    (hzero : info.nRefCount -
      ((List.finRange nBuckets).countP fun b ↦ nId ∈ (am.vvNew b).keys : ℕ) = 0)
    (draw : Nat → Nat) :
    am.makeTried hash draw nId nOrigin =
      (do
        let am' ←
          if (am.vvTried (info.getTriedBucket hash am.nKey)).length < addrmanTriedBucketSize then
            .ok { am.unlisted nId info with
              vvTried := Function.update am.vvTried (info.getTriedBucket hash am.nKey)
                (am.vvTried (info.getTriedBucket hash am.nKey) ++ [nId])
              nTried := am.nTried + 1 }
          else
            (am.unlisted nId info).evictTried hash draw nId nOrigin
              (info.getTriedBucket hash am.nKey)
        .ok (am'.setInfo nId (madeTried info))) := by
  rw [CAddrMan.makeTried, entry_eq_ok hinfo]
  dsimp only [bind, Except.bind]
  rw [if_neg (not_not.mpr hmem), hzero, if_neg (not_not.mpr rfl)]
  rfl

theorem makeTried_eq [NeZero nBuckets] (h : am.Bucketed hash noPend)
    (hinfo : am.mapInfo.lookup nId = some info) {nOrigin : Fin nBuckets}
    (hmem : nId ∈ (am.vvNew nOrigin).keys) (draw : Nat → Nat) :
    am.makeTried hash draw nId nOrigin =
      (do
        let am' ←
          if (am.vvTried (info.getTriedBucket hash am.nKey)).length < addrmanTriedBucketSize then
            .ok { am.unlisted nId info with
              vvTried := Function.update am.vvTried (info.getTriedBucket hash am.nKey)
                (am.vvTried (info.getTriedBucket hash am.nKey) ++ [nId])
              nTried := am.nTried + 1 }
          else
            (am.unlisted nId info).evictTried hash draw nId nOrigin
              (info.getTriedBucket hash am.nKey)
        .ok (am'.setInfo nId (madeTried info))) := by
  have hrefs := (h.heldBy hinfo).refs
  rw [noPend, Finset.union_empty] at hrefs
  refine makeTried_eq_of_refs hinfo hmem ?_ draw
  rw [countP_holding, hrefs, sub_self]

/-- `MakeTried` keeps the indexes and the buckets. -/
theorem Bucketed.makeTried [NeZero nBuckets] (hindexed : am.Indexed) (h : am.Bucketed hash noPend)
    (hinfo : am.mapInfo.lookup nId = some info) (htried : info.fInTried = false)
    (hsuccess : 0 < info.nLastSuccess.toInt) {nOrigin : Fin nBuckets}
    (hmem : nId ∈ (am.vvNew nOrigin).keys) (draw : Nat → Nat) :
    ∃ am', am.makeTried hash draw nId nOrigin = .ok am' ∧ am'.Indexed ∧ am'.Bucketed hash noPend ∧
      am'.nIdCount = am.nIdCount := by
  rw [makeTried_eq h hinfo hmem]
  generalize hb : info.getTriedBucket hash am.nKey = b
  by_cases hroom : (am.vvTried b).length < addrmanTriedBucketSize
  · rw [if_pos hroom]
    refine ⟨_, rfl, ?_, ?_, rfl⟩
    · have hset : (am.setInfo nId (madeTried info)).Indexed := hindexed.setInfo hinfo rfl rfl
      refine ⟨?_, ?_, ?_⟩ <;>
        simp only [unlisted, CAddrMan.setInfo, SortedMap.insert_insert]
      · exact hset.ids
      · exact hset.mapAddr
      · exact hset.slots
    · have hpush := h.push_tried hinfo htried hsuccess hb hroom
      simp only [unlisted, CAddrMan.setInfo, SortedMap.insert_insert]
      exact hpush
  · rw [if_neg hroom]
    have hfull : (am.vvTried b).length = addrmanTriedBucketSize :=
      le_antisymm (h.tried_size b) (not_lt.mp hroom)
    have hnotTried : ∀ k ∈ am.vvTried b, k ≠ nId := by
      rintro k hk rfl
      obtain ⟨info', hinfo', htried', -⟩ := h.tried_entry hk
      obtain rfl := Option.some.inj (hinfo.symm.trans hinfo')
      exact absurd (htried'.symm.trans htried) (by decide)
    have hlookup : ∀ k ≠ nId, (am.unlisted nId info).mapInfo.lookup k = am.mapInfo.lookup k :=
      fun k hk ↦ SortedMap.lookup_insert_of_ne _ _ hk
    have hentries : ∀ k ∈ am.vvTried b,
        (∃ info', (am.unlisted nId info).mapInfo.lookup k = some info') ∧ k ≠ -1 := by
      intro k hk
      obtain ⟨info', hinfo', -⟩ := h.tried_entry hk
      have := (hindexed.ids k info' hinfo').1
      exact ⟨⟨info', (hlookup k (hnotTried k hk)).trans hinfo'⟩, by omega⟩
    obtain ⟨vTried, nPos, hselect, hperm, hpos, hlt⟩ :=
      selectTried_spec draw hentries (by rw [hfull]; decide)
    obtain ⟨p, rfl⟩ := Int.eq_ofNat_of_zero_le hpos
    have hp : p < vTried.length := by
      rw [hperm.length_eq]
      omega
    have hold : vTried[p] ∈ am.vvTried b := hperm.mem_iff.mp (List.getElem_mem hp)
    have hne := hnotTried _ hold
    obtain ⟨infoOld, hinfoOld, -⟩ := h.tried_entry hold
    -- the bucket that the old entry goes back to
    let nUBucket : Fin nBuckets := infoOld.getNewBucket hash am.nKey infoOld.source
    let back : Fin nBuckets :=
      if ((am.vvNew nUBucket).erase nId).keys.length < addrmanNewBucketSize then nUBucket
      else nOrigin
    have hback : ((am.vvNew back).erase nId).keys.length < addrmanNewBucketSize := by
      by_cases hfree : ((am.vvNew nUBucket).erase nId).keys.length < addrmanNewBucketSize
      · rw [show back = nUBucket from if_pos hfree]
        exact hfree
      · rw [show back = nOrigin from if_neg hfree]
        obtain ⟨u, hu⟩ := SortedMap.mem_keys.mp hmem
        have := SortedMap.length_keys_erase hu
        have := h.new_size nOrigin
        omega
    have hmapInfo : ((am.mapInfo.insert nId { info with nRefCount := 0 }).insert vTried[p]
        (madeNew infoOld)).insert nId (madeTried info) =
          (am.mapInfo.insert vTried[p] (madeNew infoOld)).insert nId (madeTried info) := by
      rw [SortedMap.insert_comm _ hne.symm, SortedMap.insert_insert]
    have hevict : (am.unlisted nId info).evictTried hash draw nId nOrigin b =
        .ok { am with
          mapInfo := (am.mapInfo.insert nId { info with nRefCount := 0 }).insert vTried[p]
            (madeNew infoOld)
          vvNew := Function.update (fun b ↦ (am.vvNew b).erase nId) back
            (((am.vvNew back).erase nId).insert vTried[p] ())
          nNew := am.nNew - 1 + 1
          vvTried := Function.update am.vvTried b (vTried.set p nId) } := by
      rw [evictTried, show (am.unlisted nId info).vvTried b = am.vvTried b from rfl, hselect]
      dsimp only [bind, Except.bind]
      rw [elementAt_natCast, List.getElem?_eq_getElem hp]
      dsimp only
      rw [entry_eq_ok ((hlookup _ hne).trans hinfoOld)]
      rfl
    rw [hevict]
    refine ⟨_, rfl, ?_, ?_, rfl⟩
    · have hset : (am.setInfo vTried[p] (madeNew infoOld)).Indexed :=
        hindexed.setInfo hinfoOld rfl rfl
      have hinfo' : (am.setInfo vTried[p] (madeNew infoOld)).mapInfo.lookup nId = some info := by
        rw [lookup_setInfo, if_neg hne.symm, hinfo]
      have hset : ((am.setInfo vTried[p] (madeNew infoOld)).setInfo nId (madeTried info)).Indexed :=
        hset.setInfo hinfo' rfl rfl
      refine ⟨?_, ?_, ?_⟩ <;> simp only [CAddrMan.setInfo, hmapInfo]
      · exact hset.ids
      · exact hset.mapAddr
      · exact hset.slots
    · have hreplace := h.replace_tried hinfo htried hsuccess hb hperm hp hinfoOld hback
      simp only [CAddrMan.setInfo, hmapInfo, sub_add_cancel]
      exact hreplace

end CAddrMan

end Bitmark
