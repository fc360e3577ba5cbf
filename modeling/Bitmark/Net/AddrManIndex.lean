import Bitmark.Lib.Slots
import Bitmark.Net.AddrMan

/-!
# The indexes of the address manager

`mapAddr` finds every entry by its network address, and `vRandom` lists every entry at the position
that the entry names. The calls that create an entry, change its place in the random order or
delete it keep both.
-/

namespace Bitmark

namespace CAddrMan

variable {nBuckets : Nat}

/-- The positions that the entries name. -/
def position (am : CAddrMan nBuckets) (nId : Int) : Option Int :=
  (am.mapInfo.lookup nId).map (·.nRandomPos)

/-- The two indexes agree with `mapInfo`. -/
structure Indexed (am : CAddrMan nBuckets) : Prop where
  ids : ∀ nId info, am.mapInfo.lookup nId = some info → 0 ≤ nId ∧ nId < am.nIdCount
  mapAddr : ∀ addr nId, am.mapAddr.lookup addr = some nId ↔
    ∃ info, am.mapInfo.lookup nId = some info ∧ info.toCNetAddr = addr
  slots : Slots am.vRandom am.position

/-- An entry but for its place in the random order. -/
def still (info : CAddrInfo) : CAddrInfo := { info with nRandomPos := 0 }

variable {am : CAddrMan nBuckets} {nId : Int} {info : CAddrInfo}

theorem indexed_empty (nKey : Bytes) : (empty nKey : CAddrMan nBuckets).Indexed where
  ids := by
    intro nId info h
    cases h
  mapAddr := by
    intro addr nId
    exact iff_of_false (by simp [empty]) (by simp [empty])
  slots := Slots.nil

theorem entry_eq_ok (h : am.mapInfo.lookup nId = some info) : am.entry nId = .ok info := by
  rw [entry, h]

theorem lookup_setInfo (am : CAddrMan nBuckets) (nId : Int) (info : CAddrInfo) (k : Int) :
    (am.setInfo nId info).mapInfo.lookup k =
      if k = nId then some info else am.mapInfo.lookup k :=
  SortedMap.lookup_insert am.mapInfo nId info k

theorem position_setInfo (am : CAddrMan nBuckets) (nId : Int) (info : CAddrInfo) :
    (am.setInfo nId info).position = Function.update am.position nId (some info.nRandomPos) := by
  ext1 k
  rw [position, lookup_setInfo]
  by_cases hk : k = nId
  · rw [if_pos hk, hk, Function.update_self, Option.map_some]
  · rw [if_neg hk, Function.update_of_ne hk, position]

/-- `Find` finds exactly the entries. -/
theorem Indexed.find_eq_some (h : am.Indexed) {addr : CNetAddr} :
    am.find addr = some (nId, info) ↔
      am.mapInfo.lookup nId = some info ∧ info.toCNetAddr = addr := by
  rw [find, Option.bind_eq_bind, Option.bind_eq_some_iff]
  constructor
  · rintro ⟨nId', haddr, hfind⟩
    obtain ⟨info', hinfo', hsome⟩ := Option.bind_eq_some_iff.mp hfind
    obtain ⟨rfl, rfl⟩ := Prod.mk.inj (Option.some.inj hsome)
    obtain ⟨info, hinfo, rfl⟩ := (h.mapAddr addr nId').mp haddr
    obtain rfl := Option.some.inj (hinfo.symm.trans hinfo')
    exact ⟨hinfo, rfl⟩
  · rintro ⟨hinfo, rfl⟩
    exact ⟨nId, (h.mapAddr _ nId).mpr ⟨info, hinfo, rfl⟩, by rw [hinfo]; rfl⟩

/-- What an entry holds besides its address and its place can change. -/
theorem Indexed.setInfo (h : am.Indexed) (hinfo : am.mapInfo.lookup nId = some info)
    {info' : CAddrInfo} (haddr : info'.toCNetAddr = info.toCNetAddr)
    (hpos : info'.nRandomPos = info.nRandomPos) : (am.setInfo nId info').Indexed where
  ids := by
    intro k infoK hk
    rw [lookup_setInfo] at hk
    split at hk
    · next heq =>
      subst heq
      exact h.ids k info hinfo
    · exact h.ids k infoK hk
  mapAddr := by
    intro addr k
    change am.mapAddr.lookup addr = some k ↔ _
    rw [h.mapAddr, lookup_setInfo]
    split
    · next heq =>
      subst heq
      simp [hinfo, haddr]
    · rfl
  slots := by
    have hsame : Function.update am.position nId (some info'.nRandomPos) = am.position := by
      rw [Function.update_eq_iff, position, hinfo, hpos]
      exact ⟨rfl, fun _ _ ↦ rfl⟩
    rw [position_setInfo, hsame]
    exact h.slots

/-- The indexes do not see the rest of an entry. -/
theorem Indexed.congr (h : am.Indexed) {am' : CAddrMan nBuckets}
    (hnIdCount : am'.nIdCount = am.nIdCount) (hmapAddr : am'.mapAddr = am.mapAddr)
    (hvRandom : am'.vRandom = am.vRandom)
    (hlookup : ∀ k, (am'.mapInfo.lookup k).map (fun info ↦ (info.toCNetAddr, info.nRandomPos)) =
      (am.mapInfo.lookup k).map fun info ↦ (info.toCNetAddr, info.nRandomPos)) : am'.Indexed where
  ids := by
    intro k info' hk
    have heq := hlookup k
    rw [hk] at heq
    obtain ⟨info, hinfo, -⟩ := Option.map_eq_some_iff.mp heq.symm
    rw [hnIdCount]
    exact h.ids k info hinfo
  mapAddr := by
    intro addr k
    rw [hmapAddr, h.mapAddr]
    have haddr := congrArg (Option.map Prod.fst) (hlookup k)
    simp only [Option.map_map, Function.comp_def] at haddr
    rw [← Option.map_eq_some_iff, ← Option.map_eq_some_iff, haddr]
  slots := by
    have hposition : am'.position = am.position := by
      ext1 k
      have hpos := congrArg (Option.map Prod.snd) (hlookup k)
      simp only [Option.map_map, Function.comp_def] at hpos
      exact hpos
    rw [hvRandom, hposition]
    exact h.slots

theorem Indexed.lookup_nIdCount (h : am.Indexed) : am.mapInfo.lookup am.nIdCount = none := by
  cases hlookup : am.mapInfo.lookup am.nIdCount with
  | none => rfl
  | some info =>
    have := (h.ids _ info hlookup).2
    omega

/-- A new entry gets the next number and the place at the end of the vector. -/
theorem Indexed.push (h : am.Indexed) (hcount : 0 ≤ am.nIdCount)
    (hnew : am.find info.toCNetAddr = none) (hpos : info.nRandomPos = am.vRandom.length) :
    Indexed { am with
      nIdCount := am.nIdCount + 1, mapInfo := am.mapInfo.insert am.nIdCount info,
      mapAddr := am.mapAddr.insert info.toCNetAddr am.nIdCount,
      vRandom := am.vRandom ++ [am.nIdCount] } := by
  have hfresh := h.lookup_nIdCount
  refine ⟨?_, ?_, ?_⟩
  · intro k infoK hk
    rw [SortedMap.lookup_insert] at hk
    split at hk
    · next heq =>
      subst heq
      exact ⟨hcount, by simp⟩
    · have := h.ids k infoK hk
      exact ⟨this.1, by simp; omega⟩
  · intro addr' k
    rw [SortedMap.lookup_insert]
    by_cases haddr : addr' = info.toCNetAddr
    · subst haddr
      rw [Finmap.lookup_insert]
      constructor
      · intro heq
        obtain rfl := Option.some.inj heq
        exact ⟨_, if_pos rfl, rfl⟩
      · rintro ⟨info', hinfo', haddr'⟩
        split at hinfo'
        · next heq => rw [heq]
        · have hfind := h.find_eq_some.mpr ⟨hinfo', haddr'⟩
          rw [hnew] at hfind
          cases hfind
    · rw [Finmap.lookup_insert_of_ne _ haddr, h.mapAddr]
      split
      · next heq =>
        subst heq
        refine iff_of_false (by simp [hfresh]) ?_
        rintro ⟨info', hinfo', rfl⟩
        obtain rfl := Option.some.inj hinfo'
        exact haddr rfl
      · rfl
  · have hnone : am.position am.nIdCount = none := by rw [position, hfresh]; rfl
    have hpush := h.slots.push hnone
    rw [← hpos] at hpush
    change Slots _ (CAddrMan.setInfo am am.nIdCount info).position
    rw [position_setInfo am am.nIdCount info]
    exact hpush

/-- `Create` makes an entry under a new number. -/
theorem Indexed.create (h : am.Indexed) {addr : CAddress} (addrSource : CNetAddr)
    (hcount : 0 ≤ am.nIdCount) (hnew : am.find addr.toCNetAddr = none)
    (hroom : am.nIdCount ≠ 2 ^ 31 - 1) :
    ∃ am' info, am.create addr addrSource = .ok (am', am.nIdCount, info) ∧ am'.Indexed ∧
      am.mapInfo.lookup am.nIdCount = none ∧
      am' = { am with
        nIdCount := am.nIdCount + 1, mapInfo := am.mapInfo.insert am.nIdCount info,
        mapAddr := am'.mapAddr, vRandom := am'.vRandom } ∧
      info.toCService = addr.toCService ∧ info.nRefCount = 0 ∧ info.fInTried = false ∧
      info.nLastTry = 0 ∧ info.nLastSuccess = 0 := by
  rw [CAddrMan.create, if_neg hroom]
  exact ⟨_, _, rfl, h.push hcount hnew rfl, h.lookup_nIdCount, rfl, rfl, rfl, rfl, rfl, rfl⟩

/-- The vector lists every entry once. -/
theorem Indexed.length_vRandom (h : am.Indexed) :
    am.vRandom.length = am.mapInfo.entries.length := by
  rw [← SortedMap.length_keys]
  refine ((List.perm_ext_iff_of_nodup h.slots.nodup am.mapInfo.nodup_keys).mpr ?_).length_eq
  intro n
  rw [h.slots.mem_iff, SortedMap.mem_keys]
  constructor
  · rintro ⟨q, hq⟩
    obtain ⟨info, hinfo, -⟩ := Option.map_eq_some_iff.mp hq
    exact ⟨info, hinfo⟩
  · rintro ⟨info, hinfo⟩
    exact ⟨info.nRandomPos, by rw [position, hinfo]; rfl⟩

theorem elementAt_natCast (v : List Int) (p : ℕ) : elementAt v p = v[p]? := by
  rw [elementAt, if_pos (Int.natCast_nonneg p), Int.toNat_natCast]

/-- `SwapRandom` of two positions of the vector. -/
theorem Indexed.swapRandom (h : am.Indexed) {p q : ℕ} {nId' : Int}
    (hp : am.vRandom[p]? = some nId) (hq : am.vRandom[q]? = some nId') :
    ∃ am', am.swapRandom p q = .ok am' ∧ am'.Indexed ∧
      am' = { am with mapInfo := am'.mapInfo, vRandom := am'.vRandom } ∧
      am'.vRandom.length = am.vRandom.length ∧ am'.vRandom[q]? = some nId ∧
      ∀ k, (am'.mapInfo.lookup k).map still = (am.mapInfo.lookup k).map still := by
  by_cases hpq : p = q
  · subst hpq
    refine ⟨am, if_pos rfl, h, rfl, rfl, hp, fun _ ↦ rfl⟩
  · obtain ⟨info, hinfo, hpos⟩ := Option.map_eq_some_iff.mp (h.slots.pos_eq hp)
    obtain ⟨info', hinfo', hpos'⟩ := Option.map_eq_some_iff.mp (h.slots.pos_eq hq)
    have hne : nId ≠ nId' := by
      rintro rfl
      exact hpq (h.slots.eq_of_getElem? hp hq)
    have hqlen := (List.getElem?_eq_some_iff.mp hq).1
    have hlookup : ∀ k, ((am.setInfo nId { info with nRandomPos := q }).setInfo nId'
        { info' with nRandomPos := p }).mapInfo.lookup k =
          if k = nId' then some { info' with nRandomPos := p }
          else if k = nId then some { info with nRandomPos := q } else am.mapInfo.lookup k := by
      intro k
      rw [lookup_setInfo, lookup_setInfo]
    rw [CAddrMan.swapRandom, if_neg (by omega), elementAt_natCast, elementAt_natCast, hp, hq]
    simp only [entry_eq_ok hinfo, entry_eq_ok hinfo', bind, Except.bind, Int.toNat_natCast]
    refine ⟨_, rfl, ⟨?_, ?_, ?_⟩, rfl, by simp [CAddrMan.setInfo], ?_, ?_⟩
    · intro k infoK hk
      rw [hlookup] at hk
      split at hk
      · next heq =>
        subst heq
        exact h.ids k info' hinfo'
      · split at hk
        · next heq =>
          subst heq
          exact h.ids k info hinfo
        · exact h.ids k infoK hk
    · intro addr k
      change am.mapAddr.lookup addr = some k ↔ _
      rw [h.mapAddr, hlookup]
      split
      · next heq => simp [heq, hinfo']
      · split
        · next heq => simp [heq, hinfo]
        · rfl
    · change Slots _ (CAddrMan.setInfo (CAddrMan.setInfo am nId _) nId' _).position
      rw [position_setInfo, position_setInfo]
      exact h.slots.swap hp hq hpq
    · change ((am.vRandom.set p nId').set q nId)[q]? = some nId
      rw [List.getElem?_set_self (by rw [List.length_set]; exact hqlen)]
    · intro k
      rw [hlookup]
      split
      · next heq => rw [heq, hinfo']; rfl
      · split
        · next heq => rw [heq, hinfo]; rfl
        · rfl

/-- An entry leaves all indexes by way of the end of the vector. -/
theorem Indexed.delete (h : am.Indexed) (hinfo : am.mapInfo.lookup nId = some info) :
    ∃ am', am.swapRandom info.nRandomPos (am.vRandom.length - 1) = .ok am' ∧
      am' = { am with mapInfo := am'.mapInfo, vRandom := am'.vRandom } ∧
      Indexed { am' with
        vRandom := am'.vRandom.dropLast, mapAddr := am'.mapAddr.erase info.toCNetAddr,
        mapInfo := am'.mapInfo.erase nId, nNew := am'.nNew - 1 } ∧
      ∀ k, (am'.mapInfo.lookup k).map still = (am.mapInfo.lookup k).map still := by
  obtain ⟨p, hp, hpos⟩ := (h.slots nId info.nRandomPos).mp (by rw [position, hinfo]; rfl)
  have hlen := (List.getElem?_eq_some_iff.mp hp).1
  obtain ⟨nId', hlast⟩ : ∃ nId', am.vRandom[am.vRandom.length - 1]? = some nId' :=
    ⟨_, List.getElem?_eq_getElem (by omega)⟩
  obtain ⟨am', hswap, h', hsame, hlen', hlast', hstill⟩ := h.swapRandom hp hlast
  have hcast : ((am.vRandom.length : Int) - 1) = ((am.vRandom.length - 1 : ℕ) : Int) := by omega
  rw [hpos, hcast]
  refine ⟨am', hswap, hsame, ⟨?_, ?_, ?_⟩, hstill⟩
  · intro k infoK hk
    rw [SortedMap.lookup_erase] at hk
    split at hk
    · cases hk
    · exact h'.ids k infoK hk
  · intro addr k
    obtain ⟨info', hinfo', heq⟩ := Option.map_eq_some_iff.mp
      ((hstill nId).trans (by rw [hinfo]; rfl) : (am'.mapInfo.lookup nId).map still = some (still info))
    have haddr : info'.toCNetAddr = info.toCNetAddr := congrArg (·.toCNetAddr) heq
    rw [SortedMap.lookup_erase]
    by_cases hk : k = nId
    · subst hk
      rw [if_pos rfl]
      refine iff_of_false ?_ (by simp)
      by_cases hgone : addr = info.toCNetAddr
      · rw [hgone, Finmap.lookup_erase]
        exact (Option.some_ne_none k).symm
      · rw [Finmap.lookup_erase_ne hgone, h'.mapAddr, hinfo']
        rintro ⟨info'', hinfo'', rfl⟩
        obtain rfl := Option.some.inj hinfo''
        exact hgone haddr
    · rw [if_neg hk]
      by_cases hgone : addr = info.toCNetAddr
      · subst hgone
        rw [Finmap.lookup_erase]
        refine iff_of_false (Option.some_ne_none k).symm ?_
        rintro ⟨infoK, hinfoK, haddrK⟩
        -- the address would lead to two numbers
        have hleft := (h'.mapAddr info.toCNetAddr k).mpr ⟨infoK, hinfoK, haddrK⟩
        have hright := (h'.mapAddr info.toCNetAddr nId).mpr ⟨info', hinfo', haddr⟩
        exact hk (Option.some.inj (hleft.symm.trans hright))
      · rw [Finmap.lookup_erase_ne hgone, h'.mapAddr]
  · have hpop := h'.slots.pop (hlen'.symm ▸ hlast')
    have hposition : (fun k ↦ ((am'.mapInfo.erase nId).lookup k).map (·.nRandomPos)) =
        Function.update am'.position nId none := by
      ext1 k
      rw [SortedMap.lookup_erase]
      by_cases hk : k = nId
      · rw [if_pos hk, hk, Function.update_self, Option.map_none]
      · rw [if_neg hk, Function.update_of_ne hk, position]
    change Slots _ fun k ↦ ((am'.mapInfo.erase nId).lookup k).map (·.nRandomPos)
    rw [hposition]
    exact hpop

end CAddrMan

end Bitmark
