import Bitmark.Net.AddrManCheck
import Bitmark.Net.AddrManTried

/-!
# Runs of the address manager

Calls of `Add_`, `Good_`, `Attempt_` and `Connected_` in any order and with any random numbers keep
the indexes and the buckets, so that `Check_` returns zero after each of them. The times of `Good_`
and `Attempt_` are those of `GetAdjustedTime()`, their default argument: the check refuses a tried
entry whose last success is at zero, and negative times.
-/

namespace Bitmark

/-- A call of the address manager, with its random numbers and the time of the clock it reads. -/
inductive AddrManCall where
  | add (draw : Nat → Nat) (addr : CAddress) (source : CNetAddr) (nTimePenalty nNow : Int)
  | good (draw : Nat → Nat) (addr : CService) (nTime : BitVec 64)
  | attempt (addr : CService) (nTime : BitVec 64)
  | connected (addr : CService) (nTime : BitVec 64)

/-- The times of a call are after the epoch. -/
def AddrManCall.Timely : AddrManCall → Prop
  | .add .. => True
  | .good _ _ nTime => 0 < nTime.toInt
  | .attempt _ nTime => 0 ≤ nTime.toInt
  | .connected .. => True

namespace CAddrMan

variable {nBuckets : Nat} {hash : Bytes → Uint256} {am am' : CAddrMan nBuckets} {nId : Int}
  {info : CAddrInfo}

def step (hash : Bytes → Uint256) [NeZero nBuckets] (am : CAddrMan nBuckets) :
    AddrManCall → Except AddrFault (CAddrMan nBuckets)
  | .add draw addr source nTimePenalty nNow =>
    (·.1) <$> am.add hash draw addr source nTimePenalty nNow
  | .good draw addr nTime => am.good hash draw addr nTime
  | .attempt addr nTime => .ok (am.attempt addr nTime)
  | .connected addr nTime => .ok (am.connected addr nTime)

def run (hash : Bytes → Uint256) [NeZero nBuckets] (am : CAddrMan nBuckets)
    (calls : List AddrManCall) : Except AddrFault (CAddrMan nBuckets) :=
  calls.foldlM (step hash) am

/-- What every call keeps. -/
structure Valid (hash : Bytes → Uint256) (am : CAddrMan nBuckets) : Prop where
  nIdCount : 0 ≤ am.nIdCount
  indexed : am.Indexed
  bucketed : am.Bucketed hash noPend

theorem valid_empty (nKey : Bytes) : (empty nKey : CAddrMan nBuckets).Valid hash where
  nIdCount := le_refl 0
  indexed := indexed_empty nKey
  bucketed := bucketed_empty nKey

/-! ### The calls -/

/-- An entry that is neither moved nor listed again. -/
theorem Valid.setInfo (h : am.Valid hash) (hinfo : am.mapInfo.lookup nId = some info)
    {info' : CAddrInfo} (haddr : info'.toCService = info.toCService)
    (hpos : info'.nRandomPos = info.nRandomPos) (href : info'.nRefCount = info.nRefCount)
    (htried : info'.fInTried = info.fInTried) (htimely : info'.Timely) :
    (am.setInfo nId info').Valid hash where
  nIdCount := h.nIdCount
  indexed := h.indexed.setInfo hinfo (congrArg (·.toCNetAddr) haddr) hpos
  bucketed := h.bucketed.setInfo hinfo haddr href htried htimely

theorem Valid.attempt (h : am.Valid hash) (addr : CService) {nTime : BitVec 64}
    (hnTime : 0 ≤ nTime.toInt) : (am.attempt addr nTime).Valid hash := by
  rw [CAddrMan.attempt]
  split
  · exact h
  next nId info hfind =>
    obtain ⟨hinfo, -⟩ := h.indexed.find_eq_some.mp hfind
    have htimely := (h.bucketed.heldBy hinfo).timely
    split
    · exact h
    · exact h.setInfo hinfo rfl rfl rfl rfl ⟨hnTime, htimely.nLastSuccess, htimely.tried⟩

theorem Valid.connected (h : am.Valid hash) (addr : CService) (nTime : BitVec 64) :
    (am.connected addr nTime).Valid hash := by
  rw [CAddrMan.connected]
  split
  · exact h
  next nId info hfind =>
    obtain ⟨hinfo, -⟩ := h.indexed.find_eq_some.mp hfind
    have htimely := (h.bucketed.heldBy hinfo).timely
    split
    · exact h
    · split
      · exact h.setInfo hinfo rfl rfl rfl rfl
          ⟨htimely.nLastTry, htimely.nLastSuccess, htimely.tried⟩
      · exact h

theorem Valid.good [NeZero nBuckets] (h : am.Valid hash) (draw : Nat → Nat) (addr : CService)
    {nTime : BitVec 64} (hnTime : 0 < nTime.toInt) :
    ∃ am', am.good hash draw addr nTime = .ok am' ∧ am'.Valid hash ∧
      am'.nIdCount = am.nIdCount := by
  rw [CAddrMan.good]
  split
  · exact ⟨am, rfl, h, rfl⟩
  next nId info hfind =>
    obtain ⟨hinfo, -⟩ := h.indexed.find_eq_some.mp hfind
    by_cases haddr : info.toCService ≠ addr
    · exact ⟨am, if_pos haddr, h, rfl⟩
    · rw [if_neg haddr]
      -- the entry after the successful connection
      let info' : CAddrInfo :=
        { info with
          nLastSuccess := nTime, nLastTry := nTime, nTime := nTime.setWidth 32, nAttempts := 0 }
      have hset : (am.setInfo nId info').Valid hash :=
        h.setInfo hinfo rfl rfl rfl rfl ⟨hnTime.le, hnTime.le, fun _ ↦ hnTime⟩
      have hinfo' : (am.setInfo nId info').mapInfo.lookup nId = some info' := by
        rw [lookup_setInfo, if_pos rfl]
      dsimp only
      by_cases htried : info.fInTried = true
      · exact ⟨_, if_pos htried, hset, rfl⟩
      · rw [if_neg htried]
        split
        · exact ⟨_, rfl, hset, rfl⟩
        next nUBucket hbucket =>
          have hfound := List.find?_some hbucket
          have hmem : nId ∈ (am.vvNew nUBucket).keys := of_decide_eq_true hfound
          obtain ⟨am', hmade, hindexed, hbucketed, hnIdCount⟩ :=
            hset.bucketed.makeTried hset.indexed hinfo' (Bool.eq_false_iff.mpr htried) hnTime hmem
              fun i ↦ draw (i + 1)
          refine ⟨am', hmade, ⟨?_, hindexed, hbucketed⟩, hnIdCount⟩
          rw [hnIdCount]
          exact h.nIdCount

/-- `Add_` of an address that has an entry. -/
theorem Valid.add_known [NeZero nBuckets] (h : am.Valid hash)
    (hinfo : am.mapInfo.lookup nId = some info) (draw : Nat → Nat) (addr : CAddress)
    (source : CNetAddr) (nTimePenalty nNow : Int) :
    ∃ am', (if listsAgain (refreshed info addr nTimePenalty nNow) addr (draw 0) then
          (am.setInfo nId (refreshed info addr nTimePenalty nNow)).listNew hash
            (fun i ↦ draw (i + 1)) nId (refreshed info addr nTimePenalty nNow) source nNow
        else .ok (am.setInfo nId (refreshed info addr nTimePenalty nNow))) = .ok am' ∧
      am'.Valid hash ∧ am'.nIdCount = am.nIdCount := by
  have htimely := (h.bucketed.heldBy hinfo).timely
  have hset : (am.setInfo nId (refreshed info addr nTimePenalty nNow)).Valid hash :=
    h.setInfo hinfo rfl rfl rfl rfl ⟨htimely.nLastTry, htimely.nLastSuccess, htimely.tried⟩
  have hinfo' : (am.setInfo nId (refreshed info addr nTimePenalty nNow)).mapInfo.lookup nId =
      some (refreshed info addr nTimePenalty nNow) := by
    rw [lookup_setInfo, if_pos rfl]
  generalize refreshed info addr nTimePenalty nNow = info' at hset hinfo' ⊢
  by_cases hagain : listsAgain info' addr (draw 0) = true
  · rw [if_pos hagain]
    simp only [listsAgain, Bool.and_eq_true, Bool.not_eq_true', decide_eq_true_eq] at hagain
    obtain ⟨⟨⟨-, htried⟩, hroom⟩, -⟩ := hagain
    have hbucketed := hset.bucketed
    obtain ⟨am', hlist, hindexed, hbucketed, hnIdCount⟩ :=
      hset.indexed.listNew hinfo' source nNow (fun i ↦ draw (i + 1)) (fun _ ↦ hbucketed)
        fun hnot ↦ hbucketed.count_listing hinfo' htried hroom hnot
    refine ⟨am', hlist, ⟨?_, hindexed, hbucketed⟩, hnIdCount⟩
    rw [hnIdCount]
    exact h.nIdCount
  · exact ⟨_, if_neg hagain, hset, rfl⟩

/-- The manager between `Create` and the listing of the new entry. -/
def withCreated (am am' : CAddrMan nBuckets) (info : CAddrInfo) (nTime : BitVec 32) :
    CAddrMan nBuckets :=
  { am'.setInfo am.nIdCount { info with nTime } with nNew := am'.nNew + 1 }

/-- `Add_` of an address that has none. -/
theorem Valid.add_unknown [NeZero nBuckets] (h : am.Valid hash) (draw : Nat → Nat)
    {addr : CAddress} (hnew : am.find addr.toCNetAddr = none) (source : CNetAddr)
    (nTime : CAddrInfo → BitVec 32) (nNow : Int) (hroom : am.nIdCount ≠ 2 ^ 31 - 1) :
    ∃ am₁ info am', am.create addr source = .ok (am₁, am.nIdCount, info) ∧
      (withCreated am am₁ info (nTime info)).listNew hash draw am.nIdCount
        { info with nTime := nTime info } source nNow = .ok am' ∧
      am'.Valid hash ∧ am'.nIdCount = am.nIdCount + 1 := by
  obtain ⟨am₁, info, hcreate, hindexed, hfresh, hsame, -, href, htried, hlastTry, hlastSuccess⟩ :=
    h.indexed.create source h.nIdCount hnew hroom
  generalize ht : nTime info = t
  have hmapInfo : am₁.mapInfo = am.mapInfo.insert am.nIdCount info := by rw [hsame]
  have hinfo : am₁.mapInfo.lookup am.nIdCount = some info := by
    rw [hmapInfo, SortedMap.lookup_insert_self]
  have hset : (am₁.setInfo am.nIdCount { info with nTime := t }).Indexed :=
    hindexed.setInfo hinfo rfl rfl
  have hindexed' : (withCreated am am₁ info t).Indexed := ⟨hset.ids, hset.mapAddr, hset.slots⟩
  have hinfo' : (withCreated am am₁ info t).mapInfo.lookup am.nIdCount =
      some { info with nTime := t } := SortedMap.lookup_insert_self ..
  have hvvNew : (withCreated am am₁ info t).vvNew = am.vvNew := by
    change am₁.vvNew = _
    rw [hsame]
  have hlisted : ∀ b, am.nIdCount ∉ ((withCreated am am₁ info t).vvNew b).keys := by
    intro b hmem
    rw [hvvNew] at hmem
    obtain ⟨infoOld, hold, -⟩ := h.bucketed.new_entry hmem
    rw [hfresh] at hold
    cases hold
  have hcounted : ∀ b, ((withCreated am am₁ info t).setInfo am.nIdCount
      { info with nTime := t, nRefCount := info.nRefCount + 1 }).Bucketed hash
        (pendAt am.nIdCount b) := by
    intro b
    have hinserted : ((withCreated am am₁ info t).setInfo am.nIdCount
        { info with nTime := t, nRefCount := info.nRefCount + 1 }).mapInfo =
          am.mapInfo.insert am.nIdCount
            { info with nTime := t, nRefCount := info.nRefCount + 1 } := by
      change ((am₁.mapInfo.insert am.nIdCount _).insert am.nIdCount _) = _
      rw [SortedMap.insert_insert, hmapInfo, SortedMap.insert_insert]
    refine h.bucketed.count_created hfresh hinserted ?_ ?_ ?_ ?_ ?_ ?_ htried ⟨?_, ?_, ?_⟩ b
    · change am₁.nKey = _
      rw [hsame]
    · exact hvvNew
    · change am₁.vvTried = _
      rw [hsame]
    · change am₁.nNew + 1 = _
      rw [hsame]
    · change am₁.nTried = _
      rw [hsame]
    · change info.nRefCount + 1 = 1
      rw [href, zero_add]
    · change 0 ≤ info.nLastTry.toInt
      rw [hlastTry]
      decide
    · change 0 ≤ info.nLastSuccess.toInt
      rw [hlastSuccess]
      decide
    · intro htrue
      exact absurd (htrue.symm.trans htried) (by decide)
  obtain ⟨am', hlist, hindexed₂, hbucketed, hnIdCount⟩ :=
    hindexed'.listNew hinfo' source nNow draw
      (fun hmem ↦ absurd hmem (hlisted _)) fun _ ↦ hcounted _
  have hcount : am'.nIdCount = am.nIdCount + 1 := by
    rw [hnIdCount]
    change am₁.nIdCount = _
    rw [hsame]
  subst ht
  refine ⟨am₁, info, am', hcreate, hlist, ⟨?_, hindexed₂, hbucketed⟩, hcount⟩
  have := h.nIdCount
  omega

theorem Valid.add [NeZero nBuckets] (h : am.Valid hash) (draw : Nat → Nat) (addr : CAddress)
    (source : CNetAddr) (nTimePenalty nNow : Int) :
    (∃ am' fNew, am.add hash draw addr source nTimePenalty nNow = .ok (am', fNew) ∧
      am'.Valid hash ∧ am'.nIdCount ≤ am.nIdCount + 1) ∨
    am.add hash draw addr source nTimePenalty nNow = .error .overflow ∧
      am.nIdCount = 2 ^ 31 - 1 := by
  rw [CAddrMan.add]
  by_cases hroutable : (!addr.isRoutable) = true
  · exact .inl ⟨am, false, if_pos hroutable, h, by omega⟩
  · rw [if_neg hroutable]
    cases hfind : am.find addr.toCNetAddr with
    | some found =>
      left
      obtain ⟨nId, info⟩ := found
      obtain ⟨hinfo, -⟩ := h.indexed.find_eq_some.mp hfind
      obtain ⟨am', hlist, hvalid, hnIdCount⟩ :=
        h.add_known hinfo draw addr source nTimePenalty nNow
      refine ⟨am', false, ?_, hvalid, by omega⟩
      dsimp only
      split at hlist
      · next hagain =>
        rw [if_pos hagain, hlist]
        rfl
      · next hagain =>
        rw [if_neg hagain]
        obtain rfl := Except.ok.inj hlist
        rfl
    | none =>
      dsimp only
      by_cases hroom : am.nIdCount = 2 ^ 31 - 1
      · right
        rw [CAddrMan.create, if_pos hroom]
        exact ⟨rfl, hroom⟩
      · left
        obtain ⟨am₁, info, am', hcreate, hlist, hvalid, hnIdCount⟩ :=
          h.add_unknown (fun i ↦ draw (i + 1)) hfind source
            (fun info ↦ BitVec.ofInt 32 (max 0 ((info.nTime.toNat : Int) - nTimePenalty))) nNow hroom
        refine ⟨am', true, ?_, hvalid, by omega⟩
        rw [hcreate]
        dsimp only [bind, Except.bind]
        rw [withCreated] at hlist
        rw [hlist]

/-! ### Runs -/

theorem nIdCount_attempt (am : CAddrMan nBuckets) (addr : CService) (nTime : BitVec 64) :
    (am.attempt addr nTime).nIdCount = am.nIdCount := by
  rw [CAddrMan.attempt]
  split
  · rfl
  · split <;> rfl

theorem nIdCount_connected (am : CAddrMan nBuckets) (addr : CService) (nTime : BitVec 64) :
    (am.connected addr nTime).nIdCount = am.nIdCount := by
  rw [CAddrMan.connected]
  split
  · rfl
  · split
    · rfl
    · split <;> rfl

/-- A call succeeds and keeps everything, unless `Create` has no number left. -/
theorem Valid.step [NeZero nBuckets] (h : am.Valid hash) {call : AddrManCall}
    (htimely : call.Timely) :
    (∃ am', am.step hash call = .ok am' ∧ am'.Valid hash ∧ am'.nIdCount ≤ am.nIdCount + 1) ∨
      am.step hash call = .error .overflow ∧ am.nIdCount = 2 ^ 31 - 1 := by
  cases call with
  | add draw addr source nTimePenalty nNow =>
    rw [CAddrMan.step]
    rcases h.add draw addr source nTimePenalty nNow with ⟨am', fNew, hadd, hrest⟩ | ⟨hadd, hfull⟩
    · exact .inl ⟨am', by rw [hadd]; rfl, hrest⟩
    · exact .inr ⟨by rw [hadd]; rfl, hfull⟩
  | good draw addr nTime =>
    obtain ⟨am', hgood, hvalid, hnIdCount⟩ := h.good draw addr htimely
    exact .inl ⟨am', hgood, hvalid, by omega⟩
  | attempt addr nTime =>
    refine .inl ⟨_, rfl, h.attempt addr htimely, ?_⟩
    rw [nIdCount_attempt]
    omega
  | connected addr nTime =>
    refine .inl ⟨_, rfl, h.connected addr nTime, ?_⟩
    rw [nIdCount_connected]
    omega

theorem Valid.run [NeZero nBuckets] {calls : List AddrManCall} (h : am.Valid hash)
    (htimely : ∀ call ∈ calls, call.Timely) :
    (∃ am', am.run hash calls = .ok am' ∧ am'.Valid hash) ∨
      am.run hash calls = .error .overflow ∧ 2 ^ 31 ≤ am.nIdCount + calls.length := by
  induction calls generalizing am with
  | nil => exact .inl ⟨am, rfl, h⟩
  | cons call calls ih =>
    have hrest : ∀ call ∈ calls, call.Timely := fun c hc ↦ htimely c (List.mem_cons_of_mem call hc)
    rw [CAddrMan.run, List.foldlM_cons, List.length_cons]
    rcases h.step (htimely call List.mem_cons_self) with ⟨am₁, hstep, h₁, hle⟩ | ⟨hstep, hfull⟩
    · rw [hstep]
      rcases ih h₁ hrest with hok | ⟨hfault, hlen⟩
      · exact .inl hok
      · exact .inr ⟨hfault, by push_cast; omega⟩
    · rw [hstep]
      exact .inr ⟨rfl, by push_cast; omega⟩

/-! ### What `Check_` sees -/

/-- The tables and the indexes of the manager agree. -/
structure Consistent (hash : Bytes → Uint256) (am : CAddrMan nBuckets) : Prop where
  /-- A tried entry is in one bucket only, the one its address determines. -/
  tried : ∀ n info, am.mapInfo.lookup n = some info → info.fInTried = true →
    (∀ b, n ∈ am.vvTried b ↔ b = info.getTriedBucket hash am.nKey) ∧ ∀ b, n ∉ (am.vvNew b).keys
  /-- Every other entry is in one "new" bucket or more and in no "tried" one. -/
  new : ∀ n info, am.mapInfo.lookup n = some info → info.fInTried = false →
    (∃ b, n ∈ (am.vvNew b).keys) ∧ ∀ b, n ∉ am.vvTried b
  refs : ∀ n info, am.mapInfo.lookup n = some info → info.nRefCount = (holding am.vvNew n).card
  tried_entry : ∀ b, ∀ n ∈ am.vvTried b, ∃ info, am.mapInfo.lookup n = some info
  new_entry : ∀ b, ∀ n ∈ (am.vvNew b).keys, ∃ info, am.mapInfo.lookup n = some info
  vRandom : ∀ n q, (∃ info, am.mapInfo.lookup n = some info ∧ info.nRandomPos = q) ↔
    elementAt am.vRandom q = some n
  mapAddr : ∀ addr n, am.mapAddr.lookup addr = some n ↔
    ∃ info, am.mapInfo.lookup n = some info ∧ info.toCNetAddr = addr
  tried_nodup : ∀ b, (am.vvTried b).Nodup
  tried_size : ∀ b, (am.vvTried b).length ≤ addrmanTriedBucketSize
  new_size : ∀ b, (am.vvNew b).keys.length ≤ addrmanNewBucketSize
  nTried : am.nTried = am.mapInfo.count (·.fInTried)
  nNew : am.nNew = am.mapInfo.count (!·.fInTried)

theorem elementAt_eq_some {v : List Int} {q n : Int} :
    elementAt v q = some n ↔ ∃ p : ℕ, v[p]? = some n ∧ q = p := by
  rw [elementAt]
  constructor
  · intro h
    split at h
    · exact ⟨q.toNat, h, by omega⟩
    · cases h
  · rintro ⟨p, hp, rfl⟩
    rw [if_pos (Int.natCast_nonneg p), Int.toNat_natCast, hp]

theorem Valid.consistent (h : am.Valid hash) : am.Consistent hash := by
  have hheld : ∀ n info, am.mapInfo.lookup n = some info →
      HeldBy (info.getTriedBucket hash am.nKey) info (holding am.vvNew n) (triedIn am.vvTried n) := by
    intro n info hinfo
    have := h.bucketed.heldBy hinfo
    rwa [noPend, Finset.union_empty] at this
  constructor
  · intro n info hinfo htried
    obtain ⟨hnews, holds⟩ := (hheld n info hinfo).tried htried
    constructor
    · intro b
      rw [← mem_triedIn, holds, Finset.mem_singleton]
    · intro b hmem
      rw [← mem_holding, hnews] at hmem
      cases hmem
  · intro n info hinfo htried
    obtain ⟨⟨b, hb⟩, holds⟩ := (hheld n info hinfo).new htried
    constructor
    · exact ⟨b, mem_holding.mp hb⟩
    · intro b hmem
      rw [← mem_triedIn, holds] at hmem
      cases hmem
  · intro n info hinfo
    exact (hheld n info hinfo).refs.symm
  · intro b n hmem
    obtain ⟨info, hinfo, -⟩ := h.bucketed.tried_entry hmem
    exact ⟨info, hinfo⟩
  · intro b n hmem
    obtain ⟨info, hinfo, -⟩ := h.bucketed.new_entry hmem
    exact ⟨info, hinfo⟩
  · intro n q
    rw [elementAt_eq_some, ← h.indexed.slots n q, position, Option.map_eq_some_iff]
  · exact h.indexed.mapAddr
  · exact h.bucketed.tried_nodup
  · exact h.bucketed.tried_size
  · exact h.bucketed.new_size
  · exact h.bucketed.nTried.symm
  · exact h.bucketed.nNew.symm

theorem count_flatMap_of_nodup {β : Type} {f : β → List Int} (hf : ∀ b, (f b).Nodup) (bs : List β)
    (n : Int) : (bs.flatMap f).count n = bs.countP fun b ↦ n ∈ f b := by
  induction bs with
  | nil => rfl
  | cons b bs ih =>
    rw [List.flatMap_cons, List.count_append, ih, (hf b).count, List.countP_cons, Nat.add_comm]
    simp only [decide_eq_true_eq]

/-- An entry is counted in the "new" buckets as often as they hold it. -/
theorem count_allNew (am : CAddrMan nBuckets) (n : Int) :
    am.allNew.count n = (holding am.vvNew n).card := by
  rw [← countP_holding, allNew, count_flatMap_of_nodup fun b ↦ (am.vvNew b).nodup_keys]

theorem expectedNew_eq (hplaced : ∀ n, Placed hash am.nKey (am.mapInfo.lookup n)
    (holding am.vvNew n) (triedIn am.vvTried n)) (n : Int) :
    am.expectedNew n = (holding am.vvNew n).card := by
  rw [expectedNew, mapNew, SortedMap.lookup_filterMap]
  have hn := hplaced n
  cases hinfo : am.mapInfo.lookup n with
  | none =>
    rw [hinfo] at hn
    rw [hn.1]
    rfl
  | some info =>
    rw [hinfo] at hn
    rw [Option.bind_some]
    cases htried : info.fInTried with
    | true =>
      rw [(HeldBy.tried hn htried).1]
      rfl
    | false =>
      rw [HeldBy.refs hn]
      rfl

/-- The check passes where the indexes and the buckets are right, whatever the sizes of the buckets. -/
theorem checked_of_placed (hindexed : am.Indexed)
    (hplaced : ∀ n, Placed hash am.nKey (am.mapInfo.lookup n) (holding am.vvNew n)
      (triedIn am.vvTried n))
    (hnodup : ∀ b, (am.vvTried b).Nodup)
    (hnTried : (am.mapInfo.count (·.fInTried) : Int) = am.nTried)
    (hnNew : (am.mapInfo.count (!·.fInTried) : Int) = am.nNew) : am.Checked := by
  have hsplit := am.mapInfo.count_add_count_not (·.fInTried)
  have hheld : ∀ n info, am.mapInfo.lookup n = some info →
      HeldBy (info.getTriedBucket hash am.nKey) info (holding am.vvNew n) (triedIn am.vvTried n) := by
    intro n info hinfo
    have hn := hplaced n
    rwa [hinfo] at hn
  have htriedIn : ∀ n, (triedIn am.vvTried n).Nonempty → ∃ info,
      am.mapInfo.lookup n = some info ∧ info.fInTried = true ∧
        triedIn am.vvTried n = {info.getTriedBucket hash am.nKey} := by
    rintro n ⟨b, hb⟩
    have hn := hplaced n
    cases hinfo : am.mapInfo.lookup n with
    | none =>
      rw [hinfo] at hn
      rw [hn.2] at hb
      cases hb
    | some info =>
      rw [hinfo] at hn
      cases htried : info.fInTried with
      | false =>
        rw [(HeldBy.new hn htried).2] at hb
        cases hb
      | true => exact ⟨info, rfl, htried, (HeldBy.tried hn htried).2⟩
  constructor
  · rw [hindexed.length_vRandom, ← hnTried, ← hnNew, ← hsplit]
    push_cast
    rfl
  · intro n info hinfo
    have hrefs := (hheld n info hinfo).refs
    have htimely := (hheld n info hinfo).timely
    refine ⟨?_, ?_, ?_, ?_, htimely.nLastTry, htimely.nLastSuccess⟩
    · intro htried
      constructor
      · intro hzero
        have := htimely.tried htried
        rw [hzero] at this
        exact absurd this (by decide)
      · rw [← hrefs, ((hheld n info hinfo).tried htried).1]
        rfl
    · intro htried
      have := Finset.card_pos.mpr ((hheld n info hinfo).new htried).1
      exact ⟨by omega, (hheld n info hinfo).refs_le⟩
    · rw [(hindexed.mapAddr info.toCNetAddr n).mpr ⟨info, hinfo, rfl⟩]
      rfl
    · obtain ⟨p, hp, hpos⟩ :=
        (hindexed.slots n info.nRandomPos).mp (by rw [position, hinfo]; rfl)
      rw [hpos, elementAt_natCast, hp]
  · exact hnTried
  · exact hnNew
  · refine List.nodup_flatMap.mpr ⟨fun b _ ↦ hnodup b, ?_⟩
    refine (List.nodup_finRange addrmanTriedBucketCount).imp ?_
    intro b b' hne n hmem hmem'
    -- an entry has one bucket
    rw [← mem_triedIn] at hmem hmem'
    obtain ⟨info, -, -, honly⟩ := htriedIn n ⟨b, hmem⟩
    rw [honly, Finset.mem_singleton] at hmem hmem'
    exact hne (hmem.trans hmem'.symm)
  · intro n
    rw [allTried, List.mem_flatMap]
    constructor
    · rintro ⟨b, -, hmem⟩
      obtain ⟨info, hinfo, htried, -⟩ := htriedIn n ⟨b, mem_triedIn.mpr hmem⟩
      exact ⟨info, hinfo, htried⟩
    · rintro ⟨info, hinfo, htried⟩
      refine ⟨info.getTriedBucket hash am.nKey, List.mem_finRange _, mem_triedIn.mp ?_⟩
      rw [((hheld n info hinfo).tried htried).2]
      exact Finset.mem_singleton_self _
  · intro n
    rw [count_allNew, expectedNew_eq hplaced]

theorem Valid.checked (h : am.Valid hash) : am.Checked := by
  have hplaced : ∀ n, Placed hash am.nKey (am.mapInfo.lookup n) (holding am.vvNew n)
      (triedIn am.vvTried n) := by
    intro n
    have hn := h.bucketed.placed n
    rwa [noPend, Finset.union_empty] at hn
  exact checked_of_placed h.indexed hplaced h.bucketed.tried_nodup h.bucketed.nTried h.bucketed.nNew

/-- After every run of calls at times after the epoch `Check_` returns zero and the tables and indexes
agree, and a run can only stop when `Create` has given out all numbers. -/
theorem check_run [NeZero nBuckets] (hash : Bytes → Uint256) (nKey : Bytes)
    (calls : List AddrManCall) (htimely : ∀ call ∈ calls, call.Timely) :
    (∃ am : CAddrMan nBuckets, (empty nKey).run hash calls = .ok am ∧ am.check = 0 ∧
      am.Consistent hash) ∨
    (empty nKey : CAddrMan nBuckets).run hash calls = .error .overflow ∧ 2 ^ 31 ≤ calls.length := by
  have hempty : (empty nKey : CAddrMan nBuckets).Valid hash := valid_empty nKey
  rcases hempty.run htimely with
    ⟨am, hrun, hvalid⟩ | ⟨hrun, hlen⟩
  · exact .inl ⟨am, hrun, (check_eq_zero_iff am).mpr hvalid.checked, hvalid.consistent⟩
  · refine .inr ⟨hrun, ?_⟩
    rw [empty, zero_add] at hlen
    exact_mod_cast hlen

/-- An address that is routable. -/
def peer : CAddress where
  ip := CNetAddr.pchIPv4 ++ [8, 8, 8, 8]
  size_ip := rfl
  port := 9265

theorem check_run_peer :
    ∃ am : CAddrMan addrmanNewBucketCount,
      (empty []).run (fun _ ↦ 0) [.add (fun _ ↦ 0) peer peer.toCNetAddr 0 100000000,
        .good (fun _ ↦ 0) peer.toCService 100000001, .attempt peer.toCService 100000002,
        .connected peer.toCService 100001300] = .ok am ∧ am.check = 0 ∧ am.Consistent fun _ ↦ 0 := by
  refine (check_run _ _ _ ?_).resolve_right fun h ↦ absurd h.2 (by decide)
  simp [AddrManCall.Timely]

/-- `Good_` at time zero makes a tried entry that the check refuses. -/
theorem check_run_at_zero :
    ¬ ∀ (hash : Bytes → Uint256) (nKey : Bytes) (calls : List AddrManCall)
      (am : CAddrMan addrmanNewBucketCount),
      (empty nKey).run hash calls = .ok am → am.check = 0 := by
  intro h
  have hcheck : (match (empty [] : CAddrMan addrmanNewBucketCount).run (fun _ ↦ 0)
      [.add (fun _ ↦ 0) peer peer.toCNetAddr 0 100000000, .good (fun _ ↦ 0) peer.toCService 0] with
      | .ok am => am.check
      | .error _ => 0) = -1 := by
    decide +kernel
  split at hcheck
  · next am hrun =>
    rw [h _ _ _ am hrun] at hcheck
    cases hcheck
  · cases hcheck

end CAddrMan

end Bitmark

