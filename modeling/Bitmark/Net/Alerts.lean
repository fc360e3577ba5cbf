import Bitmark.Base.HashOrder
import Bitmark.Lib.SortedMap
import Bitmark.Lib.Trace
import Bitmark.Primitives.Transaction

/-!
# Alerts

`CAlert` and the store `mapAlerts` (`src/alert.h`, `src/alert.cpp`). An alert is in effect until it
expires, and cancels the alerts up to an identifier and those it lists. The verification of a
signature with the alert key is a parameter. Notifications of the user interface are left out.
-/

namespace Bitmark

/-- `CUnsignedAlert`. Numbers are `int` and `int64_t`. -/
structure CUnsignedAlert where
  nVersion : BitVec 32
  nRelayUntil : BitVec 64
  nExpiration : BitVec 64
  nID : BitVec 32
  nCancel : BitVec 32
  setCancel : Finset (BitVec 32)
  nMinVer : BitVec 32
  nMaxVer : BitVec 32
  setSubVer : Finset Bytes
  nPriority : BitVec 32
  strComment : Bytes
  strStatusBar : Bytes
  strReserved : Bytes
deriving DecidableEq

/-- `CAlert`. -/
structure CAlert extends CUnsignedAlert where
  vchMsg : Bytes
  vchSig : Bytes
deriving DecidableEq

/-- Read an `int64_t`. -/
def readWord64 : Stream (BitVec 64) := BitVec.ofNat 64 <$> readLe 8

/-- `LimitedString`, `src/serialize.h:370`. -/
def readLimitedString (limit : Nat) : Stream Bytes := do
  let size ← readCompactSize
  require (size ≤ limit)
  readBytes size

/-- `IMPLEMENT_SERIALIZE` of `CUnsignedAlert`. -/
def CUnsignedAlert.read : Stream CUnsignedAlert := do
  let nVersion ← readWord32
  let nRelayUntil ← readWord64
  let nExpiration ← readWord64
  let nID ← readWord32
  let nCancel ← readWord32
  let setCancel ← readVector readWord32
  let nMinVer ← readWord32
  let nMaxVer ← readWord32
  let setSubVer ← readVector readByteVector
  let nPriority ← readWord32
  let strComment ← readLimitedString 65536
  let strStatusBar ← readLimitedString 256
  let strReserved ← readLimitedString 256
  pure
    { nVersion, nRelayUntil, nExpiration, nID, nCancel, nMinVer, nMaxVer, nPriority, strComment
      strStatusBar, strReserved
      setCancel := setCancel.toFinset
      setSubVer := setSubVer.toFinset }

/-- `std::numeric_limits<int>::max()`, the identifier of the final alert. -/
def maxInt : BitVec 32 := 0x7fffffff

/-- The text of the final alert, `src/alert.cpp:176`. -/
def finalStatusBar : Bytes :=
  "URGENT: Alert key compromised, upgrade required".toList.map fun c ↦ UInt8.ofNat c.toNat

namespace CAlert

/-- `IsInEffect`, at an adjusted time. -/
def isInEffect (alert : CAlert) (now : Int) : Bool := now < alert.nExpiration.toInt

/-- The identifiers that an alert in effect cancels. -/
def names (alert : CAlert) (nID : BitVec 32) : Bool :=
  nID.toInt ≤ alert.nCancel.toInt || nID ∈ alert.setCancel

/-- `Cancels`. -/
def cancels (alert : CAlert) (now : Int) (other : CAlert) : Bool :=
  alert.isInEffect now && alert.names other.nID

/-- The fields an alert with the largest identifier must have, `src/alert.cpp:169`. -/
def hasFinalFields (alert : CAlert) : Bool :=
  alert.nExpiration.toInt = maxInt.toInt && alert.nCancel = maxInt - 1 && alert.nMinVer = 0 &&
    alert.nMaxVer = maxInt && alert.setSubVer = ∅ && alert.nPriority = maxInt &&
    alert.strStatusBar = finalStatusBar

/-- The final alert: the largest identifier with the prescribed fields. -/
def isFinal (alert : CAlert) : Bool := alert.nID = maxInt && alert.hasFinalFields

end CAlert

/-- `mapAlerts`. -/
abbrev AlertMap := SortedMap Uint256 CAlert

/-- The first loop of `ProcessAlert`: cancelled and expired alerts go. -/
def AlertMap.cancelPrevious (mapAlerts : AlertMap) (alert : CAlert) (now : Int) : AlertMap :=
  mapAlerts.filterMap fun old ↦
    if alert.cancels now old then none
    else if !old.isInEffect now then none
    else some old

/-- A call of `ProcessAlert` on an alert as it came over the network. -/
structure AlertCall where
  vchMsg : Bytes
  vchSig : Bytes
  now : Int
deriving DecidableEq

/-- How a call ends: with an exception of the stream, with `false` or with `true`. -/
inductive AlertResult where
  | thrown
  | refused
  | accepted
deriving DecidableEq

section

variable (H : Hashes) (verify : Uint256 → Bytes → Bool)

/-- `CheckSignature` and the checks of `ProcessAlert` before it takes the lock. -/
def checkAlert (c : AlertCall) : Except AlertResult CAlert :=
  if !verify (H.hash c.vchMsg) c.vchSig then .error .refused
  else
    match CUnsignedAlert.read c.vchMsg with
    | none => .error .thrown
    | some (unsigned, _) =>
      let alert : CAlert := { unsigned with vchMsg := c.vchMsg, vchSig := c.vchSig }
      if !alert.isInEffect c.now then .error .refused
      else if alert.nID = maxInt && !alert.hasFinalFields then .error .refused
      else .ok alert

/-- `ProcessAlert`. -/
def processAlert (mapAlerts : AlertMap) (c : AlertCall) : AlertResult × AlertMap :=
  match checkAlert H verify c with
  | .error result => (result, mapAlerts)
  | .ok alert =>
    let mapAlerts := mapAlerts.cancelPrevious alert c.now
    -- Check if this alert has been cancelled
    if mapAlerts.entries.any fun entry ↦ entry.2.cancels c.now alert then (.refused, mapAlerts)
    -- Add to mapAlerts
    else if (mapAlerts.lookup (H.hash c.vchMsg)).isSome then (.accepted, mapAlerts)
    else (.accepted, mapAlerts.insert (H.hash c.vchMsg) alert)

/-- The store after a sequence of calls. -/
def runAlerts (calls : List AlertCall) : AlertMap :=
  calls.foldl (fun mapAlerts c ↦ (processAlert H verify mapAlerts c).2) ∅

end

/-! ### One call -/

namespace CAlert

variable {alert : CAlert}

theorem nID_of_isFinal (h : alert.isFinal) : alert.nID = maxInt := by
  simp only [isFinal, Bool.and_eq_true, decide_eq_true_eq] at h
  exact h.1

theorem nExpiration_of_isFinal (h : alert.isFinal) : alert.nExpiration.toInt = maxInt.toInt := by
  simp only [isFinal, hasFinalFields, Bool.and_eq_true, decide_eq_true_eq] at h
  exact h.2.1.1.1.1.1.1

/-- The final alert cancels every smaller identifier. -/
theorem names_of_isFinal (h : alert.isFinal) {nID : BitVec 32} (hID : nID.toInt < maxInt.toInt) :
    alert.names nID := by
  simp only [isFinal, hasFinalFields, Bool.and_eq_true, decide_eq_true_eq] at h
  have hcancel : alert.nCancel = maxInt - 1 := h.2.1.1.1.1.1.2
  have hle : nID.toInt ≤ alert.nCancel.toInt := by
    rw [hcancel, show (maxInt - 1).toInt = maxInt.toInt - 1 by decide]
    omega
  rw [names, decide_eq_true hle, Bool.true_or]

theorem eq_maxInt_of_not_lt {nID : BitVec 32} (h : ¬ nID.toInt < maxInt.toInt) : nID = maxInt := by
  apply BitVec.eq_of_toInt_eq
  have hle := BitVec.toInt_lt (x := nID)
  have hmax : maxInt.toInt = 2 ^ 31 - 1 := by decide
  omega

end CAlert

section

variable {H : Hashes} {verify : Uint256 → Bytes → Bool} {c : AlertCall} {alert : CAlert}

theorem isInEffect_of_checkAlert (h : checkAlert H verify c = .ok alert) :
    alert.isInEffect c.now := by
  unfold checkAlert at h
  split at h
  · cases h
  · split at h
    · cases h
    · dsimp only at h
      split at h
      · cases h
      next heffect =>
        split at h
        · cases h
        · cases h
          rwa [Bool.not_eq_true', Bool.not_eq_false] at heffect

theorem isFinal_of_checkAlert (h : checkAlert H verify c = .ok alert) (hID : alert.nID = maxInt) :
    alert.isFinal := by
  unfold checkAlert at h
  split at h
  · cases h
  · split at h
    · cases h
    · dsimp only at h
      split at h
      · cases h
      · split at h
        · cases h
        next hfields =>
          cases h
          rw [CAlert.isFinal, decide_eq_true hID, Bool.true_and]
          rw [decide_eq_true hID, Bool.true_and, Bool.not_eq_true', Bool.not_eq_false] at hfields
          exact hfields

/-- What is left after the first loop, for an alert that is in effect. -/
theorem lookup_cancelPrevious {mapAlerts : AlertMap} {now : Int} (h : alert.isInEffect now)
    {hash : Uint256} {old : CAlert} :
    (mapAlerts.cancelPrevious alert now).lookup hash = some old ↔
      mapAlerts.lookup hash = some old ∧ alert.names old.nID = false ∧ old.isInEffect now := by
  rw [AlertMap.cancelPrevious, SortedMap.lookup_filterMap, Option.bind_eq_some_iff]
  constructor
  · rintro ⟨a, ha, hsome⟩
    rw [CAlert.cancels, h, Bool.true_and] at hsome
    split at hsome
    · cases hsome
    next hnames =>
      split at hsome
      · cases hsome
      next heffect =>
        obtain rfl := Option.some.inj hsome
        rw [Bool.not_eq_true', Bool.not_eq_false] at heffect
        rw [Bool.not_eq_true] at hnames
        exact ⟨ha, hnames, heffect⟩
  · rintro ⟨hold, hnames, heffect⟩
    refine ⟨old, hold, ?_⟩
    rw [CAlert.cancels, h, Bool.true_and, hnames, heffect]
    rfl

/-- Whether a stored alert cancels a new one. -/
def AlertMap.Cancelled (mapAlerts : AlertMap) (alert : CAlert) (now : Int) : Prop :=
  ∃ hash old, mapAlerts.lookup hash = some old ∧ old.isInEffect now ∧ old.names alert.nID

theorem any_cancels_iff {mapAlerts : AlertMap} {now : Int} :
    (mapAlerts.entries.any fun entry ↦ entry.2.cancels now alert) = true ↔
      mapAlerts.Cancelled alert now := by
  rw [List.any_eq_true]
  constructor
  · rintro ⟨entry, hentry, hcancels⟩
    rw [CAlert.cancels, Bool.and_eq_true] at hcancels
    exact ⟨entry.1, entry.2, SortedMap.lookup_eq_some.mpr hentry, hcancels⟩
  · rintro ⟨hash, old, hold, heffect, hnames⟩
    refine ⟨(hash, old), SortedMap.lookup_eq_some.mp hold, ?_⟩
    rw [CAlert.cancels, heffect, hnames]
    rfl

variable (H verify) in
/-- All that a call can do. -/
theorem processAlert_cases (mapAlerts : AlertMap) (c : AlertCall) :
    (∃ result, checkAlert H verify c = .error result ∧ result ≠ .accepted ∧
      processAlert H verify mapAlerts c = (result, mapAlerts)) ∨
    (∃ alert, checkAlert H verify c = .ok alert ∧
      (mapAlerts.cancelPrevious alert c.now).Cancelled alert c.now ∧
      processAlert H verify mapAlerts c = (.refused, mapAlerts.cancelPrevious alert c.now)) ∨
    ∃ alert, checkAlert H verify c = .ok alert ∧
      ¬ (mapAlerts.cancelPrevious alert c.now).Cancelled alert c.now ∧
      processAlert H verify mapAlerts c = (.accepted,
        if ((mapAlerts.cancelPrevious alert c.now).lookup (H.hash c.vchMsg)).isSome then
          mapAlerts.cancelPrevious alert c.now
        else (mapAlerts.cancelPrevious alert c.now).insert (H.hash c.vchMsg) alert) := by
  unfold processAlert
  cases hcheck : checkAlert H verify c with
  | error result =>
    refine .inl ⟨result, rfl, ?_, rfl⟩
    unfold checkAlert at hcheck
    rintro rfl
    split at hcheck
    · cases hcheck
    · split at hcheck
      · cases hcheck
      · dsimp only at hcheck
        split at hcheck
        · cases hcheck
        · split at hcheck <;> cases hcheck
  | ok alert =>
    dsimp only
    by_cases hcancelled : (mapAlerts.cancelPrevious alert c.now).Cancelled alert c.now
    · rw [if_pos (any_cancels_iff.mpr hcancelled)]
      exact .inr (.inl ⟨alert, rfl, hcancelled, rfl⟩)
    · rw [if_neg fun h ↦ hcancelled (any_cancels_iff.mp h)]
      refine .inr (.inr ⟨alert, rfl, hcancelled, ?_⟩)
      split <;> rfl

/-- Where an alert of the store comes from. -/
theorem lookup_accepted {mapAlerts : AlertMap} {hash : Uint256} {a : CAlert}
    (h : (if (mapAlerts.lookup (H.hash c.vchMsg)).isSome then mapAlerts
      else mapAlerts.insert (H.hash c.vchMsg) alert).lookup hash = some a) :
    mapAlerts.lookup hash = some a ∨
      (hash = H.hash c.vchMsg ∧ a = alert ∧ mapAlerts.lookup hash = none) := by
  split at h
  case isTrue => exact .inl h
  case isFalse hnone =>
    rw [SortedMap.lookup_insert] at h
    split at h
    case isTrue heq =>
      rw [Bool.not_eq_true, Option.isSome_eq_false_iff, Option.isNone_iff_eq_none] at hnone
      exact .inr ⟨heq, (Option.some.inj h).symm, heq ▸ hnone⟩
    case isFalse => exact .inl h

/-! ### The store -/

namespace AlertMap

/-- No stored alert names another one, and one with the largest identifier is a final alert. -/
structure Inv (mapAlerts : AlertMap) : Prop where
  exclusive : ∀ hash hash' a b, mapAlerts.lookup hash = some a → mapAlerts.lookup hash' = some b →
    hash ≠ hash' → b.names a.nID = false
  final : ∀ hash a, mapAlerts.lookup hash = some a → a.nID = maxInt → a.isFinal

theorem inv_empty : Inv ∅ where
  exclusive hash hash' a b ha := by cases ha
  final hash a ha := by cases ha

variable {mapAlerts : AlertMap}

theorem Inv.cancelPrevious (h : mapAlerts.Inv) {now : Int} (heffect : alert.isInEffect now) :
    (mapAlerts.cancelPrevious alert now).Inv where
  exclusive hash hash' a b ha hb hne :=
    h.exclusive hash hash' a b ((lookup_cancelPrevious heffect).mp ha).1
      ((lookup_cancelPrevious heffect).mp hb).1 hne
  final hash a ha := h.final hash a ((lookup_cancelPrevious heffect).mp ha).1

theorem Inv.processAlert (h : mapAlerts.Inv) (c : AlertCall) :
    (processAlert H verify mapAlerts c).2.Inv := by
  rcases processAlert_cases H verify mapAlerts c with
    ⟨result, -, -, heq⟩ | ⟨alert, hcheck, -, heq⟩ | ⟨alert, hcheck, hcancelled, heq⟩
  · rw [heq]
    exact h
  · rw [heq]
    exact h.cancelPrevious (isInEffect_of_checkAlert hcheck)
  · have heffect := isInEffect_of_checkAlert hcheck
    have hprevious := h.cancelPrevious heffect
    rw [heq]
    constructor
    · intro hash hash' a b ha hb hne
      rcases lookup_accepted ha with ha | ⟨rfl, rfl, -⟩
      · rcases lookup_accepted hb with hb | ⟨rfl, rfl, -⟩
        · exact hprevious.exclusive hash hash' a b ha hb hne
        · -- the new alert has removed what it cancels
          exact ((lookup_cancelPrevious heffect).mp ha).2.1
      · rcases lookup_accepted hb with hb | ⟨rfl, -, -⟩
        · -- and a stored alert that cancels it would have stopped it
          by_contra hnames
          rw [Bool.not_eq_false] at hnames
          exact hcancelled ⟨hash', b, hb, ((lookup_cancelPrevious heffect).mp hb).2.2, hnames⟩
        · exact absurd rfl hne
    · intro hash a ha hID
      rcases lookup_accepted ha with ha | ⟨-, rfl, -⟩
      · exact hprevious.final hash a ha hID
      · exact isFinal_of_checkAlert hcheck hID

/-- The state of affairs after a final alert: only final alerts are stored. -/
structure Closed (mapAlerts : AlertMap) : Prop where
  nonempty : ∃ hash a, mapAlerts.lookup hash = some a
  final : ∀ hash a, mapAlerts.lookup hash = some a → a.isFinal

theorem nonempty_accepted (mapAlerts : AlertMap) :
    ∃ hash a, (if (mapAlerts.lookup (H.hash c.vchMsg)).isSome then mapAlerts
      else mapAlerts.insert (H.hash c.vchMsg) alert).lookup hash = some a := by
  split
  case isTrue hsome => exact ⟨_, Option.isSome_iff_exists.mp hsome⟩
  case isFalse => exact ⟨_, alert, SortedMap.lookup_insert_self ..⟩

/-- An accepted final alert leaves only final alerts. -/
theorem closed_of_accepted (h : mapAlerts.Inv) (hcheck : checkAlert H verify c = .ok alert)
    (hfinal : alert.isFinal) (haccepted : (processAlert H verify mapAlerts c).1 = .accepted) :
    (processAlert H verify mapAlerts c).2.Closed := by
  rcases processAlert_cases H verify mapAlerts c with
    ⟨result, -, hresult, heq⟩ | ⟨alert', -, -, heq⟩ | ⟨alert', hcheck', -, heq⟩
  · rw [heq] at haccepted
    exact absurd haccepted hresult
  · rw [heq] at haccepted
    cases haccepted
  · obtain rfl := Except.ok.inj (hcheck.symm.trans hcheck')
    rw [heq]
    constructor
    · exact nonempty_accepted _
    · intro hash a ha
      rcases lookup_accepted ha with ha | ⟨-, rfl, -⟩
      · obtain ⟨hlookup, hnames, -⟩ := (lookup_cancelPrevious (isInEffect_of_checkAlert hcheck)).mp ha
        apply h.final hash a hlookup
        apply CAlert.eq_maxInt_of_not_lt
        intro hlt
        rw [CAlert.names_of_isFinal hfinal hlt] at hnames
        cases hnames
      · exact hfinal

/-- An alert that would remove one in effect and then be refused. -/
def Clash (mapAlerts : AlertMap) (alert : CAlert) (now : Int) : Prop :=
  (∃ entry ∈ mapAlerts.entries, entry.2.isInEffect now ∧ alert.names entry.2.nID) ∧
    ∃ entry ∈ mapAlerts.entries, entry.2.isInEffect now ∧ ¬ alert.names entry.2.nID ∧
      entry.2.names alert.nID

/-- A checked alert without a clash that, while a final alert is stored, comes before the end of
the representable time and, when it is a smaller one, does not cancel the largest identifier. -/
def SafeAlert (mapAlerts : AlertMap) (now : Int) : Except AlertResult CAlert → Prop
  | .error _ => True
  | .ok alert => ¬ mapAlerts.Clash alert now ∧
    ((∃ entry ∈ mapAlerts.entries, entry.2.isFinal) →
      now < maxInt.toInt ∧ (alert.nID.toInt < maxInt.toInt → ¬ alert.names maxInt))

/-- A call whose alert, if it gets past the first checks, is safe. -/
def Safe (H : Hashes) (verify : Uint256 → Bytes → Bool) (mapAlerts : AlertMap) (c : AlertCall) :
    Prop :=
  mapAlerts.SafeAlert c.now (checkAlert H verify c)

instance (mapAlerts : AlertMap) (alert : CAlert) (now : Int) :
    Decidable (mapAlerts.Clash alert now) :=
  inferInstanceAs (Decidable ((∃ _ ∈ _, _) ∧ ∃ _ ∈ _, _))

instance (mapAlerts : AlertMap) (now : Int) :
    (result : Except AlertResult CAlert) → Decidable (mapAlerts.SafeAlert now result)
  | .error _ => .isTrue trivial
  | .ok _ => inferInstanceAs (Decidable (_ ∧ (_ → _)))

instance (H : Hashes) (verify : Uint256 → Bytes → Bool) (mapAlerts : AlertMap) (c : AlertCall) :
    Decidable (Safe H verify mapAlerts c) :=
  inferInstanceAs (Decidable (mapAlerts.SafeAlert c.now _))

/-- A refused alert removes nothing that is in effect. -/
theorem lookup_of_refused (hsafe : Safe H verify mapAlerts c)
    (hrefused : (processAlert H verify mapAlerts c).1 = .refused) {hash : Uint256} {a : CAlert}
    (ha : mapAlerts.lookup hash = some a) (heffect : a.isInEffect c.now) :
    (processAlert H verify mapAlerts c).2.lookup hash = some a := by
  rcases processAlert_cases H verify mapAlerts c with
    ⟨result, -, -, heq⟩ | ⟨alert, hcheck, hcancelled, heq⟩ | ⟨alert, -, -, heq⟩
  · rw [heq]
    exact ha
  · have hin := isInEffect_of_checkAlert hcheck
    rw [heq, lookup_cancelPrevious hin]
    refine ⟨ha, ?_, heffect⟩
    by_contra hnames
    rw [Bool.not_eq_false] at hnames
    obtain ⟨hash', old, hold, hold_effect, hold_names⟩ := hcancelled
    obtain ⟨hold, hnot, -⟩ := (lookup_cancelPrevious hin).mp hold
    rw [Safe, hcheck] at hsafe
    apply hsafe.1
    refine ⟨⟨(hash, a), SortedMap.lookup_eq_some.mp ha, heffect, hnames⟩, (hash', old),
      SortedMap.lookup_eq_some.mp hold, hold_effect, ?_, hold_names⟩
    rw [hnot]
    exact Bool.false_ne_true
  · rw [heq] at hrefused
    cases hrefused

/-- While only final alerts are stored, a safe call leaves it so and accepts no smaller alert. -/
theorem Closed.processAlert (h : mapAlerts.Closed) (hsafe : Safe H verify mapAlerts c) :
    (Bitmark.processAlert H verify mapAlerts c).2.Closed ∧
      ∀ alert, checkAlert H verify c = .ok alert →
        (Bitmark.processAlert H verify mapAlerts c).1 = .accepted → alert.isFinal := by
  rcases processAlert_cases H verify mapAlerts c with
    ⟨result, -, hresult, heq⟩ | ⟨alert, hcheck, hcancelled, heq⟩ | ⟨alert, hcheck, hcancelled, heq⟩
  · rw [heq]
    exact ⟨h, fun _ _ haccepted ↦ absurd haccepted hresult⟩
  · have hin := isInEffect_of_checkAlert hcheck
    rw [heq]
    refine ⟨⟨?_, ?_⟩, fun _ _ haccepted ↦ by cases haccepted⟩
    · obtain ⟨hash, old, hold, -, -⟩ := hcancelled
      exact ⟨hash, old, hold⟩
    · intro hash a ha
      exact h.final hash a ((lookup_cancelPrevious hin).mp ha).1
  · have hin := isInEffect_of_checkAlert hcheck
    obtain ⟨hash, old, hold⟩ := h.nonempty
    have hold_final := h.final hash old hold
    rw [Safe, hcheck] at hsafe
    obtain ⟨hnow, hsmall⟩ := hsafe.2 ⟨(hash, old), SortedMap.lookup_eq_some.mp hold, hold_final⟩
    have hfinal : alert.isFinal := by
      apply isFinal_of_checkAlert hcheck
      apply CAlert.eq_maxInt_of_not_lt
      intro hlt
      -- the stored final alert survives the first loop and stops the smaller one
      refine hcancelled ⟨hash, old, (lookup_cancelPrevious hin).mpr ⟨hold, ?_, ?_⟩, ?_, ?_⟩
      · rw [CAlert.nID_of_isFinal hold_final]
        exact Bool.eq_false_iff.mpr (hsmall hlt)
      · rw [CAlert.isInEffect, CAlert.nExpiration_of_isFinal hold_final]
        exact decide_eq_true hnow
      · rw [CAlert.isInEffect, CAlert.nExpiration_of_isFinal hold_final]
        exact decide_eq_true hnow
      · exact CAlert.names_of_isFinal hold_final hlt
    rw [heq]
    refine ⟨⟨nonempty_accepted _, ?_⟩, ?_⟩
    · intro hash a ha
      rcases lookup_accepted ha with ha | ⟨-, rfl, -⟩
      · exact h.final hash a ((lookup_cancelPrevious hin).mp ha).1
      · exact hfinal
    · intro other hother _
      obtain rfl := Except.ok.inj (hcheck.symm.trans hother)
      exact hfinal

end AlertMap

/-! ### Runs -/

variable (H verify) in
/-- What is expected of a run: stored alerts do not cancel each other, a refused alert removes none
that is in effect, and after a final alert one is stored and only such ones are accepted. -/
structure AlertsGuarded (calls : List AlertCall) : Prop where
  exclusive : ∀ hash hash' a b, (runAlerts H verify calls).lookup hash = some a →
    (runAlerts H verify calls).lookup hash' = some b → hash ≠ hash' →
    ∀ now, a.isInEffect now → b.cancels now a = false
  refused : ∀ done c rest, calls = done ++ c :: rest →
    (processAlert H verify (runAlerts H verify done) c).1 = .refused →
    ∀ hash a, (runAlerts H verify done).lookup hash = some a → a.isInEffect c.now →
      (runAlerts H verify (done ++ [c])).lookup hash = some a
  final : ∀ done c rest alert, calls = done ++ c :: rest → checkAlert H verify c = .ok alert →
    alert.isFinal → (processAlert H verify (runAlerts H verify done) c).1 = .accepted →
    (∃ hash a, (runAlerts H verify calls).lookup hash = some a ∧ a.isFinal) ∧
      ∀ mid d after later, rest = mid ++ d :: after → checkAlert H verify d = .ok later →
        (processAlert H verify (runAlerts H verify (done ++ c :: mid)) d).1 = .accepted →
        ¬ later.nID.toInt < maxInt.toInt

theorem runAlerts_append (done rest : List AlertCall) :
    runAlerts H verify (done ++ rest) =
      rest.foldl (fun mapAlerts c ↦ (processAlert H verify mapAlerts c).2)
        (runAlerts H verify done) :=
  List.foldl_append

theorem runAlerts_concat (done : List AlertCall) (c : AlertCall) :
    runAlerts H verify (done ++ [c]) = (processAlert H verify (runAlerts H verify done) c).2 :=
  runAlerts_append done [c]

theorem inv_runAlerts (calls : List AlertCall) : (runAlerts H verify calls).Inv :=
  Trace.invariant_foldl _ (fun _ c h ↦ h.processAlert c) AlertMap.inv_empty calls

/-- The condition of a run. -/
abbrev SafeRun (H : Hashes) (verify : Uint256 → Bytes → Bool) (mapAlerts : AlertMap)
    (calls : List AlertCall) : Prop :=
  Trace.Throughout (fun mapAlerts c ↦ (processAlert H verify mapAlerts c).2)
    (AlertMap.Safe H verify) mapAlerts calls

theorem closed_foldl {mapAlerts : AlertMap} (h : mapAlerts.Closed) {rest : List AlertCall}
    (hsafe : SafeRun H verify mapAlerts rest) :
    (rest.foldl (fun mapAlerts c ↦ (processAlert H verify mapAlerts c).2) mapAlerts).Closed :=
  Trace.Throughout.invariant (fun _ _ hclosed hc ↦ (hclosed.processAlert hc).1) h hsafe

/-- A run of safe calls is guarded. -/
theorem alertsGuarded_of_safe {calls : List AlertCall} (h : SafeRun H verify ∅ calls) :
    AlertsGuarded H verify calls := by
  constructor
  · intro hash hash' a b ha hb hne now _
    rw [CAlert.cancels, (inv_runAlerts calls).exclusive hash hash' a b ha hb hne, Bool.and_false]
  · rintro done c rest rfl hrefused hash a ha heffect
    rw [runAlerts_concat]
    exact AlertMap.lookup_of_refused (Trace.throughout_append.mp h).2.1 hrefused ha heffect
  · rintro done c rest alert rfl hcheck hfinal haccepted
    have hclosed := AlertMap.closed_of_accepted (inv_runAlerts done) hcheck hfinal haccepted
    have hrest := (Trace.throughout_append.mp h).2.2
    constructor
    · have hend := closed_foldl hclosed hrest
      rw [runAlerts_append]
      obtain ⟨hash, a, ha⟩ := hend.nonempty
      exact ⟨hash, a, ha, hend.final hash a ha⟩
    · rintro mid d after later rfl hlater haccepted_later
      obtain ⟨hmid, hd, -⟩ := Trace.throughout_append.mp hrest
      rw [runAlerts_append] at haccepted_later
      have hlater_final := ((closed_foldl hclosed hmid).processAlert hd).2 later hlater haccepted_later
      rw [CAlert.nID_of_isFinal hlater_final]
      exact lt_irrefl _

end

/-- A message without limits on versions and texts. -/
def alertMessage (nExpiration : BitVec 64) (nID nCancel : BitVec 32) (setCancel : List (BitVec 32))
    (nMaxVer nPriority : BitVec 32) (strStatusBar : Bytes) : Bytes :=
  bytes32 1 ++ leBytes 8 0 ++ leBytes 8 nExpiration.toNat ++ bytes32 nID ++ bytes32 nCancel ++
    writeVector bytes32 setCancel ++ bytes32 0 ++ bytes32 nMaxVer ++ writeCompactSize 0 ++
    bytes32 nPriority ++ writeBytes [] ++ writeBytes strStatusBar ++ writeBytes []

/-- The final alert at time 0. -/
def finalCall : AlertCall where
  vchMsg := alertMessage 0x7fffffff maxInt (maxInt - 1) [] maxInt maxInt finalStatusBar
  vchSig := []
  now := 0

/-- A small alert that cancels the largest identifier. -/
def overrideCall : AlertCall where
  vchMsg := alertMessage 5 7 maxInt [] 0 0 []
  vchSig := []
  now := 1

/-- Two alerts and a third that cancels the first but is cancelled by the second. -/
def clashCalls : List AlertCall :=
  [{ vchMsg := alertMessage 5 10 0 [] 0 0 [], vchSig := [], now := 0 },
    { vchMsg := alertMessage 5 20 0 [30] 0 0 [], vchSig := [], now := 0 },
    { vchMsg := alertMessage 5 30 10 [] 0 0 [], vchSig := [], now := 1 }]

/-- A run in which the final alert is followed by attempts to override it. -/
theorem alertsGuarded_of_safe_sample :
    AlertsGuarded toyHashes (fun _ _ ↦ true) [clashCalls[0], finalCall, clashCalls[1]] :=
  alertsGuarded_of_safe (by decide)

theorem checkAlert_finalCall : ∃ alert, checkAlert toyHashes (fun _ _ ↦ true) finalCall = .ok alert ∧
    alert.isFinal := ⟨_, rfl, by decide⟩

theorem checkAlert_overrideCall : ∃ alert, checkAlert toyHashes (fun _ _ ↦ true) overrideCall = .ok alert ∧
    alert.nID.toInt < maxInt.toInt := ⟨_, rfl, by decide⟩

/-- Neither part of the protection holds for every run of signed alerts. -/
theorem alerts_not_guarded :
    ¬ AlertsGuarded toyHashes (fun _ _ ↦ true) clashCalls ∧
      ¬ AlertsGuarded toyHashes (fun _ _ ↦ true) [finalCall, overrideCall] := by
  constructor
  · intro h
    have hstored : ∀ entry ∈ (runAlerts toyHashes (fun _ _ ↦ true) (clashCalls.take 2)).entries,
        entry.2.isInEffect 1 := by decide
    have hkept := h.refused (clashCalls.take 2) clashCalls[2] [] rfl (by decide)
    have hlost : ¬ ∀ entry ∈ (runAlerts toyHashes (fun _ _ ↦ true) (clashCalls.take 2)).entries,
        entry.1 ∈ (runAlerts toyHashes (fun _ _ ↦ true) clashCalls).keys := by decide
    apply hlost
    intro entry hentry
    have hlookup := hkept entry.1 entry.2 (SortedMap.lookup_eq_some.mpr hentry) (hstored entry hentry)
    exact SortedMap.mem_keys.mpr ⟨entry.2, hlookup⟩
  · intro h
    obtain ⟨alert, hcheck, hfinal⟩ := checkAlert_finalCall
    obtain ⟨later, hlater, hsmall⟩ := checkAlert_overrideCall
    have hafter := h.final [] finalCall [overrideCall] alert rfl hcheck hfinal (by decide)
    exact hafter.2 [] overrideCall [] later rfl hlater (by decide) hsmall

end Bitmark
