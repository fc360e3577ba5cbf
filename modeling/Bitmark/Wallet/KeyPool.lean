import Bitmark.Lib.Trace
import Mathlib.Algebra.GroupWithZero.Nat
import Mathlib.Algebra.Order.BigOperators.Group.List
import Mathlib.Algebra.Order.Group.Nat
import Mathlib.Data.Finset.Max
import Mathlib.Order.Interval.Finset.Nat
import Mathlib.Order.Lattice.Nat

/-!
# The key pool

`NewKeyPool`, `TopUpKeyPool`, `ReserveKeyFromKeyPool`, `KeepKey`, `ReturnKey` and `GetKeyFromPool`
of `CWallet` (`src/wallet.cpp:1704–1839`), and `CReserveKey` (`src/wallet.cpp:1999–2034`). A pool key
is known by its index. Reserving a key takes the index out of `setKeyPool` and leaves its record in
the database; the next index is one above the greatest in `setKeyPool`, so an index that is out can
be written again.
-/

namespace Bitmark

variable {κ ι : Type*}

/-- What `ReserveKeyFromKeyPool` and `GetReservedKey` throw, or assert. -/
inductive KeyPoolError
  | readFailed
  | unknownKey
  | invalidKey
deriving DecidableEq

/-- `what()`, or the condition of the assertion. -/
def KeyPoolError.what : KeyPoolError → String
  | .readFailed => "ReserveKeyFromKeyPool() : read failed"
  | .unknownKey => "ReserveKeyFromKeyPool() : unknown key in key pool"
  | .invalidKey => "vchPubKey.IsValid()"

/-- The argument `-keypool` and the source of keys. `MakeNewKey` draws 32 random bytes, which are
taken not to be those of a key that the wallet has. -/
structure KeyPoolArgs (κ : Type*) where
  /-- `max(GetArg("-keypool", 100), 0)` -/
  nKeyPool : ℕ
  /-- from here on the counter of `NewKeyPool` overflows -/
  nKeyPool_lt : nKeyPool < 2 ^ 31
  generateNewKey : (keys : List κ) → κ
  fresh : ∀ keys, generateNewKey keys ∉ keys

/-- The members of `CWallet` behind the key pool, with the `"pool"` records of its database. The
keys that `HaveKey` finds are `keys`; `fMasterKey` says whether `vMasterKey` is set. -/
structure KeyPool (κ : Type*) where
  setKeyPool : Finset ℕ
  pool : ℕ → Option κ
  keys : List κ
  fUseCrypto : Bool
  fMasterKey : Bool
  vchDefaultKey : Option κ

namespace KeyPool

/-- `CCryptoKeyStore::IsLocked`. -/
def isLocked (w : KeyPool κ) : Bool := w.fUseCrypto && !w.fMasterKey

/-- `nEnd` of `TopUpKeyPool`: one above the greatest index, and 1 without one. -/
def nEnd (w : KeyPool κ) : ℕ := w.setKeyPool.sup id + 1

/-- `WritePool(nIndex, CKeyPool(GenerateNewKey()))` and `setKeyPool.insert(nIndex)`. -/
def writeNewKey (A : KeyPoolArgs κ) (w : KeyPool κ) (nIndex : ℕ) : KeyPool κ :=
  { w with
    setKeyPool := insert nIndex w.setKeyPool
    pool := Function.update w.pool nIndex (some (A.generateNewKey w.keys))
    keys := A.generateNewKey w.keys :: w.keys }

/-- `n` iterations of the loop of `TopUpKeyPool`. -/
def topUp (A : KeyPoolArgs κ) : ℕ → KeyPool κ → KeyPool κ
  | 0, w => w
  | n + 1, w => topUp A n (w.writeNewKey A w.nEnd)

/-- `nTargetSize + 1`, an `unsigned int`. -/
def targetSize (A : KeyPoolArgs κ) (kpSize : BitVec 32) : ℕ :=
  ((if 0 < kpSize then kpSize else BitVec.ofNat 32 A.nKeyPool) + 1).toNat

/-- `TopUpKeyPool`, `src/wallet.cpp:1730`. -/
def topUpKeyPool (A : KeyPoolArgs κ) (w : KeyPool κ) (kpSize : BitVec 32) : Bool × KeyPool κ :=
  if w.isLocked then (false, w)
  else (true, topUp A (targetSize A kpSize - w.setKeyPool.card) w)

/-- The loop of `NewKeyPool` for `i` from `i` to `i + n`. -/
def writeKeys (A : KeyPoolArgs κ) : (n i : ℕ) → KeyPool κ → KeyPool κ
  | 0, _, w => w
  | n + 1, i, w => writeKeys A n (i + 1) (w.writeNewKey A (i + 1))

/-- The records of `setKeyPool` erased, and the set cleared. -/
def clear (w : KeyPool κ) : KeyPool κ :=
  { w with
    setKeyPool := ∅
    pool := fun i ↦ if i ∈ w.setKeyPool then none else w.pool i }

/-- `NewKeyPool`, `src/wallet.cpp:1704`. -/
def newKeyPool (A : KeyPoolArgs κ) (w : KeyPool κ) : Bool × KeyPool κ :=
  if w.clear.isLocked then (false, w.clear) else (true, writeKeys A A.nKeyPool 0 w.clear)

/-- `ReserveKeyFromKeyPool`, `src/wallet.cpp:1757`: `nIndex`, which is set before the function
throws, and `keypool.vchPubKey`. -/
def reserveKeyFromKeyPool [DecidableEq κ] (A : KeyPoolArgs κ) (w : KeyPool κ) :
    Option ℕ × Except KeyPoolError (Option κ) × KeyPool κ :=
  let w := if w.isLocked then w else (w.topUpKeyPool A 0).2
  if h : w.setKeyPool.Nonempty then
    let nIndex := w.setKeyPool.min' h
    let w := { w with setKeyPool := w.setKeyPool.erase nIndex }
    match w.pool nIndex with
    | none => (some nIndex, .error .readFailed, w)
    | some vchPubKey =>
      if vchPubKey ∈ w.keys then (some nIndex, .ok (some vchPubKey), w)
      else (some nIndex, .error .unknownKey, w)
  else (none, .ok none, w)

/-- `KeepKey`, `src/wallet.cpp:1801`, of a file-backed wallet. -/
def keepKey (w : KeyPool κ) (nIndex : ℕ) : KeyPool κ :=
  { w with pool := Function.update w.pool nIndex none }

/-- `ReturnKey`, `src/wallet.cpp:1812`. -/
def returnKey (w : KeyPool κ) (nIndex : ℕ) : KeyPool κ :=
  { w with setKeyPool := insert nIndex w.setKeyPool }

/-- `GenerateNewKey`. -/
def addNewKey (A : KeyPoolArgs κ) (w : KeyPool κ) : KeyPool κ :=
  { w with keys := A.generateNewKey w.keys :: w.keys }

/-- `CCryptoKeyStore::Lock`, which turns encryption on in a wallet without a key. -/
def lock (w : KeyPool κ) : KeyPool κ :=
  if w.fUseCrypto || w.keys.isEmpty then { w with fUseCrypto := true, fMasterKey := false } else w

/-- `Unlock` with the passphrase; only an encrypted wallet has a master key to try. -/
def unlock (w : KeyPool κ) : KeyPool κ := if w.fUseCrypto then { w with fMasterKey := true } else w

/-- `EncryptWallet`, `src/wallet.cpp:372`. Whether the master key was encrypted and whether the
`Unlock` that follows accepted the passphrase are what OpenSSL answered. `EncryptKeys` moves every
key to the encrypted ones and sets `fUseCrypto`. -/
def encryptWallet (A : KeyPoolArgs κ) (w : KeyPool κ) (fEncrypted fUnlocked : Bool) :
    Bool × KeyPool κ :=
  if w.fUseCrypto then (false, w)
  else if !fEncrypted then (false, w)
  else
    let w := lock { w with fUseCrypto := true }
    let w := if fUnlocked then w.unlock else w
    (true, lock (w.newKeyPool A).2)

end KeyPool

/-- `CReserveKey`, `src/wallet.h:421`; `-1` and an invalid key are `none`. -/
structure CReserveKey (κ : Type*) where
  nIndex : Option ℕ
  vchPubKey : Option κ
deriving DecidableEq

/-- The key pool, its holders, and the keys that were kept. -/
structure KeyPoolState (κ ι : Type*) where
  wallet : KeyPool κ
  holders : ι → CReserveKey κ
  kept : List κ

/-- A call of the wallet, or of the holder `h`. -/
inductive KeyPoolCall (ι : Type*)
  | topUpKeyPool (kpSize : BitVec 32)
  | newKeyPool
  | getReservedKey (h : ι)
  | keepKey (h : ι)
  | returnKey (h : ι)
  | getKeyFromPool
  | getOldestKeyPoolTime
  | lock
  | unlock
  | encryptWallet (fEncrypted fUnlocked : Bool)
deriving DecidableEq

namespace KeyPoolState

variable [DecidableEq κ] [DecidableEq ι]

/-- `CReserveKey::GetReservedKey`, `src/wallet.cpp:1999`: the key, or `none` for `false`. -/
def getReservedKey (A : KeyPoolArgs κ) (s : KeyPoolState κ ι) (h : ι) :
    Except KeyPoolError (Option κ) × KeyPoolState κ ι :=
  match s.holders h with
  | ⟨some _, none⟩ => (.error .invalidKey, s)
  | ⟨some _, some vchPubKey⟩ => (.ok (some vchPubKey), s)
  | ⟨none, vchPubKey⟩ =>
    match s.wallet.reserveKeyFromKeyPool A with
    | (nIndex, .error e, w) =>
      (.error e, { s with
        wallet := w
        holders := Function.update s.holders h ⟨nIndex, vchPubKey⟩ })
    | (some nIndex, .ok vchPubKey, w) =>
      (.ok vchPubKey, { s with
        wallet := w
        holders := Function.update s.holders h ⟨some nIndex, vchPubKey⟩ })
    | (none, .ok _, w) =>
      match w.vchDefaultKey with
      | some vchDefaultKey =>
        (.ok (some vchDefaultKey), { s with
          wallet := w
          holders := Function.update s.holders h ⟨none, some vchDefaultKey⟩ })
      | none => (.ok none, { s with wallet := w })

/-- `CReserveKey::KeepKey`, `src/wallet.cpp:2020`. -/
def keepKey (s : KeyPoolState κ ι) (h : ι) : KeyPoolState κ ι :=
  match (s.holders h).nIndex with
  | some nIndex =>
    { wallet := s.wallet.keepKey nIndex
      holders := Function.update s.holders h ⟨none, none⟩
      kept := s.kept ++ (s.holders h).vchPubKey.toList }
  | none => { s with holders := Function.update s.holders h ⟨none, none⟩ }

/-- `CReserveKey::ReturnKey`, `src/wallet.cpp:2028`, also the destructor. -/
def returnKey (s : KeyPoolState κ ι) (h : ι) : KeyPoolState κ ι :=
  match (s.holders h).nIndex with
  | some nIndex =>
    { s with
      wallet := s.wallet.returnKey nIndex
      holders := Function.update s.holders h ⟨none, none⟩ }
  | none => { s with holders := Function.update s.holders h ⟨none, none⟩ }

/-- `GetKeyFromPool`, `src/wallet.cpp:1822`: the key, or `none` for `false`. -/
def getKeyFromPool (A : KeyPoolArgs κ) (s : KeyPoolState κ ι) :
    Except KeyPoolError (Option κ) × KeyPoolState κ ι :=
  match s.wallet.reserveKeyFromKeyPool A with
  | (_, .error e, w) => (.error e, { s with wallet := w })
  | (none, .ok _, w) =>
    if w.isLocked then (.ok none, { s with wallet := w })
    else
      (.ok (some (A.generateNewKey w.keys)), { s with
        wallet := w.addNewKey A
        kept := s.kept ++ [A.generateNewKey w.keys] })
  | (some nIndex, .ok vchPubKey, w) =>
    (.ok vchPubKey, { s with
      wallet := w.keepKey nIndex
      kept := s.kept ++ vchPubKey.toList })

/-- `GetOldestKeyPoolTime`, `src/wallet.cpp:1841`, but for the time. -/
def getOldestKeyPoolTime (A : KeyPoolArgs κ) (s : KeyPoolState κ ι) :
    Except KeyPoolError (Option κ) × KeyPoolState κ ι :=
  match s.wallet.reserveKeyFromKeyPool A with
  | (_, .error e, w) => (.error e, { s with wallet := w })
  | (none, .ok _, w) => (.ok none, { s with wallet := w })
  | (some nIndex, .ok vchPubKey, w) => (.ok vchPubKey, { s with wallet := w.returnKey nIndex })

/-- One call, with the key it hands out or what it throws. -/
def handle (A : KeyPoolArgs κ) (s : KeyPoolState κ ι) :
    KeyPoolCall ι → Except KeyPoolError (Option κ) × KeyPoolState κ ι
  | .topUpKeyPool kpSize => (.ok none, { s with wallet := (s.wallet.topUpKeyPool A kpSize).2 })
  | .newKeyPool => (.ok none, { s with wallet := (s.wallet.newKeyPool A).2 })
  | .getReservedKey h => s.getReservedKey A h
  | .keepKey h => (.ok none, s.keepKey h)
  | .returnKey h => (.ok none, s.returnKey h)
  | .getKeyFromPool => s.getKeyFromPool A
  | .getOldestKeyPoolTime => s.getOldestKeyPoolTime A
  | .lock => (.ok none, { s with wallet := s.wallet.lock })
  | .unlock => (.ok none, { s with wallet := s.wallet.unlock })
  | .encryptWallet fEncrypted fUnlocked =>
    (.ok none, { s with wallet := (s.wallet.encryptWallet A fEncrypted fUnlocked).2 })

def step (A : KeyPoolArgs κ) (s : KeyPoolState κ ι) (call : KeyPoolCall ι) : KeyPoolState κ ι :=
  (s.handle A call).2

end KeyPoolState

/-! ### Records -/

namespace KeyPool

/-- Every index of the pool has a record, every record holds a key of the wallet that was not kept,
no two records hold one key, and no key was kept twice. -/
structure Filed (w : KeyPool κ) (kept : List κ) : Prop where
  record : ∀ i ∈ w.setKeyPool, ∃ k, w.pool i = some k
  owned : ∀ i k, w.pool i = some k → k ∈ w.keys ∧ k ∉ kept
  distinct : ∀ i j k, w.pool i = some k → w.pool j = some k → i = j
  keptOwned : ∀ k ∈ kept, k ∈ w.keys
  keptOnce : kept.Nodup

@[simp] theorem pool_writeNewKey_self (A : KeyPoolArgs κ) (w : KeyPool κ) (nIndex : ℕ) :
    (w.writeNewKey A nIndex).pool nIndex = some (A.generateNewKey w.keys) :=
  Function.update_self ..

theorem pool_writeNewKey_of_ne (A : KeyPoolArgs κ) (w : KeyPool κ) {i nIndex : ℕ}
    (h : i ≠ nIndex) : (w.writeNewKey A nIndex).pool i = w.pool i :=
  Function.update_of_ne h ..

theorem Filed.writeNewKey {A : KeyPoolArgs κ} {w : KeyPool κ} {kept : List κ} (hw : w.Filed kept)
    (nIndex : ℕ) : (w.writeNewKey A nIndex).Filed kept := by
  have hfresh := A.fresh w.keys
  -- the key of the new record is in no record before it
  have hother : ∀ i, i ≠ nIndex → (w.writeNewKey A nIndex).pool i ≠ some (A.generateNewKey w.keys) := by
    intro i hne hi
    rw [pool_writeNewKey_of_ne A w hne] at hi
    exact hfresh (hw.owned i _ hi).1
  refine ⟨fun i hi ↦ ?_, fun i k hk ↦ ?_, fun i j k hi hj ↦ ?_, fun k hk ↦ ?_, hw.keptOnce⟩
  · rcases eq_or_ne i nIndex with rfl | hne
    · exact ⟨_, pool_writeNewKey_self A w i⟩
    · rw [pool_writeNewKey_of_ne A w hne]
      exact hw.record i (Finset.mem_of_mem_insert_of_ne hi hne)
  · rcases eq_or_ne i nIndex with rfl | hne
    · rw [pool_writeNewKey_self] at hk
      obtain rfl := Option.some.inj hk
      exact ⟨List.mem_cons_self, fun hkept ↦ hfresh (hw.keptOwned _ hkept)⟩
    · rw [pool_writeNewKey_of_ne A w hne] at hk
      exact ⟨List.mem_cons_of_mem _ (hw.owned i k hk).1, (hw.owned i k hk).2⟩
  · rcases eq_or_ne i nIndex with rfl | hi' <;> rcases eq_or_ne j i with rfl | hij
    · rfl
    · rw [pool_writeNewKey_self] at hi
      exact absurd (hi ▸ hj) (hother j hij)
    · rfl
    · rcases eq_or_ne j nIndex with rfl | hj'
      · rw [pool_writeNewKey_self] at hj
        exact absurd (hj ▸ hi) (hother i hi')
      · rw [pool_writeNewKey_of_ne A w hi'] at hi
        rw [pool_writeNewKey_of_ne A w hj'] at hj
        exact hw.distinct i j k hi hj
  · exact List.mem_cons_of_mem _ (hw.keptOwned k hk)

@[simp] theorem nEnd_writeNewKey (A : KeyPoolArgs κ) (w : KeyPool κ) :
    (w.writeNewKey A w.nEnd).nEnd = w.nEnd + 1 := by
  have hsup : w.setKeyPool.sup id ≤ w.nEnd := Nat.le_succ _
  simp only [nEnd, writeNewKey, Finset.sup_insert, id_eq]
  exact congrArg (· + 1) (sup_eq_left.mpr hsup)

theorem Filed.topUp {A : KeyPoolArgs κ} {kept : List κ} (n : ℕ) {w : KeyPool κ}
    (hw : w.Filed kept) : (topUp A n w).Filed kept := by
  induction n generalizing w with
  | zero => exact hw
  | succ n ih => exact ih (hw.writeNewKey w.nEnd)

theorem Filed.writeKeys {A : KeyPoolArgs κ} {kept : List κ} (n i : ℕ) {w : KeyPool κ}
    (hw : w.Filed kept) : (writeKeys A n i w).Filed kept := by
  induction n generalizing i w with
  | zero => exact hw
  | succ n ih => exact ih (i + 1) (hw.writeNewKey (i + 1))

theorem mem_setKeyPool_topUp {A : KeyPoolArgs κ} {n i : ℕ} {w : KeyPool κ} :
    i ∈ (topUp A n w).setKeyPool ↔ i ∈ w.setKeyPool ∨ w.nEnd ≤ i ∧ i < w.nEnd + n := by
  induction n generalizing w with
  | zero =>
    rw [Nat.add_zero, or_iff_left fun h ↦ absurd h.2 (Nat.not_lt.mpr h.1)]
    rfl
  | succ n ih =>
    have hstep : i ∈ (w.writeNewKey A w.nEnd).setKeyPool ↔ i = w.nEnd ∨ i ∈ w.setKeyPool :=
      Finset.mem_insert
    rw [KeyPool.topUp, ih, nEnd_writeNewKey, hstep]
    by_cases hi : i ∈ w.setKeyPool
    · simp only [hi, or_true, true_or]
    · simp only [hi, or_false, false_or]
      omega

theorem pool_topUp {A : KeyPoolArgs κ} {n i : ℕ} {w : KeyPool κ}
    (hi : i ∉ Finset.Ico w.nEnd (w.nEnd + n)) : (topUp A n w).pool i = w.pool i := by
  induction n generalizing w with
  | zero => rfl
  | succ n ih =>
    rw [Finset.mem_Ico] at hi
    have hrest : i ∉ Finset.Ico (w.writeNewKey A w.nEnd).nEnd
        ((w.writeNewKey A w.nEnd).nEnd + n) := by
      rw [nEnd_writeNewKey, Finset.mem_Ico]
      omega
    have hne : i ≠ w.nEnd := by omega
    exact (ih hrest).trans (Function.update_of_ne hne ..)

theorem mem_setKeyPool_writeKeys {A : KeyPoolArgs κ} {n start i : ℕ} {w : KeyPool κ} :
    i ∈ (writeKeys A n start w).setKeyPool ↔
      i ∈ w.setKeyPool ∨ start < i ∧ i ≤ start + n := by
  induction n generalizing start w with
  | zero =>
    rw [Nat.add_zero, or_iff_left fun h ↦ absurd h.1 (Nat.not_lt.mpr h.2)]
    rfl
  | succ n ih =>
    have hstep : i ∈ (w.writeNewKey A (start + 1)).setKeyPool ↔
        i = start + 1 ∨ i ∈ w.setKeyPool := Finset.mem_insert
    rw [KeyPool.writeKeys, ih, hstep]
    by_cases hi : i ∈ w.setKeyPool
    · simp only [hi, or_true, true_or]
    · simp only [hi, or_false, false_or]
      omega

theorem pool_writeKeys {A : KeyPoolArgs κ} {n start i : ℕ} {w : KeyPool κ}
    (hi : i ∉ Finset.Ioc start (start + n)) : (writeKeys A n start w).pool i = w.pool i := by
  induction n generalizing start w with
  | zero => rfl
  | succ n ih =>
    rw [Finset.mem_Ioc] at hi
    have hrest : i ∉ Finset.Ioc (start + 1) (start + 1 + n) := by
      rw [Finset.mem_Ioc]
      omega
    have hne : i ≠ start + 1 := by omega
    exact (ih hrest).trans (Function.update_of_ne hne ..)

/-- The loop of `TopUpKeyPool` runs while the pool is smaller than the target. -/
theorem topUp_eq (A : KeyPoolArgs κ) (w : KeyPool κ) (target : ℕ) :
    topUp A (target - w.setKeyPool.card) w =
      if w.setKeyPool.card < target then
        let w' := w.writeNewKey A w.nEnd
        topUp A (target - w'.setKeyPool.card) w'
      else w := by
  have hnew : w.nEnd ∉ w.setKeyPool := fun h ↦
    absurd (Finset.le_sup (f := id) h) (Nat.not_le.mpr (Nat.lt_succ_self _))
  have hcard : (w.writeNewKey A w.nEnd).setKeyPool.card = w.setKeyPool.card + 1 :=
    Finset.card_insert_of_notMem hnew
  split
  case isTrue h =>
    obtain ⟨n, hn⟩ : ∃ n, target - w.setKeyPool.card = n + 1 := ⟨_, (Nat.succ_pred (by omega)).symm⟩
    have hn' : target - (w.setKeyPool.card + 1) = n := by omega
    simp only [hcard, hn, hn']
    rfl
  case isFalse h =>
    rw [show target - w.setKeyPool.card = 0 by omega]
    rfl

theorem Filed.clear {w : KeyPool κ} {kept : List κ} (hw : w.Filed kept) : w.clear.Filed kept := by
  have hpool : ∀ i k, w.clear.pool i = some k → w.pool i = some k := by
    intro i k hk
    simp only [KeyPool.clear] at hk
    split at hk
    · cases hk
    · exact hk
  refine ⟨fun i hi ↦ absurd hi (Finset.notMem_empty i), fun i k hk ↦ hw.owned i k (hpool i k hk),
    fun i j k hi hj ↦ hw.distinct i j k (hpool i k hi) (hpool j k hj), hw.keptOwned, hw.keptOnce⟩

theorem Filed.take {w : KeyPool κ} {kept : List κ} (hw : w.Filed kept) (i : ℕ) :
    { w with setKeyPool := w.setKeyPool.erase i }.Filed kept :=
  ⟨fun j hj ↦ hw.record j (Finset.mem_of_mem_erase hj), hw.owned, hw.distinct, hw.keptOwned,
    hw.keptOnce⟩

theorem Filed.returnKey {w : KeyPool κ} {kept : List κ} (hw : w.Filed kept) {i : ℕ} {k : κ}
    (hi : w.pool i = some k) : (w.returnKey i).Filed kept := by
  refine ⟨fun j hj ↦ ?_, hw.owned, hw.distinct, hw.keptOwned, hw.keptOnce⟩
  rcases Finset.mem_insert.mp hj with rfl | hj
  · exact ⟨k, hi⟩
  · exact hw.record j hj

theorem Filed.keepKey {w : KeyPool κ} {kept : List κ} (hw : w.Filed kept) {i : ℕ} {k : κ}
    (hi : w.pool i = some k) (hout : i ∉ w.setKeyPool) : (w.keepKey i).Filed (kept ++ [k]) := by
  have hpool : ∀ j k', (w.keepKey i).pool j = some k' → j ≠ i ∧ w.pool j = some k' := by
    intro j k' hj
    rcases eq_or_ne j i with rfl | hne
    · have hself : (w.keepKey j).pool j = none := Function.update_self ..
      rw [hself] at hj
      cases hj
    · exact ⟨hne, (Function.update_of_ne hne ..).symm.trans hj⟩
  refine ⟨fun j hj ↦ ?_, fun j k' hj ↦ ?_, fun j j' k' hj hj' ↦ ?_, fun k' hk' ↦ ?_, ?_⟩
  · obtain ⟨k', hk'⟩ := hw.record j hj
    have hne : j ≠ i := fun h ↦ hout (h ▸ hj)
    exact ⟨k', (Function.update_of_ne hne ..).trans hk'⟩
  · obtain ⟨hne, hj⟩ := hpool j k' hj
    have hkept := (hw.owned j k' hj).2
    have hk' : k' ≠ k := fun h ↦ hne (hw.distinct j i k (h ▸ hj) hi)
    exact ⟨(hw.owned j k' hj).1, by simp [hkept, hk']⟩
  · exact hw.distinct j j' k' (hpool j k' hj).2 (hpool j' k' hj').2
  · rcases List.mem_append.mp hk' with hk' | hk'
    · exact hw.keptOwned k' hk'
    · rw [List.mem_singleton.mp hk']
      exact (hw.owned i k hi).1
  · rw [← List.concat_eq_append]
    exact hw.keptOnce.concat (hw.owned i k hi).2

theorem Filed.addNewKey {A : KeyPoolArgs κ} {w : KeyPool κ} {kept : List κ} (hw : w.Filed kept) :
    (w.addNewKey A).Filed (kept ++ [A.generateNewKey w.keys]) := by
  have hfresh := A.fresh w.keys
  refine ⟨hw.record, fun i k hk ↦ ?_, hw.distinct, fun k hk ↦ ?_, ?_⟩
  · obtain ⟨howned, hkept⟩ := hw.owned i k hk
    have hne : k ≠ A.generateNewKey w.keys := fun h ↦ hfresh (h ▸ howned)
    exact ⟨List.mem_cons_of_mem _ howned, by simp [hkept, hne]⟩
  · rcases List.mem_append.mp hk with hk | hk
    · exact List.mem_cons_of_mem _ (hw.keptOwned k hk)
    · rw [List.mem_singleton.mp hk]
      exact List.mem_cons_self
  · rw [← List.concat_eq_append]
    exact hw.keptOnce.concat fun hk ↦ hfresh (hw.keptOwned _ hk)

/-! ### Calls that write records -/

/-- The indexes that `TopUpKeyPool` writes. -/
def topUpIndexes (A : KeyPoolArgs κ) (w : KeyPool κ) (kpSize : BitVec 32) : Finset ℕ :=
  if w.isLocked then ∅
  else Finset.Ico w.nEnd (w.nEnd + (targetSize A kpSize - w.setKeyPool.card))

/-- The indexes that `NewKeyPool` writes. -/
def newKeyPoolIndexes (A : KeyPoolArgs κ) (w : KeyPool κ) : Finset ℕ :=
  if w.isLocked then ∅ else Finset.Ioc 0 A.nKeyPool

/-- A call that keeps the records in order and, but for the indexes it writes, changes nothing about
an index that is not in `setKeyPool`. -/
structure Refiles (written : Finset ℕ) (w w' : KeyPool κ) : Prop where
  filed : ∀ kept, w.Filed kept → w'.Filed kept
  spared : ∀ i ∉ written, i ∉ w.setKeyPool → i ∉ w'.setKeyPool ∧ w'.pool i = w.pool i
  vchDefaultKey : w'.vchDefaultKey = w.vchDefaultKey

theorem Refiles.refl (written : Finset ℕ) (w : KeyPool κ) : Refiles written w w :=
  ⟨fun _ h ↦ h, fun _ _ h ↦ ⟨h, rfl⟩, rfl⟩

theorem Refiles.trans {written : Finset ℕ} {w w' w'' : KeyPool κ} (h : Refiles written w w')
    (h' : Refiles written w' w'') : Refiles written w w'' := by
  refine ⟨fun kept hw ↦ h'.filed kept (h.filed kept hw), fun i hi hout ↦ ?_,
    h'.vchDefaultKey.trans h.vchDefaultKey⟩
  obtain ⟨hout', hpool⟩ := h.spared i hi hout
  obtain ⟨hout'', hpool'⟩ := h'.spared i hi hout'
  exact ⟨hout'', hpool'.trans hpool⟩

@[simp] theorem vchDefaultKey_topUp (A : KeyPoolArgs κ) (n : ℕ) (w : KeyPool κ) :
    (topUp A n w).vchDefaultKey = w.vchDefaultKey := by
  induction n generalizing w with
  | zero => rfl
  | succ n ih => exact ih _

@[simp] theorem vchDefaultKey_writeKeys (A : KeyPoolArgs κ) (n i : ℕ) (w : KeyPool κ) :
    (writeKeys A n i w).vchDefaultKey = w.vchDefaultKey := by
  induction n generalizing i w with
  | zero => rfl
  | succ n ih => exact ih _ _

theorem refiles_topUpKeyPool (A : KeyPoolArgs κ) (w : KeyPool κ) (kpSize : BitVec 32) :
    Refiles (w.topUpIndexes A kpSize) w (w.topUpKeyPool A kpSize).2 := by
  rw [topUpIndexes, topUpKeyPool]
  split
  case isTrue => exact .refl _ w
  case isFalse =>
    refine ⟨fun kept hw ↦ hw.topUp _, fun i hi hout ↦ ⟨?_, pool_topUp hi⟩,
      vchDefaultKey_topUp A _ w⟩
    rw [mem_setKeyPool_topUp, ← Finset.mem_Ico]
    exact not_or.mpr ⟨hout, hi⟩

theorem refiles_newKeyPool (A : KeyPoolArgs κ) (w : KeyPool κ) :
    Refiles (w.newKeyPoolIndexes A) w (w.newKeyPool A).2 := by
  have hclear : ∀ written, Refiles written w w.clear := fun written ↦
    ⟨fun kept hw ↦ hw.clear, fun i _ hout ↦ ⟨Finset.notMem_empty i, if_neg hout⟩, rfl⟩
  have hlocked : w.clear.isLocked = w.isLocked := rfl
  rw [newKeyPoolIndexes, newKeyPool, hlocked]
  split
  case isTrue => exact hclear ∅
  case isFalse =>
    refine (hclear _).trans ⟨fun kept hw ↦ hw.writeKeys _ _, fun i hi hout ↦ ?_,
      vchDefaultKey_writeKeys A _ _ _⟩
    rw [← Nat.zero_add A.nKeyPool] at hi
    refine ⟨?_, pool_writeKeys hi⟩
    rw [mem_setKeyPool_writeKeys, ← Finset.mem_Ioc]
    exact not_or.mpr ⟨hout, hi⟩

private theorem refiles_flags (written : Finset ℕ) (w : KeyPool κ) (fUseCrypto fMasterKey : Bool) :
    Refiles written w { w with fUseCrypto, fMasterKey } :=
  ⟨fun _ hw ↦ ⟨hw.record, hw.owned, hw.distinct, hw.keptOwned, hw.keptOnce⟩,
    fun _ _ hout ↦ ⟨hout, rfl⟩, rfl⟩

theorem refiles_lock (written : Finset ℕ) (w : KeyPool κ) : Refiles written w w.lock := by
  rw [lock]
  split
  · exact refiles_flags written w true false
  · exact .refl written w

theorem refiles_unlock (written : Finset ℕ) (w : KeyPool κ) : Refiles written w w.unlock := by
  rw [unlock]
  split
  · exact refiles_flags written w w.fUseCrypto true
  · exact .refl written w

/-- The indexes that `EncryptWallet` writes: those of the `NewKeyPool` it calls. -/
def encryptIndexes (A : KeyPoolArgs κ) (w : KeyPool κ) (fEncrypted fUnlocked : Bool) : Finset ℕ :=
  if !w.fUseCrypto && fEncrypted && fUnlocked then Finset.Ioc 0 A.nKeyPool else ∅

theorem refiles_encryptWallet (A : KeyPoolArgs κ) (w : KeyPool κ) (fEncrypted fUnlocked : Bool) :
    Refiles (w.encryptIndexes A fEncrypted fUnlocked) w
      (w.encryptWallet A fEncrypted fUnlocked).2 := by
  rw [encryptWallet]
  split
  case isTrue => exact .refl _ w
  case isFalse hplain =>
    split
    case isTrue => exact .refl _ w
    case isFalse hencrypted =>
      have hflags (written : Finset ℕ) :
          Refiles written w (if fUnlocked then (lock { w with fUseCrypto := true }).unlock
            else lock { w with fUseCrypto := true }) := by
        have hlock := (refiles_flags written w true w.fMasterKey).trans (refiles_lock written _)
        split
        · exact hlock.trans (refiles_unlock written _)
        · exact hlock
      have hnew := refiles_newKeyPool A
        (if fUnlocked then (lock { w with fUseCrypto := true }).unlock
          else lock { w with fUseCrypto := true })
      have hindexes : w.encryptIndexes A fEncrypted fUnlocked = newKeyPoolIndexes A
          (if fUnlocked then (lock { w with fUseCrypto := true }).unlock
            else lock { w with fUseCrypto := true }) := by
        cases fUnlocked <;>
          simp_all [encryptIndexes, newKeyPoolIndexes, lock, unlock, isLocked]
      rw [hindexes]
      exact ((hflags _).trans hnew).trans (refiles_lock _ _)

theorem targetSize_zero (A : KeyPoolArgs κ) : targetSize A 0 = A.nKeyPool + 1 := by
  have hlt := A.nKeyPool_lt
  rw [targetSize, if_neg (BitVec.lt_irrefl 0), BitVec.toNat_add, BitVec.toNat_ofNat]
  change (A.nKeyPool % 2 ^ 32 + 1) % 2 ^ 32 = _
  omega

/-- The top-up leaves an empty pool empty only in a locked wallet. -/
theorem isLocked_of_topUpKeyPool_empty {A : KeyPoolArgs κ} {w : KeyPool κ}
    (h : (w.topUpKeyPool A 0).2.setKeyPool = ∅) : w.isLocked = true ∧ w.setKeyPool = ∅ := by
  rw [topUpKeyPool] at h
  split at h
  case isTrue hlocked => exact ⟨hlocked, h⟩
  case isFalse =>
    have hout (i : ℕ) := Finset.eq_empty_iff_forall_notMem.mp h i
    simp only [mem_setKeyPool_topUp, targetSize_zero, not_or] at hout
    have hempty : w.setKeyPool = ∅ := Finset.eq_empty_of_forall_notMem fun i ↦ (hout i).1
    have hfirst := (hout w.nEnd).2
    rw [hempty, Finset.card_empty] at hfirst
    exact absurd ⟨le_rfl, by omega⟩ hfirst

/-- Over records in order, a key is reserved whenever the pool holds one after the top-up. -/
theorem reserveKeyFromKeyPool_cases [DecidableEq κ] (A : KeyPoolArgs κ) {w : KeyPool κ}
    {kept : List κ} (hw : w.Filed kept) :
    ((w.topUpKeyPool A 0).2.setKeyPool = ∅ ∧
        w.reserveKeyFromKeyPool A = (none, .ok none, (w.topUpKeyPool A 0).2)) ∨
      ∃ i k, i ∈ (w.topUpKeyPool A 0).2.setKeyPool ∧ (w.topUpKeyPool A 0).2.pool i = some k ∧
        w.reserveKeyFromKeyPool A = (some i, .ok (some k),
          { (w.topUpKeyPool A 0).2 with
            setKeyPool := (w.topUpKeyPool A 0).2.setKeyPool.erase i }) := by
  have htop : (if w.isLocked then w else (w.topUpKeyPool A 0).2) = (w.topUpKeyPool A 0).2 := by
    cases hlocked : w.isLocked <;> simp [topUpKeyPool, hlocked]
  have hfiled := (refiles_topUpKeyPool A w 0).filed kept hw
  rw [reserveKeyFromKeyPool, htop]
  generalize (w.topUpKeyPool A 0).2 = w' at hfiled
  dsimp only
  split
  case isTrue hne =>
    have hmem := w'.setKeyPool.min'_mem hne
    obtain ⟨k, hk⟩ := hfiled.record _ hmem
    refine .inr ⟨_, k, hmem, hk, ?_⟩
    rw [hk]
    exact if_pos (hfiled.owned _ k hk).1
  case isFalse hempty => exact .inl ⟨Finset.not_nonempty_iff_eq_empty.mp hempty, rfl⟩

end KeyPool

/-! ### Holders -/

namespace KeyPoolState

open KeyPool

/-- The indexes that a call writes. -/
def written (A : KeyPoolArgs κ) (s : KeyPoolState κ ι) : KeyPoolCall ι → Finset ℕ
  | .topUpKeyPool kpSize => s.wallet.topUpIndexes A kpSize
  | .newKeyPool => s.wallet.newKeyPoolIndexes A
  | .getReservedKey h => if (s.holders h).nIndex = none then s.wallet.topUpIndexes A 0 else ∅
  | .getKeyFromPool => s.wallet.topUpIndexes A 0
  | .getOldestKeyPoolTime => s.wallet.topUpIndexes A 0
  | .encryptWallet fEncrypted fUnlocked => s.wallet.encryptIndexes A fEncrypted fUnlocked
  | .keepKey _ | .returnKey _ | .lock | .unlock => ∅

/-- The call writes no index that a holder has reserved. -/
def SparesReserved (A : KeyPoolArgs κ) (s : KeyPoolState κ ι) (call : KeyPoolCall ι) : Prop :=
  ∀ h, ∀ i ∈ (s.holders h).nIndex, i ∉ s.written A call

instance [Fintype ι] (A : KeyPoolArgs κ) (s : KeyPoolState κ ι) (call : KeyPoolCall ι) :
    Decidable (s.SparesReserved A call) :=
  inferInstanceAs (Decidable (∀ h, ∀ i ∈ (s.holders h).nIndex, i ∉ s.written A call))

/-- The call does not fall back on the default key: `GetReservedKey` does so for a holder without an
index when the wallet is locked and its pool is empty. -/
def SparesDefaultKey (s : KeyPoolState κ ι) (call : KeyPoolCall ι) : Prop :=
  ∀ h, call = .getReservedKey h → (s.holders h).nIndex = none → s.wallet.isLocked = true →
    s.wallet.setKeyPool = ∅ → s.wallet.vchDefaultKey = none

instance [Fintype ι] [DecidableEq ι] [DecidableEq κ] (s : KeyPoolState κ ι)
    (call : KeyPoolCall ι) : Decidable (s.SparesDefaultKey call) :=
  inferInstanceAs (Decidable (∀ h, call = .getReservedKey h → _))

/-- The call neither writes a reserved index nor hands out the default key. -/
def Spares (A : KeyPoolArgs κ) (s : KeyPoolState κ ι) (call : KeyPoolCall ι) : Prop :=
  s.SparesReserved A call ∧ s.SparesDefaultKey call

instance [Fintype ι] [DecidableEq ι] [DecidableEq κ] (A : KeyPoolArgs κ) (s : KeyPoolState κ ι)
    (call : KeyPoolCall ι) : Decidable (s.Spares A call) :=
  inferInstanceAs (Decidable (_ ∧ _))

/-- A wallet as `LoadWallet` leaves it, without a holder: the pool is the set of the indexes that
have a record, and each key is in one record or kept. -/
structure Loaded (s : KeyPoolState κ ι) : Prop where
  filed : s.wallet.Filed s.kept
  holders : ∀ h, s.holders h = ⟨none, none⟩

/-- No key is with two holders, or with one and kept, or kept twice, and every index in `setKeyPool`
has a record of a key of the wallet. -/
structure Sound (s : KeyPoolState κ ι) : Prop where
  oneHolder : ∀ h h' k, (s.holders h).vchPubKey = some k → (s.holders h').vchPubKey = some k → h = h'
  notKept : ∀ h k, (s.holders h).vchPubKey = some k → k ∉ s.kept
  keptOnce : s.kept.Nodup
  record : ∀ i ∈ s.wallet.setKeyPool, ∃ k, s.wallet.pool i = some k ∧ k ∈ s.wallet.keys

/-- Reserved indexes are out of the pool, each with one holder and with the key of its record, and a
holder without an index has no key. -/
structure Inv (s : KeyPoolState κ ι) : Prop where
  filed : s.wallet.Filed s.kept
  held : ∀ h i, (s.holders h).nIndex = some i → i ∉ s.wallet.setKeyPool ∧
    ∃ k, s.holders h = ⟨some i, some k⟩ ∧ s.wallet.pool i = some k
  alone : ∀ h h' i, (s.holders h).nIndex = some i → (s.holders h').nIndex = some i → h = h'
  unreserved : ∀ h, (s.holders h).nIndex = none → (s.holders h).vchPubKey = none

/-- A new wallet. -/
def empty (κ ι : Type*) : KeyPoolState κ ι where
  wallet := ⟨∅, fun _ ↦ none, [], false, false, none⟩
  holders _ := ⟨none, none⟩
  kept := []

theorem loaded_empty : (empty κ ι).Loaded where
  filed := by constructor <;> simp [empty]
  holders _ := rfl

theorem Inv.of_loaded {s : KeyPoolState κ ι} (hs : s.Loaded) : s.Inv := by
  refine ⟨hs.filed, fun h i hi ↦ ?_, fun h h' i hi ↦ ?_, fun h _ ↦ ?_⟩
  · rw [hs.holders h] at hi
    cases hi
  · rw [hs.holders h] at hi
    cases hi
  · rw [hs.holders h]

theorem Inv.sound {s : KeyPoolState κ ι} (hs : s.Inv) : s.Sound := by
  have hreserved : ∀ h k, (s.holders h).vchPubKey = some k →
      ∃ i, (s.holders h).nIndex = some i ∧ s.wallet.pool i = some k := by
    intro h k hk
    cases hi : (s.holders h).nIndex with
    | none =>
      rw [hs.unreserved h hi] at hk
      cases hk
    | some i =>
      obtain ⟨-, k', hholder, hpool⟩ := hs.held h i hi
      rw [hholder] at hk
      exact ⟨i, rfl, hpool.trans hk⟩
  refine ⟨fun h h' k hk hk' ↦ ?_, fun h k hk ↦ ?_, hs.filed.keptOnce, fun i hi ↦ ?_⟩
  · obtain ⟨i, hi, hpool⟩ := hreserved h k hk
    obtain ⟨i', hi', hpool'⟩ := hreserved h' k hk'
    obtain rfl := hs.filed.distinct i i' k hpool hpool'
    exact hs.alone h h' i hi hi'
  · obtain ⟨i, -, hpool⟩ := hreserved h k hk
    exact (hs.filed.owned i k hpool).2
  · obtain ⟨k, hk⟩ := hs.filed.record i hi
    exact ⟨k, hk, (hs.filed.owned i k hk).1⟩

theorem Inv.refile {s : KeyPoolState κ ι} (hs : s.Inv) {written : Finset ℕ} {w : KeyPool κ}
    (hw : Refiles written s.wallet w)
    (hspares : ∀ h i, (s.holders h).nIndex = some i → i ∉ written) :
    { s with wallet := w }.Inv := by
  refine ⟨hw.filed _ hs.filed, fun h i hi ↦ ?_, hs.alone, hs.unreserved⟩
  obtain ⟨hout, k, hholder, hpool⟩ := hs.held h i hi
  obtain ⟨hout', hpool'⟩ := hw.spared i (hspares h i hi) hout
  exact ⟨hout', k, hholder, hpool'.trans hpool⟩

/-- The top-up at the start of `ReserveKeyFromKeyPool`. -/
theorem Inv.topUp {A : KeyPoolArgs κ} {s : KeyPoolState κ ι} (hs : s.Inv)
    (hspares : ∀ h i, (s.holders h).nIndex = some i → i ∉ s.wallet.topUpIndexes A 0) :
    { s with wallet := (s.wallet.topUpKeyPool A 0).2 }.Inv :=
  hs.refile (refiles_topUpKeyPool A s.wallet 0) hspares

/-- An index taken out of the pool, with no holder. -/
theorem Inv.take {s : KeyPoolState κ ι} (hs : s.Inv) (i : ℕ) :
    { s with wallet := { s.wallet with setKeyPool := s.wallet.setKeyPool.erase i } }.Inv := by
  refine ⟨hs.filed.take i, fun h j hj ↦ ?_, hs.alone, hs.unreserved⟩
  obtain ⟨hout, k, hholder, hpool⟩ := hs.held h j hj
  exact ⟨fun hmem ↦ hout (Finset.mem_of_mem_erase hmem), k, hholder, hpool⟩

/-- A key kept whose index is out of the pool and with no holder. -/
theorem Inv.spend {s : KeyPoolState κ ι} (hs : s.Inv) {i : ℕ} {k : κ}
    (hk : s.wallet.pool i = some k) (hout : i ∉ s.wallet.setKeyPool)
    (hfree : ∀ h, (s.holders h).nIndex ≠ some i) :
    { s with wallet := s.wallet.keepKey i, kept := s.kept ++ [k] }.Inv := by
  refine ⟨hs.filed.keepKey hk hout, fun h j hj ↦ ?_, hs.alone, hs.unreserved⟩
  obtain ⟨houtj, k', hholder, hpool⟩ := hs.held h j hj
  have hne : j ≠ i := fun hji ↦ hfree h (hji ▸ hj)
  exact ⟨houtj, k', hholder, (Function.update_of_ne hne ..).trans hpool⟩

/-- An index back in the pool that no holder has. -/
theorem Inv.giveBack {s : KeyPoolState κ ι} (hs : s.Inv) {i : ℕ} {k : κ}
    (hk : s.wallet.pool i = some k) (hfree : ∀ h, (s.holders h).nIndex ≠ some i) :
    { s with wallet := s.wallet.returnKey i }.Inv := by
  refine ⟨hs.filed.returnKey hk, fun h j hj ↦ ?_, hs.alone, hs.unreserved⟩
  obtain ⟨houtj, k', hholder, hpool⟩ := hs.held h j hj
  have hne : j ≠ i := fun hji ↦ hfree h (hji ▸ hj)
  exact ⟨fun hmem ↦ (Finset.mem_insert.mp hmem).elim hne houtj, k', hholder, hpool⟩

theorem Inv.getKeyFromPool [DecidableEq κ] {A : KeyPoolArgs κ} {s : KeyPoolState κ ι}
    (hs : s.Inv)
    (hspares : s.SparesReserved A .getKeyFromPool) :
    (∃ k, (s.getKeyFromPool A).1 = .ok k) ∧ (s.getKeyFromPool A).2.Inv := by
  have htop := hs.topUp hspares
  rw [KeyPoolState.getKeyFromPool]
  rcases reserveKeyFromKeyPool_cases A hs.filed with ⟨-, hr⟩ | ⟨i, k, hmem, hpool, hr⟩
  · rw [hr]
    dsimp only
    split
    · exact ⟨⟨_, rfl⟩, htop⟩
    · exact ⟨⟨_, rfl⟩, htop.filed.addNewKey, htop.held, htop.alone, htop.unreserved⟩
  · have hfree : ∀ h, (s.holders h).nIndex ≠ some i := fun h hi ↦ (htop.held h i hi).1 hmem
    rw [hr]
    exact ⟨⟨_, rfl⟩, (htop.take i).spend hpool (Finset.notMem_erase i _) hfree⟩

theorem Inv.getOldestKeyPoolTime [DecidableEq κ] {A : KeyPoolArgs κ} {s : KeyPoolState κ ι}
    (hs : s.Inv)
    (hspares : s.SparesReserved A .getOldestKeyPoolTime) :
    (∃ k, (s.getOldestKeyPoolTime A).1 = .ok k) ∧ (s.getOldestKeyPoolTime A).2.Inv := by
  have htop := hs.topUp hspares
  rw [KeyPoolState.getOldestKeyPoolTime]
  rcases reserveKeyFromKeyPool_cases A hs.filed with ⟨-, hr⟩ | ⟨i, k, hmem, hpool, hr⟩
  · rw [hr]
    exact ⟨⟨_, rfl⟩, htop⟩
  · have hfree : ∀ h, (s.holders h).nIndex ≠ some i := fun h hi ↦ (htop.held h i hi).1 hmem
    rw [hr]
    exact ⟨⟨_, rfl⟩, (htop.take i).giveBack hpool hfree⟩

variable [DecidableEq ι]

/-- A holder without an index and without a key. -/
theorem Inv.drop {s : KeyPoolState κ ι} (hs : s.Inv) (h : ι) :
    { s with holders := Function.update s.holders h ⟨none, none⟩ }.Inv := by
  have hother : ∀ h' i, (Function.update s.holders h ⟨none, none⟩ h').nIndex = some i →
      h' ≠ h ∧ (s.holders h').nIndex = some i := by
    intro h' i hi
    rcases eq_or_ne h' h with rfl | hne
    · rw [Function.update_self] at hi
      cases hi
    · rw [Function.update_of_ne hne] at hi
      exact ⟨hne, hi⟩
  refine ⟨hs.filed, fun h' i hi ↦ ?_, fun h₁ h₂ i h₁i h₂i ↦ ?_, fun h' hnone ↦ ?_⟩
  · obtain ⟨hne, hi⟩ := hother h' i hi
    obtain ⟨hout, k, hholder, hpool⟩ := hs.held h' i hi
    exact ⟨hout, k, (Function.update_of_ne hne ..).trans hholder, hpool⟩
  · exact hs.alone h₁ h₂ i (hother h₁ i h₁i).2 (hother h₂ i h₂i).2
  · dsimp only at hnone ⊢
    rcases eq_or_ne h' h with rfl | hne
    · rw [Function.update_self]
    · rw [Function.update_of_ne hne] at hnone ⊢
      exact hs.unreserved h' hnone

/-- An index taken out of the pool, whose key goes to a holder that has none. -/
theorem Inv.lease {s : KeyPoolState κ ι} (hs : s.Inv) {i : ℕ} {k : κ} {h : ι}
    (hi : i ∈ s.wallet.setKeyPool) (hk : s.wallet.pool i = some k) :
    { s with
      wallet := { s.wallet with setKeyPool := s.wallet.setKeyPool.erase i }
      holders := Function.update s.holders h ⟨some i, some k⟩ }.Inv := by
  have hfree : ∀ h', (s.holders h').nIndex ≠ some i := fun h' hi' ↦ (hs.held h' i hi').1 hi
  have hother : ∀ h' j, (Function.update s.holders h ⟨some i, some k⟩ h').nIndex = some j →
      (h' = h ∧ j = i) ∨ (h' ≠ h ∧ (s.holders h').nIndex = some j) := by
    intro h' j hj
    rcases eq_or_ne h' h with rfl | hne
    · rw [Function.update_self] at hj
      exact .inl ⟨rfl, (Option.some.inj hj).symm⟩
    · rw [Function.update_of_ne hne] at hj
      exact .inr ⟨hne, hj⟩
  refine ⟨hs.filed.take i, fun h' j hj ↦ ?_, fun h₁ h₂ j h₁j h₂j ↦ ?_, fun h' hnone ↦ ?_⟩
  · rcases hother h' j hj with ⟨rfl, rfl⟩ | ⟨hne, hj⟩
    · exact ⟨Finset.notMem_erase j _, k, Function.update_self .., hk⟩
    · obtain ⟨hout, k', hholder, hpool⟩ := hs.held h' j hj
      exact ⟨fun hmem ↦ hout (Finset.mem_of_mem_erase hmem), k',
        (Function.update_of_ne hne ..).trans hholder, hpool⟩
  · rcases hother h₁ j h₁j with ⟨rfl, rfl⟩ | ⟨-, h₁s⟩ <;>
      rcases hother h₂ _ h₂j with ⟨rfl, hji⟩ | ⟨-, h₂s⟩
    · rfl
    · exact absurd h₂s (hfree h₂)
    · exact absurd (hji ▸ h₁s) (hfree h₁)
    · exact hs.alone h₁ h₂ j h₁s h₂s
  · rcases eq_or_ne h' h with rfl | hne
    · dsimp only at hnone
      rw [Function.update_self] at hnone
      cases hnone
    · dsimp only at hnone ⊢
      rw [Function.update_of_ne hne] at hnone ⊢
      exact hs.unreserved h' hnone

/-- The index of a holder is with no other, so with none once the holder has dropped it. -/
theorem Inv.free_of_drop {s : KeyPoolState κ ι} (hs : s.Inv) {h : ι} {i : ℕ}
    (hi : (s.holders h).nIndex = some i) (h' : ι) :
    (Function.update s.holders h ⟨none, none⟩ h').nIndex ≠ some i := by
  intro hi'
  rcases eq_or_ne h' h with rfl | hne
  · rw [Function.update_self] at hi'
    cases hi'
  · rw [Function.update_of_ne hne] at hi'
    exact hne (hs.alone h' h i hi' hi)

theorem Inv.keepKey {s : KeyPoolState κ ι} (hs : s.Inv) (h : ι) : (s.keepKey h).Inv := by
  rw [KeyPoolState.keepKey]
  cases hi : (s.holders h).nIndex with
  | none => exact hs.drop h
  | some i =>
    obtain ⟨hout, k, hholder, hpool⟩ := hs.held h i hi
    rw [hholder]
    exact (hs.drop h).spend hpool hout (hs.free_of_drop hi)

theorem Inv.returnKey {s : KeyPoolState κ ι} (hs : s.Inv) (h : ι) : (s.returnKey h).Inv := by
  rw [KeyPoolState.returnKey]
  cases hi : (s.holders h).nIndex with
  | none => exact hs.drop h
  | some i =>
    obtain ⟨-, k, -, hpool⟩ := hs.held h i hi
    exact (hs.drop h).giveBack hpool (hs.free_of_drop hi)

variable [DecidableEq κ]

theorem Inv.getReservedKey {A : KeyPoolArgs κ} {s : KeyPoolState κ ι} (hs : s.Inv) (h : ι)
    (hspares : s.Spares A (.getReservedKey h)) :
    (∃ k, (s.getReservedKey A h).1 = .ok k) ∧ (s.getReservedKey A h).2.Inv := by
  cases hi : (s.holders h).nIndex with
  | some i =>
    obtain ⟨-, k, hholder, -⟩ := hs.held h i hi
    rw [KeyPoolState.getReservedKey, hholder]
    exact ⟨⟨_, rfl⟩, hs⟩
  | none =>
    have hindexes : s.written A (.getReservedKey h) = s.wallet.topUpIndexes A 0 := if_pos hi
    have htop := hs.topUp (A := A) fun h' i hi' ↦ hindexes ▸ hspares.1 h' i hi'
    have hholder : s.holders h = ⟨none, (s.holders h).vchPubKey⟩ := by rw [← hi]
    rw [KeyPoolState.getReservedKey, hholder]
    rcases reserveKeyFromKeyPool_cases A hs.filed with ⟨hempty, hr⟩ | ⟨i, k, hmem, hpool, hr⟩
    · -- the wallet is locked and its pool empty, so it has no default key to hand out
      obtain ⟨hlocked, hnone⟩ := isLocked_of_topUpKeyPool_empty hempty
      have hdefault : (s.wallet.topUpKeyPool A 0).2.vchDefaultKey = none := by
        rw [(refiles_topUpKeyPool A s.wallet 0).vchDefaultKey]
        exact hspares.2 h rfl hi hlocked hnone
      rw [hr]
      simp only [hdefault]
      exact ⟨⟨_, rfl⟩, htop⟩
    · rw [hr]
      exact ⟨⟨_, rfl⟩, htop.lease hmem hpool⟩

/-- A call that spares the reserved indexes and the default key throws nothing and keeps the
invariant. -/
theorem Inv.handle {A : KeyPoolArgs κ} {s : KeyPoolState κ ι} (hs : s.Inv)
    {call : KeyPoolCall ι} (hspares : s.Spares A call) :
    (∃ k, (s.handle A call).1 = .ok k) ∧ (s.handle A call).2.Inv := by
  cases call with
  | topUpKeyPool kpSize =>
    exact ⟨⟨_, rfl⟩, hs.refile (refiles_topUpKeyPool A s.wallet kpSize) hspares.1⟩
  | newKeyPool => exact ⟨⟨_, rfl⟩, hs.refile (refiles_newKeyPool A s.wallet) hspares.1⟩
  | getReservedKey h => exact hs.getReservedKey h hspares
  | keepKey h => exact ⟨⟨_, rfl⟩, hs.keepKey h⟩
  | returnKey h => exact ⟨⟨_, rfl⟩, hs.returnKey h⟩
  | getKeyFromPool => exact hs.getKeyFromPool hspares.1
  | getOldestKeyPoolTime => exact hs.getOldestKeyPoolTime hspares.1
  | lock => exact ⟨⟨_, rfl⟩, hs.refile (refiles_lock ∅ s.wallet) hspares.1⟩
  | unlock => exact ⟨⟨_, rfl⟩, hs.refile (refiles_unlock ∅ s.wallet) hspares.1⟩
  | encryptWallet fEncrypted fUnlocked =>
    exact ⟨⟨_, rfl⟩,
      hs.refile (refiles_encryptWallet A s.wallet fEncrypted fUnlocked) hspares.1⟩

/-- Without a pool key in a locked wallet every holder that asks gets the default key. -/
theorem handle_defaultKey (A : KeyPoolArgs κ) {s : KeyPoolState κ ι} {h : ι} {k : κ}
    (hi : (s.holders h).nIndex = none) (hlocked : s.wallet.isLocked = true)
    (hempty : s.wallet.setKeyPool = ∅) (hk : s.wallet.vchDefaultKey = some k) :
    s.handle A (.getReservedKey h) =
      (.ok (some k), { s with holders := Function.update s.holders h ⟨none, some k⟩ }) := by
  have hholder : s.holders h = ⟨none, (s.holders h).vchPubKey⟩ := by rw [← hi]
  have hreserve : s.wallet.reserveKeyFromKeyPool A = (none, .ok none, s.wallet) := by
    rw [reserveKeyFromKeyPool]
    simp only [hlocked, if_true, hempty, Finset.not_nonempty_empty, dite_false]
  rw [KeyPoolState.handle, KeyPoolState.getReservedKey, hholder, hreserve]
  simp only [hk]

/-- The default key is one that was kept when the wallet was new: whoever gets it gets it again. -/
theorem not_sound_of_defaultKey (A : KeyPoolArgs κ) {s : KeyPoolState κ ι} {h : ι} {k : κ}
    (hi : (s.holders h).nIndex = none) (hlocked : s.wallet.isLocked = true)
    (hempty : s.wallet.setKeyPool = ∅) (hk : s.wallet.vchDefaultKey = some k) (hkept : k ∈ s.kept) :
    ¬ (s.step A (.getReservedKey h)).Sound := by
  rw [step, handle_defaultKey A hi hlocked hempty hk]
  intro hsound
  refine hsound.notKept h k ?_ hkept
  dsimp only
  rw [Function.update_self]

end KeyPoolState

open KeyPoolState

variable [DecidableEq κ] [DecidableEq ι]

/-- Keys numbered in the order they are made. -/
def numberedKeys (nKeyPool : ℕ) (h : nKeyPool < 2 ^ 31) : KeyPoolArgs ℕ where
  nKeyPool := nKeyPool
  nKeyPool_lt := h
  generateNewKey keys := keys.sum + 1
  fresh keys hmem := by
    have := List.le_sum_of_mem hmem
    omega

end Bitmark
