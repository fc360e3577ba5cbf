import Bitmark.Wallet.Custody

/-!
# Passphrases

A wallet keeps its master key encrypted under passphrases, once for each entry of `mapMasterKeys`.
`EncryptWallet`, `Unlock` and `ChangeWalletPassphrase` (`src/wallet.cpp:163–227` and `372–451`) end
early in several places, and not all of them leave the wallet as it was.
-/

namespace Bitmark

/-- `WALLET_CRYPTO_SALT_SIZE`, `src/crypter.h:16`. -/
def walletCryptoSaltSize : ℕ := 8

/-- The cipher, with `EVP_BytesToKey` for AES-256-CBC and SHA-512: the key and the initialization
vector of a passphrase. -/
structure PassphraseCrypto extends KeyCrypto where
  bytesToKey : (strKeyData chSalt : Bytes) → (nRounds : ℕ) → Bytes × Bytes

/-- `CMasterKey`, `src/crypter.h:34`. -/
structure CMasterKey where
  vchCryptedKey : Bytes := []
  vchSalt : Bytes := []
  nDerivationMethod : ℕ := 0
  nDeriveIterations : ℕ := 25000
  vchOtherDerivationParameters : Bytes := []
deriving DecidableEq

/-- `CWallet`, with what its passphrases are about. -/
structure PassphraseWallet where
  store : CCryptoKeyStore
  mapMasterKeys : SortedMap ℕ CMasterKey
  nMasterKeyMaxID : ℕ
deriving DecidableEq

/-- What the operations take from outside: whether the wallet has a file, what the database
transaction comes to, the random master key and salt, the numbers of rounds that the two timed
derivations come to, and the store after `NewKeyPool`. -/
structure PassphraseEnv where
  fFileBacked : Bool
  txnBegin : Bool
  txnCommit : Bool
  vMasterKey : CKeyingMaterial
  vchSalt : Bytes
  length_vMasterKey : vMasterKey.length = walletCryptoKeySize
  length_vchSalt : vchSalt.length = walletCryptoSaltSize
  firstTiming : ℕ → ℕ
  secondTiming : ℕ → ℕ
  newKeyPool : CCryptoKeyStore → CCryptoKeyStore

/-- The number of rounds that is kept. -/
def PassphraseEnv.rounds (E : PassphraseEnv) (nDeriveIterations : ℕ) : ℕ :=
  let nDeriveIterations := E.secondTiming (E.firstTiming nDeriveIterations)
  if nDeriveIterations < 25000 then 25000 else nDeriveIterations

/-- `CCrypter::SetKeyFromPassphrase`, `src/crypter.cpp:16`. -/
def PassphraseCrypto.setKeyFromPassphrase (K : PassphraseCrypto) (strKeyData chSalt : Bytes)
    (nRounds nDerivationMethod : ℕ) : Option (Bytes × Bytes) :=
  if nRounds < 1 ∨ chSalt.length ≠ walletCryptoSaltSize then none
  else
    let key := if nDerivationMethod = 0 then K.bytesToKey strKeyData chSalt nRounds else ([], [])
    if key.1.length ≠ walletCryptoKeySize then none else some key

namespace CMasterKey

variable (K : PassphraseCrypto)

/-- The key that a passphrase gives with the parameters of a master key. -/
def setKey (k : CMasterKey) (strPassphrase : Bytes) : Option (Bytes × Bytes) :=
  K.setKeyFromPassphrase strPassphrase k.vchSalt k.nDeriveIterations k.nDerivationMethod

/-- What a passphrase decrypts a master key to. -/
def decrypt (k : CMasterKey) (strPassphrase : Bytes) : Option CKeyingMaterial := do
  let (chKey, chIV) ← k.setKey K strPassphrase
  K.aesDecrypt chKey chIV k.vchCryptedKey

end CMasterKey

/-- Unencrypted, or whether it is locked. -/
def CCryptoKeyStore.lockState (s : CCryptoKeyStore) : Option Bool :=
  if s.isCrypted then some s.isLocked else none

namespace PassphraseWallet

variable (K : PassphraseCrypto) (E : PassphraseEnv)

/-- The loop of `Unlock`. -/
def unlockLoop (strWalletPassphrase : Bytes) (store : CCryptoKeyStore) :
    List (ℕ × CMasterKey) → Option (CCryptoKeyStore × Bool)
  | [] => some (store, false)
  | (_, k) :: mapMasterKeys =>
    match k.setKey K strWalletPassphrase with
    | none => some (store, false)
    | some (chKey, chIV) =>
      match K.aesDecrypt chKey chIV k.vchCryptedKey with
      | none => unlockLoop strWalletPassphrase store mapMasterKeys
      | some vMasterKey => do
        let (store, ok) ← store.unlock K.toKeyCrypto vMasterKey
        if ok then some (store, true)
        else unlockLoop strWalletPassphrase store mapMasterKeys

/-- `Unlock`, `src/wallet.cpp:163`; `none` ends the process. -/
def unlock (w : PassphraseWallet) (strWalletPassphrase : Bytes) : Option (PassphraseWallet × Bool) := do
  let (store, ok) ← unlockLoop K strWalletPassphrase w.store w.mapMasterKeys.entries
  some ({ w with store }, ok)

/-- The loop of `ChangeWalletPassphrase`. The derivations that are timed have no other effect. -/
def changeLoop (strOldWalletPassphrase strNewWalletPassphrase : Bytes) (fWasLocked : Bool)
    (w : PassphraseWallet) : List (ℕ × CMasterKey) → Option (PassphraseWallet × Bool)
  | [] => some (w, false)
  | (nID, k) :: mapMasterKeys =>
    match k.setKey K strOldWalletPassphrase with
    | none => some (w, false)
    | some (chKey, chIV) =>
      match K.aesDecrypt chKey chIV k.vchCryptedKey with
      | none => some (w, false)
      | some vMasterKey => do
        let (store, ok) ← w.store.unlock K.toKeyCrypto vMasterKey
        let w := { w with store }
        if ok then
          let k := { k with nDeriveIterations := E.rounds k.nDeriveIterations }
          match k.setKey K strNewWalletPassphrase with
          | none => some ({ w with mapMasterKeys := w.mapMasterKeys.insert nID k }, false)
          | some (chKey, chIV) =>
            match K.aesEncrypt chKey chIV vMasterKey with
            | none =>
              -- the ciphertext was made room for before the cipher failed
              let k := { k with vchCryptedKey := List.replicate (vMasterKey.length + 16) 0 }
              some ({ w with mapMasterKeys := w.mapMasterKeys.insert nID k }, false)
            | some vchCryptedKey =>
              let k := { k with vchCryptedKey }
              let w := { w with mapMasterKeys := w.mapMasterKeys.insert nID k }
              some (if fWasLocked then { w with store := w.store.lock.1 } else w, true)
        else changeLoop strOldWalletPassphrase strNewWalletPassphrase fWasLocked w mapMasterKeys

/-- `ChangeWalletPassphrase`, `src/wallet.cpp:184`. -/
def changeWalletPassphrase (w : PassphraseWallet)
    (strOldWalletPassphrase strNewWalletPassphrase : Bytes) : Option (PassphraseWallet × Bool) :=
  changeLoop K E strOldWalletPassphrase strNewWalletPassphrase w.store.isLocked
    { w with store := w.store.lock.1 } w.mapMasterKeys.entries

/-- `EncryptWallet`, `src/wallet.cpp:372`; `none` is `exit(1)` too. -/
def encryptWallet (w : PassphraseWallet) (strWalletPassphrase : Bytes) :
    Option (PassphraseWallet × Bool) :=
  if w.store.isCrypted then some (w, false)
  else
    let kMasterKey : CMasterKey := { vchSalt := E.vchSalt, nDeriveIterations := E.rounds 25000 }
    match kMasterKey.setKey K strWalletPassphrase with
    | none => some (w, false)
    | some (chKey, chIV) =>
      match K.aesEncrypt chKey chIV E.vMasterKey with
      | none => some (w, false)
      | some vchCryptedKey =>
        let nID := w.nMasterKeyMaxID + 1
        let w :=
          { w with
            mapMasterKeys := w.mapMasterKeys.insert nID { kMasterKey with vchCryptedKey }
            nMasterKeyMaxID := nID }
        if E.fFileBacked && !E.txnBegin then some (w, false)
        else do
          let (store, ok) ← w.store.encryptKeys K.toKeyCrypto E.vMasterKey
          if !ok || (E.fFileBacked && !E.txnCommit) then none
          else
            let (w, _) ← unlock K { w with store := store.lock.1 } strWalletPassphrase
            some ({ w with store := (E.newKeyPool w.store).lock.1 }, true)

end PassphraseWallet

/-- The three operations. -/
inductive PassphraseOp where
  | encryptWallet (strWalletPassphrase : Bytes)
  | unlock (strWalletPassphrase : Bytes)
  | changeWalletPassphrase (strOldWalletPassphrase strNewWalletPassphrase : Bytes)

/-- The idealized cipher: it is injective in its key and its plaintext together, decryption undoes
it and nothing else, and passphrases give keys of the right size. -/
structure PassphraseCrypto.Ideal (K : PassphraseCrypto) : Prop where
  decrypt_eq_some : ∀ {chKey chIV vchCiphertext vchPlaintext},
    K.aesDecrypt chKey chIV vchCiphertext = some vchPlaintext ↔
      K.aesEncrypt chKey chIV vchPlaintext = some vchCiphertext
  encrypt_inj : ∀ {chKey chKey' chIV chIV' m m' vchCiphertext},
    K.aesEncrypt chKey chIV m = some vchCiphertext →
      K.aesEncrypt chKey' chIV' m' = some vchCiphertext → chKey = chKey' ∧ m = m'
  encrypt_isSome : ∀ {chKey : Bytes} (chIV m : Bytes), chKey.length = walletCryptoKeySize →
    (K.aesEncrypt chKey chIV m).isSome
  length_bytesToKey : ∀ strKeyData chSalt nRounds,
    (K.bytesToKey strKeyData chSalt nRounds).1.length = walletCryptoKeySize

namespace PassphraseWallet

variable (K : PassphraseCrypto) (E : PassphraseEnv)

/-- One operation and what it returns. -/
def step (w : PassphraseWallet) : PassphraseOp → Option (PassphraseWallet × Bool)
  | .encryptWallet strWalletPassphrase => w.encryptWallet K E strWalletPassphrase
  | .unlock strWalletPassphrase => w.unlock K strWalletPassphrase
  | .changeWalletPassphrase strOldWalletPassphrase strNewWalletPassphrase =>
    w.changeWalletPassphrase K E strOldWalletPassphrase strNewWalletPassphrase

/-- A passphrase that unlocks the wallet. -/
def Unlocks (w : PassphraseWallet) (strWalletPassphrase : Bytes) : Prop :=
  ∃ w', w.unlock K strWalletPassphrase = some (w', true)

/-- A master key that the key store opens under. -/
def Opens (w : PassphraseWallet) (vMasterKey : CKeyingMaterial) : Prop :=
  CCryptoKeyStore.opens K.toKeyCrypto vMasterKey w.store.mapCryptedKeys.entries = some true

/-- A passphrase that decrypts each of some master keys up to the first that opens the key store. -/
def DecryptsUpToOpening (w : PassphraseWallet) (strPassphrase : Bytes)
    (masterKeys : List (ℕ × CMasterKey)) : Prop :=
  ∃ before nID k after, masterKeys = before ++ (nID, k) :: after ∧
    (∀ e ∈ before, ∃ m, e.2.decrypt K strPassphrase = some m ∧ ¬ w.Opens K m) ∧
    ∃ m, k.decrypt K strPassphrase = some m ∧ w.Opens K m

/-- A wallet as its operations leave it: the key store agrees with a record of its calls, and the
master keys are encrypted, of their size, and numbered. -/
structure Valid (w : PassphraseWallet) : Prop where
  store : ∃ r, w.store.Keeps K.toKeyCrypto r
  masterKeys : ∀ nID k, w.mapMasterKeys.lookup nID = some k → nID ≤ w.nMasterKeyMaxID ∧
    ∃ chKey chIV m, m.length = walletCryptoKeySize ∧
      K.aesEncrypt chKey chIV m = some k.vchCryptedKey

/-- What an operation promises: when it returns `false`, the wallet is locked as before, and the
master keys and the passphrases that unlock it are as before; when a passphrase was changed, the new
one unlocks the wallet, which is locked as before. -/
def Atomic (w : PassphraseWallet) (op : PassphraseOp) : Prop :=
  ∀ w' ok, w.step K E op = some (w', ok) →
    (ok = false → w'.store.lockState = w.store.lockState ∧ w'.mapMasterKeys = w.mapMasterKeys ∧
      ∀ strPassphrase, w'.Unlocks K strPassphrase ↔ w.Unlocks K strPassphrase) ∧
    ∀ strOld strNew, op = .changeWalletPassphrase strOld strNew → ok = true →
      w'.Unlocks K strNew ∧ w'.store.lockState = w.store.lockState

variable {K E}

/-! ### The key store -/

/-- An encrypted store that answers every master key. -/
def Answers (K : PassphraseCrypto) (s : CCryptoKeyStore) : Prop :=
  s.fUseCrypto = true ∧ ∀ m, CCryptoKeyStore.opens K.toKeyCrypto m s.mapCryptedKeys.entries ≠ none

theorem answers_of_keeps (hK : K.Ideal) {s : CCryptoKeyStore} {r : KeyRecord}
    (h : s.Keeps K.toKeyCrypto r) (hcrypted : s.fUseCrypto = true) : Answers K s := by
  refine ⟨hcrypted, fun m ↦ ?_⟩
  cases hentries : s.mapCryptedKeys.entries with
  | nil => exact Option.some_ne_none true
  | cons first rest =>
    obtain ⟨id, vchPubKey, vchCryptedSecret⟩ := first
    obtain ⟨key, vMasterKey, hkey, -, hpubkey, hsecret⟩ :=
      h.key_of_entry (h.crypted.symm.trans hcrypted) (by rw [hentries]; exact List.mem_cons_self)
    have hvalid := (h.keys_valid id key hkey).1
    rw [CCryptoKeyStore.opens]
    cases hdecrypt : decryptSecret K.toKeyCrypto m vchCryptedSecret
        (K.hash vchPubKey) with
    | none => exact Option.some_ne_none false
    | some vchSecret =>
      -- only the secret that was encrypted comes out
      obtain rfl : vchSecret = key.vch := by
        rw [decryptSecret, Option.bind_eq_bind, Option.bind_eq_some_iff] at hdecrypt
        rw [encryptSecret, Option.bind_eq_bind, Option.bind_eq_some_iff] at hsecret
        obtain ⟨⟨chKey, chIV⟩, -, hopen⟩ := hdecrypt
        obtain ⟨⟨chKey', chIV'⟩, -, hsealed⟩ := hsecret
        exact (hK.encrypt_inj (hK.decrypt_eq_some.mp hopen) hsealed).2
      have hset : (CKey.set key.vch (CPubKey.isCompressed vchPubKey)).fValid = true := by
        rw [CKey.set, dif_pos key.size_vch, dif_pos (key.check_vch hvalid)]
      simp only [key.size_vch, CKey.getPubKey, hset]
      simp

/-- An encrypted store opens, or stays as it is. -/
theorem unlock_of_answers {s : CCryptoKeyStore} (h : Answers K s) (m : CKeyingMaterial) :
    s.unlock K.toKeyCrypto m =
      if CCryptoKeyStore.opens K.toKeyCrypto m s.mapCryptedKeys.entries = some true then
        some ({ s with vMasterKey := m }, true)
      else some (s, false) := by
  have hset : s.setCrypted = (s, true) := if_pos h.1
  rw [CCryptoKeyStore.unlock, hset]
  dsimp only
  cases hopens : CCryptoKeyStore.opens K.toKeyCrypto m s.mapCryptedKeys.entries with
  | none => exact absurd hopens (h.2 m)
  | some ok =>
    cases ok with
    | true => rfl
    | false => rfl

/-- A store that does not open stays as it is. -/
theorem unlock_eq_false {s s' : CCryptoKeyStore} {r : KeyRecord} (h : s.Keeps K.toKeyCrypto r)
    {m : CKeyingMaterial} (hfalse : s.unlock K.toKeyCrypto m = some (s', false)) : s' = s := by
  rw [CCryptoKeyStore.unlock] at hfalse
  by_cases hcrypted : s.fUseCrypto = true
  · have hset : s.setCrypted = (s, true) := if_pos hcrypted
    rw [hset] at hfalse
    dsimp only at hfalse
    rw [Option.bind_eq_bind, Option.bind_eq_some_iff] at hfalse
    obtain ⟨ok, -, hresult⟩ := hfalse
    split at hresult
    · cases hresult
    · exact (Prod.mk.inj (Option.some.inj hresult)).1.symm
  · have hplain : r.encrypted = false := by
      rw [← h.crypted]
      exact Bool.eq_false_of_not_eq_true hcrypted
    have hempty := (h.plain hplain).2.1
    by_cases hkeys : s.mapKeys = ∅
    · -- without keys every master key opens
      have hset : s.setCrypted = ({ s with fUseCrypto := true }, true) := by
        rw [CCryptoKeyStore.setCrypted, if_neg hcrypted, if_neg (not_not.mpr hkeys)]
      rw [hset] at hfalse
      dsimp only at hfalse
      rw [hempty] at hfalse
      cases hfalse
    · have hset : s.setCrypted = (s, false) := by
        rw [CCryptoKeyStore.setCrypted, if_neg hcrypted, if_pos hkeys]
      rw [hset] at hfalse
      exact (Prod.mk.inj (Option.some.inj hfalse)).1.symm

/-! ### Unlock -/

theorem unlockLoop_eq_false {s s' : CCryptoKeyStore} {r : KeyRecord}
    (h : s.Keeps K.toKeyCrypto r) {strPassphrase : Bytes} {mapMasterKeys : List (ℕ × CMasterKey)}
    (hfalse : unlockLoop K strPassphrase s mapMasterKeys = some (s', false)) : s' = s := by
  induction mapMasterKeys with
  | nil => exact (Prod.mk.inj (Option.some.inj hfalse)).1.symm
  | cons e mapMasterKeys ih =>
    rw [unlockLoop] at hfalse
    split at hfalse
    · exact (Prod.mk.inj (Option.some.inj hfalse)).1.symm
    · split at hfalse
      · exact ih hfalse
      · rw [Option.bind_eq_bind, Option.bind_eq_some_iff] at hfalse
        obtain ⟨⟨s₁, ok⟩, hunlock, hrest⟩ := hfalse
        dsimp only at hrest
        split at hrest
        · cases hrest
        · next hok =>
          rw [Bool.eq_false_of_not_eq_true hok] at hunlock
          rw [unlock_eq_false h hunlock] at hrest
          exact ih hrest

/-- A passphrase that comes to a master key that opens the store unlocks it. -/
theorem unlockLoop_of_opens {s : CCryptoKeyStore} (hs : Answers K s) {strPassphrase : Bytes}
    {before after : List (ℕ × CMasterKey)} {nID : ℕ} {k : CMasterKey} {m : CKeyingMaterial}
    (hbefore : ∀ e ∈ before, (e.2.setKey K strPassphrase).isSome)
    (hdecrypt : k.decrypt K strPassphrase = some m)
    (hopens : CCryptoKeyStore.opens K.toKeyCrypto m s.mapCryptedKeys.entries = some true) :
    ∃ s', unlockLoop K strPassphrase s (before ++ (nID, k) :: after) = some (s', true) := by
  induction before with
  | nil =>
    rw [CMasterKey.decrypt, Option.bind_eq_bind, Option.bind_eq_some_iff] at hdecrypt
    obtain ⟨⟨chKey, chIV⟩, hkey, hm⟩ := hdecrypt
    dsimp only at hm
    rw [List.nil_append, unlockLoop, hkey]
    dsimp only
    rw [hm]
    dsimp only
    rw [unlock_of_answers hs, if_pos hopens]
    exact ⟨_, rfl⟩
  | cons e before ih =>
    have ih := ih fun e' he' ↦ hbefore e' (List.mem_cons_of_mem _ he')
    obtain ⟨⟨chKey, chIV⟩, hkey⟩ := Option.isSome_iff_exists.mp (hbefore e List.mem_cons_self)
    rw [List.cons_append, unlockLoop, hkey]
    dsimp only
    cases K.aesDecrypt chKey chIV e.2.vchCryptedKey with
    | none => exact ih
    | some m' =>
      dsimp only
      rw [unlock_of_answers hs]
      split
      · exact ⟨_, rfl⟩
      · exact ih

/-! ### A changed passphrase -/

/-- The parameters of a master key do not tell passphrases apart. -/
theorem setKey_eq_some_iff (hK : K.Ideal) {k : CMasterKey} {strPassphrase : Bytes} {key : Bytes × Bytes} :
    k.setKey K strPassphrase = some key ↔
      (1 ≤ k.nDeriveIterations ∧ k.vchSalt.length = walletCryptoSaltSize ∧
        k.nDerivationMethod = 0) ∧
      key = K.bytesToKey strPassphrase k.vchSalt k.nDeriveIterations := by
  rw [CMasterKey.setKey, PassphraseCrypto.setKeyFromPassphrase]
  split
  case isTrue h =>
    refine iff_of_false (Option.some_ne_none key).symm ?_
    rintro ⟨⟨hrounds, hsalt, -⟩, -⟩
    exact h.elim (fun hlt ↦ absurd hlt (not_lt.mpr hrounds)) fun hne ↦ hne hsalt
  case isFalse h =>
    rw [not_or, not_lt, not_not] at h
    by_cases hmethod : k.nDerivationMethod = 0
    · have hsize := hK.length_bytesToKey strPassphrase k.vchSalt k.nDeriveIterations
      dsimp only
      rw [if_pos hmethod, if_neg (not_not.mpr hsize), Option.some.injEq,
        and_iff_right ⟨h.1, h.2, hmethod⟩]
      exact eq_comm
    · dsimp only
      rw [if_neg hmethod, if_pos (by decide)]
      exact iff_of_false (Option.some_ne_none key).symm fun hall ↦ hmethod hall.1.2.2

theorem le_rounds (E : PassphraseEnv) (n : ℕ) : 25000 ≤ E.rounds n := by
  rw [PassphraseEnv.rounds]
  split
  · exact le_rfl
  · omega

/-- Any passphrase encrypts a master key with a number of rounds that is kept. -/
theorem exists_encrypted (hK : K.Ideal) {k : CMasterKey} {n : ℕ} (strPassphrase : Bytes)
    (hsalt : k.vchSalt.length = walletCryptoSaltSize) (hmethod : k.nDerivationMethod = 0)
    (m : CKeyingMaterial) :
    ∃ key vchCryptedKey,
      { k with nDeriveIterations := E.rounds n }.setKey K strPassphrase = some key ∧
        K.aesEncrypt key.1 key.2 m = some vchCryptedKey := by
  have hkey : { k with nDeriveIterations := E.rounds n }.setKey K strPassphrase =
      some (K.bytesToKey strPassphrase k.vchSalt (E.rounds n)) :=
    (setKey_eq_some_iff hK).mpr
      ⟨⟨(by decide : 1 ≤ 25000).trans (le_rounds E n), hsalt, hmethod⟩, rfl⟩
  obtain ⟨c, hc⟩ := Option.isSome_iff_exists.mp
    (hK.encrypt_isSome (K.bytesToKey strPassphrase k.vchSalt (E.rounds n)).2 m
      (hK.length_bytesToKey _ _ _))
  exact ⟨_, c, hkey, hc⟩

/-- The wallet after a master key was encrypted under the new passphrase. -/
def changed (E : PassphraseEnv) (w : PassphraseWallet) (fWasLocked : Bool) (nID : ℕ)
    (k : CMasterKey) (m : CKeyingMaterial) (vchCryptedKey : Bytes) : PassphraseWallet :=
  let store := { w.store with vMasterKey := m }
  { w with
    store := if fWasLocked then store.lock.1 else store
    mapMasterKeys := w.mapMasterKeys.insert nID
      { k with nDeriveIterations := E.rounds k.nDeriveIterations, vchCryptedKey } }

/-- The loop over the master keys of an encrypted wallet: it changes the first that opens the store,
when all up to there are decrypted, and nothing else. -/
theorem changeLoop_spec (hK : K.Ideal) {w : PassphraseWallet} (hw : Answers K w.store)
    (strOld strNew : Bytes) (fWasLocked : Bool) (masterKeys : List (ℕ × CMasterKey)) :
    (∃ before nID k after m key vchCryptedKey, masterKeys = before ++ (nID, k) :: after ∧
        (∀ e ∈ before, ∃ m, e.2.decrypt K strOld = some m ∧ ¬ w.Opens K m) ∧
        k.decrypt K strOld = some m ∧ w.Opens K m ∧
        { k with nDeriveIterations := E.rounds k.nDeriveIterations }.setKey K strNew = some key ∧
        K.aesEncrypt key.1 key.2 m = some vchCryptedKey ∧
        changeLoop K E strOld strNew fWasLocked w masterKeys =
          some (changed E w fWasLocked nID k m vchCryptedKey, true)) ∨
      ¬ w.DecryptsUpToOpening K strOld masterKeys ∧
        changeLoop K E strOld strNew fWasLocked w masterKeys = some (w, false) := by
  induction masterKeys with
  | nil =>
    refine .inr ⟨?_, rfl⟩
    rintro ⟨before, nID, k, after, hsplit, -⟩
    exact absurd hsplit.symm (List.append_ne_nil_of_right_ne_nil _ (List.cons_ne_nil _ _))
  | cons e masterKeys ih =>
    obtain ⟨nID, k⟩ := e
    have hfirst : w.DecryptsUpToOpening K strOld ((nID, k) :: masterKeys) →
        ∃ m, k.decrypt K strOld = some m := by
      rintro ⟨before, nID', k', after, hsplit, hbefore, m, hm, -⟩
      cases before with
      | nil =>
        obtain ⟨he, -⟩ := List.cons.inj hsplit
        obtain ⟨-, rfl⟩ := Prod.mk.inj he
        exact ⟨m, hm⟩
      | cons e before =>
        obtain ⟨rfl, -⟩ := List.cons.inj hsplit
        obtain ⟨m', hm', -⟩ := hbefore _ List.mem_cons_self
        exact ⟨m', hm'⟩
    rw [changeLoop]
    cases hkey : k.setKey K strOld with
    | none =>
      refine .inr ⟨fun h ↦ ?_, rfl⟩
      obtain ⟨m, hm⟩ := hfirst h
      rw [CMasterKey.decrypt, hkey] at hm
      cases hm
    | some key =>
      obtain ⟨chKey, chIV⟩ := key
      dsimp only
      have hdecrypt : k.decrypt K strOld = K.aesDecrypt chKey chIV k.vchCryptedKey := by
        rw [CMasterKey.decrypt, hkey]
        rfl
      cases hm : K.aesDecrypt chKey chIV k.vchCryptedKey with
      | none =>
        refine .inr ⟨fun h ↦ ?_, rfl⟩
        obtain ⟨m, hm'⟩ := hfirst h
        rw [hdecrypt, hm] at hm'
        cases hm'
      | some m =>
        dsimp only
        rw [unlock_of_answers hw]
        split
        case isTrue hopens =>
          obtain ⟨⟨-, hsalt, hmethod⟩, -⟩ := (setKey_eq_some_iff hK).mp hkey
          obtain ⟨key, vchCryptedKey, hnew, hencrypt⟩ :=
            exists_encrypted (E := E) (n := k.nDeriveIterations) hK strNew hsalt hmethod m
          refine .inl ⟨[], nID, k, masterKeys, m, _, vchCryptedKey, rfl, nofun, hdecrypt.trans hm,
            hopens, hnew, hencrypt, ?_⟩
          rw [Option.bind_eq_bind, Option.bind_some]
          dsimp only
          rw [if_pos rfl, hnew]
          dsimp only
          rw [hencrypt]
          dsimp only [changed]
          cases fWasLocked <;> rfl
        case isFalse hcloses =>
          have hskip : w.DecryptsUpToOpening K strOld ((nID, k) :: masterKeys) →
              w.DecryptsUpToOpening K strOld masterKeys := by
            rintro ⟨before, nID', k', after, hsplit, hbefore, m', hm', hopens⟩
            cases before with
            | nil =>
              obtain ⟨he, -⟩ := List.cons.inj hsplit
              obtain ⟨-, rfl⟩ := Prod.mk.inj he
              rw [hdecrypt, hm] at hm'
              obtain rfl := Option.some.inj hm'
              exact absurd hopens hcloses
            | cons e before =>
              exact ⟨before, nID', k', after, (List.cons.inj hsplit).2,
                fun e' he' ↦ hbefore e' (List.mem_cons_of_mem _ he'), m', hm', hopens⟩
          rw [Option.bind_eq_bind, Option.bind_some]
          dsimp only
          rw [if_neg Bool.false_ne_true]
          rcases ih with ⟨before, nID', k', after, m', key', c, hsplit, hbefore, hrest⟩ | ⟨hno, hloop⟩
          · refine .inl ⟨(nID, k) :: before, nID', k', after, m', key', c, ?_, ?_, hrest⟩
            · rw [hsplit, List.cons_append]
            · intro e he
              rcases List.mem_cons.mp he with rfl | he
              · exact ⟨m, hdecrypt.trans hm, hcloses⟩
              · exact hbefore e he
          · exact .inr ⟨fun h ↦ hno (hskip h), hloop⟩

theorem lock_of_crypted {s : CCryptoKeyStore} (h : s.fUseCrypto = true) :
    s.lock.1 = { s with vMasterKey := [] } := by
  rw [CCryptoKeyStore.lock, CCryptoKeyStore.setCrypted, if_pos h]

theorem lockState_of_crypted {s : CCryptoKeyStore} (h : s.fUseCrypto = true) :
    s.lockState = some s.vMasterKey.isEmpty := by
  rw [CCryptoKeyStore.lockState, CCryptoKeyStore.isLocked, CCryptoKeyStore.isCrypted, h, if_pos rfl,
    Bool.true_and]

theorem lockState_withMasterKey {s : CCryptoKeyStore} (h : s.fUseCrypto = true)
    (m : CKeyingMaterial) : { s with vMasterKey := m }.lockState = some m.isEmpty :=
  @lockState_of_crypted { s with vMasterKey := m } h

theorem setCrypted_of_keys {s : CCryptoKeyStore} (hcrypted : s.fUseCrypto = false)
    (hkeys : s.mapKeys ≠ ∅) : s.setCrypted = (s, false) := by
  rw [CCryptoKeyStore.setCrypted, if_neg (by rw [hcrypted]; exact Bool.false_ne_true), if_pos hkeys]

theorem setCrypted_of_no_keys {s : CCryptoKeyStore} (hcrypted : s.fUseCrypto = false)
    (hkeys : s.mapKeys = ∅) : s.setCrypted = ({ s with fUseCrypto := true }, true) := by
  rw [CCryptoKeyStore.setCrypted, if_neg (by rw [hcrypted]; exact Bool.false_ne_true),
    if_neg (not_not.mpr hkeys)]

/-- A store that answers goes on to do so under any master key at hand. -/
theorem Answers.withMasterKey {s : CCryptoKeyStore} (h : Answers K s) (m : CKeyingMaterial) :
    Answers K { s with vMasterKey := m } := h

theorem changed_store {w : PassphraseWallet} (hw : w.store.fUseCrypto = true) (fWasLocked : Bool)
    (nID : ℕ) (k : CMasterKey) (m : CKeyingMaterial) (c : Bytes) :
    (changed E w fWasLocked nID k m c).store =
      { w.store with vMasterKey := if fWasLocked then [] else m } := by
  cases fWasLocked with
  | false => rfl
  | true =>
    have hlock := @lock_of_crypted { w.store with vMasterKey := m } hw
    rw [changed]
    dsimp only
    rw [if_pos rfl, if_pos rfl, hlock]

/-- The new passphrase comes to the master key again. -/
theorem changed_unlocks (hK : K.Ideal) {w : PassphraseWallet} (hw : Answers K w.store)
    {strOld strNew : Bytes} (fWasLocked : Bool) {before after : List (ℕ × CMasterKey)} {nID : ℕ}
    {k : CMasterKey} {m : CKeyingMaterial} {key : Bytes × Bytes} {c : Bytes}
    (hsplit : w.mapMasterKeys.entries = before ++ (nID, k) :: after)
    (hbefore : ∀ e ∈ before, ∃ m, e.2.decrypt K strOld = some m ∧ ¬ w.Opens K m)
    (hopens : w.Opens K m)
    (hkey : { k with nDeriveIterations := E.rounds k.nDeriveIterations }.setKey K strNew = some key)
    (hencrypt : K.aesEncrypt key.1 key.2 m = some c) :
    (changed E w fWasLocked nID k m c).Unlocks K strNew := by
  have hstore := changed_store (E := E) hw.1 fWasLocked nID k m c
  have hanswers : Answers K (changed E w fWasLocked nID k m c).store := by
    rw [hstore]
    exact hw.withMasterKey _
  have hdecrypt : { k with
      nDeriveIterations := E.rounds k.nDeriveIterations, vchCryptedKey := c }.decrypt K strNew =
        some m := by
    rw [CMasterKey.decrypt]
    change (CMasterKey.setKey K { k with nDeriveIterations := E.rounds k.nDeriveIterations } strNew
      >>= _) = _
    rw [hkey]
    exact hK.decrypt_eq_some.mpr hencrypt
  have hderive : ∀ e ∈ before, (e.2.setKey K strNew).isSome := by
    intro e he
    obtain ⟨m', hm', -⟩ := hbefore e he
    rw [CMasterKey.decrypt, Option.bind_eq_bind, Option.bind_eq_some_iff] at hm'
    obtain ⟨key', hkey', -⟩ := hm'
    exact Option.isSome_iff_exists.mpr
      ⟨_, (setKey_eq_some_iff hK).mpr ⟨((setKey_eq_some_iff hK).mp hkey').1, rfl⟩⟩
  have hstays : CCryptoKeyStore.opens K.toKeyCrypto m
      (changed E w fWasLocked nID k m c).store.mapCryptedKeys.entries = some true := by
    rw [hstore]
    exact hopens
  obtain ⟨s', hs'⟩ := @unlockLoop_of_opens K _ hanswers _ before after nID _ _ hderive hdecrypt
    hstays
  have hentries : (changed E w fWasLocked nID k m c).mapMasterKeys.entries = _ :=
    SortedMap.entries_insert_of_split hsplit
  refine ⟨{ changed E w fWasLocked nID k m c with store := s' }, ?_⟩
  rw [unlock, hentries, hs']
  rfl

/-- A wallet that is not encrypted and has a key is not opened by any master key. -/
theorem changeLoop_of_plain {w : PassphraseWallet} (hcrypted : w.store.fUseCrypto = false)
    (hkeys : w.store.mapKeys ≠ ∅) (strOld strNew : Bytes) (fWasLocked : Bool)
    (masterKeys : List (ℕ × CMasterKey)) :
    changeLoop K E strOld strNew fWasLocked w masterKeys = some (w, false) := by
  have hunlock : ∀ m, w.store.unlock K.toKeyCrypto m = some (w.store, false) := fun m ↦ by
    rw [CCryptoKeyStore.unlock, setCrypted_of_keys hcrypted hkeys]
  induction masterKeys with
  | nil => rfl
  | cons e masterKeys ih =>
    rw [changeLoop]
    cases e.2.setKey K strOld with
    | none => rfl
    | some key =>
      dsimp only
      cases K.aesDecrypt key.1 key.2 e.2.vchCryptedKey with
      | none => rfl
      | some m =>
        dsimp only
        rw [hunlock]
        exact ih

/-! ### The wallets that the operations leave -/

/-- A wallet without master keys, over the store of any run. -/
theorem valid_of_run (hC : K.toKeyCrypto.Ideal) {ops : List KeyStoreOp} {s : CCryptoKeyStore}
    {log : List (KeyStoreOp × Bool)}
    (h : CCryptoKeyStore.run K.toKeyCrypto ops .empty = some (s, log)) :
    Valid K ⟨s, ∅, 0⟩ := by
  refine ⟨⟨_, CCryptoKeyStore.keeps_empty.run hC h⟩, fun nID k hk ↦ ?_⟩
  rw [SortedMap.lookup_empty] at hk
  cases hk

theorem keeps_lock {s : CCryptoKeyStore} {r : KeyRecord} (h : s.Keeps K.toKeyCrypto r) :
    ∃ r', s.lock.1.Keeps K.toKeyCrypto r' := by
  have hlock := h.lock
  rw [CCryptoKeyStore.StepKeeps] at hlock
  split at hlock
  · exact ⟨_, hlock⟩
  · rw [hlock]
    exact ⟨r, h⟩

theorem keeps_unlock (hC : K.toKeyCrypto.Ideal) {s s' : CCryptoKeyStore} {r : KeyRecord}
    (h : s.Keeps K.toKeyCrypto r) {m : CKeyingMaterial} {ok : Bool}
    (hunlock : s.unlock K.toKeyCrypto m = some (s', ok)) : ∃ r', s'.Keeps K.toKeyCrypto r' := by
  have hkeeps := h.unlock hC hunlock
  cases ok with
  | true => exact ⟨_, hkeeps⟩
  | false =>
    obtain rfl : s' = s := hkeeps
    exact ⟨r, h⟩

theorem keeps_unlockLoop (hC : K.toKeyCrypto.Ideal) {s s' : CCryptoKeyStore} {r : KeyRecord}
    (h : s.Keeps K.toKeyCrypto r) {strPassphrase : Bytes} {masterKeys : List (ℕ × CMasterKey)}
    {ok : Bool} (hloop : unlockLoop K strPassphrase s masterKeys = some (s', ok)) :
    ∃ r', s'.Keeps K.toKeyCrypto r' := by
  induction masterKeys generalizing s r with
  | nil =>
    obtain ⟨rfl, -⟩ := Prod.mk.inj (Option.some.inj hloop)
    exact ⟨r, h⟩
  | cons e masterKeys ih =>
    rw [unlockLoop] at hloop
    split at hloop
    · obtain ⟨rfl, -⟩ := Prod.mk.inj (Option.some.inj hloop)
      exact ⟨r, h⟩
    · split at hloop
      · exact ih h hloop
      · rw [Option.bind_eq_bind, Option.bind_eq_some_iff] at hloop
        obtain ⟨⟨s₁, ok₁⟩, hunlock, hrest⟩ := hloop
        obtain ⟨r₁, h₁⟩ := keeps_unlock hC h hunlock
        dsimp only at hrest
        split at hrest
        · obtain ⟨rfl, -⟩ := Prod.mk.inj (Option.some.inj hrest)
          exact ⟨r₁, h₁⟩
        · exact ih h₁ hrest

theorem Valid.withStore {w : PassphraseWallet} (hw : w.Valid K) {s : CCryptoKeyStore}
    {r : KeyRecord} (h : s.Keeps K.toKeyCrypto r) : Valid K { w with store := s } :=
  ⟨⟨r, h⟩, hw.masterKeys⟩

theorem Valid.unlock (hC : K.toKeyCrypto.Ideal) {w w' : PassphraseWallet} (hw : w.Valid K)
    {strPassphrase : Bytes} {ok : Bool}
    (h : w.unlock K strPassphrase = some (w', ok)) : w'.Valid K := by
  obtain ⟨r, hkeeps⟩ := hw.store
  rw [PassphraseWallet.unlock, Option.bind_eq_bind, Option.bind_eq_some_iff] at h
  obtain ⟨⟨s', ok'⟩, hloop, hresult⟩ := h
  obtain ⟨rfl, -⟩ := Prod.mk.inj (Option.some.inj hresult)
  obtain ⟨r', hkeeps'⟩ := keeps_unlockLoop hC hkeeps hloop
  exact hw.withStore hkeeps'

/-- A master key that is put into the map is encrypted and of its size. -/
theorem Valid.insert {w : PassphraseWallet} (hw : w.Valid K) {nID n : ℕ} {k : CMasterKey}
    (hnID : nID ≤ n) (hn : w.nMasterKeyMaxID ≤ n) {chKey chIV : Bytes} {m : CKeyingMaterial}
    (hm : m.length = walletCryptoKeySize)
    (hk : K.aesEncrypt chKey chIV m = some k.vchCryptedKey) :
    Valid K ⟨w.store, w.mapMasterKeys.insert nID k, n⟩ := by
  refine ⟨hw.store, fun nID' k' hlookup ↦ ?_⟩
  dsimp only at hlookup
  rw [SortedMap.lookup_insert] at hlookup
  split at hlookup
  case isTrue heq =>
    obtain rfl := Option.some.inj hlookup
    exact ⟨heq ▸ hnID, chKey, chIV, m, hm, hk⟩
  case isFalse =>
    obtain ⟨hle, hsealed⟩ := hw.masterKeys nID' k' hlookup
    exact ⟨hle.trans hn, hsealed⟩

theorem Valid.changeLoop (hC : K.toKeyCrypto.Ideal) (hK : K.Ideal) {w w' : PassphraseWallet}
    (hw : w.Valid K) {strOld strNew : Bytes} {fWasLocked ok : Bool}
    {masterKeys : List (ℕ × CMasterKey)}
    (hmem : ∀ e ∈ masterKeys, w.mapMasterKeys.lookup e.1 = some e.2)
    (h : PassphraseWallet.changeLoop K E strOld strNew fWasLocked w masterKeys = some (w', ok)) :
    w'.Valid K := by
  induction masterKeys generalizing w with
  | nil =>
    obtain ⟨rfl, -⟩ := Prod.mk.inj (Option.some.inj h)
    exact hw
  | cons e masterKeys ih =>
    obtain ⟨nID, k⟩ := e
    rw [PassphraseWallet.changeLoop] at h
    cases hkey : k.setKey K strOld with
    | none =>
      rw [hkey] at h
      obtain ⟨rfl, -⟩ := Prod.mk.inj (Option.some.inj h)
      exact hw
    | some key =>
      rw [hkey] at h
      dsimp only at h
      cases hm : K.aesDecrypt key.1 key.2 k.vchCryptedKey with
      | none =>
        rw [hm] at h
        obtain ⟨rfl, -⟩ := Prod.mk.inj (Option.some.inj h)
        exact hw
      | some m =>
        rw [hm] at h
        dsimp only at h
        rw [Option.bind_eq_bind, Option.bind_eq_some_iff] at h
        obtain ⟨⟨s₁, ok₁⟩, hunlock, hrest⟩ := h
        obtain ⟨r, hkeeps⟩ := hw.store
        obtain ⟨r₁, hkeeps₁⟩ := keeps_unlock hC hkeeps hunlock
        have hw₁ := hw.withStore hkeeps₁
        dsimp only at hrest
        split at hrest
        case isFalse =>
          exact ih hw₁ (fun e' he' ↦ hmem e' (List.mem_cons_of_mem _ he')) hrest
        case isTrue =>
          have hold := hmem _ List.mem_cons_self
          obtain ⟨hle, chKey', chIV', m', hsize, hsealed⟩ := hw.masterKeys nID k hold
          obtain rfl := (hK.encrypt_inj (hK.decrypt_eq_some.mp hm) hsealed).2
          obtain ⟨⟨-, hsalt, hmethod⟩, -⟩ := (setKey_eq_some_iff hK).mp hkey
          obtain ⟨key', c, hnew, hencrypt⟩ := exists_encrypted (E := E) (n := k.nDeriveIterations) hK strNew hsalt hmethod m
          rw [hnew] at hrest
          dsimp only at hrest
          rw [hencrypt] at hrest
          obtain ⟨rfl, -⟩ := Prod.mk.inj (Option.some.inj hrest)
          have hw₂ : Valid K _ := hw₁.insert (k := { k with
            nDeriveIterations := E.rounds k.nDeriveIterations, vchCryptedKey := c }) hle le_rfl
            hsize hencrypt
          split
          · obtain ⟨r₂, hkeeps₂⟩ := keeps_lock hkeeps₁
            exact hw₂.withStore hkeeps₂
          · exact hw₂

theorem Valid.encryptWallet (hC : K.toKeyCrypto.Ideal) (hK : K.Ideal)
    (hpool : ∀ s r, s.Keeps K.toKeyCrypto r → ∃ r', (E.newKeyPool s).Keeps K.toKeyCrypto r')
    {w w' : PassphraseWallet} (hw : w.Valid K) {strPassphrase : Bytes} {ok : Bool}
    (h : w.encryptWallet K E strPassphrase = some (w', ok)) : w'.Valid K := by
  rw [PassphraseWallet.encryptWallet] at h
  split at h
  · obtain ⟨rfl, -⟩ := Prod.mk.inj (Option.some.inj h)
    exact hw
  next hplain =>
  obtain ⟨key, c, hkey, hencrypt⟩ := exists_encrypted (E := E) (n := 25000) hK strPassphrase
    (k := { vchSalt := E.vchSalt }) E.length_vchSalt rfl E.vMasterKey
  dsimp only at h
  rw [hkey] at h
  dsimp only at h
  rw [hencrypt] at h
  dsimp only at h
  have hw₁ : Valid K _ := hw.insert (k := ⟨c, E.vchSalt, 0, E.rounds 25000, []⟩) le_rfl
    (Nat.le_succ w.nMasterKeyMaxID) E.length_vMasterKey hencrypt
  split at h
  · obtain ⟨rfl, -⟩ := Prod.mk.inj (Option.some.inj h)
    exact hw₁
  · rw [Option.bind_eq_bind, Option.bind_eq_some_iff] at h
    obtain ⟨⟨s₂, encrypted⟩, hkeys, hrest⟩ := h
    dsimp only at hrest
    split at hrest
    · cases hrest
    next hgoes =>
    obtain rfl : encrypted = true := by
      cases encrypted with
      | true => rfl
      | false => exact absurd rfl hgoes
    obtain ⟨r, hkeeps⟩ := hw.store
    have hkeeps₂ : CCryptoKeyStore.StepKeeps K.toKeyCrypto w.store r (.encryptWallet E.vMasterKey) (s₂, true) := by
      refine hkeeps.encryptWallet ?_
      rw [CCryptoKeyStore.encryptWallet, if_neg hplain, hkeys]
      rfl
    obtain ⟨r₃, hkeeps₃⟩ := keeps_lock hkeeps₂
    rw [Option.bind_eq_bind, Option.bind_eq_some_iff] at hrest
    obtain ⟨⟨w₄, ok₄⟩, hunlock, hresult⟩ := hrest
    obtain ⟨rfl, -⟩ := Prod.mk.inj (Option.some.inj hresult)
    have hw₄ := (hw₁.withStore hkeeps₃).unlock hC hunlock
    obtain ⟨r₄, hkeeps₄⟩ := hw₄.store
    obtain ⟨r₅, hkeeps₅⟩ := hpool _ r₄ hkeeps₄
    obtain ⟨r₆, hkeeps₆⟩ := keeps_lock hkeeps₅
    exact hw₄.withStore hkeeps₆

/-- Every operation leaves a wallet of this form, whatever it returns. -/
theorem Valid.step (hC : K.toKeyCrypto.Ideal) (hK : K.Ideal)
    (hpool : ∀ s r, s.Keeps K.toKeyCrypto r → ∃ r', (E.newKeyPool s).Keeps K.toKeyCrypto r')
    {w w' : PassphraseWallet} (hw : w.Valid K) {op : PassphraseOp} {ok : Bool}
    (h : w.step K E op = some (w', ok)) : w'.Valid K := by
  cases op with
  | encryptWallet strPassphrase => exact hw.encryptWallet hC hK hpool h
  | unlock strPassphrase => exact hw.unlock hC h
  | changeWalletPassphrase strOld strNew =>
    obtain ⟨r, hkeeps⟩ := hw.store
    obtain ⟨r', hkeeps'⟩ := keeps_lock hkeeps
    exact (hw.withStore hkeeps').changeLoop hC hK (fun _ he ↦ SortedMap.lookup_eq_some.mpr he) h

/-! ### What returns `false` and what it leaves -/

theorem atomic_unlock {w : PassphraseWallet} (hw : w.Valid K) (strPassphrase : Bytes) :
    w.Atomic K E (.unlock strPassphrase) := by
  obtain ⟨r, hkeeps⟩ := hw.store
  intro w' ok hstep
  refine ⟨fun hok ↦ ?_, nofun⟩
  subst hok
  change w.unlock K strPassphrase = _ at hstep
  rw [unlock, Option.bind_eq_bind, Option.bind_eq_some_iff] at hstep
  obtain ⟨⟨s', ok⟩, hloop, hresult⟩ := hstep
  obtain ⟨rfl, rfl⟩ := Prod.mk.inj (Option.some.inj hresult)
  obtain rfl := unlockLoop_eq_false hkeeps hloop
  exact ⟨rfl, rfl, fun _ ↦ Iff.rfl⟩

theorem atomic_encryptWallet_iff (hK : K.Ideal) {w : PassphraseWallet} (hw : w.Valid K)
    (strPassphrase : Bytes) :
    w.Atomic K E (.encryptWallet strPassphrase) ↔
      w.store.isCrypted = true ∨ ¬ (E.fFileBacked = true ∧ E.txnBegin = false) := by
  by_cases hcrypted : w.store.isCrypted = true
  · refine iff_of_true (fun w' ok hstep ↦ ⟨fun _ ↦ ?_, nofun⟩) (.inl hcrypted)
    change w.encryptWallet K E strPassphrase = _ at hstep
    rw [encryptWallet, if_pos hcrypted] at hstep
    obtain ⟨rfl, -⟩ := Prod.mk.inj (Option.some.inj hstep)
    exact ⟨rfl, rfl, fun _ ↦ Iff.rfl⟩
  rw [or_iff_right hcrypted]
  obtain ⟨key, c, hkey, hencrypt⟩ := exists_encrypted (E := E) (n := 25000) hK strPassphrase
    (k := { vchSalt := E.vchSalt }) E.length_vchSalt rfl E.vMasterKey
  have hnew : w.mapMasterKeys.lookup (w.nMasterKeyMaxID + 1) = none := by
    by_contra hsome
    obtain ⟨k, hk⟩ := Option.ne_none_iff_exists'.mp hsome
    have := (hw.masterKeys _ k hk).1
    omega
  constructor
  · rintro hatomic ⟨hfile, hbegin⟩
    -- the master key is in the map when the transaction does not begin
    obtain ⟨-, hkeys, -⟩ := (hatomic _ false (by
      change w.encryptWallet K E strPassphrase = _
      rw [encryptWallet, if_neg hcrypted]
      dsimp only
      rw [hkey]
      dsimp only
      rw [hencrypt]
      dsimp only
      rw [hfile, hbegin]
      rfl)).1 rfl
    rw [← hkeys] at hnew
    dsimp only at hnew
    rw [SortedMap.lookup_insert_self] at hnew
    cases hnew
  · intro hbegins w' ok hstep
    refine ⟨fun hok ↦ ?_, nofun⟩
    subst hok
    change w.encryptWallet K E strPassphrase = _ at hstep
    have hbegins' : ¬ (E.fFileBacked && !E.txnBegin) = true := by
      rw [Bool.and_eq_true, Bool.not_eq_true']
      exact hbegins
    rw [encryptWallet, if_neg hcrypted] at hstep
    dsimp only at hstep
    rw [hkey] at hstep
    dsimp only at hstep
    rw [hencrypt] at hstep
    dsimp only at hstep
    rw [if_neg hbegins', Option.bind_eq_bind, Option.bind_eq_some_iff] at hstep
    obtain ⟨⟨s', encrypted⟩, -, hrest⟩ := hstep
    dsimp only at hrest
    split at hrest
    · cases hrest
    · rw [Option.bind_eq_bind, Option.bind_eq_some_iff] at hrest
      obtain ⟨result, -, hresult⟩ := hrest
      cases hresult

/-- The wallet after the `Lock` with which `ChangeWalletPassphrase` begins. -/
def relocked (w : PassphraseWallet) : PassphraseWallet := { w with store := w.store.lock.1 }

theorem step_changeWalletPassphrase (w : PassphraseWallet) (strOld strNew : Bytes) :
    w.step K E (.changeWalletPassphrase strOld strNew) =
      changeLoop K E strOld strNew w.store.isLocked w.relocked w.mapMasterKeys.entries := rfl

theorem atomic_change_of_keys {w : PassphraseWallet} (hcrypted : w.store.fUseCrypto = false)
    (hkeys : w.store.mapKeys ≠ ∅) (strOld strNew : Bytes) :
    w.Atomic K E (.changeWalletPassphrase strOld strNew) := by
  intro w' ok hresult
  have hlock : w.relocked = w := by
    rw [relocked, CCryptoKeyStore.lock, setCrypted_of_keys hcrypted hkeys]
  rw [step_changeWalletPassphrase, hlock, changeLoop_of_plain hcrypted hkeys] at hresult
  obtain ⟨rfl, rfl⟩ := Prod.mk.inj (Option.some.inj hresult)
  exact ⟨fun _ ↦ ⟨rfl, rfl, fun _ ↦ Iff.rfl⟩, fun _ _ _ h ↦ absurd h Bool.false_ne_true⟩

/-- Without keys the `Lock` turns encryption on. -/
theorem not_atomic_change_of_no_keys (hK : K.Ideal) {w : PassphraseWallet} {r : KeyRecord}
    (hkeeps : w.store.Keeps K.toKeyCrypto r) (hcrypted : w.store.fUseCrypto = false)
    (hkeys : w.store.mapKeys = ∅) (strOld strNew : Bytes) :
    ¬ w.Atomic K E (.changeWalletPassphrase strOld strNew) := by
  intro hatomic
  have hnone : w.store.lockState = none := by
    rw [CCryptoKeyStore.lockState, CCryptoKeyStore.isCrypted, hcrypted]
    rfl
  have hlock : w.relocked.store = { w.store with fUseCrypto := true, vMasterKey := [] } := by
    rw [relocked, CCryptoKeyStore.lock, setCrypted_of_no_keys hcrypted hkeys]
  have hempty : w.store.mapCryptedKeys = ∅ := (hkeeps.plain (hkeeps.crypted.symm.trans hcrypted)).2.1
  have hanswers : Answers K w.relocked.store := by
    rw [Answers, hlock]
    refine ⟨rfl, fun m ↦ ?_⟩
    dsimp only
    rw [hempty]
    exact Option.some_ne_none true
  rcases changeLoop_spec (E := E) hK hanswers strOld strNew w.store.isLocked
      w.mapMasterKeys.entries with
    ⟨before, nID, k, after, m, key, c, -, -, -, -, -, -, hloop⟩ | ⟨-, hloop⟩
  · have hsame := ((hatomic _ true hloop).2 strOld strNew rfl rfl).2
    rw [hnone, changed_store hanswers.1, lockState_withMasterKey hanswers.1] at hsame
    cases hsame
  · obtain ⟨hsame, -⟩ := (hatomic _ false hloop).1 rfl
    rw [hnone, lockState_of_crypted hanswers.1] at hsame
    cases hsame

theorem atomic_change_of_crypted (hK : K.Ideal) {w : PassphraseWallet} (hw : w.Valid K)
    (hcrypted : w.store.fUseCrypto = true) (strOld strNew : Bytes) :
    w.Atomic K E (.changeWalletPassphrase strOld strNew) ↔
      w.store.isLocked = true ∨ w.DecryptsUpToOpening K strOld w.mapMasterKeys.entries := by
  obtain ⟨r, hkeeps⟩ := hw.store
  have hstate : w.store.lockState = some w.store.isLocked := if_pos hcrypted
  have hlocked : w.store.isLocked = w.store.vMasterKey.isEmpty :=
    Option.some.inj (hstate.symm.trans (lockState_of_crypted hcrypted))
  have hlock : w.relocked.store = { w.store with vMasterKey := [] } := lock_of_crypted hcrypted
  have hanswers : Answers K w.relocked.store := by
    rw [hlock]
    exact (answers_of_keeps hK hkeeps hcrypted).withMasterKey _
  have hopens : ∀ m, w.relocked.Opens K m ↔ w.Opens K m := fun m ↦ by
    rw [Opens, Opens, hlock]
  have hupTo : w.relocked.DecryptsUpToOpening K strOld w.mapMasterKeys.entries ↔
      w.DecryptsUpToOpening K strOld w.mapMasterKeys.entries := by
    simp only [DecryptsUpToOpening, hopens]
  rcases changeLoop_spec (E := E) hK hanswers strOld strNew w.store.isLocked
      w.mapMasterKeys.entries with
    ⟨before, nID, k, after, m, key, c, hsplit, hbefore, hdecrypt, hopen, hkey, hencrypt, hloop⟩ |
      ⟨hno, hloop⟩
  · -- the passphrase is changed
    refine iff_of_true (fun w' ok hresult ↦ ?_)
      (.inr (hupTo.mp ⟨before, nID, k, after, hsplit, hbefore, m, hdecrypt, hopen⟩))
    rw [step_changeWalletPassphrase, hloop] at hresult
    obtain ⟨rfl, rfl⟩ := Prod.mk.inj (Option.some.inj hresult)
    refine ⟨nofun, fun strOld' strNew' hop _ ↦ ?_⟩
    obtain ⟨rfl, rfl⟩ := PassphraseOp.changeWalletPassphrase.inj hop
    refine ⟨changed_unlocks hK hanswers w.store.isLocked hsplit hbefore hopen hkey hencrypt, ?_⟩
    have hsize : m ≠ [] := by
      obtain ⟨-, chKey, chIV, m', hm', hsealed⟩ := hw.masterKeys nID k
        (SortedMap.lookup_eq_some.mpr (by
          rw [hsplit]
          exact List.mem_append_right _ List.mem_cons_self))
      rw [CMasterKey.decrypt, Option.bind_eq_bind, Option.bind_eq_some_iff] at hdecrypt
      obtain ⟨key', -, hm⟩ := hdecrypt
      obtain rfl := (hK.encrypt_inj (hK.decrypt_eq_some.mp hm) hsealed).2
      exact List.ne_nil_of_length_pos (by rw [hm']; decide)
    rw [changed_store hanswers.1, hstate, lockState_withMasterKey hanswers.1]
    cases w.store.isLocked with
    | true => rfl
    | false => exact congrArg some (List.isEmpty_eq_false_iff.mpr hsize)
  · -- it is not, and the wallet stays locked
    rw [or_iff_left (mt hupTo.mpr hno)]
    constructor
    · intro hatomic
      obtain ⟨hsame, -⟩ := (hatomic _ false hloop).1 rfl
      rw [hstate, hlock, lockState_withMasterKey hcrypted] at hsame
      exact (Option.some.inj hsame).symm
    · intro hwas w' ok hresult
      rw [step_changeWalletPassphrase, hloop] at hresult
      obtain ⟨rfl, rfl⟩ := Prod.mk.inj (Option.some.inj hresult)
      refine ⟨fun _ ↦ ?_, fun _ _ _ h ↦ absurd h Bool.false_ne_true⟩
      have hsame : w.relocked = w := by
        have hnil : w.store.vMasterKey = [] := by
          rw [hlocked, List.isEmpty_iff] at hwas
          exact hwas
        have hstore : w.store.lock.1 = w.store := by
          rw [lock_of_crypted hcrypted, ← hnil]
        rw [relocked, hstore]
      rw [hsame]
      exact ⟨rfl, rfl, fun _ ↦ Iff.rfl⟩

theorem atomic_changeWalletPassphrase_iff (hK : K.Ideal) {w : PassphraseWallet} (hw : w.Valid K)
    (strOld strNew : Bytes) :
    w.Atomic K E (.changeWalletPassphrase strOld strNew) ↔
      if w.store.isCrypted then
        w.store.isLocked = true ∨ w.DecryptsUpToOpening K strOld w.mapMasterKeys.entries
      else w.store.mapKeys ≠ ∅ := by
  obtain ⟨r, hkeeps⟩ := hw.store
  by_cases hcrypted : w.store.isCrypted = true
  · rw [if_pos hcrypted]
    exact atomic_change_of_crypted hK hw hcrypted strOld strNew
  · have hplain : w.store.fUseCrypto = false := Bool.eq_false_of_not_eq_true hcrypted
    rw [if_neg hcrypted]
    constructor
    · intro hatomic hkeys
      exact not_atomic_change_of_no_keys hK hkeeps hplain hkeys strOld strNew hatomic
    · intro hkeys
      exact atomic_change_of_keys hplain hkeys strOld strNew

/-! ### A cipher that satisfies the laws -/

/-- A ciphertext that shows its key, and a passphrase that is its own key. -/
def sampleCipher : PassphraseCrypto where
  aesEncrypt := fun chKey _ plaintext ↦
    if chKey.length = walletCryptoKeySize then some (chKey ++ plaintext) else none
  aesDecrypt := fun chKey _ ciphertext ↦
    if chKey.length = walletCryptoKeySize ∧ ciphertext.take walletCryptoKeySize = chKey then
      some (ciphertext.drop walletCryptoKeySize)
    else none
  publicKey := CCryptoKeyStore.sampleCrypto.publicKey
  hash160 := CCryptoKeyStore.sampleCrypto.hash160
  hash := CCryptoKeyStore.sampleCrypto.hash
  bytesToKey := fun strKeyData chSalt _ ↦
    ((strKeyData ++ List.replicate walletCryptoKeySize 0).take walletCryptoKeySize, chSalt)

theorem sampleCipher_ideal : sampleCipher.Ideal where
  decrypt_eq_some := by
    intro chKey chIV c m
    constructor
    · intro h
      obtain ⟨⟨hsize, htake⟩, hdrop⟩ := Option.ite_none_right_eq_some.mp h
      refine Option.ite_none_right_eq_some.mpr ⟨hsize, congrArg some ?_⟩
      rw [← htake, ← Option.some.inj hdrop, List.take_append_drop]
    · intro h
      obtain ⟨hsize, hc⟩ := Option.ite_none_right_eq_some.mp h
      refine Option.ite_none_right_eq_some.mpr ⟨⟨hsize, ?_⟩, congrArg some ?_⟩
      · rw [← Option.some.inj hc, ← hsize, List.take_left]
      · rw [← Option.some.inj hc, ← hsize, List.drop_left]
  encrypt_inj := by
    intro chKey chKey' chIV chIV' m m' c h h'
    obtain ⟨hsize, hc⟩ := Option.ite_none_right_eq_some.mp h
    obtain ⟨hsize', hc'⟩ := Option.ite_none_right_eq_some.mp h'
    exact List.append_inj (Option.some.inj (hc.trans hc'.symm)) (hsize.trans hsize'.symm)
  encrypt_isSome := by
    intro chKey chIV m h
    rw [show sampleCipher.aesEncrypt chKey chIV m = some (chKey ++ m) from if_pos h]
    rfl
  length_bytesToKey := by
    intro strKeyData chSalt nRounds
    simp [sampleCipher]

theorem sampleCipher_keyIdeal : sampleCipher.toKeyCrypto.Ideal where
  decrypt_encrypt := fun _ _ _ _ h ↦ sampleCipher_ideal.decrypt_eq_some.mpr h
  decrypt_wrong := fun _ _ _ _ _ h hne hdecrypt ↦
    hne (sampleCipher_ideal.encrypt_inj (sampleCipher_ideal.decrypt_eq_some.mp hdecrypt) h).1
  length_publicKey := CCryptoKeyStore.sampleCrypto_ideal.length_publicKey
  publicKey_inj := CCryptoKeyStore.sampleCrypto_ideal.publicKey_inj

/-- A wallet file whose transactions begin, or not. -/
def sampleEnv (txnBegin : Bool) : PassphraseEnv where
  fFileBacked := true
  txnBegin := txnBegin
  txnCommit := true
  vMasterKey := List.replicate 32 5
  vchSalt := List.replicate 8 7
  length_vMasterKey := rfl
  length_vchSalt := rfl
  firstTiming := id
  secondTiming := id
  newKeyPool := id

/-- A wallet with one key that is not encrypted. -/
def sampleWallet : PassphraseWallet :=
  ⟨(CCryptoKeyStore.empty.addKeyPubKey sampleCipher.toKeyCrypto
    (CCryptoKeyStore.sampleKey 1 CCryptoKeyStore.check_sampleKey) (2 :: List.replicate 32 1)).1, ∅, 0⟩

theorem sampleWallet_valid : sampleWallet.Valid sampleCipher :=
  @valid_of_run sampleCipher sampleCipher_keyIdeal
    [.addKey (CCryptoKeyStore.sampleKey 1 (by decide))] _ _ rfl

end PassphraseWallet

/-- For every wallet, operation and passphrase: an operation that returns `false` leaves the lock,
the master keys and the passphrases as they were, and a changed passphrase unlocks the wallet, which
is locked as before, except in three cases. `EncryptWallet` has put its master key into the map when
the database transaction does not begin; `ChangeWalletPassphrase` leaves an unlocked wallet locked
unless the old passphrase decrypts the master keys up to one that opens the key store, and turns
encryption on in a wallet that is not encrypted and has no key. -/
theorem passphraseOps_atomic_iff (K : PassphraseCrypto) (E : PassphraseEnv) (hK : K.Ideal)
    (w : PassphraseWallet) (hw : w.Valid K) (op : PassphraseOp) :
    w.Atomic K E op ↔
      match op with
      | .encryptWallet _ => w.store.isCrypted = true ∨ ¬ (E.fFileBacked = true ∧ E.txnBegin = false)
      | .unlock _ => True
      | .changeWalletPassphrase strOld _ =>
        if w.store.isCrypted then
          w.store.isLocked = true ∨ w.DecryptsUpToOpening K strOld w.mapMasterKeys.entries
        else w.store.mapKeys ≠ ∅ := by
  cases op with
  | encryptWallet strPassphrase => exact PassphraseWallet.atomic_encryptWallet_iff hK hw strPassphrase
  | unlock strPassphrase => exact iff_true_intro (PassphraseWallet.atomic_unlock hw strPassphrase)
  | changeWalletPassphrase strOld strNew =>
    exact PassphraseWallet.atomic_changeWalletPassphrase_iff hK hw strOld strNew

open PassphraseWallet

/-- A wallet that is encrypted and unlocked under one passphrase and then changed to another. -/
theorem passphraseOps_atomic_iff_sample :
    ∃ w₁ w₂ w₃, sampleWallet.step sampleCipher (sampleEnv true) (.encryptWallet [1]) =
        some (w₁, true) ∧
      w₁.step sampleCipher (sampleEnv true) (.unlock [1]) = some (w₂, true) ∧
      w₂.step sampleCipher (sampleEnv true) (.changeWalletPassphrase [1] [2]) = some (w₃, true) ∧
      w₂.Atomic sampleCipher (sampleEnv true) (.changeWalletPassphrase [1] [2]) := by
  refine ⟨_, _, _, rfl, rfl, rfl, ?_⟩
  refine (passphraseOps_atomic_iff sampleCipher (sampleEnv true) sampleCipher_ideal _ ?_ _).mpr ?_
  · have hpool : ∀ s r, s.Keeps sampleCipher.toKeyCrypto r →
        ∃ r', ((sampleEnv true).newKeyPool s).Keeps sampleCipher.toKeyCrypto r' :=
      fun _ r h ↦ ⟨r, h⟩
    have hencrypted := sampleWallet_valid.step sampleCipher_keyIdeal sampleCipher_ideal hpool
      (show sampleWallet.step _ _ (.encryptWallet [1]) = some (_, true) from rfl)
    exact hencrypted.step sampleCipher_keyIdeal sampleCipher_ideal hpool
      (show _ = some (_, true) from (rfl : PassphraseWallet.step _ _ _ (.unlock [1]) = _))
  · exact .inr ⟨[], _, _, [], rfl, nofun, _, rfl, rfl⟩

/-- With a passphrase that is not the old one, the change returns `false` and the unlocked wallet is
locked; and when the transaction does not begin, `EncryptWallet` returns `false` and leaves its
master key behind. -/
theorem passphraseOps_not_atomic :
    (∃ w₁ w₂ w₃, sampleWallet.step sampleCipher (sampleEnv true) (.encryptWallet [1]) =
        some (w₁, true) ∧
      w₁.step sampleCipher (sampleEnv true) (.unlock [1]) = some (w₂, true) ∧
      w₂.step sampleCipher (sampleEnv true) (.changeWalletPassphrase [3] [2]) = some (w₃, false) ∧
      w₂.store.lockState = some false ∧ w₃.store.lockState = some true ∧
      ¬ w₂.Atomic sampleCipher (sampleEnv true) (.changeWalletPassphrase [3] [2])) ∧
    ∃ w₁, sampleWallet.step sampleCipher (sampleEnv false) (.encryptWallet [1]) =
        some (w₁, false) ∧
      w₁.mapMasterKeys ≠ sampleWallet.mapMasterKeys ∧
      ¬ sampleWallet.Atomic sampleCipher (sampleEnv false) (.encryptWallet [1]) := by
  refine ⟨⟨_, _, _, rfl, rfl, rfl, rfl, rfl, fun hatomic ↦ ?_⟩, _, rfl, by decide, fun hatomic ↦ ?_⟩
  · have hsame := ((hatomic _ false rfl).1 rfl).1
    cases hsame
  · have hsame := ((hatomic _ false rfl).1 rfl).2.1
    cases hsame

end Bitmark
