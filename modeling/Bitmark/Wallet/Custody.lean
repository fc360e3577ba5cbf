import Bitmark.Wallet.CryptoKeyStore

/-!
# What the key store keeps

The purpose of the store is a record of the keys that were added, whether they are encrypted and
under which master key, and the master key at hand. The store agrees with the record that its
successful calls leave: keys come back as they were added, and only under their master key.
-/

namespace Bitmark

/-- The idealized cipher and the curve: ciphertexts open under their own key and never to their
secret under another, and a public key shows its form and determines its secret. -/
structure KeyCrypto.Ideal (C : KeyCrypto) : Prop where
  decrypt_encrypt : ∀ chKey chIV plaintext ciphertext,
    C.aesEncrypt chKey chIV plaintext = some ciphertext →
      C.aesDecrypt chKey chIV ciphertext = some plaintext
  decrypt_wrong : ∀ chKey chKey' chIV plaintext ciphertext,
    C.aesEncrypt chKey chIV plaintext = some ciphertext → chKey' ≠ chKey →
      C.aesDecrypt chKey' chIV ciphertext ≠ some plaintext
  length_publicKey : ∀ key : CKey, key.fValid = true →
    (C.publicKey key.vch key.fCompressed).length = if key.fCompressed then 33 else 65
  publicKey_inj : ∀ key key' : CKey, key.fValid = true → key'.fValid = true →
    key.fCompressed = key'.fCompressed →
      C.publicKey key.vch key.fCompressed = C.publicKey key'.vch key'.fCompressed →
        key.vch = key'.vch

/-- What was asked of a store. `sealedUnder` is the master key of its encrypted secrets, once it
has some. -/
structure KeyRecord where
  keys : SortedMap CKeyID CKey
  encrypted : Bool
  current : CKeyingMaterial
  sealedUnder : Option CKeyingMaterial

namespace KeyRecord

/-- Before the first call. -/
def empty : KeyRecord := ⟨∅, false, [], none⟩

/-- A call that returned `true`. A store that is encrypted while it holds no key takes the master
key of its first key from the `Unlock` before it. -/
def note (C : KeyCrypto) (r : KeyRecord) : KeyStoreOp → KeyRecord
  | .addKey key =>
    { r with
      keys := r.keys.insert (C.hash160 (C.publicKey key.vch key.fCompressed)) key
      sealedUnder := if r.encrypted then some (r.sealedUnder.getD r.current) else none }
  | .addCScript _ => r
  | .encryptWallet vMasterKey =>
    { r with encrypted := true, sealedUnder := if r.keys = ∅ then none else some vMasterKey }
  | .lock => { r with encrypted := true, current := [] }
  | .unlock vMasterKeyIn => { r with encrypted := true, current := vMasterKeyIn }

/-- The record of a log of calls and their results. -/
def after (C : KeyCrypto) (r : KeyRecord) (log : List (KeyStoreOp × Bool)) : KeyRecord :=
  log.foldl (fun r entry ↦ if entry.2 then r.note C entry.1 else r) r

end KeyRecord

/-- The entry that stands for a key encrypted under a master key. -/
def SealedAs (C : KeyCrypto) (vMasterKey : CKeyingMaterial) (key : CKey)
    (entry : CPubKey × Bytes) : Prop :=
  entry.1 = C.publicKey key.vch key.fCompressed ∧
    encryptSecret C vMasterKey key.vch (C.hash entry.1) = some entry.2

namespace CCryptoKeyStore

/-- The store and the record agree. -/
structure Keeps (C : KeyCrypto) (s : CCryptoKeyStore) (r : KeyRecord) : Prop where
  crypted : s.fUseCrypto = r.encrypted
  current : s.vMasterKey = r.current
  keys_valid : ∀ id key, r.keys.lookup id = some key →
    key.fValid = true ∧ id = C.hash160 (C.publicKey key.vch key.fCompressed)
  sealed_some : ∀ vMasterKey, r.sealedUnder = some vMasterKey → r.keys ≠ ∅ ∧
    (r.current ≠ [] → r.current = vMasterKey)
  plain : r.encrypted = false →
    s.mapKeys = r.keys ∧ s.mapCryptedKeys = ∅ ∧ r.current = [] ∧ r.sealedUnder = none
  sealed_none : r.encrypted = true → ∀ id, r.keys.lookup id = none →
    s.mapCryptedKeys.lookup id = none
  sealed_key : r.encrypted = true → ∀ id key, r.keys.lookup id = some key →
    ∃ vMasterKey entry, r.sealedUnder = some vMasterKey ∧
      s.mapCryptedKeys.lookup id = some entry ∧ SealedAs C vMasterKey key entry
  emptied : r.encrypted = true → s.mapKeys = ∅

variable {C : KeyCrypto} {s s' : CCryptoKeyStore} {r : KeyRecord}

/-! ### Secrets under the right and the wrong key -/

theorem setKey_of_length {chKey : Bytes} (h : chKey.length = 32) (x : Uint256) :
    CCrypter.setKey chKey (bytes256 x) = some (chKey, bytes256 x) := by
  rw [CCrypter.setKey, if_neg]
  rw [length_bytes256, walletCryptoKeySize, h]
  decide

theorem setKey_of_length_ne {chKey : Bytes} (h : chKey.length ≠ 32) (chIV : Bytes) :
    CCrypter.setKey chKey chIV = none :=
  if_pos (.inl h)

theorem length_of_encryptSecret {vMasterKey vch ciphertext : Bytes} {nIV : Uint256}
    (h : encryptSecret C vMasterKey vch nIV = some ciphertext) : vMasterKey.length = 32 := by
  by_contra hne
  rw [encryptSecret, setKey_of_length_ne hne] at h
  cases h

theorem decryptSecret_encryptSecret (hC : C.Ideal) {vMasterKey vch ciphertext : Bytes}
    {nIV : Uint256} (h : encryptSecret C vMasterKey vch nIV = some ciphertext) :
    decryptSecret C vMasterKey ciphertext nIV = some vch := by
  have hlength := length_of_encryptSecret h
  rw [encryptSecret, setKey_of_length hlength] at h
  rw [decryptSecret, setKey_of_length hlength]
  exact hC.decrypt_encrypt _ _ _ _ h

theorem decryptSecret_wrong (hC : C.Ideal) {vMasterKey vMasterKey' vch ciphertext : Bytes}
    {nIV : Uint256} (h : encryptSecret C vMasterKey vch nIV = some ciphertext)
    (hne : vMasterKey' ≠ vMasterKey) : decryptSecret C vMasterKey' ciphertext nIV ≠ some vch := by
  rw [encryptSecret, setKey_of_length (length_of_encryptSecret h)] at h
  by_cases hlength : vMasterKey'.length = 32
  · rw [decryptSecret, setKey_of_length hlength]
    exact hC.decrypt_wrong _ _ _ _ _ h hne
  · rw [decryptSecret, setKey_of_length_ne hlength]
    exact (Option.some_ne_none vch).symm

theorem isCompressed_publicKey (hC : C.Ideal) {key : CKey} (h : key.fValid = true) :
    CPubKey.isCompressed (C.publicKey key.vch key.fCompressed) = key.fCompressed := by
  rw [CPubKey.isCompressed, hC.length_publicKey key h]
  cases key.fCompressed <;> rfl

/-- A valid key is made again from its bytes and its form. -/
theorem set_vch {key : CKey} (h : key.fValid = true) : CKey.set key.vch key.fCompressed = key := by
  obtain ⟨fValid, fCompressed, vch, hsize, hcheck⟩ := key
  subst h
  rw [CKey.set, dif_pos hsize, dif_pos (hcheck rfl)]

/-- The first entry of an encrypted store opens under its master key. -/
theorem opens_right (hC : C.Ideal) {vMasterKey : CKeyingMaterial} {key : CKey}
    (hvalid : key.fValid = true) {entry : CPubKey × Bytes} (h : SealedAs C vMasterKey key entry)
    (id : CKeyID) (rest : List (CKeyID × CPubKey × Bytes)) :
    opens C vMasterKey ((id, entry) :: rest) = some true := by
  obtain ⟨vchPubKey, vchCryptedSecret⟩ := entry
  obtain ⟨rfl, hsecret⟩ := h
  rw [opens, decryptSecret_encryptSecret hC hsecret]
  simp only [key.size_vch, isCompressed_publicKey hC hvalid, set_vch hvalid, CKey.getPubKey, hvalid]
  simp

/-- It does not open under another one. -/
theorem opens_wrong (hC : C.Ideal) {vMasterKey vMasterKeyIn : CKeyingMaterial} {key : CKey}
    (hvalid : key.fValid = true) {entry : CPubKey × Bytes} (h : SealedAs C vMasterKey key entry)
    (id : CKeyID) (rest : List (CKeyID × CPubKey × Bytes)) (hne : vMasterKeyIn ≠ vMasterKey) :
    opens C vMasterKeyIn ((id, entry) :: rest) ≠ some true := by
  obtain ⟨vchPubKey, vchCryptedSecret⟩ := entry
  obtain ⟨rfl, hsecret⟩ := h
  have hwrong := decryptSecret_wrong hC hsecret hne
  rw [opens]
  cases hdecrypt : decryptSecret C vMasterKeyIn vchCryptedSecret _ with
  | none => simp
  | some vchSecret =>
    rw [hdecrypt] at hwrong
    by_cases hsize : vchSecret.length = 32
    · by_cases hcheck : CKey.check vchSecret = true
      · -- the secret is in range, so another secret shows in another public key
        have hpubkey : C.publicKey vchSecret key.fCompressed ≠ C.publicKey key.vch key.fCompressed := by
          intro heq
          exact hwrong (congrArg some (hC.publicKey_inj
            ⟨true, key.fCompressed, vchSecret, hsize, fun _ ↦ hcheck⟩ key rfl hvalid rfl heq))
        simp [hsize, isCompressed_publicKey hC hvalid, CKey.set, hcheck, CKey.getPubKey, hpubkey]
      · simp [hsize, CKey.set, hcheck, CKey.getPubKey, CKey.invalid]
    · simp [hsize]

/-! ### What the agreement says -/

theorem keeps_empty : empty.Keeps C KeyRecord.empty where
  crypted := rfl
  current := rfl
  keys_valid := by
    intro id key h
    cases h
  sealed_some := by
    intro vMasterKey h
    cases h
  plain := fun _ ↦ ⟨rfl, rfl, rfl, rfl⟩
  sealed_none := fun _ _ _ ↦ rfl
  sealed_key := by
    intro h
    cases h
  emptied := by
    intro h
    cases h

/-- Each entry of an encrypted store stands for a key. -/
theorem Keeps.key_of_entry (h : s.Keeps C r) (hcrypted : r.encrypted = true) {id : CKeyID}
    {entry : CPubKey × Bytes} (hentry : (id, entry) ∈ s.mapCryptedKeys.entries) :
    ∃ key vMasterKey, r.keys.lookup id = some key ∧ r.sealedUnder = some vMasterKey ∧
      SealedAs C vMasterKey key entry := by
  have hlookup := SortedMap.lookup_eq_some.mpr hentry
  cases hkey : r.keys.lookup id with
  | none =>
    rw [h.sealed_none hcrypted id hkey] at hlookup
    cases hlookup
  | some key =>
    obtain ⟨vMasterKey, entry', hsealed, hlookup', has⟩ := h.sealed_key hcrypted id key hkey
    obtain rfl := Option.some.inj (hlookup.symm.trans hlookup')
    exact ⟨key, vMasterKey, rfl, hsealed, has⟩

/-- An encrypted store opens under the master key of its secrets, and under any while it has
none. -/
theorem Keeps.opens_iff (hC : C.Ideal) (h : s.Keeps C r) (hcrypted : r.encrypted = true)
    (vMasterKeyIn : CKeyingMaterial) :
    opens C vMasterKeyIn s.mapCryptedKeys.entries = some true ↔
      ∀ vMasterKey, r.sealedUnder = some vMasterKey → vMasterKeyIn = vMasterKey := by
  cases hentries : s.mapCryptedKeys.entries with
  | nil =>
    refine iff_of_true rfl ?_
    intro vMasterKey hsealed
    refine absurd (SortedMap.eq_empty_iff.mpr fun id ↦ ?_) (h.sealed_some vMasterKey hsealed).1
    by_contra hne
    obtain ⟨key, hkey⟩ := Option.ne_none_iff_exists'.mp hne
    obtain ⟨-, entry, -, hlookup, -⟩ := h.sealed_key hcrypted id key hkey
    rw [SortedMap.lookup_eq_some, hentries] at hlookup
    cases hlookup
  | cons first rest =>
    obtain ⟨id, entry⟩ := first
    obtain ⟨key, vMasterKey, hkey, hsealed, has⟩ :=
      h.key_of_entry hcrypted (by rw [hentries]; exact List.mem_cons_self)
    have hvalid := (h.keys_valid id key hkey).1
    constructor
    · intro hopens vMasterKey' hsealed'
      obtain rfl := Option.some.inj (hsealed.symm.trans hsealed')
      by_contra hne
      exact opens_wrong hC hvalid has id rest hne hopens
    · intro hright
      rw [hright vMasterKey hsealed]
      exact opens_right hC hvalid has id rest

theorem Keeps.isLocked_iff (h : s.Keeps C r) :
    s.isLocked = true ↔ r.encrypted = true ∧ r.current = [] := by
  rw [isLocked, isCrypted, h.crypted, h.current, Bool.and_eq_true, List.isEmpty_iff]

theorem Keeps.getKey_locked (h : s.Keeps C r) (hlocked : s.isLocked = true) (id : CKeyID) :
    s.getKey C id = none := by
  obtain ⟨hcrypted, hcurrent⟩ := h.isLocked_iff.mp hlocked
  rw [getKey, isCrypted, h.crypted, hcrypted]
  cases s.mapCryptedKeys.lookup id with
  | none => rfl
  | some entry =>
    have hnone : decryptSecret C s.vMasterKey entry.2 (C.hash entry.1) = none := by
      rw [h.current, hcurrent, decryptSecret, setKey_of_length_ne (by decide)]
      rfl
    simp [hnone]

theorem Keeps.getKey_unlocked (hC : C.Ideal) (h : s.Keeps C r) (hunlocked : s.isLocked = false)
    (id : CKeyID) : s.getKey C id = r.keys.lookup id := by
  cases hcrypted : r.encrypted with
  | false =>
    rw [getKey, isCrypted, h.crypted, hcrypted, ← (h.plain hcrypted).1]
    rfl
  | true =>
    have hcurrent : r.current ≠ [] := by
      intro hempty
      rw [h.isLocked_iff.mpr ⟨hcrypted, hempty⟩] at hunlocked
      cases hunlocked
    rw [getKey, isCrypted, h.crypted, hcrypted]
    cases hkey : r.keys.lookup id with
    | none =>
      rw [h.sealed_none hcrypted id hkey]
      rfl
    | some key =>
      obtain ⟨vMasterKey, ⟨vchPubKey, vchCryptedSecret⟩, hsealed, hlookup, rfl, hsecret⟩ :=
        h.sealed_key hcrypted id key hkey
      obtain rfl := (h.sealed_some vMasterKey hsealed).2 hcurrent
      have hdecrypt := decryptSecret_encryptSecret hC hsecret
      have hvalid := (h.keys_valid id key hkey).1
      simp [hlookup, h.current, hdecrypt, key.size_vch, isCompressed_publicKey hC hvalid,
        set_vch hvalid]

/-! ### One call -/

/-- `SetCrypted` refuses only a plain store with keys, which it leaves alone. -/
theorem Keeps.setCrypted (h : s.Keeps C r) :
    (s.setCrypted = (s, false) ∧ r.encrypted = false) ∨
      ∃ s', s.setCrypted = (s', true) ∧ s'.Keeps C { r with encrypted := true } ∧
        (r.encrypted = true → s' = s) ∧ (r.encrypted = false → r.sealedUnder = none) := by
  cases hcrypted : r.encrypted with
  | true =>
    have hsame : { r with encrypted := true } = r := by rw [← hcrypted]
    refine .inr ⟨s, ?_, hsame ▸ h, fun _ ↦ rfl, by simp⟩
    rw [CCryptoKeyStore.setCrypted, h.crypted, hcrypted]
    rfl
  | false =>
    obtain ⟨hkeys, hnone, hcurrent, hsealed⟩ := h.plain hcrypted
    by_cases hempty : s.mapKeys = ∅
    · have hlookup : ∀ id, r.keys.lookup id = none := by
        intro id
        rw [← hkeys, hempty, SortedMap.lookup_empty]
      refine .inr ⟨{ s with fUseCrypto := true }, ?_, ?_, by simp, fun _ ↦ hsealed⟩
      · rw [CCryptoKeyStore.setCrypted, h.crypted, hcrypted, if_neg (by simp),
          if_neg (not_not.mpr hempty)]
      · refine ⟨rfl, h.current, h.keys_valid, h.sealed_some, by simp, ?_, ?_, fun _ ↦ hempty⟩
        · intro _ id _
          exact SortedMap.eq_empty_iff.mp hnone id
        · intro _ id key hkey
          rw [hlookup] at hkey
          cases hkey
    · refine .inl ⟨?_, rfl⟩
      rw [CCryptoKeyStore.setCrypted, h.crypted, hcrypted, if_neg (by simp), if_pos hempty]

/-- A call keeps the agreement: what it did is noted when it returned `true`, and it did nothing
when it returned `false`. -/
def StepKeeps (C : KeyCrypto) (s : CCryptoKeyStore) (r : KeyRecord) (op : KeyStoreOp)
    (result : CCryptoKeyStore × Bool) : Prop :=
  if result.2 then result.1.Keeps C (r.note C op) else result.1 = s

theorem Keeps.lock (h : s.Keeps C r) : StepKeeps C s r .lock s.lock := by
  rw [CCryptoKeyStore.lock]
  rcases h.setCrypted with ⟨hset, -⟩ | ⟨s', hset, h', -⟩
  · rw [hset]
    rfl
  · rw [hset]
    refine ⟨h'.crypted, rfl, h'.keys_valid, ?_, ?_, h'.sealed_none, h'.sealed_key, h'.emptied⟩
    · intro vMasterKey hsealed
      exact ⟨(h'.sealed_some vMasterKey hsealed).1, fun hne ↦ absurd rfl hne⟩
    · intro hplain
      cases hplain

theorem Keeps.unlock (hC : C.Ideal) (h : s.Keeps C r) {vMasterKeyIn : CKeyingMaterial}
    {result : CCryptoKeyStore × Bool} (hs : s.unlock C vMasterKeyIn = some result) :
    StepKeeps C s r (.unlock vMasterKeyIn) result := by
  rw [CCryptoKeyStore.unlock] at hs
  rcases h.setCrypted with ⟨hset, -⟩ | ⟨s', hset, h', hsame, hsealed⟩
  · rw [hset] at hs
    obtain rfl := Option.some.inj hs
    rfl
  · rw [hset] at hs
    have hopens := h'.opens_iff hC rfl vMasterKeyIn
    cases hok : opens C vMasterKeyIn s'.mapCryptedKeys.entries with
    | none =>
      simp only [hok] at hs
      cases hs
    | some ok =>
      cases ok with
      | true =>
        simp only [hok] at hs
        obtain rfl := Option.some.inj hs
        refine ⟨h'.crypted, rfl, h'.keys_valid, ?_, ?_, h'.sealed_none, h'.sealed_key, h'.emptied⟩
        · intro vMasterKey hsome
          exact ⟨(h'.sealed_some vMasterKey hsome).1, fun _ ↦ hopens.mp hok vMasterKey hsome⟩
        · intro hplain
          cases hplain
      | false =>
        simp only [hok] at hs
        obtain rfl := Option.some.inj hs
        refine hsame ?_
        -- a store that `Unlock` has just turned to encryption is empty and opens
        by_contra hplain
        have htrue := hopens.mpr fun vMasterKey hsome ↦ by
          rw [hsealed (Bool.eq_false_iff.mpr hplain)] at hsome
          cases hsome
        rw [htrue] at hok
        cases hok

theorem Keeps.addCScript (h : s.Keeps C r) (redeemScript : Bytes) :
    StepKeeps C s r (.addCScript redeemScript) (s.addCScript C redeemScript) := by
  rw [CCryptoKeyStore.addCScript]
  split
  · rfl
  · exact ⟨h.crypted, h.current, h.keys_valid, h.sealed_some, h.plain, h.sealed_none, h.sealed_key,
      h.emptied⟩

theorem getPubKey_eq_some {key : CKey} {pubkey : CPubKey} :
    key.getPubKey C = some pubkey ↔
      key.fValid = true ∧ pubkey = C.publicKey key.vch key.fCompressed := by
  rw [CKey.getPubKey, Option.ite_none_right_eq_some, Option.some.injEq, eq_comm (a := pubkey)]

/-- An added key is looked up under its own identifier. -/
theorem lookup_insert_key {keys : SortedMap CKeyID CKey} {key key' : CKey} {id id' : CKeyID}
    (h : (keys.insert id key).lookup id' = some key') :
    id' = id ∧ key' = key ∨ id' ≠ id ∧ keys.lookup id' = some key' := by
  rw [SortedMap.lookup_insert] at h
  split at h
  · next hid => exact .inl ⟨hid, (Option.some.inj h).symm⟩
  · next hid => exact .inr ⟨hid, h⟩

theorem insert_key_ne_empty {keys : SortedMap CKeyID CKey} {key : CKey} {id : CKeyID} :
    keys.insert id key ≠ ∅ := by
  intro h
  have hlookup := SortedMap.eq_empty_iff.mp h id
  rw [SortedMap.lookup_insert_self] at hlookup
  cases hlookup

theorem addCryptedKey_of_crypted (h : s.fUseCrypto = true) (vchPubKey : CPubKey)
    (vchCryptedSecret : Bytes) :
    s.addCryptedKey C vchPubKey vchCryptedSecret =
      ({ s with mapCryptedKeys :=
          s.mapCryptedKeys.insert (C.hash160 vchPubKey) (vchPubKey, vchCryptedSecret) }, true) := by
  rw [addCryptedKey, CCryptoKeyStore.setCrypted, if_pos h]

theorem Keeps.addKey (h : s.Keeps C r) {key : CKey} {result : CCryptoKeyStore × Bool}
    (hs : s.addKey C key = some result) : StepKeeps C s r (.addKey key) result := by
  rw [CCryptoKeyStore.addKey, Option.bind_eq_bind, Option.bind_eq_some_iff] at hs
  obtain ⟨pubkey, hpubkey, hs⟩ := hs
  obtain ⟨hvalid, rfl⟩ := getPubKey_eq_some.mp hpubkey
  obtain rfl := Option.some.inj hs
  have hkeys_valid : ∀ id' key',
      (r.keys.insert (C.hash160 (C.publicKey key.vch key.fCompressed)) key).lookup id' = some key' →
        key'.fValid = true ∧ id' = C.hash160 (C.publicKey key'.vch key'.fCompressed) := by
    intro id' key' hlookup
    rcases lookup_insert_key hlookup with ⟨rfl, rfl⟩ | ⟨-, hlookup⟩
    · exact ⟨hvalid, rfl⟩
    · exact h.keys_valid id' key' hlookup
  have hbytes : key.bytes = key.vch := if_pos hvalid
  have hisCrypted : s.isCrypted = r.encrypted := h.crypted
  rw [addKeyPubKey, hisCrypted]
  cases hcrypted : r.encrypted with
  | false =>
    obtain ⟨hkeys, hnone, hcurrent, -⟩ := h.plain hcrypted
    rw [if_pos (by decide)]
    refine ⟨h.crypted, h.current, hkeys_valid, ?_, ?_, ?_, ?_, ?_⟩
    · intro vMasterKey hsealed
      simp [KeyRecord.note, hcrypted] at hsealed
    · intro _
      refine ⟨?_, hnone, hcurrent, ?_⟩
      · change s.mapKeys.insert _ key = r.keys.insert _ key
        rw [hkeys]
      · simp [KeyRecord.note, hcrypted]
    all_goals
      intro htrue
      exact absurd (htrue.symm.trans hcrypted) (by decide)
  | true =>
    by_cases hlocked : s.isLocked = true
    · rw [if_neg (by decide), if_pos hlocked]
      rfl
    · rw [if_neg (by decide), if_neg hlocked, hbytes]
      cases hsecret : encryptSecret C s.vMasterKey key.vch _ with
      | none => rfl
      | some vchCryptedSecret =>
        dsimp only
        rw [addCryptedKey_of_crypted (h.crypted.trans hcrypted)]
        have hcurrent : r.current ≠ [] := by
          intro hempty
          exact hlocked (h.isLocked_iff.mpr ⟨hcrypted, hempty⟩)
        -- the master key at hand is the one of the secrets that are there
        have hunder : r.sealedUnder.getD r.current = r.current := by
          cases hsealed : r.sealedUnder with
          | none => rfl
          | some vMasterKey => exact ((h.sealed_some vMasterKey hsealed).2 hcurrent).symm
        have hnote : (r.note C (.addKey key)).sealedUnder = some r.current := by
          rw [KeyRecord.note, hcrypted, if_pos rfl, hunder]
        refine ⟨h.crypted, h.current, hkeys_valid, ?_, ?_, ?_, ?_, fun _ ↦ h.emptied hcrypted⟩
        · intro vMasterKey hsealed
          obtain rfl := Option.some.inj (hnote.symm.trans hsealed)
          exact ⟨insert_key_ne_empty, fun _ ↦ rfl⟩
        · intro hplain
          exact absurd (hplain.symm.trans hcrypted) (by decide)
        · intro _ id hid
          rw [KeyRecord.note, SortedMap.lookup_insert] at hid
          split at hid
          · cases hid
          · next hne =>
            rw [SortedMap.lookup_insert_of_ne _ _ hne]
            exact h.sealed_none hcrypted id hid
        · intro _ id key' hkey'
          rcases lookup_insert_key hkey' with ⟨rfl, rfl⟩ | ⟨hne, hlookup⟩
          · exact ⟨r.current, _, hnote, SortedMap.lookup_insert_self .., rfl, h.current ▸ hsecret⟩
          · obtain ⟨vMasterKey, entry, hsealed, hentry, has⟩ := h.sealed_key hcrypted id key' hlookup
            obtain rfl := (h.sealed_some vMasterKey hsealed).2 hcurrent
            refine ⟨r.current, entry, hnote, ?_, has⟩
            rw [SortedMap.lookup_insert_of_ne _ _ hne, hentry]

/-- The loop of `EncryptKeys`, when it gets to its end, leaves an entry for each key and touches
no other. -/
theorem encryptEach_keeps {vMasterKeyIn : CKeyingMaterial} {l : List (CKeyID × CKey)}
    (hnodup : (l.map Prod.fst).Nodup)
    (hvalid : ∀ id key, (id, key) ∈ l →
      key.fValid = true ∧ id = C.hash160 (C.publicKey key.vch key.fCompressed))
    (hcrypted : s.fUseCrypto = true) (hs : encryptEach C vMasterKeyIn l s = some (s', true)) :
    (∃ mapCryptedKeys, s' = { s with mapCryptedKeys }) ∧
      (∀ id, id ∉ l.map Prod.fst → s'.mapCryptedKeys.lookup id = s.mapCryptedKeys.lookup id) ∧
      ∀ id key, (id, key) ∈ l → ∃ entry, s'.mapCryptedKeys.lookup id = some entry ∧
        SealedAs C vMasterKeyIn key entry := by
  induction l generalizing s with
  | nil =>
    obtain ⟨rfl, -⟩ := Prod.mk.inj (Option.some.inj hs)
    exact ⟨⟨_, rfl⟩, fun _ _ ↦ rfl, by simp⟩
  | cons p l ih =>
    obtain ⟨id, key⟩ := p
    rw [List.map_cons, List.nodup_cons] at hnodup
    obtain ⟨hid, hnodup⟩ := hnodup
    obtain ⟨hkey, hid_eq⟩ := hvalid id key List.mem_cons_self
    have hbytes : key.bytes = key.vch := if_pos hkey
    simp only [encryptEach, getPubKey_eq_some.mpr ⟨hkey, rfl⟩, hbytes, Option.bind_eq_bind,
      Option.bind_some] at hs
    cases hsecret : encryptSecret C vMasterKeyIn key.vch
      (C.hash (C.publicKey key.vch key.fCompressed)) with
    | none => simp [hsecret] at hs
    | some vchCryptedSecret =>
      simp only [hsecret, addCryptedKey_of_crypted hcrypted, ← hid_eq] at hs
      obtain ⟨⟨mapCryptedKeys, rfl⟩, hother, hthere⟩ :=
        ih hnodup (fun id key h ↦ hvalid id key (List.mem_cons_of_mem _ h)) (by exact hcrypted) hs
      refine ⟨⟨mapCryptedKeys, rfl⟩, ?_, ?_⟩
      · intro id' hid'
        rw [List.map_cons, List.mem_cons, not_or] at hid'
        obtain ⟨hne, hid'⟩ := hid'
        rw [hother id' hid', SortedMap.lookup_insert_of_ne _ _ hne]
      · intro id' key' hmem
        rcases List.mem_cons.mp hmem with heq | hmem
        · obtain ⟨rfl, rfl⟩ := Prod.mk.inj heq
          exact ⟨_, (hother _ hid).trans (SortedMap.lookup_insert_self ..), rfl, hsecret⟩
        · exact hthere id' key' hmem

theorem Keeps.encryptWallet (h : s.Keeps C r) {vMasterKey : CKeyingMaterial}
    {result : CCryptoKeyStore × Bool} (hs : s.encryptWallet C vMasterKey = some result) :
    StepKeeps C s r (.encryptWallet vMasterKey) result := by
  rw [CCryptoKeyStore.encryptWallet, isCrypted, h.crypted] at hs
  cases hcrypted : r.encrypted with
  | true =>
    rw [hcrypted] at hs
    obtain rfl := Option.some.inj hs
    rfl
  | false =>
    obtain ⟨hkeys, hnone, hcurrent, -⟩ := h.plain hcrypted
    rw [hcrypted, if_neg (by decide), encryptKeys,
      if_neg (by simp [hnone, isCrypted, h.crypted, hcrypted])] at hs
    simp only [Option.bind_eq_bind, Option.bind_eq_some_iff, Prod.exists] at hs
    obtain ⟨s₂, ok₂, ⟨s₁, ok₁, heach, hs₂⟩, hs⟩ := hs
    cases ok₁ with
    | false =>
      obtain ⟨-, rfl⟩ := Prod.mk.inj (Option.some.inj hs₂)
      cases hs
    | true =>
      obtain ⟨rfl, rfl⟩ := Prod.mk.inj (Option.some.inj hs₂)
      obtain rfl := Option.some.inj hs
      obtain ⟨⟨mapCryptedKeys, rfl⟩, hother, hthere⟩ := encryptEach_keeps s.mapKeys.nodup_keys
        (fun id key hmem ↦ h.keys_valid id key (hkeys ▸ SortedMap.lookup_eq_some.mpr hmem)) rfl heach
      have hnote : r.keys ≠ ∅ →
          (r.note C (.encryptWallet vMasterKey)).sealedUnder = some vMasterKey :=
        fun hempty ↦ if_neg hempty
      refine ⟨rfl, h.current, h.keys_valid, ?_, ?_, ?_, ?_, fun _ ↦ rfl⟩
      · intro vMasterKey' hsealed
        obtain ⟨hempty, -⟩ := Option.ite_none_left_eq_some.mp hsealed
        exact ⟨hempty, fun hne ↦ absurd hcurrent hne⟩
      · intro hplain
        cases hplain
      · intro _ id hid
        refine (hother id ?_).trans (SortedMap.eq_empty_iff.mp hnone id)
        exact SortedMap.lookup_eq_none.mp (hkeys ▸ hid)
      · intro _ id key hkey
        obtain ⟨entry, hentry, has⟩ := hthere id key (SortedMap.lookup_eq_some.mp (hkeys ▸ hkey))
        refine ⟨vMasterKey, entry, hnote ?_, hentry, has⟩
        intro hempty
        have hkey' : r.keys.lookup id = some key := hkey
        rw [hempty, SortedMap.lookup_empty] at hkey'
        cases hkey'

theorem Keeps.step (hC : C.Ideal) (h : s.Keeps C r) {op : KeyStoreOp}
    {result : CCryptoKeyStore × Bool} (hs : s.step C op = some result) :
    StepKeeps C s r op result := by
  cases op with
  | addKey key => exact h.addKey hs
  | addCScript redeemScript =>
    obtain rfl := Option.some.inj hs
    exact h.addCScript redeemScript
  | encryptWallet vMasterKey => exact h.encryptWallet hs
  | lock =>
    obtain rfl := Option.some.inj hs
    exact h.lock
  | unlock vMasterKeyIn => exact h.unlock hC hs

/-- The store agrees with the record of its calls after every run. -/
theorem Keeps.run (hC : C.Ideal) (h : s.Keeps C r) {ops : List KeyStoreOp}
    {log : List (KeyStoreOp × Bool)} (hs : CCryptoKeyStore.run C ops s = some (s', log)) :
    s'.Keeps C (r.after C log) := by
  induction ops generalizing s r log with
  | nil =>
    obtain ⟨rfl, rfl⟩ := Prod.mk.inj (Option.some.inj hs)
    exact h
  | cons op ops ih =>
    simp only [CCryptoKeyStore.run, Option.bind_eq_bind, Option.bind_eq_some_iff, Prod.exists] at hs
    obtain ⟨s₁, ok, hstep, s₂, log₂, hrun, hs⟩ := hs
    obtain ⟨rfl, rfl⟩ := Prod.mk.inj (Option.some.inj hs)
    have hkeeps := h.step hC hstep
    rw [KeyRecord.after, List.foldl_cons]
    cases ok with
    | true => exact ih hkeeps hrun
    | false =>
      obtain rfl : s₁ = s := hkeeps
      exact ih h hrun

/-- `Unlock` succeeds with the master key of the encrypted secrets, and with any while there are
none. -/
theorem Keeps.unlock_iff (hC : C.Ideal) (h : s.Keeps C r) (hcrypted : r.encrypted = true)
    (vMasterKeyIn : CKeyingMaterial) : (∃ s', s.unlock C vMasterKeyIn = some (s', true)) ↔
      ∀ vMasterKey, r.sealedUnder = some vMasterKey → vMasterKeyIn = vMasterKey := by
  have hset : s.setCrypted = (s, true) := if_pos (h.crypted.trans hcrypted)
  rw [← h.opens_iff hC hcrypted, CCryptoKeyStore.unlock, hset]
  constructor
  · rintro ⟨s', hs'⟩
    cases hok : opens C vMasterKeyIn s.mapCryptedKeys.entries with
    | none => simp [hok] at hs'
    | some ok =>
      cases ok with
      | true => rfl
      | false => simp [hok] at hs'
  · intro htrue
    exact ⟨{ s with vMasterKey := vMasterKeyIn }, by simp [htrue]⟩

theorem Keeps.sealedUnder_of_empty (h : s.Keeps C r) (hcrypted : r.encrypted = true)
    (hempty : s.mapCryptedKeys = ∅) : r.sealedUnder = none := by
  by_contra hne
  obtain ⟨vMasterKey, hsealed⟩ := Option.ne_none_iff_exists'.mp hne
  refine (h.sealed_some vMasterKey hsealed).1 (SortedMap.eq_empty_iff.mpr fun id ↦ ?_)
  by_contra hkey
  obtain ⟨key, hkey⟩ := Option.ne_none_iff_exists'.mp hkey
  obtain ⟨-, entry, -, hentry, -⟩ := h.sealed_key hcrypted id key hkey
  rw [hempty, SortedMap.lookup_empty] at hentry
  cases hentry

/-- The first key of a store that was encrypted without one is encrypted under the master key that
the store was unlocked with. -/
theorem Keeps.unlock_of_empty (hC : C.Ideal) (h : s.Keeps C r) (hcrypted : r.encrypted = true)
    (hempty : s.mapCryptedKeys = ∅) (vMasterKeyIn : CKeyingMaterial) :
    ∃ s', s.unlock C vMasterKeyIn = some (s', true) ∧ ∀ key s'',
      s'.addKey C key = some (s'', true) → ∀ vMasterKeyIn',
        (∃ t, s''.unlock C vMasterKeyIn' = some (t, true)) ↔ vMasterKeyIn' = vMasterKeyIn := by
  have hnone := h.sealedUnder_of_empty hcrypted hempty
  have hsome : ∃ s', s.unlock C vMasterKeyIn = some (s', true) := by
    rw [h.unlock_iff hC hcrypted, hnone]
    rintro vMasterKey ⟨⟩
  obtain ⟨s', hs'⟩ := hsome
  refine ⟨s', hs', fun key s'' hadd vMasterKeyIn' ↦ ?_⟩
  have hunlocked : s'.Keeps C (r.note C (.unlock vMasterKeyIn)) := h.unlock hC hs'
  have hadded : s''.Keeps C ((r.note C (.unlock vMasterKeyIn)).note C (.addKey key)) :=
    hunlocked.addKey hadd
  have hsealed : ((r.note C (.unlock vMasterKeyIn)).note C (.addKey key)).sealedUnder =
      some vMasterKeyIn := by
    simp [KeyRecord.note, hnone]
  rw [hadded.unlock_iff hC rfl, hsealed]
  simp

/-- After every run: a locked store gives no key and an unlocked one exactly the keys that were
added; a store with encrypted keys opens under their master key and under no other, and an encrypted
one without keys under any, which its first key is then encrypted under; and a call that returns
`false` leaves the store as it was. -/
theorem keeps_keys (hC : C.Ideal) (ops : List KeyStoreOp) {log : List (KeyStoreOp × Bool)}
    (h : CCryptoKeyStore.run C ops empty = some (s, log)) :
    (s.isLocked = true → ∀ id, s.getKey C id = none) ∧
      (s.isLocked = false → ∀ id, s.getKey C id = (KeyRecord.empty.after C log).keys.lookup id) ∧
      (∀ vMasterKey, (KeyRecord.empty.after C log).sealedUnder = some vMasterKey →
        ∀ vMasterKeyIn, (∃ s', s.unlock C vMasterKeyIn = some (s', true)) ↔
          vMasterKeyIn = vMasterKey) ∧
      (s.isCrypted = true → s.mapCryptedKeys = ∅ → ∀ vMasterKeyIn,
        ∃ s', s.unlock C vMasterKeyIn = some (s', true) ∧ ∀ key s'',
          s'.addKey C key = some (s'', true) → ∀ vMasterKeyIn',
            (∃ t, s''.unlock C vMasterKeyIn' = some (t, true)) ↔ vMasterKeyIn' = vMasterKeyIn) ∧
      ∀ op s', s.step C op = some (s', false) → s' = s := by
  have hkeeps := keeps_empty.run hC h
  refine ⟨hkeeps.getKey_locked, hkeeps.getKey_unlocked hC, ?_, ?_, ?_⟩
  · intro vMasterKey hsealed vMasterKeyIn
    have hcrypted : (KeyRecord.empty.after C log).encrypted = true := by
      by_contra hplain
      rw [(hkeeps.plain (Bool.eq_false_iff.mpr hplain)).2.2.2] at hsealed
      cases hsealed
    rw [hkeeps.unlock_iff hC hcrypted, hsealed]
    simp
  · intro hcrypted hempty vMasterKeyIn
    exact hkeeps.unlock_of_empty hC (hkeeps.crypted.symm.trans hcrypted) hempty vMasterKeyIn
  · intro op s' hstep
    exact hkeeps.step hC hstep

/-! ### A cipher that satisfies the laws -/

/-- A ciphertext that shows its key, and a public key that shows its secret. -/
def sampleCrypto : KeyCrypto where
  aesEncrypt := fun chKey _ plaintext ↦ some (chKey ++ plaintext)
  aesDecrypt := fun chKey _ ciphertext ↦
    if ciphertext.take chKey.length = chKey then some (ciphertext.drop chKey.length) else none
  publicKey := fun vch fCompressed ↦
    if fCompressed then 2 :: vch else 4 :: (vch ++ List.replicate 32 0)
  hash160 := fun bs ↦ Fin.ofNat _ (leNat bs)
  hash := word256

theorem sampleCrypto_ideal : sampleCrypto.Ideal where
  decrypt_encrypt := by
    intro chKey chIV plaintext ciphertext h
    obtain rfl := Option.some.inj h
    simp [sampleCrypto]
  decrypt_wrong := by
    intro chKey chKey' chIV plaintext ciphertext h hne hdecrypt
    obtain rfl := Option.some.inj h
    obtain ⟨htake, hdrop⟩ := Option.ite_none_right_eq_some.mp hdecrypt
    have happend := List.take_append_drop chKey'.length (chKey ++ plaintext)
    rw [htake, Option.some.inj hdrop] at happend
    exact hne (List.append_cancel_right happend)
  length_publicKey := by
    intro key _
    have hsize := key.size_vch
    cases hcompressed : key.fCompressed <;> simp [sampleCrypto, hsize]
  publicKey_inj := by
    intro key key' _ _ hsame heq
    cases hcompressed : key'.fCompressed with
    | true =>
      rw [hsame.trans hcompressed, hcompressed] at heq
      exact (List.cons.inj heq).2
    | false =>
      rw [hsame.trans hcompressed, hcompressed] at heq
      exact List.append_cancel_right (List.cons.inj heq).2

def sampleKey (b : UInt8) (h : CKey.check (List.replicate 32 b) = true) : CKey :=
  ⟨true, true, List.replicate 32 b, List.length_replicate .., fun _ ↦ h⟩

theorem check_sampleKey : CKey.check (List.replicate 32 1) = true := by decide

/-- A key, encryption, an attempt with the wrong master key, the right one, and a second key. -/
def sampleOps : List KeyStoreOp :=
  [.addKey (sampleKey 1 (by decide)), .encryptWallet (List.replicate 32 5),
    .unlock (List.replicate 32 6), .unlock (List.replicate 32 5),
    .addKey (sampleKey 2 (by decide))]

theorem keeps_keys_sample :
    ∃ s log, CCryptoKeyStore.run sampleCrypto sampleOps empty = some (s, log) ∧
      log.map Prod.snd = [true, true, false, true, true] ∧ s.isLocked = false ∧
      s.getKey sampleCrypto (sampleCrypto.hash160 (2 :: List.replicate 32 1)) =
        some (sampleKey 1 (by decide)) ∧
      ∀ op s', s.step sampleCrypto op = some (s', false) → s' = s :=
  ⟨_, _, rfl, rfl, rfl, (keeps_keys sampleCrypto_ideal sampleOps rfl).2.1 rfl _,
    (keeps_keys sampleCrypto_ideal sampleOps rfl).2.2.2.2⟩

/-- A store that was encrypted while it held no key opens under another master key, and
`EncryptKeys` with a master key of the wrong length returns `false` on a store with a key and leaves
it locked and without it. -/
theorem unlock_other_encryptKeys_fails :
    (∃ s s', empty.encryptKeys sampleCrypto (List.replicate 32 5) = some (s, true) ∧
      s.unlock sampleCrypto (List.replicate 32 6) = some (s', true)) ∧
      ∃ s s', empty.addKey sampleCrypto (sampleKey 1 (by decide)) = some (s, true) ∧
        s.encryptKeys sampleCrypto (List.replicate 31 5) = some (s', false) ∧
        s.getKey sampleCrypto (sampleCrypto.hash160 (2 :: List.replicate 32 1)) =
          some (sampleKey 1 (by decide)) ∧
        s'.getKey sampleCrypto (sampleCrypto.hash160 (2 :: List.replicate 32 1)) = none ∧
        s.isLocked = false ∧ s'.isLocked = true :=
  ⟨⟨_, _, rfl, rfl⟩, _, _, rfl, rfl, rfl, rfl, rfl, rfl⟩

end CCryptoKeyStore

end Bitmark
