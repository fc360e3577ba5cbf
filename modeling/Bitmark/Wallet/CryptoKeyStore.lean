import Bitmark.Lib.SortedMap
import Bitmark.Script.Interpreter

/-!
# The encrypted key store

`CBasicKeyStore` (`src/keystore.cpp`) and `CCryptoKeyStore` (`src/crypter.cpp:124–275`), with the
part of `CWallet::EncryptWallet` that calls `EncryptKeys`. AES, the elliptic curve and the hash
functions are those of OpenSSL and stay parameters.
-/

namespace Bitmark

/-- `uint160`, compared as a number. -/
abbrev Uint160 := Fin (2 ^ 160)

instance neZero_uint160 : NeZero (2 ^ 160) := ⟨by norm_num⟩

/-- `CKeyID`, `src/key.h:27`. -/
abbrev CKeyID := Uint160

/-- `CScriptID`, `src/key.h:35`. -/
abbrev CScriptID := Uint160

/-- `CKeyingMaterial`, `src/crypter.h:65`. -/
abbrev CKeyingMaterial := Bytes

/-- `CPubKey` from `begin()` to `end()`, `src/key.h:43`. -/
abbrev CPubKey := Bytes

/-- `WALLET_CRYPTO_KEY_SIZE`, `src/crypter.h:15`. -/
def walletCryptoKeySize : Nat := 32

/-- `EVP_aes_256_cbc` under a key and an initialization vector, the point of a secret in one of its
two forms, and the two hashes. -/
structure KeyCrypto where
  aesEncrypt : (chKey chIV plaintext : Bytes) → Option Bytes
  aesDecrypt : (chKey chIV ciphertext : Bytes) → Option Bytes
  publicKey : (vch : Bytes) → (fCompressed : Bool) → CPubKey
  hash160 : Bytes → Uint160
  hash : Bytes → Uint256

/-! ### Keys -/

/-- `vchMax` of `CKey::Check`, the order of the curve less one. -/
def CKey.vchMax : Bytes :=
  [0xFF, 0xFF, 0xFF, 0xFF, 0xFF, 0xFF, 0xFF, 0xFF, 0xFF, 0xFF, 0xFF, 0xFF, 0xFF, 0xFF, 0xFF, 0xFE,
   0xBA, 0xAE, 0xDC, 0xE6, 0xAF, 0x48, 0xA0, 0x3B, 0xBF, 0xD2, 0x5E, 0x8C, 0xD0, 0x36, 0x41, 0x40]

/-- The second loop of `CKey::Check`. -/
def CKey.notAbove : (vch vchMax : Bytes) → Bool
  | v :: vch, m :: vchMax => if v < m then true else if m < v then false else notAbove vch vchMax
  | _, _ => true

/-- `CKey::Check`, `src/key.cpp:570`. -/
def CKey.check (vch : Bytes) : Bool := vch.any (· ≠ 0) && notAbove vch vchMax

/-- `CKey`, `src/key.h:180`, whose `fValid` "should always correspond to the actual state". -/
structure CKey where
  fValid : Bool
  fCompressed : Bool
  vch : Bytes
  size_vch : vch.length = 32
  check_vch : fValid = true → CKey.check vch = true
deriving DecidableEq

namespace CKey

/-- `CKey()`. -/
def invalid : CKey := ⟨false, false, List.replicate 32 0, by decide, by decide⟩

/-- From `begin()` to `end()`. -/
def bytes (key : CKey) : Bytes := if key.fValid then key.vch else []

/-- `Set` on a fresh key. -/
def set (secret : Bytes) (fCompressedIn : Bool) : CKey :=
  if hsize : secret.length = 32 then
    if hcheck : check secret = true then ⟨true, fCompressedIn, secret, hsize, fun _ ↦ hcheck⟩
    else invalid
  else invalid

/-- `GetPubKey`, `src/key.cpp:621`; `none` is its assertion. -/
def getPubKey (C : KeyCrypto) (key : CKey) : Option CPubKey :=
  if key.fValid then some (C.publicKey key.vch key.fCompressed) else none

end CKey

/-- `CPubKey::IsCompressed`. -/
def CPubKey.isCompressed (vchPubKey : CPubKey) : Bool := vchPubKey.length = 33

/-! ### Secrets -/

/-- `CCrypter::SetKey`, `src/crypter.cpp:37`. -/
def CCrypter.setKey (chNewKey chNewIV : Bytes) : Option (Bytes × Bytes) :=
  if chNewKey.length ≠ walletCryptoKeySize ∨ chNewIV.length ≠ walletCryptoKeySize then none
  else some (chNewKey, chNewIV)

/-- `EncryptSecret`, `src/crypter.cpp:104`. -/
def encryptSecret (C : KeyCrypto) (vMasterKey : CKeyingMaterial) (vchPlaintext : Bytes)
    (nIV : Uint256) : Option Bytes := do
  let (chKey, chIV) ← CCrypter.setKey vMasterKey (bytes256 nIV)
  C.aesEncrypt chKey chIV vchPlaintext

/-- `DecryptSecret`, `src/crypter.cpp:114`. -/
def decryptSecret (C : KeyCrypto) (vMasterKey : CKeyingMaterial) (vchCiphertext : Bytes)
    (nIV : Uint256) : Option Bytes := do
  let (chKey, chIV) ← CCrypter.setKey vMasterKey (bytes256 nIV)
  C.aesDecrypt chKey chIV vchCiphertext

/-! ### The store -/

/-- The maps of `CBasicKeyStore` but for the watch-only scripts, and `CCryptoKeyStore`. -/
structure CCryptoKeyStore where
  mapKeys : SortedMap CKeyID CKey
  mapScripts : SortedMap CScriptID Bytes
  mapCryptedKeys : SortedMap CKeyID (CPubKey × Bytes)
  vMasterKey : CKeyingMaterial
  fUseCrypto : Bool
deriving DecidableEq

namespace CCryptoKeyStore

/-- `CCryptoKeyStore()`. -/
def empty : CCryptoKeyStore := ⟨∅, ∅, ∅, [], false⟩

def isCrypted (s : CCryptoKeyStore) : Bool := s.fUseCrypto

def isLocked (s : CCryptoKeyStore) : Bool := s.isCrypted && s.vMasterKey.isEmpty

/-- `SetCrypted`, `src/crypter.cpp:124`. -/
def setCrypted (s : CCryptoKeyStore) : CCryptoKeyStore × Bool :=
  if s.fUseCrypto then (s, true)
  else if s.mapKeys ≠ ∅ then (s, false)
  else ({ s with fUseCrypto := true }, true)

/-- `Lock`, `src/crypter.cpp:135`. -/
def lock (s : CCryptoKeyStore) : CCryptoKeyStore × Bool :=
  match s.setCrypted with
  | (s, false) => (s, false)
  | (s, true) => ({ s with vMasterKey := [] }, true)

/-- The loop of `Unlock`, which ends with the first entry; `none` is the assertion of `GetPubKey`
on a decrypted secret that is out of range. -/
def opens (C : KeyCrypto) (vMasterKeyIn : CKeyingMaterial) :
    List (CKeyID × CPubKey × Bytes) → Option Bool
  | [] => some true
  | (_, vchPubKey, vchCryptedSecret) :: _ =>
    match decryptSecret C vMasterKeyIn vchCryptedSecret (C.hash vchPubKey) with
    | none => some false
    | some vchSecret =>
      if vchSecret.length ≠ 32 then some false
      else do
        let pubkey ← (CKey.set vchSecret (CPubKey.isCompressed vchPubKey)).getPubKey C
        some (pubkey = vchPubKey)

/-- `Unlock`, `src/crypter.cpp:149`. -/
def unlock (C : KeyCrypto) (s : CCryptoKeyStore) (vMasterKeyIn : CKeyingMaterial) :
    Option (CCryptoKeyStore × Bool) :=
  match s.setCrypted with
  | (s, false) => some (s, false)
  | (s, true) => do
    if ← opens C vMasterKeyIn s.mapCryptedKeys.entries then
      some ({ s with vMasterKey := vMasterKeyIn }, true)
    else some (s, false)

/-- `AddCryptedKey`, `src/crypter.cpp:200`. -/
def addCryptedKey (C : KeyCrypto) (s : CCryptoKeyStore) (vchPubKey : CPubKey)
    (vchCryptedSecret : Bytes) : CCryptoKeyStore × Bool :=
  match s.setCrypted with
  | (s, false) => (s, false)
  | (s, true) =>
    ({ s with mapCryptedKeys :=
        s.mapCryptedKeys.insert (C.hash160 vchPubKey) (vchPubKey, vchCryptedSecret) }, true)

/-- `AddKeyPubKey`, `src/crypter.cpp:178`, with that of the basic store, `src/keystore.cpp:28`. -/
def addKeyPubKey (C : KeyCrypto) (s : CCryptoKeyStore) (key : CKey) (pubkey : CPubKey) :
    CCryptoKeyStore × Bool :=
  if !s.isCrypted then ({ s with mapKeys := s.mapKeys.insert (C.hash160 pubkey) key }, true)
  else if s.isLocked then (s, false)
  else
    match encryptSecret C s.vMasterKey key.bytes (C.hash pubkey) with
    | none => (s, false)
    | some vchCryptedSecret => s.addCryptedKey C pubkey vchCryptedSecret

/-- `CKeyStore::AddKey`, `src/keystore.cpp:24`; every caller of `AddKeyPubKey` passes the public
key of the key. -/
def addKey (C : KeyCrypto) (s : CCryptoKeyStore) (key : CKey) :
    Option (CCryptoKeyStore × Bool) := do
  let pubkey ← key.getPubKey C
  some (s.addKeyPubKey C key pubkey)

/-- `AddCScript`, `src/keystore.cpp:35`. -/
def addCScript (C : KeyCrypto) (s : CCryptoKeyStore) (redeemScript : Bytes) :
    CCryptoKeyStore × Bool :=
  if maxScriptElementSize < redeemScript.length then (s, false)
  else ({ s with mapScripts := s.mapScripts.insert (C.hash160 redeemScript) redeemScript }, true)

/-- `GetKey`, `src/crypter.cpp:212`. -/
def getKey (C : KeyCrypto) (s : CCryptoKeyStore) (address : CKeyID) : Option CKey :=
  if !s.isCrypted then s.mapKeys.lookup address
  else do
    let (vchPubKey, vchCryptedSecret) ← s.mapCryptedKeys.lookup address
    let vchSecret ← decryptSecret C s.vMasterKey vchCryptedSecret (C.hash vchPubKey)
    if vchSecret.length ≠ 32 then none
    else some (CKey.set vchSecret (CPubKey.isCompressed vchPubKey))

/-- The loop of `EncryptKeys`. -/
def encryptEach (C : KeyCrypto) (vMasterKeyIn : CKeyingMaterial) :
    List (CKeyID × CKey) → CCryptoKeyStore → Option (CCryptoKeyStore × Bool)
  | [], s => some (s, true)
  | (_, key) :: mapKeys, s => do
    let vchPubKey ← key.getPubKey C
    match encryptSecret C vMasterKeyIn key.bytes (C.hash vchPubKey) with
    | none => some (s, false)
    | some vchCryptedSecret =>
      match s.addCryptedKey C vchPubKey vchCryptedSecret with
      | (s, false) => some (s, false)
      | (s, true) => encryptEach C vMasterKeyIn mapKeys s

/-- `EncryptKeys`, `src/crypter.cpp:253`. -/
def encryptKeys (C : KeyCrypto) (s : CCryptoKeyStore) (vMasterKeyIn : CKeyingMaterial) :
    Option (CCryptoKeyStore × Bool) :=
  if s.mapCryptedKeys ≠ ∅ ∨ s.isCrypted then some (s, false)
  else do
    let (s, ok) ← encryptEach C vMasterKeyIn s.mapKeys.entries { s with fUseCrypto := true }
    if ok then some ({ s with mapKeys := ∅ }, true) else some (s, false)

/-- `EncryptWallet` around `EncryptKeys`, `src/wallet.cpp:374` and `src/wallet.cpp:419`: "die and
let the user reload their unencrypted wallet" when some key cannot be encrypted. -/
def encryptWallet (C : KeyCrypto) (s : CCryptoKeyStore) (vMasterKey : CKeyingMaterial) :
    Option (CCryptoKeyStore × Bool) :=
  if s.isCrypted then some (s, false)
  else do
    let (s, ok) ← s.encryptKeys C vMasterKey
    if ok then some (s, true) else none

end CCryptoKeyStore

/-- The calls that change the store. -/
inductive KeyStoreOp where
  | addKey (key : CKey)
  | addCScript (redeemScript : Bytes)
  | encryptWallet (vMasterKey : CKeyingMaterial)
  | lock
  | unlock (vMasterKeyIn : CKeyingMaterial)

namespace CCryptoKeyStore

/-- One call and what it returns; `none` ends the process. -/
def step (C : KeyCrypto) (s : CCryptoKeyStore) : KeyStoreOp → Option (CCryptoKeyStore × Bool)
  | .addKey key => s.addKey C key
  | .addCScript redeemScript => some (s.addCScript C redeemScript)
  | .encryptWallet vMasterKey => s.encryptWallet C vMasterKey
  | .lock => some s.lock
  | .unlock vMasterKeyIn => s.unlock C vMasterKeyIn

/-- A sequence of calls, with each one's result beside it. -/
def run (C : KeyCrypto) : List KeyStoreOp → CCryptoKeyStore →
    Option (CCryptoKeyStore × List (KeyStoreOp × Bool))
  | [], s => some (s, [])
  | op :: ops, s => do
    let (s, ok) ← s.step C op
    let (s, log) ← run C ops s
    some (s, (op, ok) :: log)

end CCryptoKeyStore

end Bitmark
