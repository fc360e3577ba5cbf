import Bitmark.Script.SignatureHash
import Bitmark.Script.Standard
import Bitmark.Wallet.CryptoKeyStore

/-!
# Ownership and signing

`IsMine` (`src/script.cpp:1663`) and `SignSignature` (`src/script.cpp:1875`) with the `Solver` that
fills in signatures (`src/script.cpp:1525`). Signatures and hash functions are those of OpenSSL and
stay parameters.
-/

namespace Bitmark

/-! ### Signatures -/

/-- ECDSA under a secret and a public key, and the hash functions. -/
structure SigningCrypto extends KeyCrypto where
  ripemd160 : Bytes → Bytes
  sha1 : Bytes → Bytes
  sha256 : Bytes → Bytes
  hash256 : Bytes → Bytes
  hashes : Hashes
  sign : (vch : Bytes) → (hash : Uint256) → Option Bytes
  verify : CPubKey → (hash : Uint256) → (vchSig : Bytes) → Bool

/-- The bytes of a `uint160` in memory. -/
def bytes160 (x : Uint160) : Bytes := leBytes 20 x.val

/-- `uint160(const std::vector<unsigned char>&)`. -/
def uint160 (vch : Bytes) : Uint160 := Fin.ofNat _ (leNat vch)

/-- `CPubKey(vch)` from `begin()` to `end()`. -/
def CPubKey.ofVector (vch : Bytes) : CPubKey := if pubKeyIsValid vch then vch else []

/-- `CKey::Sign`, `src/key.cpp:630`. -/
def CKey.sign (K : SigningCrypto) (key : CKey) (hash : Uint256) : Option Bytes :=
  if key.fValid then K.sign key.vch hash else none

namespace SigningCrypto

/-- What an evaluation asks: signatures are checked against the signature hash. -/
def scriptCrypto (K : SigningCrypto) : ScriptCrypto where
  ripemd160 := K.ripemd160
  sha1 := K.sha1
  sha256 := K.sha256
  hash160 bs := bytes160 (K.hash160 bs)
  hash256 := K.hash256
  verify vchPubKey scriptCode txTo nIn nHashType vchSig :=
    K.verify vchPubKey
      (signatureHash scriptCode txTo nIn (BitVec.ofInt 32 nHashType) K.hashes) vchSig

end SigningCrypto

/-! ### Looking up -/

namespace CCryptoKeyStore

/-- `HaveKey`, `src/crypter.h:159`. -/
def haveKey (s : CCryptoKeyStore) (address : CKeyID) : Bool :=
  if !s.isCrypted then (s.mapKeys.lookup address).isSome
  else (s.mapCryptedKeys.lookup address).isSome

/-- `GetPubKey`, `src/crypter.cpp:236` and `src/keystore.cpp:15`; `none` is also the assertion on
the key of a plain store. -/
def getPubKey (C : KeyCrypto) (s : CCryptoKeyStore) (address : CKeyID) : Option CPubKey :=
  if !s.isCrypted then do
    let key ← s.mapKeys.lookup address
    key.getPubKey C
  else (s.mapCryptedKeys.lookup address).map Prod.fst

/-- `GetCScript`, `src/keystore.cpp:51`. -/
def getCScript (s : CCryptoKeyStore) (hash : CScriptID) : Option Bytes := s.mapScripts.lookup hash

/-- `HaveKeys`, `src/script.cpp:1632`. -/
def haveKeys (C : KeyCrypto) (s : CCryptoKeyStore) (pubkeys : List Bytes) : Nat :=
  pubkeys.countP fun pubkey ↦ s.haveKey (C.hash160 (CPubKey.ofVector pubkey))

end CCryptoKeyStore

/-! ### Ownership -/

/-- `isminetype`, `src/script.h`. -/
inductive IsMineType where
  | no
  | watchOnly
  | spendable
deriving DecidableEq, Repr

/-- `IsMine`. It follows redeem scripts without a limit; `none` where the fuel does not last. -/
def isMine (C : KeyCrypto) (setWatchOnly : List Bytes) (s : CCryptoKeyStore) :
    Nat → Bytes → Option IsMineType
  | 0, _ => none
  | fuel + 1, scriptPubKey =>
    let other := if scriptPubKey ∈ setWatchOnly then IsMineType.watchOnly else .no
    match solver scriptPubKey with
    | none => some other
    | some (whichType, vSolutions) =>
      match whichType with
      | .nonstandard | .nullData => some other
      | .pubkey =>
        let keyID := C.hash160 (CPubKey.ofVector (vSolutions.headD []))
        some (if s.haveKey keyID then .spendable else other)
      | .pubkeyhash =>
        let keyID := uint160 (vSolutions.headD [])
        some (if s.haveKey keyID then .spendable else other)
      | .scripthash =>
        match s.getCScript (uint160 (vSolutions.headD [])) with
        | none => some other
        | some subscript => do
          let ret ← isMine C setWatchOnly s fuel subscript
          some (if ret = .spendable then ret else other)
      | .multisig =>
        let keys := vSolutions.tail.dropLast
        some (if s.haveKeys C keys = keys.length then .spendable else other)

/-! ### Signing -/

section Sign

variable (K : SigningCrypto) (s : CCryptoKeyStore) (hash : Uint256) (nHashType : Nat)

/-- `Sign1`: the script with the signature pushed, if there is one. -/
def sign1 (address : CKeyID) (scriptSigRet : Bytes) : Option Bytes := do
  let key ← s.getKey K.toKeyCrypto address
  let vchSig ← key.sign K hash
  some (scriptSigRet ++ pushBytes (vchSig ++ [UInt8.ofNat nHashType]))

/-- The loop of `SignN`, with the signatures still required. -/
def signEach : (nRequired : Nat) → (pubkeys : List Bytes) → (scriptSigRet : Bytes) → Bytes × Bool
  | 0, _, scriptSigRet => (scriptSigRet, true)
  | _ + 1, [], scriptSigRet => (scriptSigRet, false)
  | nRequired + 1, pubkey :: pubkeys, scriptSigRet =>
    match sign1 K s hash nHashType (K.hash160 (CPubKey.ofVector pubkey)) scriptSigRet with
    | some scriptSigRet => signEach nRequired pubkeys scriptSigRet
    | none => signEach (nRequired + 1) pubkeys scriptSigRet

/-- `SignN`. -/
def signN (multisigdata : List Bytes) (scriptSigRet : Bytes) : Bytes × Bool :=
  signEach K s hash nHashType ((multisigdata.headD []).headD 0).toNat multisigdata.tail.dropLast
    scriptSigRet

/-- `Solver` with a key store: the type, the script it leaves and whether it returns true. -/
def solverSign (scriptPubKey : Bytes) : TxnOutType × Bytes × Bool :=
  match solver scriptPubKey with
  | none => (.nonstandard, [], false)
  | some (whichType, vSolutions) =>
    match whichType with
    | .nonstandard | .nullData => (whichType, [], false)
    | .pubkey =>
      let keyID := K.hash160 (CPubKey.ofVector (vSolutions.headD []))
      match sign1 K s hash nHashType keyID [] with
      | none => (whichType, [], false)
      | some scriptSig => (whichType, scriptSig, true)
    | .pubkeyhash =>
      let keyID := uint160 (vSolutions.headD [])
      match sign1 K s hash nHashType keyID [] with
      | none => (whichType, [], false)
      | some scriptSig =>
        let vch := (s.getPubKey K.toKeyCrypto keyID).getD []
        (whichType, scriptSig ++ pushBytes vch, true)
    | .scripthash =>
      match s.getCScript (uint160 (vSolutions.headD [])) with
      | none => (whichType, [], false)
      | some subscript => (whichType, subscript, true)
    | .multisig =>
      let (scriptSig, fSolved) := signN K s hash nHashType vSolutions (pushBytes [])
      (whichType, scriptSig, fSolved)

end Sign

/-- The transaction with another `txin.scriptSig`. -/
def CTransaction.setScriptSig (txTo : CTransaction) (nIn : Nat) (scriptSig : Bytes) :
    CTransaction :=
  { txTo with vin := txTo.vin.modify nIn fun txin ↦ { txin with scriptSig } }

/-- The flags of `src/script.cpp:1908`, which are those of `AcceptToMemoryPool`,
`src/main.cpp:966`, too. -/
def standardVerifyFlags : BitVec 32 :=
  scriptVerifyP2SH ||| scriptVerifyStrictenc ||| scriptVerifyChecklocktimeverify

/-- `SignSignature`, for an `nIn` below `vin.size()`: the transaction it leaves, and `ok` where it
returns true. -/
def signSignature (K : SigningCrypto) (s : CCryptoKeyStore) (fromPubKey : Bytes)
    (txTo : CTransaction) (nIn : Nat) (nHashType : Nat) : CTransaction × Eval Unit :=
  let hashOf scriptCode txTo :=
    signatureHash scriptCode txTo nIn (BitVec.ofNat 32 nHashType) K.hashes
  let verify (txTo : CTransaction) (scriptSig : Bytes) :=
    ScriptEnv.verifyScript ⟨K.scriptCrypto, txTo, nIn, 0⟩ standardVerifyFlags scriptSig fromPubKey
  match solverSign K s (hashOf fromPubKey txTo) nHashType fromPubKey with
  | (_, scriptSig, false) => (txTo.setScriptSig nIn scriptSig, .error .fail)
  | (.scripthash, subscript, true) =>
    let txTo := txTo.setScriptSig nIn subscript
    let (subType, scriptSig, fSolved) :=
      solverSign K s (hashOf subscript txTo) nHashType subscript
    let scriptSig := scriptSig ++ pushBytes subscript
    let txTo := txTo.setScriptSig nIn scriptSig
    if fSolved && subType ≠ .scripthash then (txTo, verify txTo scriptSig)
    else (txTo, .error .fail)
  | (_, scriptSig, true) =>
    let txTo := txTo.setScriptSig nIn scriptSig
    (txTo, verify txTo scriptSig)

end Bitmark
