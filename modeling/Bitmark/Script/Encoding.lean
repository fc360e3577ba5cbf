import Bitmark.Primitives.Header
import Bitmark.Script.Script

/-!
# Encodings of signatures and public keys

The checks of `src/script.cpp:223–372`. Every index goes through `Access`.
-/

namespace Bitmark

/-- `SIGHASH_ALL`, `SIGHASH_SINGLE` and `SIGHASH_ANYONECANPAY`, `src/script.h:224`. -/
def sighashAll : UInt8 := 1
def sighashSingle : UInt8 := 3
def sighashAnyonecanpay : UInt8 := 0x80

/-- `IsCompressedOrUncompressedPubKey`, `src/script.cpp:223`. -/
def isCompressedOrUncompressedPubKey (vchPubKey : Bytes) : Access Bool := do
  if vchPubKey.length < 33 then return false
  let header ← vectorAt vchPubKey 0
  if header = 0x04 then return vchPubKey.length = 65
  else if header = 0x02 ∨ header = 0x03 then return vchPubKey.length = 33
  else return false

/-- The checks `IsValidSignatureEncoding` makes of an integer of `len` bytes at `pos`: its tag,
its length, its sign and its padding. -/
def isValidInteger (sig : Bytes) (pos len : Nat) : Access Bool := do
  let tag ← vectorAt sig (pos - 2)
  if tag ≠ 0x02 then return false
  if len = 0 then return false
  let first ← vectorAt sig pos
  if first &&& 0x80 ≠ 0 then return false
  if 1 < len ∧ first = 0x00 then
    let second ← vectorAt sig (pos + 1)
    return second &&& 0x80 ≠ 0
  else return true

/-- `IsValidSignatureEncoding`, `src/script.cpp:255`. -/
def isValidSignatureEncoding (sig : Bytes) : Access Bool := do
  if sig.length < 9 then return false
  if 73 < sig.length then return false
  let compound ← vectorAt sig 0
  if compound ≠ 0x30 then return false
  let size ← vectorAt sig 1
  if size.toNat ≠ sig.length - 3 then return false
  let lenR ← vectorAt sig 3
  if sig.length ≤ 5 + lenR.toNat then return false
  let lenS ← vectorAt sig (5 + lenR.toNat)
  if lenR.toNat + lenS.toNat + 7 ≠ sig.length then return false
  let okR ← isValidInteger sig 4 lenR.toNat
  if !okR then return false
  isValidInteger sig (lenR.toNat + 6) lenS.toNat

/-- `IsLowDERSignature`, `src/script.cpp:320`; its test of the S value is commented out. -/
def isLowDERSignature (vchSig : Bytes) : Access Bool := isValidSignatureEncoding vchSig

/-- `IsDefinedHashtypeSignature`, `src/script.cpp:337`. -/
def isDefinedHashtypeSignature (vchSig : Bytes) : Bool :=
  match vchSig.getLast? with
  | none => false
  | some last =>
    let nHashType := last &&& ~~~sighashAnyonecanpay
    !(nHashType < sighashAll || sighashSingle < nHashType)

/-- A check that only these flags ask for. -/
def underFlags (flags mask : BitVec 32) (check : Access Bool) : Access Bool :=
  if flags &&& mask = 0 then .ok true else check

/-- The flags under which `CheckSignatureEncoding` asks for strict DER. -/
def derFlags : BitVec 32 := scriptVerifyDersig ||| scriptVerifyLowS ||| scriptVerifyStrictenc

/-- `CheckSignatureEncoding`, `src/script.cpp:347`. -/
def checkSignatureEncoding (vchSig : Bytes) (flags : BitVec 32) : Access Bool :=
  if vchSig.isEmpty then .ok true
  else do
    let okDer ← underFlags flags derFlags (isValidSignatureEncoding vchSig)
    if !okDer then .ok false
    else do
      let okLowS ← underFlags flags scriptVerifyLowS (isLowDERSignature vchSig)
      if !okLowS then .ok false
      else underFlags flags scriptVerifyStrictenc (.ok (isDefinedHashtypeSignature vchSig))

/-- `CheckPubKeyEncoding`, `src/script.cpp:366`. -/
def checkPubKeyEncoding (vchPubKey : Bytes) (flags : BitVec 32) : Access Bool :=
  underFlags flags scriptVerifyStrictenc (isCompressedOrUncompressedPubKey vchPubKey)

end Bitmark
