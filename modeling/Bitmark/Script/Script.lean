import Bitmark.Base.Word

/-!
# Scripts as instruction lists

Parsing of `CScript` (`src/script.h:572`) and the counts of signature operations
(`src/script.cpp:2046–2101`). A script is taken apart once, by `getOps`; the loops of the source
over `GetOp` are folds over the result.
-/

namespace Bitmark

/-! ### Verification flags, `src/script.h:233` -/

def scriptVerifyP2SH : BitVec 32 := 1 <<< 0
def scriptVerifyStrictenc : BitVec 32 := 1 <<< 1
def scriptVerifyEvenS : BitVec 32 := 1 <<< 2
def scriptVerifyNocache : BitVec 32 := 1 <<< 3
def scriptVerifyChecklocktimeverify : BitVec 32 := 1 <<< 5
def scriptVerifyDersig : BitVec 32 := 1 <<< 6
def scriptVerifyLowS : BitVec 32 := 1 <<< 7

/-! ### Instructions -/

def opPushdata1 : UInt8 := 0x4c
def opPushdata2 : UInt8 := 0x4d
def opPushdata4 : UInt8 := 0x4e
def op1 : UInt8 := 0x51
def op16 : UInt8 := 0x60
def opReturn : UInt8 := 0x6a
def opDup : UInt8 := 0x76
def opEqual : UInt8 := 0x87
def opEqualverify : UInt8 := 0x88
def opHash160 : UInt8 := 0xa9
def opChecksig : UInt8 := 0xac
def opChecksigverify : UInt8 := 0xad
def opCheckmultisig : UInt8 := 0xae
def opCheckmultisigverify : UInt8 := 0xaf
def opInvalidopcode : UInt8 := 0xff

/-- `CScript::IsUnspendable`, `src/script.h:691`. -/
def isUnspendable (script : Bytes) : Bool := script.head? = some opReturn

/-- An instruction: an opcode and the bytes it pushes. -/
structure ScriptOp where
  opcode : UInt8
  data : Bytes := []
deriving DecidableEq, Repr

/-- The size of the immediate operand, `src/script.h:588–613`. -/
def operandSize (opcode : UInt8) (pc : Bytes) : Option (Nat × Bytes) :=
  let width := if opcode < opPushdata1 then 0
    else if opcode = opPushdata1 then 1
    else if opcode = opPushdata2 then 2
    else 4
  if pc.length < width then none
  else if width = 0 then some (opcode.toNat, pc)
  else some (leNat (pc.take width), pc.drop width)

/-- `CScript::GetOp2`, `src/script.h:572`: the instruction at `pc` and what follows it. -/
def getOp : Bytes → Option (ScriptOp × Bytes)
  | [] => none
  | opcode :: pc =>
    if opcode ≤ opPushdata4 then do
      let (nSize, pc) ← operandSize opcode pc
      if pc.length < nSize then none
      else some (⟨opcode, pc.take nSize⟩, pc.drop nSize)
    else some (⟨opcode, []⟩, pc)

/-- The instructions of a script up to the first that does not parse, and whether there is
none such. Each takes at least one byte, so the length is enough fuel. -/
def getOpsFrom : Nat → Bytes → List ScriptOp × Bool
  | 0, pc => ([], pc.isEmpty)
  | fuel + 1, pc =>
    if pc.isEmpty then ([], true)
    else
      match getOp pc with
      | none => ([], false)
      | some (op, pc) =>
        let (ops, complete) := getOpsFrom fuel pc
        (op :: ops, complete)

@[inherit_doc getOpsFrom]
def getOps (script : Bytes) : List ScriptOp × Bool := getOpsFrom script.length script

/-- `CScript::DecodeOP_N`, for `OP_1` to `OP_16`. -/
def decodeOpN (opcode : UInt8) : Nat := opcode.toNat - (op1.toNat - 1)

/-- The loop of `CScript::GetSigOpCount(bool)` over the instructions. -/
def sigOpCountFrom (fAccurate : Bool) : UInt8 → List ScriptOp → Nat
  | _, [] => 0
  | lastOpcode, op :: ops =>
    let n :=
      if op.opcode = opChecksig ∨ op.opcode = opChecksigverify then 1
      else if op.opcode = opCheckmultisig ∨ op.opcode = opCheckmultisigverify then
        if fAccurate ∧ op1 ≤ lastOpcode ∧ lastOpcode ≤ op16 then decodeOpN lastOpcode else 20
      else 0
    n + sigOpCountFrom fAccurate op.opcode ops

/-- `CScript::GetSigOpCount(bool)`, `src/script.cpp:2046`. The count of a script of `n` bytes
is at most `20 * n`, far from wrapping for anything that fits in a block. -/
def getSigOpCount (script : Bytes) (fAccurate : Bool) : Nat :=
  sigOpCountFrom fAccurate opInvalidopcode (getOps script).1

/-- `CScript::IsPayToScriptHash`. -/
def isPayToScriptHash (script : Bytes) : Bool :=
  script.length = 23 && script[0]? == some opHash160 && script[1]? == some 0x14 &&
    script[22]? == some opEqual

/-- `CScript::GetSigOpCount(const CScript&)`, `src/script.cpp:2070`: for a pay-to-script-hash
output the count of the last item that the `scriptSig` pushes. -/
def getSigOpCountP2SH (scriptPubKey scriptSig : Bytes) : Nat :=
  if !isPayToScriptHash scriptPubKey then getSigOpCount scriptPubKey true
  else
    let (ops, complete) := getOps scriptSig
    if complete && ops.all (fun op ↦ op.opcode ≤ op16) then
      getSigOpCount ((ops.getLast?.map (·.data)).getD []) true
    else 0

/-! ### Building scripts -/

/-- The bytes of a magnitude, least significant first; eight are enough for an `int64_t`. -/
def magnitudeBytes : Nat → Nat → Bytes
  | 0, _ => []
  | fuel + 1, absvalue =>
    if absvalue = 0 then []
    else UInt8.ofNat (absvalue % 256) :: magnitudeBytes fuel (absvalue / 256)

/-- `CScriptNum::serialize`, `src/script.h:131`. -/
def scriptNumSerialize (value : Int) : Bytes :=
  let result := magnitudeBytes 8 value.natAbs
  match result.getLast? with
  | none => []
  | some top =>
    if top &&& 0x80 ≠ 0 then result ++ [if value < 0 then 0x80 else 0]
    else if value < 0 then result.dropLast ++ [top ||| 0x80]
    else result

/-- `CScript::operator<<` of a byte vector, `src/script.h:503`. -/
def pushBytes (b : Bytes) : Bytes :=
  if b.length < opPushdata1.toNat then UInt8.ofNat b.length :: b
  else if b.length ≤ 0xff then opPushdata1 :: UInt8.ofNat b.length :: b
  else if b.length ≤ 0xffff then opPushdata2 :: (leBytes 2 b.length ++ b)
  else opPushdata4 :: (leBytes 4 b.length ++ b)

/-- `CScript::push_int64`, `src/script.h:428`. -/
def pushInt64 (n : Int) : Bytes :=
  if n = -1 ∨ (1 ≤ n ∧ n ≤ 16) then [UInt8.ofNat (n + 0x50).toNat]
  else pushBytes (scriptNumSerialize n)

end Bitmark
