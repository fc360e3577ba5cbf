import Bitmark.Script.Script

/-!
# Standard scripts

`Solver` (`src/script.cpp:1394`) compares a script with the templates of the standard output types
and extracts public keys, hashes and numbers.
-/

namespace Bitmark

def opSmalldata : UInt8 := 0xf9
def opSmallinteger : UInt8 := 0xfa
def opPubkeys : UInt8 := 0xfb
def opPubkeyhash : UInt8 := 0xfd
def opPubkey : UInt8 := 0xfe

/-- `MAX_OP_RETURN_RELAY`, `src/script.h:26`. -/
def maxOpReturnRelay : Nat := 197

/-- `txnouttype`. -/
inductive TxnOutType where
  | nonstandard
  | pubkey
  | pubkeyhash
  | scripthash
  | multisig
  | nullData
deriving DecidableEq, Repr

/-- `mTemplates`, in the order of the map. -/
def mTemplates : List (TxnOutType × List UInt8) :=
  [(.pubkey, [opPubkey, opChecksig]),
    (.pubkeyhash, [opDup, opHash160, opPubkeyhash, opEqualverify, opChecksig]),
    (.multisig, [opSmallinteger, opPubkeys, opSmallinteger, opCheckmultisig]),
    (.nullData, [opReturn, opSmalldata]),
    (.nullData, [opReturn])]

/-- Whether a push has the size of a public key. -/
def isPubkeySize (vch : Bytes) : Bool := 33 ≤ vch.length && vch.length ≤ 65

/-- One instruction against a template opcode other than `OP_PUBKEYS`: what it adds to
`vSolutionsRet`. -/
def matchOpcode (opcode2 : UInt8) (op1 : ScriptOp) : Option (List Bytes) :=
  if opcode2 = opPubkey then
    if isPubkeySize op1.data then some [op1.data] else none
  else if opcode2 = opPubkeyhash then
    if op1.data.length = 20 then some [op1.data] else none
  else if opcode2 = opSmallinteger then
    if op1.opcode = 0 then some [[0]]
    else if Bitmark.op1 ≤ op1.opcode ∧ op1.opcode ≤ op16 then
      some [[UInt8.ofNat (decodeOpN op1.opcode)]]
    else none
  else if opcode2 = opSmalldata then
    if op1.data.length ≤ maxOpReturnRelay then some [] else none
  else if op1.opcode = opcode2 ∧ op1.data = [] then some []
  else none

/-- The comparison loop. `OP_PUBKEYS` takes every key there is, and the instruction after them is
compared with the next template opcode. -/
def matchTemplate (complete : Bool) : List UInt8 → List ScriptOp → Option (List Bytes)
  | [], [] => if complete then some [] else none
  | [], _ :: _ => none
  | _ :: _, [] => none
  | opcode2 :: template, op1 :: ops =>
    if opcode2 = opPubkeys then
      let keys := (op1 :: ops).takeWhile fun op ↦ isPubkeySize op.data
      match template, (op1 :: ops).dropWhile fun op ↦ isPubkeySize op.data with
      | opcode2 :: template, op1 :: ops => do
        let solution ← matchOpcode opcode2 op1
        let solutions ← matchTemplate complete template ops
        some (keys.map (·.data) ++ solution ++ solutions)
      | _, _ => none
    else do
      let solution ← matchOpcode opcode2 op1
      let solutions ← matchTemplate complete template ops
      some (solution ++ solutions)

/-- The additional checks for `TX_MULTISIG`. -/
def multisigChecks (vSolutions : List Bytes) : Bool :=
  let m := ((vSolutions.head?.getD []).headD 0).toNat
  let n := ((vSolutions.getLast?.getD []).headD 0).toNat
  1 ≤ m && 1 ≤ n && m ≤ n && vSolutions.length - 2 = n

/-- The scan over the templates: the first that fits decides. -/
def scanTemplates (ops : List ScriptOp) (complete : Bool) :
    List (TxnOutType × List UInt8) → Option (TxnOutType × List Bytes)
  | [] => none
  | (type, template) :: templates =>
    match matchTemplate complete template ops with
    | some vSolutions =>
      if type = .multisig && !multisigChecks vSolutions then none else some (type, vSolutions)
    | none => scanTemplates ops complete templates

/-- `Solver`; `none` is a `false` result. -/
def solver (scriptPubKey : Bytes) : Option (TxnOutType × List Bytes) :=
  if isPayToScriptHash scriptPubKey then some (.scripthash, [(scriptPubKey.drop 2).take 20])
  else
    let (ops, complete) := getOps scriptPubKey
    scanTemplates ops complete mTemplates

end Bitmark
