import Mathlib.Data.List.GetD
import Bitmark.Script.Interpreter

/-!
# The signature hash

`SignatureHash` (`src/script.cpp:1244`) serializes the transaction it hashes on the fly;
`SignatureHashOld` (`src/test/sighash_tests.cpp:25`) changes a copy and serializes that. The two
hash the same bytes of an ordinary transaction when the script code parses.
-/

namespace Bitmark

def opCodeseparator : UInt8 := 0xab

/-- The flags the serializer takes from a hash type, `src/script.cpp:1182–1184`. -/
def fAnyoneCanPay (nHashType : BitVec 32) : Bool := nHashType &&& 0x80 ≠ 0
def fHashSingle (nHashType : BitVec 32) : Bool := nHashType &&& 0x1f = 3
def fHashNone (nHashType : BitVec 32) : Bool := nHashType &&& 0x1f = 2

/-! ### Serializing on the fly -/

/-- Where a `GetOp` that returns false leaves the iterator, `src/script.h:579–613`. -/
def getOpStop : Bytes → Bytes
  | [] => []
  | opcode :: pc =>
    if opcode ≤ opPushdata4 then
      match operandSize opcode pc with
      | none => pc
      | some (_, pc) => pc
    else pc

/-- The second loop of `SerializeScriptCode`: what is written from a position on, where `pending`
are the bytes from `itBegin` to that position. Each round takes at least one byte. -/
def writeScriptCodeFrom : Nat → Bytes → Bytes → Bytes
  | 0, pending, _ => pending
  | fuel + 1, pending, it =>
    match getOp it with
    | none => pending ++ it.take (it.length - (getOpStop it).length)
    | some (op, rest) =>
      let passed := pending ++ it.take (it.length - rest.length)
      if op.opcode = opCodeseparator then passed.dropLast ++ writeScriptCodeFrom fuel [] rest
      else writeScriptCodeFrom fuel passed rest

/-- `SerializeScriptCode`, `src/script.cpp:1188`. -/
def serializeScriptCode (scriptCode : Bytes) : Bytes :=
  let nCodeSeparators := toUint32 ((getOps scriptCode).1.countP fun op ↦ op.opcode = opCodeseparator)
  writeCompactSize (scriptCode.length - nCodeSeparators) ++
    writeScriptCodeFrom (scriptCode.length + 1) [] scriptCode

section Serializer

variable (scriptCode : Bytes) (txTo : CTransaction) (nIn : Nat) (nHashType : BitVec 32)

/-- `SerializeInput`, `src/script.cpp:1210`. -/
def serializeInput (nInput : Nat) : Bytes :=
  let nInput := if fAnyoneCanPay nHashType then nIn else nInput
  let txin := txTo.vin.getD nInput { prevout := .null }
  txin.prevout.serialize ++
    (if nInput ≠ nIn then writeBytes [] else serializeScriptCode scriptCode) ++
    if nInput ≠ nIn ∧ (fHashSingle nHashType || fHashNone nHashType) then bytes32 0
    else bytes32 txin.nSequence

/-- `SerializeOutput`, `src/script.cpp:1232`. -/
def serializeOutput (nOutput : Nat) : Bytes :=
  if fHashSingle nHashType ∧ nOutput ≠ nIn then CTxOut.null.serialize
  else (txTo.vout.getD nOutput .null).serialize

/-- `CTransactionSignatureSerializer::Serialize`, `src/script.cpp:1242`. -/
def serializeForSignature : Bytes :=
  let nInputs := if fAnyoneCanPay nHashType then 1 else toUint32 txTo.vin.length
  let nOutputs := if fHashNone nHashType then 0
    else if fHashSingle nHashType then toUint32 (nIn + 1)
    else toUint32 txTo.vout.length
  bytes32 txTo.nVersion ++ writeCompactSize nInputs ++
    (List.range nInputs).flatMap (serializeInput scriptCode txTo nIn nHashType) ++
    writeCompactSize nOutputs ++
    (List.range nOutputs).flatMap (serializeOutput txTo nIn nHashType) ++ bytes32 txTo.nLockTime

/-- `SignatureHash`, `src/script.cpp:1261`. -/
def signatureHash (H : Hashes) : Uint256 :=
  if txTo.vin.length ≤ nIn then 1
  else if fHashSingle nHashType ∧ txTo.vout.length ≤ nIn then 1
  else H.hash (serializeForSignature scriptCode txTo nIn nHashType ++ bytes32 nHashType)

/-! ### Changing a copy -/

/-- Let the others update at will, `src/test/sighash_tests.cpp:53` and `72`. -/
def zeroOtherSequences (vin : List CTxIn) : List CTxIn :=
  vin.mapIdx fun i txin ↦ if i ≠ nIn then { txin with nSequence := 0 } else txin

/-- Blank out some of the outputs, `src/test/sighash_tests.cpp:46–75`; `none` is the early
return. -/
def blankOutputs (txTmp : CTransaction) : Option CTransaction :=
  if fHashNone nHashType then
    some { txTmp with vout := [], vin := zeroOtherSequences nIn txTmp.vin }
  else if fHashSingle nHashType then
    if txTmp.vout.length ≤ nIn then none
    else
      some { txTmp with
        vout := (txTmp.vout.take (nIn + 1)).mapIdx fun i txout ↦ if i < nIn then .null else txout
        vin := zeroOtherSequences nIn txTmp.vin }
  else some txTmp

/-- `SignatureHashOld`, `src/test/sighash_tests.cpp:25`. -/
def signatureHashOld (H : Hashes) : Uint256 :=
  if txTo.vin.length ≤ nIn then 1
  else
    let scriptCode := findAndDelete scriptCode [opCodeseparator]
    let vin := txTo.vin.map fun txin ↦ { txin with scriptSig := [] }
    let txTmp := { txTo with vin := vin.modify nIn fun txin ↦ { txin with scriptSig := scriptCode } }
    match blankOutputs nIn nHashType txTmp with
    | none => 1
    | some txTmp =>
      let txTmp := if fAnyoneCanPay nHashType then
          { txTmp with vin := (txTmp.vin.set 0 (txTmp.vin.getD nIn { prevout := .null })).take 1 }
        else txTmp
      H.hash (txTmp.serialize ++ bytes32 nHashType)

end Serializer

/-! ### Scripts without separators -/

theorem operandSize_eq_some {opcode : UInt8} {pc pc' : Bytes} {nSize : Nat}
    (h : operandSize opcode pc = some (nSize, pc')) :
    ∃ used, pc = used ++ pc' ∧ used.length ≤ 4 := by
  simp only [operandSize] at h
  have hwidth : (if opcode < opPushdata1 then 0 else if opcode = opPushdata1 then 1
      else if opcode = opPushdata2 then 2 else 4) ≤ 4 := by split_ifs <;> decide
  generalize (if opcode < opPushdata1 then 0 else if opcode = opPushdata1 then 1
    else if opcode = opPushdata2 then 2 else 4) = width at h hwidth
  split at h
  · cases h
  split at h
  · obtain ⟨-, rfl⟩ := Prod.mk.inj (Option.some.inj h)
    exact ⟨[], rfl, Nat.zero_le _⟩
  · obtain ⟨-, rfl⟩ := Prod.mk.inj (Option.some.inj h)
    exact ⟨pc.take width, (List.take_append_drop width pc).symm,
      (List.length_take_le _ _).trans hwidth⟩

/-- An instruction starts with its opcode, and what follows it is the end of the script. -/
theorem getOp_eq_some {pc rest : Bytes} {op : ScriptOp} (h : getOp pc = some (op, rest)) :
    ∃ used, pc = op.opcode :: (used ++ rest) := by
  cases pc with
  | nil => cases h
  | cons opcode pc =>
    rw [getOp] at h
    split at h
    · obtain ⟨⟨nSize, pc'⟩, hoperand, hdata⟩ := Option.bind_eq_some_iff.mp h
      clear h
      obtain ⟨used, rfl, -⟩ := operandSize_eq_some hoperand
      dsimp only at hdata
      split at hdata
      · cases hdata
      · obtain ⟨rfl, rfl⟩ := Prod.mk.inj (Option.some.inj hdata)
        refine ⟨used ++ pc'.take nSize, ?_⟩
        rw [List.append_assoc, List.take_append_drop]
    · obtain ⟨rfl, rfl⟩ := Prod.mk.inj (Option.some.inj h)
      exact ⟨[], rfl⟩

theorem getOp_length_lt {pc rest : Bytes} {op : ScriptOp} (h : getOp pc = some (op, rest)) :
    rest.length < pc.length := by
  obtain ⟨used, rfl⟩ := getOp_eq_some h
  rw [List.length_cons, List.length_append]
  omega

/-- Fuel beyond the length does not matter. -/
theorem getOpsFrom_eq {fuel fuel' : Nat} {pc : Bytes} (h : pc.length ≤ fuel)
    (h' : pc.length ≤ fuel') : getOpsFrom fuel pc = getOpsFrom fuel' pc := by
  induction fuel generalizing fuel' pc with
  | zero =>
    obtain rfl := List.length_eq_zero_iff.mp (Nat.le_zero.mp h)
    cases fuel' <;> rfl
  | succ fuel ih =>
    cases fuel' with
    | zero =>
      obtain rfl := List.length_eq_zero_iff.mp (Nat.le_zero.mp h')
      rfl
    | succ fuel' =>
      rw [getOpsFrom, getOpsFrom]
      split
      · rfl
      cases hop : getOp pc with
      | none => rfl
      | some p =>
        obtain ⟨op, rest⟩ := p
        have hlt := getOp_length_lt hop
        have hrest : getOpsFrom fuel rest = getOpsFrom fuel' rest := ih (by omega) (by omega)
        dsimp only
        rw [hrest]

theorem getOps_cons {pc rest : Bytes} {op : ScriptOp} (h : getOp pc = some (op, rest)) :
    getOps pc = (op :: (getOps rest).1, (getOps rest).2) := by
  have hlt := getOp_length_lt h
  have hne : pc.isEmpty = false := by
    cases pc with
    | nil => cases h
    | cons c pc => rfl
  obtain ⟨n, hn⟩ := Nat.exists_eq_succ_of_ne_zero (n := pc.length) (by omega)
  have hfuel : getOpsFrom n rest = getOpsFrom rest.length rest := getOpsFrom_eq (by omega) le_rfl
  rw [getOps, hn, getOpsFrom, hne, h, getOps]
  dsimp only
  rw [hfuel]
  rfl

/-- A script that parses to its end is empty or starts with an instruction. -/
theorem eq_nil_or_getOp {pc : Bytes} (h : (getOps pc).2 = true) :
    pc = [] ∨ ∃ op rest, getOp pc = some (op, rest) := by
  cases pc with
  | nil => exact .inl rfl
  | cons c pc =>
    right
    cases hop : getOp (c :: pc) with
    | some p => exact ⟨p.1, p.2, rfl⟩
    | none =>
      rw [getOps, List.length_cons, getOpsFrom, hop] at h
      cases h

/-- A separator is an instruction of its own, and the only one with its opcode. -/
theorem getOp_separator {pc rest : Bytes} {op : ScriptOp} (h : getOp pc = some (op, rest)) :
    op.opcode = opCodeseparator ↔ pc = opCodeseparator :: rest := by
  constructor
  · intro hop
    obtain ⟨used, rfl⟩ := getOp_eq_some h
    rw [hop] at h ⊢
    exact congrArg (opCodeseparator :: ·) (Prod.mk.inj (Option.some.inj h)).2
  · rintro rfl
    exact (congrArg ScriptOp.opcode (Prod.mk.inj (Option.some.inj h)).1).symm

/-- One round of deleting separators at an instruction. -/
theorem findAndDeleteFrom_succ {fuel : Nat} {pc rest : Bytes} {op : ScriptOp}
    (h : getOp pc = some (op, rest)) :
    findAndDeleteFrom [opCodeseparator] (fuel + 1) pc =
      (if op.opcode = opCodeseparator then [] else pc.take (pc.length - rest.length)) ++
        findAndDeleteFrom [opCodeseparator] fuel rest := by
  rw [findAndDeleteFrom]
  by_cases hop : op.opcode = opCodeseparator
  · rw [(getOp_separator h).mp hop, if_pos (by simp), if_pos hop]
    rfl
  · have hnot : [opCodeseparator].isPrefixOf pc = false := by
      obtain ⟨used, rfl⟩ := getOp_eq_some h
      simp [List.isPrefixOf, Ne.symm hop]
    rw [hnot, if_neg hop, h]
    rfl

/-- Where the script parses, writing around the separators writes what deleting them leaves. -/
theorem writeScriptCodeFrom_eq {fuel : Nat} {pc : Bytes} (pending : Bytes) (hfuel : pc.length < fuel)
    (h : (getOps pc).2 = true) :
    writeScriptCodeFrom fuel pending pc =
      pending ++ findAndDeleteFrom [opCodeseparator] fuel pc := by
  induction fuel generalizing pending pc with
  | zero => omega
  | succ fuel ih =>
    rcases eq_nil_or_getOp h with rfl | ⟨op, rest, hop⟩
    · rfl
    have hlt := getOp_length_lt hop
    rw [getOps_cons hop] at h
    rw [findAndDeleteFrom_succ hop, writeScriptCodeFrom, hop]
    dsimp only
    rw [ih _ (by omega) h, ih _ (by omega) h]
    by_cases hsep : op.opcode = opCodeseparator
    · have hused : pc.take (pc.length - rest.length) = [opCodeseparator] := by
        rw [(getOp_separator hop).mp hsep]
        simp
      rw [if_pos hsep, if_pos hsep, hused, List.dropLast_concat]
    · rw [if_neg hsep, if_neg hsep, List.append_assoc]

/-- Deleting the separators takes one byte for each. -/
theorem length_findAndDeleteFrom {fuel : Nat} {pc : Bytes} (hfuel : pc.length < fuel)
    (h : (getOps pc).2 = true) :
    (findAndDeleteFrom [opCodeseparator] fuel pc).length +
      (getOps pc).1.countP (fun op ↦ op.opcode = opCodeseparator) = pc.length := by
  induction fuel generalizing pc with
  | zero => omega
  | succ fuel ih =>
    rcases eq_nil_or_getOp h with rfl | ⟨op, rest, hop⟩
    · rfl
    have hlt := getOp_length_lt hop
    rw [getOps_cons hop] at h
    have hrest := ih (by omega) h
    rw [findAndDeleteFrom_succ hop, getOps_cons hop, List.length_append, List.countP_cons]
    by_cases hsep : op.opcode = opCodeseparator
    · have hlen : pc.length = rest.length + 1 := by
        rw [(getOp_separator hop).mp hsep, List.length_cons]
      simp only [hsep, if_true, decide_true, List.length_nil]
      omega
    · simp only [hsep, if_false, decide_false, List.length_take]
      simp only [Bool.false_eq_true, if_false]
      omega

/-- The script code is serialized as the script without its separators. -/
theorem serializeScriptCode_eq {scriptCode : Bytes} (hlen : scriptCode.length < 2 ^ 32)
    (h : (getOps scriptCode).2 = true) :
    serializeScriptCode scriptCode = writeBytes (findAndDelete scriptCode [opCodeseparator]) := by
  have hcount := length_findAndDeleteFrom (Nat.lt_succ_self scriptCode.length) h
  have hword : toUint32 ((getOps scriptCode).1.countP fun op ↦ op.opcode = opCodeseparator) =
      (getOps scriptCode).1.countP fun op ↦ op.opcode = opCodeseparator :=
    Nat.mod_eq_of_lt (by omega)
  rw [serializeScriptCode, hword, writeScriptCodeFrom_eq [] (Nat.lt_succ_self _) h,
    List.nil_append, writeBytes, findAndDelete, if_neg (by simp)]
  congr 2
  rw [← Nat.succ_eq_add_one]
  omega

/-! ### The two hashes -/

section Agreement

variable {scriptCode : Bytes} {txTo : CTransaction} {nIn : Nat} {nHashType : BitVec 32}

/-- An input as it is hashed: other inputs have no script, and no sequence number when they may
be updated. -/
def hashedInput (code : Bytes) (txTo : CTransaction) (nIn : Nat) (nHashType : BitVec 32)
    (i : Nat) : CTxIn :=
  let txin := txTo.vin.getD i { prevout := .null }
  { prevout := txin.prevout
    scriptSig := if i ≠ nIn then [] else code
    nSequence :=
      if i ≠ nIn ∧ (fHashSingle nHashType || fHashNone nHashType) then 0 else txin.nSequence }

/-- An output as it is hashed. -/
def hashedOutput (txTo : CTransaction) (nIn : Nat) (nHashType : BitVec 32) (i : Nat) : CTxOut :=
  if fHashSingle nHashType ∧ i ≠ nIn then .null else txTo.vout.getD i .null

theorem serializeInput_eq (hlen : scriptCode.length < 2 ^ 32) (h : (getOps scriptCode).2 = true)
    (i : Nat) :
    serializeInput scriptCode txTo nIn nHashType i =
      (hashedInput (findAndDelete scriptCode [opCodeseparator]) txTo nIn nHashType
        (if fAnyoneCanPay nHashType then nIn else i)).serialize := by
  rw [serializeInput, hashedInput, CTxIn.serialize, serializeScriptCode_eq hlen h]
  generalize (if fAnyoneCanPay nHashType = true then nIn else i) = j
  by_cases hj : j = nIn
  · simp [hj]
  · simp only [ne_eq, hj, not_false_eq_true, if_true, true_and]
    split <;> rfl

theorem serializeOutput_eq (i : Nat) :
    serializeOutput txTo nIn nHashType i = (hashedOutput txTo nIn nHashType i).serialize := by
  rw [serializeOutput, hashedOutput]
  split <;> rfl

/-- What the reference makes of the inputs before `SIGHASH_ANYONECANPAY`. -/
theorem blankInputs_eq (code : Bytes) :
    (let blanked := (txTo.vin.map fun txin ↦ { txin with scriptSig := [] }).modify nIn
        fun txin ↦ { txin with scriptSig := code }
      if fHashSingle nHashType || fHashNone nHashType then zeroOtherSequences nIn blanked
      else blanked) =
      (List.range txTo.vin.length).map (hashedInput code txTo nIn nHashType) := by
  refine List.ext_getElem ?_ fun i hi hi' ↦ ?_
  · dsimp only
    split <;> simp [zeroOtherSequences]
  · have hvin : i < txTo.vin.length := by simpa using hi'
    simp only [List.getElem_map, List.getElem_range, hashedInput, List.getD_eq_getElem _ _ hvin]
    by_cases hfree : (fHashSingle nHashType || fHashNone nHashType) = true
    · simp only [hfree, if_true, zeroOtherSequences, List.getElem_mapIdx, List.getElem_modify,
        List.getElem_map, and_true]
      by_cases hnIn : i = nIn
      · simp [hnIn]
      · simp [hnIn, Ne.symm hnIn]
    · simp only [hfree]
      by_cases hnIn : i = nIn
      · simp [hnIn]
      · simp [hnIn, Ne.symm hnIn]

/-- What the reference makes of the outputs. -/
theorem blankedVout_eq
    (hout : fHashSingle nHashType = true → nIn < txTo.vout.length) :
    (if fHashSingle nHashType then
        (txTo.vout.take (nIn + 1)).mapIdx fun i txout ↦ if i < nIn then .null else txout
      else txTo.vout) =
      (List.range (if fHashSingle nHashType then nIn + 1 else txTo.vout.length)).map
        (hashedOutput txTo nIn nHashType) := by
  by_cases hsingle : fHashSingle nHashType = true
  · have hlt := hout hsingle
    simp only [hsingle, if_true]
    refine List.ext_getElem (by simp; omega) fun i hi hi' ↦ ?_
    have hi'' : i < nIn + 1 := by simpa using hi'
    simp only [List.getElem_mapIdx, List.getElem_take, List.getElem_map, List.getElem_range,
      hashedOutput, hsingle, true_and, List.getD_eq_getElem txTo.vout _ (by omega : i < _)]
    by_cases hnIn : i = nIn
    · simp [hnIn]
    · rw [if_pos (by omega), if_pos hnIn]
  · simp only [hsingle, Bool.false_eq_true, if_false]
    refine List.ext_getElem (by simp) fun i hi hi' ↦ ?_
    simp [hashedOutput, hsingle, hi]

/-- The number of outputs that are hashed. -/
def hashedOutputs (txTo : CTransaction) (nIn : Nat) (nHashType : BitVec 32) : Nat :=
  if fHashNone nHashType then 0 else if fHashSingle nHashType then nIn + 1 else txTo.vout.length

/-- The copy that the reference hashes before `SIGHASH_ANYONECANPAY`. -/
theorem blankOutputs_eq (code : Bytes) (hout : fHashSingle nHashType = true → nIn < txTo.vout.length) :
    blankOutputs nIn nHashType { txTo with
        vin := (txTo.vin.map fun txin ↦ { txin with scriptSig := [] }).modify nIn
          fun txin ↦ { txin with scriptSig := code } } =
      some { txTo with
        vin := (List.range txTo.vin.length).map (hashedInput code txTo nIn nHashType)
        vout := (List.range (hashedOutputs txTo nIn nHashType)).map
          (hashedOutput txTo nIn nHashType) } := by
  have hvin := @blankInputs_eq txTo nIn nHashType code
  dsimp only at hvin
  unfold blankOutputs hashedOutputs
  by_cases hnone : fHashNone nHashType = true
  · rw [if_pos (by simp [hnone])] at hvin
    rw [if_pos hnone, if_pos hnone, hvin]
    rfl
  · have hvout := blankedVout_eq hout
    rw [if_neg hnone, if_neg hnone, ← hvout]
    by_cases hsingle : fHashSingle nHashType = true
    · have hlt := hout hsingle
      rw [if_pos (by simp [hsingle])] at hvin
      rw [if_pos hsingle, if_pos hsingle, if_neg (by dsimp only; omega), hvin]
    · rw [if_neg (by simp [hsingle, hnone])] at hvin
      rw [if_neg hsingle, if_neg hsingle, hvin]

/-- The inputs that are hashed. -/
def hashedInputs (code : Bytes) (txTo : CTransaction) (nIn : Nat) (nHashType : BitVec 32) :
    List CTxIn :=
  if fAnyoneCanPay nHashType then [hashedInput code txTo nIn nHashType nIn]
  else (List.range txTo.vin.length).map (hashedInput code txTo nIn nHashType)

/-- The serializer writes the inputs and outputs that are hashed. -/
theorem serializeForSignature_eq (hparse : (getOps scriptCode).2 = true)
    (hcode : scriptCode.length < 2 ^ 32) (hvin : txTo.vin.length < 2 ^ 32)
    (hvout : txTo.vout.length < 2 ^ 32)
    (hout : fHashSingle nHashType = true → nIn < txTo.vout.length) :
    serializeForSignature scriptCode txTo nIn nHashType =
      bytes32 txTo.nVersion ++
        writeVector CTxIn.serialize
          (hashedInputs (findAndDelete scriptCode [opCodeseparator]) txTo nIn nHashType) ++
        writeVector CTxOut.serialize ((List.range (hashedOutputs txTo nIn nHashType)).map
          (hashedOutput txTo nIn nHashType)) ++
        bytes32 txTo.nLockTime := by
  have hnOutputs : (if fHashNone nHashType then 0 else if fHashSingle nHashType then
      toUint32 (nIn + 1) else toUint32 txTo.vout.length) = hashedOutputs txTo nIn nHashType := by
    unfold hashedOutputs toUint32
    split
    · rfl
    split
    · next hsingle =>
      have := hout hsingle
      exact Nat.mod_eq_of_lt (by omega)
    · exact Nat.mod_eq_of_lt hvout
  have houtputs : serializeOutput txTo nIn nHashType = fun i ↦
      (hashedOutput txTo nIn nHashType i).serialize := funext serializeOutput_eq
  have hinputs : serializeInput scriptCode txTo nIn nHashType = fun i ↦
      (hashedInput (findAndDelete scriptCode [opCodeseparator]) txTo nIn nHashType
        (if fAnyoneCanPay nHashType then nIn else i)).serialize :=
    funext (serializeInput_eq hcode hparse)
  rw [serializeForSignature, hnOutputs, houtputs, hinputs, hashedInputs, writeVector, writeVector,
    List.length_map, List.length_range, List.flatMap_map]
  by_cases hany : fAnyoneCanPay nHashType = true
  · simp [hany, List.append_assoc]
  · have hnInputs : toUint32 txTo.vin.length = txTo.vin.length := Nat.mod_eq_of_lt hvin
    simp [hany, hnInputs, List.append_assoc, List.flatMap_map]

/-- Keeping the input `nIn` only. -/
theorem take_one_set_zero {α : Type} {xs : List α} {i : Nat} (d : α) (hi : i < xs.length) :
    (xs.set 0 (xs.getD i d)).take 1 = [xs[i]] := by
  rw [List.getD_eq_getElem _ _ hi]
  cases xs with
  | nil => cases hi
  | cons x xs => rfl

/-- The signature hash of an ordinary transaction is the hash of the changed copy. -/
theorem signatureHash_eq_old (H : Hashes) (hparse : (getOps scriptCode).2 = true)
    (hcode : scriptCode.length < 2 ^ 32) (hvin : txTo.vin.length < 2 ^ 32)
    (hvout : txTo.vout.length < 2 ^ 32) (hform : txTo.vectorFormat = true → txTo.vin = []) :
    signatureHash scriptCode txTo nIn nHashType H =
      signatureHashOld scriptCode txTo nIn nHashType H := by
  unfold signatureHash signatureHashOld
  by_cases hIn : txTo.vin.length ≤ nIn
  · rw [if_pos hIn, if_pos hIn]
  have hordinary : txTo.vectorFormat = false := by
    by_contra hvector
    rw [hform (by simpa using hvector)] at hIn
    simp at hIn
  rw [if_neg hIn, if_neg hIn]
  by_cases hOut : fHashSingle nHashType = true ∧ txTo.vout.length ≤ nIn
  · have hnone : fHashNone nHashType = false := by
      have hsingle := hOut.1
      simp only [fHashSingle, fHashNone, decide_eq_true_eq, decide_eq_false_iff_not] at hsingle ⊢
      rw [hsingle]
      decide
    rw [if_pos hOut]
    simp [blankOutputs, hnone, hOut]
  · have hout : fHashSingle nHashType = true → nIn < txTo.vout.length :=
      fun hsingle ↦ Nat.lt_of_not_le fun hle ↦ hOut ⟨hsingle, hle⟩
    rw [if_neg hOut]
    dsimp only
    rw [blankOutputs_eq _ hout, serializeForSignature_eq hparse hcode hvin hvout hout, hashedInputs]
    dsimp only
    by_cases hany : fAnyoneCanPay nHashType = true
    · rw [if_pos hany, if_pos hany, take_one_set_zero _ (by simpa using hIn)]
      simp [CTransaction.serialize, hordinary]
    · rw [if_neg hany, if_neg hany]
      simp [CTransaction.serialize, hordinary]

/-- A transaction with two inputs and two outputs, and a script code with separators around and
inside a push. -/
def sampleSpending : CTransaction where
  vin := [⟨⟨5, 0⟩, [0x51], 7⟩, ⟨⟨6, 1⟩, [0x52], -1⟩]
  vout := [⟨10, [0x53]⟩, ⟨20, []⟩]

@[inherit_doc sampleSpending]
def sampleScriptCode : Bytes :=
  [opCodeseparator, 0x02, opCodeseparator, 0x51, opCodeseparator, opCodeseparator, opChecksig]

/-- `SIGHASH_SINGLE` with `SIGHASH_ANYONECANPAY` at the second input. -/
theorem signatureHash_eq_old_sample :
    signatureHash sampleScriptCode sampleSpending 1 0x83 toyHashes =
      signatureHashOld sampleScriptCode sampleSpending 1 0x83 toyHashes :=
  signatureHash_eq_old toyHashes (by decide) (by decide) (by decide) (by decide) (by decide)

/-- Of a transaction in the vector format the copy is serialized as its opaque bytes. -/
theorem signatureHash_ne_old_vectorFormat :
    signatureHash [] { sampleSpending with vectorFormat := true } 0 1 toyHashes ≠
      signatureHashOld [] { sampleSpending with vectorFormat := true } 0 1 toyHashes := by
  decide

end Agreement

end Bitmark
