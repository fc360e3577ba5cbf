import Bitmark.Script.Encoding

/-!
# The script interpreter

`EvalScript` (`src/script.cpp:447`) and `VerifyScript` (`src/script.cpp:1813`). The top of a stack
is the head of its list. Signatures are judged by an oracle.
-/

namespace Bitmark

/-! ### Opcodes -/

def opIf : UInt8 := 0x63
def opEndif : UInt8 := 0x68

/-- The stack operations without operands of their own, `OP_2DROP` to `OP_TUCK` and `OP_SIZE`. -/
inductive StackOp where
  | drop2 | dup2 | dup3 | over2 | rot2 | swap2 | ifdup | depth | drop | dup | nip | over | rot | swap
  | tuck | size
deriving DecidableEq, Repr

/-- `OP_1ADD` to `OP_0NOTEQUAL`. -/
inductive UnaryOp where
  | add1 | sub1 | negate | abs | not | notEqual0
deriving DecidableEq, Repr

/-- `OP_ADD` to `OP_MAX`. -/
inductive BinaryOp where
  | add | sub | boolAnd | boolOr | numEqual | numNotEqual | lessThan | greaterThan
  | lessThanOrEqual | greaterThanOrEqual | min | max
deriving DecidableEq, Repr

/-- `OP_RIPEMD160` to `OP_HASH256`. -/
inductive HashOp where
  | ripemd160 | sha1 | sha256 | hash160 | hash256
deriving DecidableEq, Repr

/-- The cases of the switch of `EvalScript`. The opcodes of a `..VERIFY` variant share a case with
the plain one. -/
inductive OpCase where
  | disabled
  | number (n : Int)
  | nop
  | checkLockTimeVerify
  | opIf (fNot : Bool)
  | opElse
  | opEndif
  | verify
  | opReturn
  | toAltStack
  | fromAltStack
  | stack (op : StackOp)
  | pick (fRoll : Bool)
  | equal (fVerify : Bool)
  | unary (op : UnaryOp)
  | binary (op : BinaryOp) (fVerify : Bool)
  | within
  | hash (op : HashOp)
  | codeSeparator
  | checkSig (fVerify : Bool)
  | checkMultisig (fVerify : Bool)
  | default
deriving DecidableEq, Repr

/-- The case of an opcode, `src/script.h:279–412`. -/
def opCase (opcode : UInt8) : OpCase :=
  if opcode = 0x4f ∨ (op1 ≤ opcode ∧ opcode ≤ op16) then .number ((opcode.toNat : Int) - 0x50)
  else
    match opcode with
    | 0x61 | 0xb0 | 0xb2 | 0xb3 | 0xb4 | 0xb5 | 0xb6 | 0xb7 | 0xb8 | 0xb9 => .nop
    | 0xb1 => .checkLockTimeVerify
    | 0x63 => .opIf false
    | 0x64 => .opIf true
    | 0x67 => .opElse
    | 0x68 => .opEndif
    | 0x69 => .verify
    | 0x6a => .opReturn
    | 0x6b => .toAltStack
    | 0x6c => .fromAltStack
    | 0x6d => .stack .drop2
    | 0x6e => .stack .dup2
    | 0x6f => .stack .dup3
    | 0x70 => .stack .over2
    | 0x71 => .stack .rot2
    | 0x72 => .stack .swap2
    | 0x73 => .stack .ifdup
    | 0x74 => .stack .depth
    | 0x75 => .stack .drop
    | 0x76 => .stack .dup
    | 0x77 => .stack .nip
    | 0x78 => .stack .over
    | 0x79 => .pick false
    | 0x7a => .pick true
    | 0x7b => .stack .rot
    | 0x7c => .stack .swap
    | 0x7d => .stack .tuck
    | 0x7e | 0x7f | 0x80 | 0x81 => .disabled
    | 0x82 => .stack .size
    | 0x83 | 0x84 | 0x85 | 0x86 => .disabled
    | 0x87 => .equal false
    | 0x88 => .equal true
    | 0x8b => .unary .add1
    | 0x8c => .unary .sub1
    | 0x8d | 0x8e => .disabled
    | 0x8f => .unary .negate
    | 0x90 => .unary .abs
    | 0x91 => .unary .not
    | 0x92 => .unary .notEqual0
    | 0x93 => .binary .add false
    | 0x94 => .binary .sub false
    | 0x95 | 0x96 | 0x97 | 0x98 | 0x99 => .disabled
    | 0x9a => .binary .boolAnd false
    | 0x9b => .binary .boolOr false
    | 0x9c => .binary .numEqual false
    | 0x9d => .binary .numEqual true
    | 0x9e => .binary .numNotEqual false
    | 0x9f => .binary .lessThan false
    | 0xa0 => .binary .greaterThan false
    | 0xa1 => .binary .lessThanOrEqual false
    | 0xa2 => .binary .greaterThanOrEqual false
    | 0xa3 => .binary .min false
    | 0xa4 => .binary .max false
    | 0xa5 => .within
    | 0xa6 => .hash .ripemd160
    | 0xa7 => .hash .sha1
    | 0xa8 => .hash .sha256
    | 0xa9 => .hash .hash160
    | 0xaa => .hash .hash256
    | 0xab => .codeSeparator
    | 0xac => .checkSig false
    | 0xad => .checkSig true
    | 0xae => .checkMultisig false
    | 0xaf => .checkMultisig true
    | _ => .default

/-! ### Values -/

/-- Why an evaluation ends early: it returns false (also for an exception), it leaves the language,
or an assertion fails. -/
inductive ScriptStop where
  | fail
  | fault (f : Fault)
  | assertion
deriving DecidableEq, Repr

/-- The evaluation of a script: `ok` for true. -/
abbrev Eval := Except ScriptStop

namespace Eval

/-- `if (!ok) return false`. -/
def check (ok : Bool) : Eval Unit := if ok then .ok () else .error .fail

/-- A value that is there, or `return false`. -/
def get {α : Type} : Option α → Eval α
  | some a => .ok a
  | none => .error .fail

/-- The result of code that accesses vectors. -/
def ofAccess {α : Type} : Access α → Eval α
  | .ok a => .ok a
  | .error f => .error (.fault f)

theorem bind_eq_ok {α β : Type} {x : Eval α} {f : α → Eval β} {b : β} :
    (x >>= f) = .ok b ↔ ∃ a, x = .ok a ∧ f a = .ok b := by
  cases x with
  | error e =>
    constructor
    · intro h
      cases h
    · rintro ⟨a, h, -⟩
      cases h
  | ok a =>
    constructor
    · intro h
      exact ⟨a, rfl, h⟩
    · rintro ⟨a', ha, h⟩
      cases ha
      exact h

@[simp] theorem ok_bind {α β : Type} (a : α) (f : α → Eval β) : (Except.ok a >>= f) = f a := rfl

@[simp] theorem check_eq_ok {ok : Bool} : check ok = .ok () ↔ ok = true := by
  unfold check
  cases ok <;> simp

end Eval

/-- `CastToBool`, `src/script.cpp:36`. -/
def castToBool : Bytes → Bool
  | [] => false
  | [b] => b ≠ 0 && b ≠ 0x80
  | b :: vch => b ≠ 0 || castToBool vch

/-- `vchTrue` and `vchFalse`. -/
def boolBytes (b : Bool) : Bytes := if b then [1] else []

/-- `CScriptNum(vch, nMaxNumSize)`, `src/script.h:58` and `src/script.h:166`. The mask of the sign
of five bytes is shifted out of an `int`. -/
def scriptNum (vch : Bytes) (nMaxNumSize : Nat := 4) : Eval Int :=
  if nMaxNumSize < vch.length then .error .fail
  else if (vch.getLast?.getD 0) &&& 0x80 = 0 then .ok (leNat vch)
  else if 4 < vch.length then .error (.fault .shift)
  else .ok (-(leNat vch % 2 ^ (8 * vch.length - 1) : Nat))

/-- `CScriptNum::getint`, `src/script.h:121`. -/
def getInt (n : Int) : Int := max (-2 ^ 31) (min n (2 ^ 31 - 1))

/-! ### Context -/

/-- The hashes of the opcodes, and an oracle for signatures: whether this is a signature by this
key of the transaction, as the script, the input and the hash type select it. -/
structure ScriptCrypto where
  ripemd160 : Bytes → Bytes
  sha1 : Bytes → Bytes
  sha256 : Bytes → Bytes
  hash160 : Bytes → Bytes
  hash256 : Bytes → Bytes
  verify : (vchPubKey scriptCode : Bytes) → (txTo : CTransaction) → (nIn : Nat) →
    (nHashType : Int) → (vchSig : Bytes) → Bool

/-- What an evaluation reads besides script, stack and flags. -/
structure ScriptEnv where
  crypto : ScriptCrypto
  txTo : CTransaction
  nIn : Nat
  nHashType : Int := 0

/-- `CPubKey::GetLen`, `src/key.h:50`. -/
def pubKeyLen (chHeader : UInt8) : Nat :=
  if chHeader = 2 ∨ chHeader = 3 then 33
  else if chHeader = 4 ∨ chHeader = 6 ∨ chHeader = 7 then 65
  else 0

/-- `CPubKey(vch).IsValid()`. -/
def pubKeyIsValid (vchPubKey : Bytes) : Bool :=
  match vchPubKey with
  | [] => false
  | chHeader :: _ => pubKeyLen chHeader = vchPubKey.length

/-- `CheckSig`, `src/script.cpp:1337`, without its cache. -/
def ScriptEnv.checkSig (env : ScriptEnv) (vchSig vchPubKey scriptCode : Bytes) : Bool :=
  match vchSig.getLast? with
  | none => false
  | some last =>
    pubKeyIsValid vchPubKey && (env.nHashType = 0 || env.nHashType = last.toNat) &&
      env.crypto.verify vchPubKey scriptCode env.txTo env.nIn last.toNat vchSig.dropLast

/-- The conjunction of `OP_CHECKSIG` and `OP_CHECKMULTISIG`, `src/script.cpp:1023`. -/
def ScriptEnv.signatureOk (env : ScriptEnv) (flags : BitVec 32) (scriptCode vchSig vchPubKey : Bytes) :
    Access Bool := do
  let okSig ← checkSignatureEncoding vchSig flags
  if !okSig then .ok false
  else do
    let okKey ← checkPubKeyEncoding vchPubKey flags
    if !okKey then .ok false else .ok (env.checkSig vchSig vchPubKey scriptCode)

/-- The loop of `CScript::FindAndDelete`, `src/script.h:637`. Each round takes at least one byte,
and the last one none. -/
def findAndDeleteFrom (b : Bytes) : Nat → Bytes → Bytes
  | 0, pc => pc
  | fuel + 1, pc =>
    if b.isPrefixOf pc then findAndDeleteFrom b fuel (pc.drop b.length)
    else
      match getOp pc with
      | none => pc
      | some (_, rest) => pc.take (pc.length - rest.length) ++ findAndDeleteFrom b fuel rest

@[inherit_doc findAndDeleteFrom]
def findAndDelete (script b : Bytes) : Bytes :=
  if b.isEmpty then script else findAndDeleteFrom b (script.length + 1) script

/-- `CScript::IsPushOnly`, `src/script.cpp:2103`. -/
def isPushOnly (script : Bytes) : Bool :=
  let (ops, complete) := getOps script
  complete && ops.all fun op ↦ op.opcode ≤ op16

/-! ### Operations -/

/-- The stack operations, `src/script.cpp:651–833`. -/
def StackOp.run : StackOp → List Bytes → Option (List Bytes)
  | .drop2, _ :: _ :: stack => some stack
  | .dup2, x2 :: x1 :: stack => some (x2 :: x1 :: x2 :: x1 :: stack)
  | .dup3, x3 :: x2 :: x1 :: stack => some (x3 :: x2 :: x1 :: x3 :: x2 :: x1 :: stack)
  | .over2, x4 :: x3 :: x2 :: x1 :: stack => some (x2 :: x1 :: x4 :: x3 :: x2 :: x1 :: stack)
  | .rot2, x6 :: x5 :: x4 :: x3 :: x2 :: x1 :: stack =>
    some (x2 :: x1 :: x6 :: x5 :: x4 :: x3 :: stack)
  | .swap2, x4 :: x3 :: x2 :: x1 :: stack => some (x2 :: x1 :: x4 :: x3 :: stack)
  | .ifdup, x :: stack => some (if castToBool x then x :: x :: stack else x :: stack)
  | .depth, stack => some (scriptNumSerialize stack.length :: stack)
  | .drop, _ :: stack => some stack
  | .dup, x :: stack => some (x :: x :: stack)
  | .nip, x2 :: _ :: stack => some (x2 :: stack)
  | .over, x2 :: x1 :: stack => some (x1 :: x2 :: x1 :: stack)
  | .rot, x3 :: x2 :: x1 :: stack => some (x1 :: x3 :: x2 :: stack)
  | .swap, x2 :: x1 :: stack => some (x1 :: x2 :: stack)
  | .tuck, x2 :: x1 :: stack => some (x2 :: x1 :: x2 :: stack)
  | .size, x :: stack => some (scriptNumSerialize x.length :: x :: stack)
  | _, _ => none

/-- The inner switch of `src/script.cpp:890`. -/
def UnaryOp.run (bn : Int) : UnaryOp → Int
  | .add1 => bn + 1
  | .sub1 => bn - 1
  | .negate => -bn
  | .abs => if bn < 0 then -bn else bn
  | .not => if bn = 0 then 1 else 0
  | .notEqual0 => if bn ≠ 0 then 1 else 0

/-- The inner switch of `src/script.cpp:926`. -/
def BinaryOp.run (bn1 bn2 : Int) : BinaryOp → Int
  | .add => bn1 + bn2
  | .sub => bn1 - bn2
  | .boolAnd => if bn1 ≠ 0 ∧ bn2 ≠ 0 then 1 else 0
  | .boolOr => if bn1 ≠ 0 ∨ bn2 ≠ 0 then 1 else 0
  | .numEqual => if bn1 = bn2 then 1 else 0
  | .numNotEqual => if bn1 ≠ bn2 then 1 else 0
  | .lessThan => if bn1 < bn2 then 1 else 0
  | .greaterThan => if bn1 > bn2 then 1 else 0
  | .lessThanOrEqual => if bn1 ≤ bn2 then 1 else 0
  | .greaterThanOrEqual => if bn1 ≥ bn2 then 1 else 0
  | .min => if bn1 < bn2 then bn1 else bn2
  | .max => if bn1 > bn2 then bn1 else bn2

/-- `OP_RIPEMD160` to `OP_HASH256`, `src/script.cpp:986`. -/
def HashOp.run (crypto : ScriptCrypto) : HashOp → Bytes → Bytes
  | .ripemd160 => crypto.ripemd160
  | .sha1 => crypto.sha1
  | .sha256 => crypto.sha256
  | .hash160 => crypto.hash160
  | .hash256 => crypto.hash256

/-- The local variables of `EvalScript`; `codeHash` is the script from `pbegincodehash` on, and the
innermost condition is the head of `vfExec`. -/
structure ScriptState where
  stack : List Bytes
  altstack : List Bytes := []
  vfExec : List Bool := []
  nOpCount : Nat := 0
  codeHash : Bytes
deriving DecidableEq, Repr

/-- Push the outcome of a test; its `..VERIFY` variant takes it off again or fails. -/
def ScriptState.pushTest (s : ScriptState) (stack : List Bytes) (fValue fVerify : Bool) :
    Eval ScriptState :=
  if fVerify then do
    .check fValue
    return { s with stack }
  else return { s with stack := boolBytes fValue :: stack }

/-- `OP_CHECKLOCKTIMEVERIFY`, `src/script.cpp:542–561`. -/
def ScriptEnv.checkLockTime (env : ScriptEnv) (stack : List Bytes) : Eval Unit := do
  let top ← .get stack.head?
  let nLockTime ← scriptNum top 5
  .check (0 ≤ nLockTime)
  let threshold : Nat := 500000000
  .check ((env.txTo.nLockTime.toNat < threshold && nLockTime < threshold) ||
    (threshold ≤ env.txTo.nLockTime.toNat && threshold ≤ nLockTime))
  .check (nLockTime ≤ env.txTo.nLockTime.toNat)
  let txin ← .ofAccess (vectorAt env.txTo.vin env.nIn)
  .check !txin.isFinal

/-- The loop of `OP_CHECKMULTISIG`, `src/script.cpp:1091`, over the keys and signatures left. -/
def ScriptEnv.multisigLoop (env : ScriptEnv) (flags : BitVec 32) (scriptCode : Bytes) :
    List Bytes → List Bytes → Access Bool
  | _, [] => return true
  | [], _ :: _ => return false
  | vchPubKey :: keys, vchSig :: sigs => do
    let fOk ← env.signatureOk flags scriptCode vchSig vchPubKey
    let left := if fOk then sigs else vchSig :: sigs
    if keys.length < left.length then return false
    else env.multisigLoop flags scriptCode keys left

/-- `OP_CHECKMULTISIG`, `src/script.cpp:1055`. -/
def ScriptEnv.checkMultisig (env : ScriptEnv) (flags : BitVec 32) (s : ScriptState)
    (fVerify : Bool) : Eval ScriptState := do
  let top ← .get s.stack[0]?
  let nKeysCount := getInt (← scriptNum top)
  .check (0 ≤ nKeysCount && nKeysCount ≤ 20)
  let nKeys := nKeysCount.toNat
  let s := { s with nOpCount := s.nOpCount + nKeys }
  .check (s.nOpCount ≤ 201)
  let count ← .get s.stack[1 + nKeys]?
  let nSigsCount := getInt (← scriptNum count)
  .check (0 ≤ nSigsCount && nSigsCount ≤ nKeys)
  let nSigs := nSigsCount.toNat
  .check (3 + nKeys + nSigs ≤ s.stack.length)
  let keys := (s.stack.drop 1).take nKeys
  let sigs := (s.stack.drop (2 + nKeys)).take nSigs
  let scriptCode := sigs.foldl (fun scriptCode vchSig ↦ findAndDelete scriptCode (pushBytes vchSig))
    s.codeHash
  let fSuccess ← .ofAccess (env.multisigLoop flags scriptCode keys sigs)
  s.pushTest (s.stack.drop (3 + nKeys + nSigs)) fSuccess fVerify

/-- The switch of `EvalScript`, with `pc` behind the opcode. -/
def ScriptEnv.execOp (env : ScriptEnv) (flags : BitVec 32) (pc : Bytes) (fExec : Bool)
    (s : ScriptState) : OpCase → Eval ScriptState
  | .disabled => .error .fail
  | .number n => return { s with stack := scriptNumSerialize n :: s.stack }
  | .nop => return s
  | .checkLockTimeVerify =>
    if flags &&& scriptVerifyChecklocktimeverify = 0 then return s
    else do
      env.checkLockTime s.stack
      return s
  | .opIf fNot =>
    if fExec then
      match s.stack with
      | [] => .error .fail
      | vch :: stack => return { s with stack, vfExec := (castToBool vch != fNot) :: s.vfExec }
    else return { s with vfExec := false :: s.vfExec }
  | .opElse =>
    match s.vfExec with
    | [] => .error .fail
    | fValue :: vfExec => return { s with vfExec := (!fValue) :: vfExec }
  | .opEndif =>
    match s.vfExec with
    | [] => .error .fail
    | _ :: vfExec => return { s with vfExec }
  | .verify =>
    match s.stack with
    | [] => .error .fail
    | vch :: stack => do
      .check (castToBool vch)
      return { s with stack }
  | .opReturn => .error .fail
  | .toAltStack =>
    match s.stack with
    | [] => .error .fail
    | vch :: stack => return { s with stack, altstack := vch :: s.altstack }
  | .fromAltStack =>
    match s.altstack with
    | [] => .error .fail
    | vch :: altstack => return { s with stack := vch :: s.stack, altstack }
  | .stack op => do
    let stack ← .get (op.run s.stack)
    return { s with stack }
  | .pick fRoll =>
    match s.stack with
    | top :: vch :: rest => do
      let stack := vch :: rest
      let n := getInt (← scriptNum top)
      .check (0 ≤ n && n < stack.length)
      let vch ← .get stack[n.toNat]?
      return { s with stack := vch :: if fRoll then stack.eraseIdx n.toNat else stack }
    | _ => .error .fail
  | .equal fVerify =>
    match s.stack with
    | vch2 :: vch1 :: stack => s.pushTest stack (vch1 = vch2) fVerify
    | _ => .error .fail
  | .unary op =>
    match s.stack with
    | vch :: stack => do
      let bn ← scriptNum vch
      return { s with stack := scriptNumSerialize (op.run bn) :: stack }
    | _ => .error .fail
  | .binary op fVerify =>
    match s.stack with
    | vch2 :: vch1 :: stack => do
      let bn1 ← scriptNum vch1
      let bn2 ← scriptNum vch2
      let bn := scriptNumSerialize (op.run bn1 bn2)
      if fVerify then s.pushTest stack (castToBool bn) true
      else return { s with stack := bn :: stack }
    | _ => .error .fail
  | .within =>
    match s.stack with
    | vch3 :: vch2 :: vch1 :: stack => do
      let bn1 ← scriptNum vch1
      let bn2 ← scriptNum vch2
      let bn3 ← scriptNum vch3
      s.pushTest stack (bn2 ≤ bn1 && bn1 < bn3) false
    | _ => .error .fail
  | .hash op =>
    match s.stack with
    | vch :: stack => return { s with stack := op.run env.crypto vch :: stack }
    | _ => .error .fail
  | .codeSeparator => return { s with codeHash := pc }
  | .checkSig fVerify =>
    match s.stack with
    | vchPubKey :: vchSig :: stack => do
      let scriptCode := findAndDelete s.codeHash (pushBytes vchSig)
      let fSuccess ← .ofAccess (env.signatureOk flags scriptCode vchSig vchPubKey)
      s.pushTest stack fSuccess fVerify
    | _ => .error .fail
  | .checkMultisig fVerify => env.checkMultisig flags s fVerify
  | .default => .error .fail

/-! ### Evaluation -/

/-- `MAX_SCRIPT_ELEMENT_SIZE`, `src/script.h:23`. -/
def maxScriptElementSize : Nat := 520

/-- Push the data of an instruction or execute it, `src/script.cpp:493–495`; where `vfExec` holds a
false condition only the opcodes from `OP_IF` to `OP_ENDIF` are. -/
def ScriptEnv.dispatch (env : ScriptEnv) (flags : BitVec 32) (op : ScriptOp) (pc : Bytes)
    (s : ScriptState) : Eval ScriptState :=
  let fExec := s.vfExec.all id
  if fExec && op.opcode ≤ opPushdata4 then .ok { s with stack := op.data :: s.stack }
  else if fExec || (opIf ≤ op.opcode && op.opcode ≤ opEndif) then
    env.execOp flags pc fExec s (opCase op.opcode)
  else .ok s

/-- The count of an opcode above `OP_16`. -/
def ScriptState.count (s : ScriptState) (op : ScriptOp) : ScriptState :=
  if op16 < op.opcode then { s with nOpCount := s.nOpCount + 1 } else s

/-- One round of the loop of `EvalScript`, for the instruction before `pc`. -/
def ScriptEnv.execInstr (env : ScriptEnv) (flags : BitVec 32) (op : ScriptOp) (pc : Bytes)
    (s : ScriptState) : Eval ScriptState := do
  .check (op.data.length ≤ maxScriptElementSize)
  .check !(op16 < op.opcode && 201 < (s.count op).nOpCount)
  .check (opCase op.opcode ≠ .disabled)
  let s ← env.dispatch flags op pc (s.count op)
  .check (s.stack.length + s.altstack.length ≤ 1000)
  return s

/-- The loop of `EvalScript`. Each instruction takes at least one byte, so the length of the script
is enough fuel. -/
def ScriptEnv.evalLoop (env : ScriptEnv) (flags : BitVec 32) : Nat → Bytes → ScriptState →
    Eval ScriptState
  | 0, pc, s => do
    .check pc.isEmpty
    return s
  | fuel + 1, pc, s =>
    if pc.isEmpty then return s
    else do
      let (op, pc) ← .get (getOp pc)
      let s ← env.execInstr flags op pc s
      env.evalLoop flags fuel pc s

/-- `EvalScript`: the stack it leaves. -/
def ScriptEnv.evalScript (env : ScriptEnv) (flags : BitVec 32) (stack : List Bytes) (script : Bytes) :
    Eval (List Bytes) := do
  .check (script.length ≤ 10000)
  let s ← env.evalLoop flags script.length script { stack, codeHash := script }
  .check s.vfExec.isEmpty
  return s.stack

/-- The test of the top of the stack that an evaluation leaves. -/
def endsInTrue (stack : List Bytes) : Eval Unit := do
  let top ← .get stack.head?
  .check (castToBool top)

/-- `VerifyScript`. -/
def ScriptEnv.verifyScript (env : ScriptEnv) (flags : BitVec 32) (scriptSig scriptPubKey : Bytes) :
    Eval Unit := do
  let stackCopy ← env.evalScript flags [] scriptSig
  let stack ← env.evalScript flags stackCopy scriptPubKey
  endsInTrue stack
  if flags &&& scriptVerifyP2SH = 0 ∨ !isPayToScriptHash scriptPubKey then .ok ()
  else do
    .check (isPushOnly scriptSig)
    match stackCopy with
    | [] => .error .assertion
    | pubKeySerialized :: stackCopy => do
      let stack ← env.evalScript flags stackCopy pubKeySerialized
      endsInTrue stack

end Bitmark
