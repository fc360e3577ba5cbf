import Bitmark.Script.Interpreter

/-!
# Signature operations

How many signatures `EvalScript` checks, beside the static counts of `GetSigOpCount`
(`src/script.cpp:2046–2092`). The counts follow the interpreter step by step and also cover
evaluations that fail.
-/

namespace Bitmark

variable {env : ScriptEnv} {flags : BitVec 32}

/-! ### Checks performed -/

/-- The rounds of the loop of `OP_CHECKMULTISIG`, which `multisigLoop` follows. -/
def ScriptEnv.multisigRounds (env : ScriptEnv) (flags : BitVec 32) (scriptCode : Bytes) :
    List Bytes → List Bytes → Nat
  | _, [] => 0
  | [], _ :: _ => 0
  | vchPubKey :: keys, vchSig :: sigs =>
    1 +
      match env.signatureOk flags scriptCode vchSig vchPubKey with
      | .error _ => 0
      | .ok fOk =>
        let left := if fOk then sigs else vchSig :: sigs
        if keys.length < left.length then 0 else env.multisigRounds flags scriptCode keys left

/-- What `OP_CHECKMULTISIG` takes from the stack before its loop. -/
structure MultisigArgs where
  keys : List Bytes
  sigs : List Bytes
  scriptCode : Bytes
  stack : List Bytes
  nOpCount : Nat

/-- The part of `OP_CHECKMULTISIG` before its loop. -/
def ScriptState.multisigArgs (s : ScriptState) : Eval MultisigArgs := do
  let top ← .get s.stack[0]?
  let nKeysCount := getInt (← scriptNum top)
  .check (0 ≤ nKeysCount && nKeysCount ≤ 20)
  let nKeys := nKeysCount.toNat
  .check (s.nOpCount + nKeys ≤ 201)
  let count ← .get s.stack[1 + nKeys]?
  let nSigsCount := getInt (← scriptNum count)
  .check (0 ≤ nSigsCount && nSigsCount ≤ nKeys)
  let nSigs := nSigsCount.toNat
  .check (3 + nKeys + nSigs ≤ s.stack.length)
  let sigs := (s.stack.drop (2 + nKeys)).take nSigs
  return {
    keys := (s.stack.drop 1).take nKeys
    sigs
    scriptCode := sigs.foldl (fun scriptCode vchSig ↦ findAndDelete scriptCode (pushBytes vchSig))
      s.codeHash
    stack := s.stack.drop (3 + nKeys + nSigs)
    nOpCount := s.nOpCount + nKeys }

/-- `OP_CHECKMULTISIG` is its arguments, its loop and a push. -/
theorem checkMultisig_eq (env : ScriptEnv) (flags : BitVec 32) (s : ScriptState) (fVerify : Bool) :
    env.checkMultisig flags s fVerify = (do
      let args ← s.multisigArgs
      let fSuccess ← .ofAccess (env.multisigLoop flags args.scriptCode args.keys args.sigs)
      { s with nOpCount := args.nOpCount }.pushTest args.stack fSuccess fVerify) := by
  simp only [ScriptEnv.checkMultisig, ScriptState.multisigArgs, bind_assoc, pure_bind]

/-- The checks of an executed opcode. -/
def ScriptEnv.opChecks (env : ScriptEnv) (flags : BitVec 32) (s : ScriptState) : OpCase → Nat
  | .checkSig _ => if 2 ≤ s.stack.length then 1 else 0
  | .checkMultisig _ =>
    match s.multisigArgs with
    | .error _ => 0
    | .ok args => env.multisigRounds flags args.scriptCode args.keys args.sigs
  | _ => 0

/-- The checks in one round of the loop of `EvalScript`: an opcode that is not executed or stops
before the switch makes none. -/
def ScriptEnv.instrChecks (env : ScriptEnv) (flags : BitVec 32) (op : ScriptOp) (s : ScriptState) :
    Nat :=
  if op.data.length ≤ maxScriptElementSize ∧ !(op16 < op.opcode && 201 < (s.count op).nOpCount) ∧
      opPushdata4 < op.opcode ∧ s.vfExec.all id then
    env.opChecks flags (s.count op) (opCase op.opcode)
  else 0

/-- The checks of the loop of `EvalScript`. -/
def ScriptEnv.loopChecks (env : ScriptEnv) (flags : BitVec 32) : Nat → Bytes → ScriptState → Nat
  | 0, _, _ => 0
  | fuel + 1, pc, s =>
    if pc.isEmpty then 0
    else
      match getOp pc with
      | none => 0
      | some (op, pc) =>
        env.instrChecks flags op s +
          match env.execInstr flags op pc s with
          | .error _ => 0
          | .ok s => env.loopChecks flags fuel pc s

/-- The signature checks that `EvalScript` performs. -/
def ScriptEnv.sigChecks (env : ScriptEnv) (flags : BitVec 32) (stack : List Bytes) (script : Bytes) :
    Nat :=
  if script.length ≤ 10000 then
    env.loopChecks flags script.length script { stack, codeHash := script }
  else 0

/-- The checks that `VerifyScript` performs in the script that the last push of `scriptSig` holds. -/
def ScriptEnv.redeemChecks (env : ScriptEnv) (flags : BitVec 32) (scriptSig : Bytes) : Nat :=
  match env.evalScript flags [] scriptSig with
  | .ok (pubKeySerialized :: stackCopy) => env.sigChecks flags stackCopy pubKeySerialized
  | _ => 0

/-! ### One instruction -/

theorem multisigRounds_le (scriptCode : Bytes) (keys sigs : List Bytes) :
    env.multisigRounds flags scriptCode keys sigs ≤ keys.length := by
  induction keys generalizing sigs with
  | nil => cases sigs <;> exact Nat.le_refl _
  | cons vchPubKey keys ih =>
    cases sigs with
    | nil => exact Nat.zero_le _
    | cons vchSig sigs =>
      rw [ScriptEnv.multisigRounds, List.length_cons, Nat.add_comm]
      apply Nat.succ_le_succ
      split
      next => exact Nat.zero_le _
      next fOk _ =>
        dsimp only
        generalize (if fOk = true then sigs else vchSig :: sigs) = left
        split
        · exact Nat.zero_le _
        · exact ih left

/-- The keys are as many as the number on top of the stack says, and at most twenty. -/
theorem length_keys_multisigArgs {s : ScriptState} {args : MultisigArgs}
    (h : s.multisigArgs = .ok args) :
    args.keys.length ≤ 20 ∧ ∀ top n, s.stack.head? = some top → scriptNum top = .ok n →
      (args.keys.length : Int) ≤ max 0 (getInt n) := by
  obtain ⟨top, htop, h⟩ := Eval.bind_eq_ok.mp h
  obtain ⟨n, hn, h⟩ := Eval.bind_eq_ok.mp h
  obtain ⟨_, hkeys, h⟩ := Eval.bind_eq_ok.mp h
  obtain ⟨_, _, h⟩ := Eval.bind_eq_ok.mp h
  obtain ⟨_, _, h⟩ := Eval.bind_eq_ok.mp h
  obtain ⟨_, _, h⟩ := Eval.bind_eq_ok.mp h
  obtain ⟨_, _, h⟩ := Eval.bind_eq_ok.mp h
  obtain ⟨_, _, h⟩ := Eval.bind_eq_ok.mp h
  obtain rfl := Except.ok.inj h
  have hlength := List.length_take_le (getInt n).toNat (s.stack.drop 1)
  rw [Eval.check_eq_ok, Bool.and_eq_true, decide_eq_true_eq, decide_eq_true_eq] at hkeys
  constructor
  · dsimp only
    omega
  · intro top' n' htop' hn'
    have heq : top' = top := by
      rw [← List.head?_eq_getElem?, htop'] at htop
      exact Except.ok.inj htop
    subst heq
    obtain rfl := Except.ok.inj (hn'.symm.trans hn)
    dsimp only
    omega

/-- Only the four signature opcodes check signatures. -/
theorem opChecks_eq_zero {opcode : UInt8} (s : ScriptState) (hsig : opcode ≠ opChecksig)
    (hsigverify : opcode ≠ opChecksigverify) (hmulti : opcode ≠ opCheckmultisig)
    (hmultiverify : opcode ≠ opCheckmultisigverify) :
    env.opChecks flags s (opCase opcode) = 0 := by
  unfold opCase
  split
  · rfl
  · split <;> first | rfl | contradiction

/-- After a small number that was executed, the stack has it on top. -/
def ScriptState.Prepared (s : ScriptState) (lastOpcode : UInt8) : Prop :=
  op1 ≤ lastOpcode → lastOpcode ≤ op16 → s.vfExec.all id = true →
    s.stack.head? = some (scriptNumSerialize (decodeOpN lastOpcode))

theorem scriptNum_decodeOpN {opcode : UInt8} (hlo : op1 ≤ opcode) (hhi : opcode ≤ op16) :
    scriptNum (scriptNumSerialize (decodeOpN opcode)) = .ok (decodeOpN opcode) := by
  have hall : ∀ n < 16, (scriptNum (scriptNumSerialize (n + 1 : Nat))).toOption =
      some ((n + 1 : Nat) : Int) := by decide
  have hlo' : 0x51 ≤ opcode.toNat := UInt8.le_iff_toNat_le.mp hlo
  have hhi' : opcode.toNat ≤ 0x60 := UInt8.le_iff_toNat_le.mp hhi
  have hn : decodeOpN opcode = (opcode.toNat - 0x51) + 1 := by
    rw [decodeOpN, show op1.toNat = 0x51 from rfl]
    omega
  have hnum := hall (opcode.toNat - 0x51) (by omega)
  rw [hn]
  generalize scriptNum _ = x at hnum
  cases x with
  | error => cases hnum
  | ok n =>
    obtain rfl := Option.some.inj hnum
    rfl

theorem getInt_decodeOpN {opcode : UInt8} : getInt (decodeOpN opcode) = decodeOpN opcode := by
  have hlt := UInt8.toNat_lt opcode
  have hle : decodeOpN opcode ≤ opcode.toNat := Nat.sub_le _ _
  unfold getInt
  omega

/-- The checks of `OP_CHECKMULTISIG` are at most its number of keys, which a small number right
before it tells. -/
theorem multisigChecks_le {s : ScriptState} {lastOpcode : UInt8} (hs : s.Prepared lastOpcode)
    (hexec : s.vfExec.all id = true) (fVerify : Bool) :
    env.opChecks flags s (.checkMultisig fVerify) ≤
      if op1 ≤ lastOpcode ∧ lastOpcode ≤ op16 then decodeOpN lastOpcode else 20 := by
  rw [ScriptEnv.opChecks]
  cases hargs : s.multisigArgs with
  | error => exact Nat.zero_le _
  | ok args =>
    obtain ⟨htwenty, hcount⟩ := length_keys_multisigArgs hargs
    have hrounds : env.multisigRounds flags args.scriptCode args.keys args.sigs ≤ args.keys.length :=
      multisigRounds_le args.scriptCode args.keys args.sigs
    dsimp only
    split
    case isTrue hlast =>
      have hkeys := hcount _ _ (hs hlast.1 hlast.2 hexec) (scriptNum_decodeOpN hlast.1 hlast.2)
      rw [getInt_decodeOpN] at hkeys
      omega
    case isFalse => omega

theorem stack_count (s : ScriptState) (op : ScriptOp) : (s.count op).stack = s.stack := by
  unfold ScriptState.count
  split <;> rfl

theorem vfExec_count (s : ScriptState) (op : ScriptOp) : (s.count op).vfExec = s.vfExec := by
  unfold ScriptState.count
  split <;> rfl

theorem ScriptState.Prepared.count {s : ScriptState} {lastOpcode : UInt8} (h : s.Prepared lastOpcode)
    (op : ScriptOp) : (s.count op).Prepared lastOpcode := by
  unfold ScriptState.Prepared
  rw [stack_count, vfExec_count]
  exact h

/-- An instruction makes at most as many checks as it is counted for. -/
theorem instrChecks_le {s : ScriptState} {lastOpcode : UInt8} (hs : s.Prepared lastOpcode)
    (op : ScriptOp) (ops : List ScriptOp) :
    env.instrChecks flags op s + sigOpCountFrom true op.opcode ops ≤
      sigOpCountFrom true lastOpcode (op :: ops) := by
  rw [sigOpCountFrom]
  apply Nat.add_le_add_right
  rw [ScriptEnv.instrChecks]
  split
  case isFalse => exact Nat.zero_le _
  case isTrue hop =>
    have hexec : (s.count op).vfExec.all id = true := by
      rw [vfExec_count]
      exact hop.2.2.2
    have hmulti : ∀ fVerify, env.opChecks flags (s.count op) (.checkMultisig fVerify) ≤
        if op1 ≤ lastOpcode ∧ lastOpcode ≤ op16 then decodeOpN lastOpcode else 20 :=
      fun fVerify ↦ multisigChecks_le (hs.count op) hexec fVerify
    by_cases hsig : op.opcode = opChecksig ∨ op.opcode = opChecksigverify
    · rw [if_pos hsig]
      rcases hsig with hsig | hsig
      all_goals
        rw [hsig]
        show (if 2 ≤ (s.count op).stack.length then 1 else 0) ≤ 1
        split <;> decide
    · rw [if_neg hsig]
      by_cases hmultisig : op.opcode = opCheckmultisig ∨ op.opcode = opCheckmultisigverify
      · rw [if_pos hmultisig]
        simp only [true_and]
        rcases hmultisig with heq | heq
        · rw [heq]
          exact hmulti false
        · rw [heq]
          exact hmulti true
      · rw [if_neg hmultisig]
        rw [not_or] at hsig hmultisig
        rw [opChecks_eq_zero _ hsig.1 hsig.2 hmultisig.1 hmultisig.2]

/-- What a round of the loop does before the next one. -/
theorem dispatch_of_execInstr {s s' : ScriptState} {op : ScriptOp} {pc : Bytes}
    (h : env.execInstr flags op pc s = .ok s') : env.dispatch flags op pc (s.count op) = .ok s' := by
  obtain ⟨_, _, h⟩ := Eval.bind_eq_ok.mp h
  obtain ⟨_, _, h⟩ := Eval.bind_eq_ok.mp h
  obtain ⟨_, _, h⟩ := Eval.bind_eq_ok.mp h
  obtain ⟨s₁, hdispatch, h⟩ := Eval.bind_eq_ok.mp h
  obtain ⟨_, _, h⟩ := Eval.bind_eq_ok.mp h
  obtain rfl := Except.ok.inj h
  exact hdispatch

theorem opCase_number {opcode : UInt8} (hlo : op1 ≤ opcode) (hhi : opcode ≤ op16) :
    opCase opcode = .number (decodeOpN opcode) := by
  have hlo' : 0x51 ≤ opcode.toNat := UInt8.le_iff_toNat_le.mp hlo
  have hn : (opcode.toNat : Int) - 0x50 = (decodeOpN opcode : Nat) := by
    rw [decodeOpN, show op1.toNat = 0x51 from rfl]
    omega
  unfold opCase
  rw [if_pos (.inr ⟨hlo, hhi⟩), hn]

/-- A small number leaves the stack prepared. -/
theorem prepared_execInstr {s s' : ScriptState} {op : ScriptOp} {pc : Bytes}
    (h : env.execInstr flags op pc s = .ok s') : s'.Prepared op.opcode := by
  intro hlo hhi hexec
  have hdispatch := dispatch_of_execInstr h
  have hpush : ¬ op.opcode ≤ opPushdata4 :=
    UInt8.not_le.mpr (UInt8.lt_of_lt_of_le (by decide) hlo)
  have hif : ¬ (opIf ≤ op.opcode ∧ op.opcode ≤ opEndif) := fun hif ↦
    absurd (UInt8.le_trans hif.1 hhi) (by decide)
  rw [ScriptEnv.dispatch, decide_eq_false hpush, Bool.and_false, if_neg Bool.false_ne_true] at hdispatch
  split at hdispatch
  next hcond =>
    rw [opCase_number hlo hhi] at hdispatch
    obtain rfl := Except.ok.inj hdispatch
    rfl
  next hcond =>
    -- where the number was skipped the condition is still false
    obtain rfl := Except.ok.inj hdispatch
    rw [hexec] at hcond
    exact absurd rfl hcond

/-- The checks of a run of the loop, from any round on. -/
theorem loopChecks_le {fuel : Nat} {pc : Bytes} {s : ScriptState} {lastOpcode : UInt8}
    (hs : s.Prepared lastOpcode) :
    env.loopChecks flags fuel pc s ≤ sigOpCountFrom true lastOpcode (getOpsFrom fuel pc).1 := by
  induction fuel generalizing pc s lastOpcode with
  | zero => exact Nat.zero_le _
  | succ fuel ih =>
    rw [ScriptEnv.loopChecks, getOpsFrom]
    split
    case isTrue => exact Nat.zero_le _
    case isFalse =>
      cases hop : getOp pc with
      | none => exact Nat.zero_le _
      | some p =>
        obtain ⟨op, rest⟩ := p
        dsimp only
        have hstep : env.instrChecks flags op s +
            sigOpCountFrom true op.opcode (getOpsFrom fuel rest).1 ≤
              sigOpCountFrom true lastOpcode (op :: (getOpsFrom fuel rest).1) :=
          instrChecks_le hs op (getOpsFrom fuel rest).1
        apply le_trans _ hstep
        apply Nat.add_le_add_left
        split
        next => exact Nat.zero_le _
        next s' hexec => exact ih (prepared_execInstr hexec)

theorem sigOpCountFrom_true_le (lastOpcode : UInt8) (ops : List ScriptOp) :
    sigOpCountFrom true lastOpcode ops ≤ sigOpCountFrom false lastOpcode ops := by
  induction ops generalizing lastOpcode with
  | nil => exact Nat.le_refl _
  | cons op ops ih =>
    rw [sigOpCountFrom, sigOpCountFrom]
    apply Nat.add_le_add _ (ih op.opcode)
    split
    · exact Nat.le_refl _
    · split
      · split
        next hlast =>
          have hhi : lastOpcode.toNat ≤ 0x60 := UInt8.le_iff_toNat_le.mp hlast.2.2
          rw [if_neg (fun h ↦ Bool.false_ne_true h.1), decodeOpN, show op1.toNat = 0x51 from rfl]
          omega
        next => simp
      · exact Nat.le_refl _

theorem sigChecks_le (stack : List Bytes) (script : Bytes) :
    env.sigChecks flags stack script ≤ getSigOpCount script true := by
  unfold ScriptEnv.sigChecks
  split
  case isTrue =>
    apply loopChecks_le
    intro _ hhi
    exact absurd hhi (by decide)
  case isFalse => exact Nat.zero_le _

theorem getSigOpCount_le_legacy (script : Bytes) : getSigOpCount script true ≤ getSigOpCount script false :=
  sigOpCountFrom_true_le _ _

/-! ### Pay to script hash -/

/-- What an instruction of a `scriptSig` that only pushes puts on the stack. -/
def ScriptOp.pushed (op : ScriptOp) : Bytes :=
  if op.opcode ≤ opPushdata4 then op.data else scriptNumSerialize ((op.opcode.toNat : Int) - 0x50)

theorem opCase_push {opcode : UInt8} (hlo : opPushdata4 < opcode) (hhi : opcode ≤ op16) :
    opCase opcode = .number ((opcode.toNat : Int) - 0x50) ∨ opCase opcode = .default := by
  have hlo' : 0x4e < opcode.toNat := UInt8.lt_iff_toNat_lt.mp hlo
  have hhi' : opcode.toNat ≤ 0x60 := UInt8.le_iff_toNat_le.mp hhi
  by_cases hreserved : opcode = 0x50
  · subst hreserved
    exact .inr rfl
  · left
    have hne : opcode.toNat ≠ 0x50 := fun h ↦ hreserved (UInt8.toNat_inj.mp h)
    unfold opCase
    rw [if_pos]
    by_cases hnegate : opcode.toNat = 0x4f
    · exact .inl (UInt8.toNat_inj.mp hnegate)
    · refine .inr ⟨UInt8.le_iff_toNat_le.mpr ?_, hhi⟩
      show 0x51 ≤ opcode.toNat
      omega

theorem execInstr_pushOnly {s s' : ScriptState} {op : ScriptOp} {pc : Bytes}
    (hexec : s.vfExec = []) (hpush : op.opcode ≤ op16) (h : env.execInstr flags op pc s = .ok s') :
    s'.stack = op.pushed :: s.stack ∧ s'.vfExec = [] := by
  have hdispatch := dispatch_of_execInstr h
  have hcount : s.count op = s := if_neg (UInt8.not_lt.mpr hpush)
  rw [hcount, ScriptEnv.dispatch, hexec, List.all_nil, Bool.true_and, Bool.true_or, if_pos rfl]
    at hdispatch
  unfold ScriptOp.pushed
  split at hdispatch
  next hdata =>
    obtain rfl := Except.ok.inj hdispatch
    rw [if_pos (of_decide_eq_true hdata)]
    exact ⟨rfl, rfl⟩
  next hdata =>
    have hdata' : ¬ op.opcode ≤ opPushdata4 := fun hle ↦ hdata (decide_eq_true hle)
    rcases opCase_push (UInt8.not_le.mp hdata') hpush with hcase | hcase
    · rw [hcase] at hdispatch
      obtain rfl := Except.ok.inj hdispatch
      rw [if_neg hdata']
      exact ⟨rfl, hexec⟩
    · rw [hcase] at hdispatch
      cases hdispatch

/-- A script that only pushes leaves what it pushes. -/
theorem evalLoop_pushOnly {fuel : Nat} {pc : Bytes} {s s' : ScriptState} (hexec : s.vfExec = [])
    (hpush : ∀ op ∈ (getOpsFrom fuel pc).1, op.opcode ≤ op16)
    (h : env.evalLoop flags fuel pc s = .ok s') :
    s'.stack = ((getOpsFrom fuel pc).1.map ScriptOp.pushed).reverse ++ s.stack := by
  induction fuel generalizing pc s with
  | zero =>
    obtain ⟨_, _, h⟩ := Eval.bind_eq_ok.mp h
    obtain rfl := Except.ok.inj h
    rfl
  | succ fuel ih =>
    rw [ScriptEnv.evalLoop] at h
    rw [getOpsFrom] at hpush ⊢
    split at h
    case isTrue hempty =>
      obtain rfl := Except.ok.inj h
      rw [if_pos hempty]
      rfl
    case isFalse hempty =>
      rw [if_neg hempty] at hpush ⊢
      obtain ⟨⟨op, rest⟩, hop, h⟩ := Eval.bind_eq_ok.mp h
      cases hget : getOp pc with
      | none =>
        rw [hget] at hop
        cases hop
      | some p =>
        rw [hget] at hop hpush
        obtain rfl := Except.ok.inj hop
        obtain ⟨s₁, hinstr, h⟩ := Eval.bind_eq_ok.mp h
        rw [List.forall_mem_cons] at hpush
        obtain ⟨hstack, hvfExec⟩ := execInstr_pushOnly hexec hpush.1 hinstr
        rw [ih hvfExec hpush.2 h, hstack, List.map_cons, List.reverse_cons, List.append_assoc]
        rfl

theorem getSigOpCount_number {opcode : UInt8} (hlo : opPushdata4 < opcode) (hhi : opcode ≤ op16) :
    getSigOpCount (scriptNumSerialize ((opcode.toNat : Int) - 0x50)) true = 0 := by
  have hall : ∀ n < 18, getSigOpCount (scriptNumSerialize (((n + 0x4f : Nat) : Int) - 0x50)) true = 0 := by
    decide
  have hlo' : 0x4e < opcode.toNat := UInt8.lt_iff_toNat_lt.mp hlo
  have hhi' : opcode.toNat ≤ 0x60 := UInt8.le_iff_toNat_le.mp hhi
  have hcount := hall (opcode.toNat - 0x4f) (by omega)
  rwa [Nat.sub_add_cancel hlo'] at hcount

/-- The checks of an accepted pay-to-script-hash input. -/
theorem redeemChecks_le {scriptSig scriptPubKey : Bytes} (hscript : isPayToScriptHash scriptPubKey = true)
    (hflags : flags &&& scriptVerifyP2SH ≠ 0)
    (h : env.verifyScript flags scriptSig scriptPubKey = .ok ()) :
    env.redeemChecks flags scriptSig ≤ getSigOpCountP2SH scriptPubKey scriptSig := by
  obtain ⟨stackCopy, hcopy, h⟩ := Eval.bind_eq_ok.mp h
  obtain ⟨_, _, h⟩ := Eval.bind_eq_ok.mp h
  obtain ⟨_, _, h⟩ := Eval.bind_eq_ok.mp h
  have hp2sh : ¬ (flags &&& scriptVerifyP2SH = 0 ∨ (!isPayToScriptHash scriptPubKey) = true) := by
    rw [hscript]
    exact fun hor ↦ hor.elim hflags (absurd · Bool.false_ne_true)
  rw [if_neg hp2sh] at h
  obtain ⟨_, hpushOnly, -⟩ := Eval.bind_eq_ok.mp h
  rw [Eval.check_eq_ok, isPushOnly, Bool.and_eq_true, List.all_eq_true] at hpushOnly
  have hpush : ∀ op ∈ (getOps scriptSig).1, op.opcode ≤ op16 := fun op hop ↦
    of_decide_eq_true (hpushOnly.2 op hop)
  obtain ⟨_, _, heval⟩ := Eval.bind_eq_ok.mp hcopy
  obtain ⟨s, hloop, heval⟩ := Eval.bind_eq_ok.mp heval
  obtain ⟨_, _, heval⟩ := Eval.bind_eq_ok.mp heval
  obtain rfl := Except.ok.inj heval
  have hstack : s.stack = ((getOps scriptSig).1.map ScriptOp.pushed).reverse := by
    rw [evalLoop_pushOnly rfl hpush hloop]
    exact List.append_nil _
  have hcount : getSigOpCountP2SH scriptPubKey scriptSig =
      getSigOpCount (((getOps scriptSig).1.getLast?.map (·.data)).getD []) true := by
    rw [getSigOpCountP2SH, hscript, if_neg (by decide)]
    dsimp only
    rw [if_pos]
    rw [Bool.and_eq_true, List.all_eq_true]
    exact hpushOnly
  rw [hcount, ScriptEnv.redeemChecks, hcopy, hstack]
  rcases List.eq_nil_or_concat (getOps scriptSig).1 with hnil | ⟨ops, op, hops⟩
  · rw [hnil]
    exact Nat.zero_le _
  · have hop : op.opcode ≤ op16 := hpush op (by rw [hops]; simp)
    rw [hops, List.concat_eq_append, List.map_append, List.reverse_append, List.getLast?_concat]
    refine (sigChecks_le _ _).trans ?_
    show getSigOpCount op.pushed true ≤ getSigOpCount op.data true
    unfold ScriptOp.pushed
    split
    next => exact Nat.le_refl _
    next hdata =>
      rw [getSigOpCount_number (UInt8.not_le.mp hdata) hop]
      exact Nat.zero_le _

/-- The static counts bound the checks of every evaluation, and for an accepted pay-to-script-hash
input those of the script it redeems. -/
theorem sigChecks_bounded (env : ScriptEnv) (flags : BitVec 32) :
    (∀ stack script, env.sigChecks flags stack script ≤ getSigOpCount script true ∧
      env.sigChecks flags stack script ≤ getSigOpCount script false) ∧
    ∀ scriptSig scriptPubKey, isPayToScriptHash scriptPubKey = true →
      flags &&& scriptVerifyP2SH ≠ 0 → env.verifyScript flags scriptSig scriptPubKey = .ok () →
      env.redeemChecks flags scriptSig ≤ getSigOpCountP2SH scriptPubKey scriptSig := by
  constructor
  · intro stack script
    have hle : env.sigChecks flags stack script ≤ getSigOpCount script true :=
      sigChecks_le stack script
    exact ⟨hle, hle.trans (getSigOpCount_le_legacy script)⟩
  · intro scriptSig scriptPubKey hscript hflags h
    exact redeemChecks_le hscript hflags h

/-- Any signature is taken, and a digest is the padded input. -/
def paddingEnv : ScriptEnv where
  crypto :=
    let pad (bs : Bytes) := (bs ++ List.replicate 20 0).take 20
    ⟨pad, pad, pad, pad, pad, fun _ _ _ _ _ _ ↦ true⟩
  txTo := { vin := [⟨⟨1, 0⟩, [], -1⟩] }
  nIn := 0

/-- One signature of two keys: one check is made where the static count of the revealed script is
two, and that of its hash zero. -/
example :
    let vchPubKey : Bytes := 2 :: List.replicate 32 7
    let redeemScript := [0x51] ++ pushBytes vchPubKey ++ pushBytes vchPubKey ++ [0x52, 0xae]
    let scriptSig := [0, 1, 9] ++ pushBytes redeemScript
    let scriptPubKey := [0xa9] ++ pushBytes (paddingEnv.crypto.hash160 redeemScript) ++ [0x87]
    paddingEnv.verifyScript scriptVerifyP2SH scriptSig scriptPubKey = .ok () ∧
      paddingEnv.redeemChecks scriptVerifyP2SH scriptSig = 1 ∧
      getSigOpCountP2SH scriptPubKey scriptSig = 2 ∧ getSigOpCount scriptPubKey true = 0 := by
  decide +kernel

end Bitmark
