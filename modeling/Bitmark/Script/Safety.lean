import Bitmark.Script.Evaluation
import Bitmark.Script.SigOps

/-!
# What a script cannot do

No script makes `VerifyScript` (`src/script.cpp:1813`) read outside of a vector or fail an
assertion. What it executes of the operations that C++ leaves undefined is the shift by which
`OP_CHECKLOCKTIMEVERIFY` decodes a negative operand of five bytes (`src/script.h:166`).

The address of an empty range, from which nothing is then read, is not among the faults here:
`OP_RIPEMD160`, `OP_SHA1` and `OP_SHA256` form it of an empty element (`src/script.cpp:985`), and so
does `SerializeScriptCode` at the end of a script.
-/

namespace Bitmark

namespace Eval

variable {α β : Type}

/-- When this does not succeed, it returns false. -/
def Returns (x : Eval α) : Prop := ∀ e, x = .error e → e = .fail

theorem returns_ok (a : α) : Returns (.ok a : Eval α) := by
  intro e h
  cases h

theorem returns_pure (a : α) : Returns (pure a : Eval α) := returns_ok a

theorem returns_fail : Returns (.error .fail : Eval α) := by
  intro e h
  exact (Except.error.inj h).symm

theorem returns_check (ok : Bool) : Returns (check ok) := by
  cases ok
  · exact returns_fail
  · exact returns_ok ()

theorem returns_get (a : Option α) : Returns (get a) := by
  cases a
  · exact returns_fail
  · exact returns_ok _

theorem returns_ofAccess {x : Access α} {a : α} (h : x = .ok a) : Returns (ofAccess x) := by
  rw [h]
  exact returns_ok a

theorem check_bind_eq_error {ok : Bool} {f : Unit → Eval α} {e : ScriptStop} (he : e ≠ .fail) :
    (check ok >>= f) = .error e ↔ ok = true ∧ f () = .error e := by
  cases ok with
  | false => exact iff_of_false (fun h ↦ he (Except.error.inj h).symm) (by simp)
  | true => simp [check]

/-- What comes after an evaluation only returns false, so it is the evaluation that ends. -/
theorem bind_eq_error_of_returns {x : Eval α} {f : α → Eval β} (hf : ∀ a, (f a).Returns)
    {e : ScriptStop} (he : e ≠ .fail) : (x >>= f) = .error e ↔ x = .error e := by
  cases x with
  | error e' => simp [Bind.bind, Except.bind]
  | ok a =>
    refine iff_of_false (fun h ↦ he (hf a e h)) ?_
    intro h
    cases h

theorem Returns.bind {x : Eval α} {f : α → Eval β} (hx : x.Returns)
    (hf : ∀ a, x = .ok a → (f a).Returns) : (x >>= f).Returns := by
  cases x with
  | error e =>
    intro e' h
    obtain rfl := Except.error.inj h
    exact hx e rfl
  | ok a => exact hf a rfl

end Eval

open Eval

section Returns

variable {env : ScriptEnv} {flags : BitVec 32} {pc : Bytes} {s : ScriptState}

/-- A number of four bytes is decoded without a shift by the width of `int`. -/
theorem returns_scriptNum (vch : Bytes) : (scriptNum vch).Returns := by
  unfold scriptNum
  split
  · exact returns_fail
  case isFalse hsize =>
    split <;> exact returns_ok _

variable (env flags) in
/-- The encodings of a signature and of a key are checked within their bytes. -/
theorem exists_signatureOk (scriptCode vchSig vchPubKey : Bytes) :
    ∃ b, env.signatureOk flags scriptCode vchSig vchPubKey = .ok b := by
  have hunder : ∀ mask {check : Access Bool} {b : Bool}, check = .ok b →
      ∃ b', underFlags flags mask check = .ok b' := by
    intro mask check b hcheck
    unfold underFlags
    split
    · exact ⟨true, rfl⟩
    · exact ⟨b, hcheck⟩
  have hsig : ∃ b, checkSignatureEncoding vchSig flags = .ok b := by
    rw [checkSignatureEncoding_eq]
    split
    · exact ⟨true, rfl⟩
    · obtain ⟨b, hder⟩ := (isValidSignatureEncoding_iff vchSig).1
      obtain ⟨okDer, hokDer⟩ := hunder derFlags hder
      rw [hokDer]
      cases okDer
      · exact ⟨false, rfl⟩
      · exact hunder scriptVerifyStrictenc rfl
  have hkey : ∃ b, isCompressedOrUncompressedPubKey vchPubKey = .ok b := by
    unfold isCompressedOrUncompressedPubKey
    split
    · exact ⟨false, rfl⟩
    · cases vchPubKey with
      | nil => contradiction
      | cons header bytes =>
        simp only [vectorAt, List.getElem?_cons_zero, pure, Except.pure, bind, Except.bind]
        split
        · exact ⟨_, rfl⟩
        · split <;> exact ⟨_, rfl⟩
  obtain ⟨okSig, hokSig⟩ := hsig
  obtain ⟨b, hkey⟩ := hkey
  obtain ⟨okKey, hokKey⟩ := hunder scriptVerifyStrictenc hkey
  rw [ScriptEnv.signatureOk, hokSig]
  cases okSig
  · exact ⟨false, rfl⟩
  · rw [checkPubKeyEncoding, hokKey]
    cases okKey <;> exact ⟨_, rfl⟩

variable (env flags) in
theorem exists_multisigLoop (scriptCode : Bytes) (keys sigs : List Bytes) :
    ∃ b, env.multisigLoop flags scriptCode keys sigs = .ok b := by
  induction keys generalizing sigs with
  | nil => cases sigs <;> exact ⟨_, rfl⟩
  | cons vchPubKey keys ih =>
    cases sigs with
    | nil => exact ⟨true, rfl⟩
    | cons vchSig sigs =>
      obtain ⟨fOk, hok⟩ := exists_signatureOk env flags scriptCode vchSig vchPubKey
      rw [ScriptEnv.multisigLoop, hok]
      simp only [bind, Except.bind]
      generalize (if fOk = true then sigs else vchSig :: sigs) = left
      split
      · exact ⟨false, rfl⟩
      · exact ih left

theorem returns_pushTest (stack : List Bytes) (fValue fVerify : Bool) :
    (s.pushTest stack fValue fVerify).Returns := by
  cases fVerify
  · exact returns_ok _
  · exact (returns_check fValue).bind fun _ _ ↦ returns_ok _

theorem returns_checkMultisig (fVerify : Bool) : (env.checkMultisig flags s fVerify).Returns := by
  rw [checkMultisig_eq]
  refine Returns.bind ?_ fun args _ ↦ ?_
  · apply (returns_get _).bind
    intro top _
    apply (returns_scriptNum top).bind
    intro n _
    apply (returns_check _).bind
    intro _ _
    apply (returns_check _).bind
    intro _ _
    apply (returns_get _).bind
    intro count _
    apply (returns_scriptNum count).bind
    intro m _
    apply (returns_check _).bind
    intro _ _
    apply (returns_check _).bind
    intro _ _
    exact returns_ok _
  · obtain ⟨b, hb⟩ := exists_multisigLoop env flags args.scriptCode args.keys args.sigs
    apply (returns_ofAccess hb).bind
    intro fSuccess _
    exact returns_pushTest _ _ _

/-- Every case of the switch but one only returns false. -/
theorem returns_execOp (fExec : Bool) {c : OpCase} (hc : c ≠ .checkLockTimeVerify) :
    (env.execOp flags pc fExec s c).Returns := by
  cases c with
  | checkLockTimeVerify => exact absurd rfl hc
  | disabled | opReturn | default => exact returns_fail
  | number | nop | codeSeparator => exact returns_ok _
  | opIf fNot =>
    rw [ScriptEnv.execOp]
    split
    · split
      · exact returns_fail
      · exact returns_ok _
    · exact returns_ok _
  | opElse | opEndif | toAltStack | fromAltStack | hash op =>
    rw [ScriptEnv.execOp]
    split <;> first | exact returns_fail | exact returns_ok _
  | verify =>
    rw [ScriptEnv.execOp]
    split
    · exact returns_fail
    · exact (returns_check _).bind fun _ _ ↦ returns_ok _
  | stack op => exact (returns_get _).bind fun _ _ ↦ returns_ok _
  | pick fRoll =>
    rw [ScriptEnv.execOp]
    split
    · apply (returns_scriptNum _).bind
      intro n _
      apply (returns_check _).bind
      intro _ _
      apply (returns_get _).bind
      intro vch _
      exact returns_ok _
    · exact returns_fail
  | equal fVerify =>
    rw [ScriptEnv.execOp]
    split
    · exact returns_pushTest _ _ _
    · exact returns_fail
  | unary op =>
    rw [ScriptEnv.execOp]
    split
    · exact (returns_scriptNum _).bind fun _ _ ↦ returns_ok _
    · exact returns_fail
  | binary op fVerify =>
    rw [ScriptEnv.execOp]
    split
    · apply (returns_scriptNum _).bind
      intro bn1 _
      apply (returns_scriptNum _).bind
      intro bn2 _
      dsimp only
      split
      · exact returns_pushTest _ _ _
      · exact returns_ok _
    · exact returns_fail
  | within =>
    rw [ScriptEnv.execOp]
    split
    · apply (returns_scriptNum _).bind
      intro bn1 _
      apply (returns_scriptNum _).bind
      intro bn2 _
      apply (returns_scriptNum _).bind
      intro bn3 _
      exact returns_pushTest _ _ _
    · exact returns_fail
  | checkSig fVerify =>
    rw [ScriptEnv.execOp]
    split
    case h_1 vchPubKey vchSig stack _ =>
      obtain ⟨b, hb⟩ := exists_signatureOk env flags
        (findAndDelete s.codeHash (pushBytes vchSig)) vchSig vchPubKey
      apply (returns_ofAccess hb).bind
      intro fSuccess _
      exact returns_pushTest _ _ _
    · exact returns_fail
  | checkMultisig fVerify => exact returns_checkMultisig fVerify

end Returns

/-! ### The shift -/

section Shift

variable {env : ScriptEnv} {flags : BitVec 32} {pc rest : Bytes} {op : ScriptOp} {s : ScriptState}
  {e : ScriptStop}

theorem scriptNum_five (vch : Bytes) : scriptNum vch 5 =
    if 5 < vch.length then .error .fail
    else if 4 < vch.length ∧ hasSign vch = true then .error (.fault .shift)
    else .ok (signMagnitude vch) := by
  rw [scriptNum_eq vch (by decide), cScriptNum]
  split
  · rfl
  case isFalse hsize =>
    rw [setVch_eq (by omega)]
    split <;> rfl

/-- An operand whose decoding shifts an `int` by its width. -/
def ScriptState.HasShiftOperand (s : ScriptState) : Prop :=
  ∃ top, s.stack.head? = some top ∧ top.length = 5 ∧ hasSign top = true

theorem checkLockTime_eq_error_iff (hin : env.nIn < env.txTo.vin.length) (he : e ≠ .fail) :
    env.checkLockTime s.stack = .error e ↔ e = .fault .shift ∧ s.HasShiftOperand := by
  unfold ScriptEnv.checkLockTime ScriptState.HasShiftOperand
  cases htop : s.stack.head? with
  | none =>
    refine iff_of_false (fun h ↦ he (Except.error.inj h).symm) ?_
    rintro ⟨-, top, hsome, -⟩
    cases hsome
  | some top =>
    rw [Eval.get, Eval.ok_bind, scriptNum_five]
    by_cases hlong : 5 < top.length
    · rw [if_pos hlong]
      refine iff_of_false (fun h ↦ he (Except.error.inj h).symm) ?_
      rintro ⟨-, top', hsome, hsize, -⟩
      obtain rfl := Option.some.inj hsome
      omega
    · rw [if_neg hlong]
      by_cases hshift : 4 < top.length ∧ hasSign top = true
      · rw [if_pos hshift]
        constructor
        · intro h
          exact ⟨(Except.error.inj h).symm, top, rfl, by omega, hshift.2⟩
        · rintro ⟨rfl, -⟩
          rfl
      · rw [if_neg hshift]
        refine iff_of_false (fun h ↦ he ?_) ?_
        · have htxin : vectorAt env.txTo.vin env.nIn = .ok env.txTo.vin[env.nIn] := by
            rw [vectorAt, List.getElem?_eq_getElem hin]
          refine Returns.bind (x := .ok (signMagnitude top)) (returns_ok _) (fun n _ ↦ ?_) e h
          apply (returns_check _).bind
          intro _ _
          apply (returns_check _).bind
          intro _ _
          apply (returns_check _).bind
          intro _ _
          apply (returns_ofAccess htxin).bind
          intro txin _
          exact returns_check _
        · rintro ⟨-, top', hsome, hsize, hsign⟩
          obtain rfl := Option.some.inj hsome
          exact hshift ⟨by omega, hsign⟩

/-- Only pushes have data. -/
theorem data_eq_nil_of_getOp (hop : getOp pc = some (op, rest)) (hopcode : opPushdata4 < op.opcode) :
    op.data = [] := by
  cases pc with
  | nil => cases hop
  | cons opcode pc =>
    rw [getOp] at hop
    split at hop
    case isTrue hle =>
      obtain ⟨⟨nSize, pc'⟩, -, hop⟩ := Option.bind_eq_some_iff.mp hop
      dsimp only at hop
      split at hop
      · cases hop
      · obtain ⟨rfl, -⟩ := Prod.mk.inj (Option.some.inj hop)
        exact absurd hle (UInt8.not_le.mpr hopcode)
    case isFalse =>
      obtain ⟨rfl, -⟩ := Prod.mk.inj (Option.some.inj hop)
      rfl

/-- `OP_CHECKLOCKTIMEVERIFY`, `src/script.h:404`. -/
def opChecklocktimeverify : UInt8 := 0xb1

theorem opCase_eq_checkLockTimeVerify_iff {opcode : UInt8} :
    opCase opcode = .checkLockTimeVerify ↔ opcode = opChecklocktimeverify := by
  constructor
  · unfold opCase
    split
    · intro h
      cases h
    · split
      all_goals first | (intro; rfl) | (intro h; cases h)
  · rintro rfl
    rfl

/-- The state is at an `OP_CHECKLOCKTIMEVERIFY` that the flags turn on, in a branch that is executed
and within the limit of operations. -/
structure ScriptState.ChecksLockTime (s : ScriptState) (flags : BitVec 32) (pc : Bytes) : Prop where
  opcode : ∃ rest, getOp pc = some (⟨opChecklocktimeverify, []⟩, rest)
  enabled : flags &&& scriptVerifyChecklocktimeverify ≠ 0
  executed : s.vfExec.all id = true
  count : s.nOpCount < 201

theorem count_nOpCount (s : ScriptState) (h : op16 < op.opcode) :
    (s.count op).nOpCount = s.nOpCount + 1 := by
  rw [ScriptState.count, if_pos h]

/-- An instruction that ends otherwise than by returning false is in the switch. -/
theorem execInstr_eq_error_iff (he : e ≠ .fail) :
    env.execInstr flags op rest s = .error e ↔ op.data.length ≤ maxScriptElementSize ∧
      ¬ (op16 < op.opcode ∧ 201 < (s.count op).nOpCount) ∧ opCase op.opcode ≠ .disabled ∧
        env.dispatch flags op rest (s.count op) = .error e := by
  unfold ScriptEnv.execInstr
  rw [check_bind_eq_error he, check_bind_eq_error he, check_bind_eq_error he,
    bind_eq_error_of_returns (fun t ↦ (returns_check _).bind fun _ _ ↦ returns_pure _) he]
  simp [imp_iff_not_or]

/-- The one place where an evaluation leaves the language. -/
theorem stopsAt_iff (hin : env.nIn < env.txTo.vin.length) (he : e ≠ .fail) :
    env.StopsAt flags pc s e ↔
      e = .fault .shift ∧ s.ChecksLockTime flags pc ∧ s.HasShiftOperand := by
  constructor
  · rintro (⟨-, -, rfl⟩ | ⟨op, rest, hop, hstop⟩)
    · exact absurd rfl he
    obtain ⟨-, hcount, -, hdispatch⟩ := (execInstr_eq_error_iff he).mp hstop
    rw [ScriptEnv.dispatch] at hdispatch
    split at hdispatch
    · cases hdispatch
    split at hdispatch
    case isFalse => cases hdispatch
    case isTrue hexec =>
      have hcase : opCase op.opcode = .checkLockTimeVerify := by
        by_contra hne
        exact he (returns_execOp _ hne e hdispatch)
      have hopcode := opCase_eq_checkLockTimeVerify_iff.mp hcase
      have hhigh : op16 < op.opcode := by
        rw [hopcode]
        decide
      have hdata := data_eq_nil_of_getOp hop (UInt8.lt_trans (by decide) hhigh)
      rw [vfExec_count, hopcode] at hexec
      have hexecuted : s.vfExec.all id = true := by simpa [opIf, opEndif, opChecklocktimeverify] using hexec
      rw [hcase, ScriptEnv.execOp] at hdispatch
      split at hdispatch
      · cases hdispatch
      case isFalse henabled =>
        rw [bind_eq_error_of_returns (fun _ ↦ returns_pure _) he] at hdispatch
        obtain ⟨hshift, htop⟩ := (checkLockTime_eq_error_iff hin he).mp hdispatch
        refine ⟨hshift, ⟨⟨rest, ?_⟩, henabled, hexecuted, ?_⟩, ?_⟩
        · rw [hop, ← hopcode, ← hdata]
        · rw [count_nOpCount s hhigh] at hcount
          have := not_and.mp hcount hhigh
          omega
        · simpa only [ScriptState.HasShiftOperand, stack_count] using htop
  · rintro ⟨rfl, ⟨⟨rest, hop⟩, henabled, hexecuted, hcount⟩, htop⟩
    refine .inr ⟨_, rest, hop, (execInstr_eq_error_iff he).mpr ⟨Nat.zero_le _, ?_, by decide, ?_⟩⟩
    · rw [count_nOpCount s (show op16 < opChecklocktimeverify by decide)]
      omega
    · have hcase : opCase opChecklocktimeverify = .checkLockTimeVerify := rfl
      rw [ScriptEnv.dispatch, vfExec_count, hexecuted]
      simp only [Bool.true_and, Bool.true_or, if_true]
      rw [if_neg (by decide), hcase, ScriptEnv.execOp, if_neg henabled,
        bind_eq_error_of_returns (fun _ ↦ returns_pure _) he, checkLockTime_eq_error_iff hin he]
      exact ⟨rfl, by simpa only [ScriptState.HasShiftOperand, stack_count] using htop⟩

/-! ### `VerifyScript` -/

theorem evalScript_eq_error_iff (he : e ≠ .fail) {stack : List Bytes} {script : Bytes} :
    env.evalScript flags stack script = .error e ↔ script.length ≤ 10000 ∧
      env.Stops flags script { stack, codeHash := script } e := by
  unfold ScriptEnv.evalScript
  rw [check_bind_eq_error he, decide_eq_true_eq,
    bind_eq_error_of_returns (fun t ↦ (returns_check _).bind fun _ _ ↦ returns_pure _) he,
    evalLoop_eq_error_iff le_rfl]

theorem returns_endsInTrue (stack : List Bytes) : (endsInTrue stack).Returns :=
  (returns_get _).bind fun _ _ ↦ returns_check _

theorem bind_eq_error_iff {α β : Type} {x : Eval α} {f : α → Eval β} :
    (x >>= f) = .error e ↔ x = .error e ∨ ∃ a, x = .ok a ∧ f a = .error e := by
  cases x <;> simp [bind, Except.bind]

/-- The check of the redeem script, once the other two evaluations are done. -/
theorem redeem_eq_error_iff (he : e ≠ .fail) {scriptSig scriptPubKey : Bytes}
    {stackCopy stack : List Bytes}
    (hpubKey : env.evalScript flags stackCopy scriptPubKey = .ok stack) :
    (if flags &&& scriptVerifyP2SH = 0 ∨ !isPayToScriptHash scriptPubKey then .ok ()
      else do
        .check (isPushOnly scriptSig)
        match stackCopy with
        | [] => .error .assertion
        | pubKeySerialized :: stackCopy => do
          let stack ← env.evalScript flags stackCopy pubKeySerialized
          endsInTrue stack : Eval Unit) = .error e ↔
      flags &&& scriptVerifyP2SH ≠ 0 ∧ isPayToScriptHash scriptPubKey = true ∧
        isPushOnly scriptSig = true ∧ ∃ pubKeySerialized rest, stackCopy = pubKeySerialized :: rest ∧
          env.evalScript flags rest pubKeySerialized = .error e := by
  split
  case isTrue hno =>
    refine iff_of_false (fun h ↦ by cases h) ?_
    rintro ⟨hflag, hscript, -⟩
    rcases hno with hzero | hother
    · exact hflag hzero
    · simp [hscript] at hother
  case isFalse hyes =>
    rw [not_or, Bool.not_eq_true', Bool.not_eq_false] at hyes
    rw [check_bind_eq_error he]
    cases stackCopy with
    | nil =>
      rw [evalScript_scripthash_nil hyes.2] at hpubKey
      cases hpubKey
    | cons pubKeySerialized rest =>
      rw [bind_eq_error_of_returns returns_endsInTrue he]
      constructor
      · rintro ⟨hpush, h⟩
        exact ⟨hyes.1, hyes.2, hpush, _, _, rfl, h⟩
      · rintro ⟨-, -, hpush, _, _, hcons, h⟩
        obtain ⟨rfl, rfl⟩ := List.cons.inj hcons
        exact ⟨hpush, h⟩

/-- `VerifyScript` ends otherwise than by returning false where one of its evaluations does. -/
theorem verifyScript_eq_error_iff (he : e ≠ .fail) {scriptSig scriptPubKey : Bytes} :
    env.verifyScript flags scriptSig scriptPubKey = .error e ↔
      ∃ pc s, env.Reaches flags scriptSig scriptPubKey pc s ∧ env.StopsAt flags pc s e := by
  unfold ScriptEnv.verifyScript
  rw [bind_eq_error_iff, evalScript_eq_error_iff he]
  constructor
  · rintro (⟨hsize, pc, s, hvisits, hstops⟩ | ⟨stackCopy, heval, h⟩)
    · exact ⟨pc, s, .scriptSig hsize hvisits, hstops⟩
    rw [bind_eq_error_iff, evalScript_eq_error_iff he] at h
    rcases h with ⟨hsize, pc, s, hvisits, hstops⟩ | ⟨stack, hpubKey, h⟩
    · exact ⟨pc, s, .scriptPubKey heval hsize hvisits, hstops⟩
    rcases bind_eq_error_iff.mp h with h | ⟨_, htrue, h⟩
    · exact absurd (returns_endsInTrue stack e h) he
    obtain ⟨hflag, hscript, hpush, redeem, rest, rfl, hlast⟩ := (redeem_eq_error_iff he hpubKey).mp h
    obtain ⟨hsize, pc, s, hvisits, hstops⟩ := (evalScript_eq_error_iff he).mp hlast
    exact ⟨pc, s, .redeemScript heval hpubKey htrue hflag hscript hpush hsize hvisits, hstops⟩
  · rintro ⟨pc, s, hreaches, hstops⟩
    cases hreaches with
    | scriptSig hsize hvisits => exact .inl ⟨hsize, pc, s, hvisits, hstops⟩
    | @scriptPubKey stackCopy _ _ heval hsize hvisits =>
      refine .inr ⟨stackCopy, heval, bind_eq_error_iff.mpr (.inl ?_)⟩
      exact (evalScript_eq_error_iff he).mpr ⟨hsize, pc, s, hvisits, hstops⟩
    | @redeemScript redeem rest stack _ _ heval hpubKey htrue hflag hscript hpush hsize hvisits =>
      refine .inr ⟨redeem :: rest, heval, bind_eq_error_iff.mpr (.inr ⟨stack, hpubKey, ?_⟩)⟩
      refine bind_eq_error_iff.mpr (.inr ⟨(), htrue, (redeem_eq_error_iff he hpubKey).mpr ?_⟩)
      exact ⟨hflag, hscript, hpush, redeem, rest, rfl,
        (evalScript_eq_error_iff he).mpr ⟨hsize, pc, s, hvisits, hstops⟩⟩

/-- For all scripts and flags: `VerifyScript` either succeeds, returns false or leaves the language,
and it leaves it by reading or computing only in the shift of an operand of
`OP_CHECKLOCKTIMEVERIFY`, where one of its evaluations comes to one. -/
theorem verifyScript_leaves_iff (hin : env.nIn < env.txTo.vin.length) (scriptSig scriptPubKey : Bytes)
    (he : e ≠ .fail) : env.verifyScript flags scriptSig scriptPubKey = .error e ↔
      e = .fault .shift ∧ ∃ pc s, env.Reaches flags scriptSig scriptPubKey pc s ∧
        s.ChecksLockTime flags pc ∧ s.HasShiftOperand := by
  rw [verifyScript_eq_error_iff he]
  constructor
  · rintro ⟨pc, s, hreaches, hstops⟩
    obtain ⟨rfl, hchecks, htop⟩ := (stopsAt_iff hin he).mp hstops
    exact ⟨rfl, pc, s, hreaches, hchecks, htop⟩
  · rintro ⟨rfl, pc, s, hreaches, hchecks, htop⟩
    exact ⟨pc, s, hreaches, (stopsAt_iff hin he).mpr ⟨rfl, hchecks, htop⟩⟩

end Shift

/-- A lock time of five bytes that is negative, and the operation that reads it. -/
theorem verifyScript_leaves_sample :
    trustingEnv.verifyScript scriptVerifyChecklocktimeverify [5, 0, 0, 0, 0, 0x80]
        [opChecklocktimeverify] = .error (.fault .shift) ↔
      ScriptStop.fault .shift = .fault .shift ∧ ∃ pc s,
        trustingEnv.Reaches scriptVerifyChecklocktimeverify [5, 0, 0, 0, 0, 0x80]
          [opChecklocktimeverify] pc s ∧
        s.ChecksLockTime scriptVerifyChecklocktimeverify pc ∧ s.HasShiftOperand :=
  verifyScript_leaves_iff (by decide) _ _ (by decide)

end Bitmark
