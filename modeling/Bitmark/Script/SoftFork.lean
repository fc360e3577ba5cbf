import Bitmark.Script.Interpreter

/-!
# Stricter flags

When a script that passes under more flags passes under fewer. A failed encoding check pushes
false instead of ending the script, so a flag that adds an encoding rule can turn a refusal into an
acceptance; the other flags only refuse more.
-/

namespace Bitmark

/-- `flags` enforces at most what `flags'` does, and the same encodings. -/
structure Relaxes (flags flags' : BitVec 32) : Prop where
  der : flags &&& derFlags = 0 ↔ flags' &&& derFlags = 0
  strictenc : flags &&& scriptVerifyStrictenc = 0 ↔ flags' &&& scriptVerifyStrictenc = 0
  lockTime : flags' &&& scriptVerifyChecklocktimeverify = 0 →
    flags &&& scriptVerifyChecklocktimeverify = 0
  p2sh : flags' &&& scriptVerifyP2SH = 0 → flags &&& scriptVerifyP2SH = 0

section Relaxed

variable {env : ScriptEnv} {flags flags' : BitVec 32} {scriptCode pc : Bytes}
  {s s' : ScriptState}

/-! ### Encoding checks -/

/-- The test that `LOW_S` asks for has been made already. -/
theorem checkSignatureEncoding_eq (vchSig : Bytes) (flags : BitVec 32) :
    checkSignatureEncoding vchSig flags =
      if vchSig.isEmpty then .ok true
      else underFlags flags derFlags (isValidSignatureEncoding vchSig) >>= fun okDer ↦
        if !okDer then .ok false
        else underFlags flags scriptVerifyStrictenc (.ok (isDefinedHashtypeSignature vchSig)) := by
  have hlowS : flags &&& derFlags = 0 → flags &&& scriptVerifyLowS = 0 := by
    intro h
    rw [derFlags, BitVec.and_or_distrib_left, BitVec.and_or_distrib_left] at h
    exact (BitVec.or_eq_zero_iff.mp (BitVec.or_eq_zero_iff.mp h).1).2
  unfold checkSignatureEncoding
  split
  · rfl
  · by_cases hder : flags &&& derFlags = 0
    · rw [underFlags, underFlags, if_pos hder, if_pos (hlowS hder)]
      rfl
    · rw [underFlags, underFlags, if_neg hder, isLowDERSignature]
      cases hvalid : isValidSignatureEncoding vchSig with
      | error e => rfl
      | ok okDer =>
        cases okDer with
        | false => rfl
        | true =>
          rw [ite_self]
          rfl

theorem Relaxes.signatureOk (h : Relaxes flags flags') :
    env.signatureOk flags = env.signatureOk flags' := by
  funext scriptCode vchSig vchPubKey
  have hder : underFlags flags derFlags = underFlags flags' derFlags := by
    funext check
    simp only [underFlags, h.der]
  have hstrict : underFlags flags scriptVerifyStrictenc =
      underFlags flags' scriptVerifyStrictenc := by
    funext check
    simp only [underFlags, h.strictenc]
  rw [ScriptEnv.signatureOk, ScriptEnv.signatureOk, checkSignatureEncoding_eq,
    checkSignatureEncoding_eq, hder, hstrict, checkPubKeyEncoding, checkPubKeyEncoding, hstrict]

theorem Relaxes.multisigLoop (h : Relaxes flags flags') (keys sigs : List Bytes) :
    env.multisigLoop flags scriptCode keys sigs = env.multisigLoop flags' scriptCode keys sigs := by
  induction keys generalizing sigs with
  | nil => cases sigs <;> rfl
  | cons vchPubKey keys ih =>
    cases sigs with
    | nil => rfl
    | cons vchSig sigs => simp only [ScriptEnv.multisigLoop, h.signatureOk, ih]

/-! ### Steps and runs -/

/-- Under the stricter flags an opcode does what it does under the others, or ends the script. -/
theorem Relaxes.execOp (h : Relaxes flags flags') {fExec : Bool} (c : OpCase)
    (hexec : env.execOp flags' pc fExec s c = .ok s') : env.execOp flags pc fExec s c = .ok s' := by
  cases c with
  | checkLockTimeVerify =>
    simp only [ScriptEnv.execOp] at hexec ⊢
    split at hexec
    · next hoff =>
      rw [if_pos (h.lockTime hoff)]
      exact hexec
    · -- the lock time was tested, which leaves the state as it is
      split
      · obtain ⟨_, -, hexec⟩ := Eval.bind_eq_ok.mp hexec
        exact hexec
      · exact hexec
  | checkSig fVerify =>
    simp only [ScriptEnv.execOp, h.signatureOk]
    exact hexec
  | checkMultisig fVerify =>
    simp only [ScriptEnv.execOp, ScriptEnv.checkMultisig, h.multisigLoop]
    exact hexec
  | _ => exact hexec

theorem Relaxes.dispatch (h : Relaxes flags flags') {op : ScriptOp}
    (hexec : env.dispatch flags' op pc s = .ok s') : env.dispatch flags op pc s = .ok s' := by
  unfold ScriptEnv.dispatch at hexec ⊢
  dsimp only at hexec ⊢
  split at hexec
  · next hpush =>
    rw [if_pos hpush]
    exact hexec
  · next hpush =>
    rw [if_neg hpush]
    split at hexec
    · next hrun =>
      rw [if_pos hrun]
      exact h.execOp _ hexec
    · next hrun =>
      rw [if_neg hrun]
      exact hexec

theorem Relaxes.execInstr (h : Relaxes flags flags') {op : ScriptOp}
    (hexec : env.execInstr flags' op pc s = .ok s') : env.execInstr flags op pc s = .ok s' := by
  unfold ScriptEnv.execInstr at hexec ⊢
  obtain ⟨_, hsize, hexec⟩ := Eval.bind_eq_ok.mp hexec
  obtain ⟨_, hcount, hexec⟩ := Eval.bind_eq_ok.mp hexec
  obtain ⟨_, henabled, hexec⟩ := Eval.bind_eq_ok.mp hexec
  obtain ⟨mid, hmid, hexec⟩ := Eval.bind_eq_ok.mp hexec
  exact Eval.bind_eq_ok.mpr ⟨(), hsize, Eval.bind_eq_ok.mpr ⟨(), hcount,
    Eval.bind_eq_ok.mpr ⟨(), henabled, Eval.bind_eq_ok.mpr ⟨mid, h.dispatch hmid, hexec⟩⟩⟩⟩

theorem Relaxes.evalLoop (h : Relaxes flags flags') {fuel : Nat}
    (hloop : env.evalLoop flags' fuel pc s = .ok s') : env.evalLoop flags fuel pc s = .ok s' := by
  induction fuel generalizing pc s with
  | zero => exact hloop
  | succ fuel ih =>
    unfold ScriptEnv.evalLoop at hloop ⊢
    split at hloop
    · next hend =>
      rw [if_pos hend]
      exact hloop
    · next hend =>
      rw [if_neg hend]
      obtain ⟨⟨op, rest⟩, hop, hloop⟩ := Eval.bind_eq_ok.mp hloop
      obtain ⟨mid, hmid, hloop⟩ := Eval.bind_eq_ok.mp hloop
      exact Eval.bind_eq_ok.mpr ⟨(op, rest), hop,
        Eval.bind_eq_ok.mpr ⟨mid, h.execInstr hmid, ih hloop⟩⟩

theorem Relaxes.evalScript (h : Relaxes flags flags') {stack stack' : List Bytes} {script : Bytes}
    (heval : env.evalScript flags' stack script = .ok stack') :
    env.evalScript flags stack script = .ok stack' := by
  obtain ⟨_, hsize, heval⟩ := Eval.bind_eq_ok.mp heval
  obtain ⟨mid, hmid, heval⟩ := Eval.bind_eq_ok.mp heval
  exact Eval.bind_eq_ok.mpr ⟨(), hsize, Eval.bind_eq_ok.mpr ⟨mid, h.evalLoop hmid, heval⟩⟩

/-- What passes under the stricter flags passes under the others. -/
theorem Relaxes.verifyScript (h : Relaxes flags flags') {scriptSig scriptPubKey : Bytes}
    (hverify : env.verifyScript flags' scriptSig scriptPubKey = .ok ()) :
    env.verifyScript flags scriptSig scriptPubKey = .ok () := by
  obtain ⟨stackCopy, hsig, hverify⟩ := Eval.bind_eq_ok.mp hverify
  obtain ⟨stack, hpub, hverify⟩ := Eval.bind_eq_ok.mp hverify
  obtain ⟨_, htrue, hverify⟩ := Eval.bind_eq_ok.mp hverify
  refine Eval.bind_eq_ok.mpr ⟨stackCopy, h.evalScript hsig, Eval.bind_eq_ok.mpr ⟨stack,
    h.evalScript hpub, Eval.bind_eq_ok.mpr ⟨(), htrue, ?_⟩⟩⟩
  split at hverify
  · next hplain =>
    rw [if_pos (hplain.imp_left h.p2sh)]
  · obtain ⟨_, hpush, hverify⟩ := Eval.bind_eq_ok.mp hverify
    split
    · rfl
    · refine Eval.bind_eq_ok.mpr ⟨(), hpush, ?_⟩
      cases stackCopy with
      | nil => exact hverify
      | cons pubKeySerialized stackCopy =>
        obtain ⟨stack, hinner, hverify⟩ := Eval.bind_eq_ok.mp hverify
        exact Eval.bind_eq_ok.mpr ⟨stack, h.evalScript hinner, hverify⟩

end Relaxed

/-! ### Negated signature checks -/

/-- An output that is spent by a signature that does not verify: `<key> CHECKSIG NOT`. -/
def checkSigNot (vchPubKey : Bytes) : Bytes := pushBytes vchPubKey ++ [opChecksig, 0x91]

/-- The first input of a transaction, with an oracle that takes every signature. -/
def trustingEnv : ScriptEnv where
  crypto := ⟨id, id, id, id, id, fun _ _ _ _ _ _ ↦ true⟩
  txTo := { vin := [⟨⟨1, 0⟩, [], -1⟩] }
  nIn := 0

theorem getOp_pushBytes {b : Bytes} (h : b.length < opPushdata1.toNat) (rest : Bytes) :
    getOp (pushBytes b ++ rest) = some (⟨UInt8.ofNat b.length, b⟩, rest) := by
  have hsize : (UInt8.ofNat b.length).toNat = b.length :=
    Nat.mod_eq_of_lt (h.trans (by decide))
  have hlt : UInt8.ofNat b.length < opPushdata1 := by
    rw [UInt8.lt_iff_toNat_lt, hsize]
    exact h
  have hle : UInt8.ofNat b.length ≤ opPushdata4 := by
    rw [UInt8.le_iff_toNat_le, hsize]
    exact h.le.trans (by decide)
  have hop : operandSize (UInt8.ofNat b.length) (b ++ rest) = some (b.length, b ++ rest) := by
    simp [operandSize, hlt, hsize]
  rw [pushBytes, if_pos h, List.cons_append, getOp, if_pos hle, hop]
  simp

section Negated

variable {env : ScriptEnv} {flags : BitVec 32} {pc rest : Bytes} {op : ScriptOp} {s s' : ScriptState}

theorem evalLoop_nil (fuel : Nat) (s : ScriptState) : env.evalLoop flags fuel [] s = .ok s := by
  cases fuel <;> rfl

/-- One round of the loop. -/
theorem evalLoop_cons (hop : getOp pc = some (op, rest)) (fuel : Nat) :
    env.evalLoop flags (fuel + 1) pc s = (do
      let s ← env.execInstr flags op rest s
      env.evalLoop flags fuel rest s) := by
  cases pc with
  | nil => cases hop
  | cons b pc =>
    rw [ScriptEnv.evalLoop, List.isEmpty_cons, if_neg Bool.false_ne_true, hop]
    rfl

theorem evalLoop_next (hop : getOp pc = some (op, rest))
    (hexec : env.execInstr flags op rest s = .ok s') (fuel : Nat) :
    env.evalLoop flags (fuel + 1) pc s = env.evalLoop flags fuel rest s' := by
  rw [evalLoop_cons hop, hexec]
  rfl

theorem opCase_of_lt {opcode : UInt8} (h : opcode < opPushdata1) : opCase opcode = .default := by
  have hall : ∀ n < opPushdata1.toNat, opCase (UInt8.ofNat n) = .default := by
    decide +kernel
  have hcase := hall opcode.toNat (UInt8.lt_iff_toNat_lt.mp h)
  rwa [UInt8.ofNat_toNat] at hcase

/-- A push outside of conditions. -/
theorem execInstr_push {b : Bytes} (hb : b.length < opPushdata1.toNat) (hexec : s.vfExec = [])
    (hroom : s.stack.length + s.altstack.length < 1000) :
    env.execInstr flags ⟨UInt8.ofNat b.length, b⟩ pc s = .ok { s with stack := b :: s.stack } := by
  have hsize : (UInt8.ofNat b.length).toNat = b.length :=
    Nat.mod_eq_of_lt (hb.trans (by decide))
  have hlt : UInt8.ofNat b.length < opPushdata1 := by
    rw [UInt8.lt_iff_toNat_lt, hsize]
    exact hb
  have hpush : UInt8.ofNat b.length ≤ opPushdata4 := UInt8.le_of_lt (UInt8.lt_trans hlt (by decide))
  have hcount : ¬ op16 < UInt8.ofNat b.length :=
    UInt8.not_lt.mpr (UInt8.le_of_lt (UInt8.lt_trans hlt (by decide)))
  have hlength : b.length ≤ maxScriptElementSize := hb.le.trans (by decide)
  have hdispatch : env.dispatch flags ⟨UInt8.ofNat b.length, b⟩ pc s =
      .ok { s with stack := b :: s.stack } := by
    rw [ScriptEnv.dispatch, hexec, List.all_nil, Bool.true_and, if_pos (decide_eq_true hpush)]
  have hroom' : (b :: s.stack).length + s.altstack.length ≤ 1000 := by
    rw [List.length_cons]
    omega
  rw [ScriptEnv.execInstr, ScriptState.count, if_neg hcount]
  simp only [hlength, opCase_of_lt hlt, hcount, hdispatch, hroom', Eval.check, decide_true,
    decide_false, Bool.false_and, Bool.not_false, if_true, Eval.ok_bind, ne_eq, reduceCtorEq,
    not_false_eq_true]
  rfl

/-- Another opcode outside of conditions. -/
theorem execInstr_eq {opcode : UInt8} (hdata : opPushdata4 < opcode)
    (henabled : opCase opcode ≠ .disabled) (hexec : s.vfExec = []) (hcount : s.nOpCount < 201) :
    env.execInstr flags ⟨opcode, []⟩ pc s = (do
      let s ← env.execOp flags pc true (s.count ⟨opcode, []⟩) (opCase opcode)
      .check (s.stack.length + s.altstack.length ≤ 1000)
      return s) := by
  have hexec' : (s.count ⟨opcode, []⟩).vfExec = [] := by
    rw [ScriptState.count]
    split <;> exact hexec
  have hcount' : ¬ 201 < (s.count ⟨opcode, []⟩).nOpCount := by
    rw [ScriptState.count]
    split
    · exact Nat.not_lt.mpr hcount
    · exact Nat.not_lt.mpr hcount.le
  have hdispatch : env.dispatch flags ⟨opcode, []⟩ pc (s.count ⟨opcode, []⟩) =
      env.execOp flags pc true (s.count ⟨opcode, []⟩) (opCase opcode) := by
    have hpush : ¬ opcode ≤ opPushdata4 := UInt8.not_le.mpr hdata
    simp only [ScriptEnv.dispatch, hexec', List.all_nil, Bool.true_and, hpush, decide_false,
      Bool.false_eq_true, if_false, Bool.true_or, if_true]
  simp only [ScriptEnv.execInstr, List.length_nil, Nat.zero_le, hcount', henabled, hdispatch,
    Eval.check, decide_true, decide_false, Bool.and_false, Bool.not_false, if_true, Eval.ok_bind,
    ne_eq, not_false_eq_true]

/-- Another opcode that succeeds. -/
theorem execInstr_op {opcode : UInt8} (hdata : opPushdata4 < opcode)
    (henabled : opCase opcode ≠ .disabled) (hexec : s.vfExec = []) (hcount : s.nOpCount < 201)
    (hop : env.execOp flags pc true (s.count ⟨opcode, []⟩) (opCase opcode) = .ok s')
    (hroom : s'.stack.length + s'.altstack.length ≤ 1000) :
    env.execInstr flags ⟨opcode, []⟩ pc s = .ok s' := by
  rw [execInstr_eq hdata henabled hexec hcount, hop]
  simp only [Eval.ok_bind, Eval.check, hroom, decide_true, if_true]
  rfl

/-- The script with a signature on the stack. -/
theorem evalScript_checkSigNot {sig key : Bytes} {ok : Bool} (hkey : key.length < opPushdata1.toNat)
    (hcode : findAndDelete (checkSigNot key) (pushBytes sig) = checkSigNot key)
    (hok : env.signatureOk flags (checkSigNot key) sig key = .ok ok) :
    env.evalScript flags [sig] (checkSigNot key) = .ok [boolBytes !ok] := by
  have hlength : (checkSigNot key).length = key.length + 1 + 2 := by
    rw [checkSigNot, pushBytes, if_pos hkey, List.length_append]
    rfl
  have hkeyOp : env.execInstr flags ⟨UInt8.ofNat key.length, key⟩ [opChecksig, 0x91]
      { stack := [sig], codeHash := checkSigNot key } =
      .ok { stack := [key, sig], codeHash := checkSigNot key } := by
    apply execInstr_push hkey rfl
    simp
  have hsigOp : env.execInstr flags ⟨opChecksig, []⟩ [0x91]
      { stack := [key, sig], codeHash := checkSigNot key } =
      .ok { stack := [boolBytes ok], nOpCount := 1, codeHash := checkSigNot key } := by
    have hcase : opCase opChecksig = .checkSig false := rfl
    have hcounted : ({ stack := [key, sig], codeHash := checkSigNot key } : ScriptState).count
        ⟨opChecksig, []⟩ = { stack := [key, sig], nOpCount := 1, codeHash := checkSigNot key } := rfl
    apply execInstr_op (by decide) (by decide) rfl (Nat.zero_lt_succ _)
    · rw [hcase, hcounted]
      simp only [ScriptEnv.execOp, hcode, hok, Eval.ofAccess, Eval.ok_bind, ScriptState.pushTest]
      rfl
    · simp
  have hnotOp : env.execInstr flags ⟨0x91, []⟩ []
      { stack := [boolBytes ok], nOpCount := 1, codeHash := checkSigNot key } =
      .ok { stack := [boolBytes !ok], nOpCount := 2, codeHash := checkSigNot key } := by
    cases ok <;> rfl
  have hrun : env.evalLoop flags (key.length + 1 + 2) (checkSigNot key)
      { stack := [sig], codeHash := checkSigNot key } =
      .ok { stack := [boolBytes !ok], nOpCount := 2, codeHash := checkSigNot key } := by
    have hget : getOp (checkSigNot key) =
        some (⟨UInt8.ofNat key.length, key⟩, [opChecksig, 0x91]) := getOp_pushBytes hkey _
    rw [evalLoop_next hget hkeyOp, evalLoop_next rfl hsigOp, evalLoop_next rfl hnotOp, evalLoop_nil]
  have hshort : (checkSigNot key).length ≤ 10000 := by
    have : opPushdata1.toNat = 76 := rfl
    omega
  rw [ScriptEnv.evalScript, hlength, hrun]
  rw [hlength] at hshort
  simp only [Eval.check, hshort, decide_true, if_true, Eval.ok_bind]
  rfl

/-- A negated check accepts what the check refuses. -/
theorem verifyScript_checkSigNot {sig key : Bytes} {ok : Bool} (hsig : sig.length < opPushdata1.toNat)
    (hkey : key.length < opPushdata1.toNat)
    (hcode : findAndDelete (checkSigNot key) (pushBytes sig) = checkSigNot key)
    (hp2sh : isPayToScriptHash (checkSigNot key) = false)
    (hok : env.signatureOk flags (checkSigNot key) sig key = .ok ok) :
    env.verifyScript flags (pushBytes sig) (checkSigNot key) = .ok () ↔ ok = false := by
  have hlength : (pushBytes sig).length = sig.length + 1 := by
    rw [pushBytes, if_pos hsig]
    rfl
  have hpush : env.evalScript flags [] (pushBytes sig) = .ok [sig] := by
    have hop : env.execInstr flags ⟨UInt8.ofNat sig.length, sig⟩ []
        { stack := [], codeHash := pushBytes sig } =
        .ok { stack := [sig], codeHash := pushBytes sig } := by
      apply execInstr_push hsig rfl
      simp
    have hget := getOp_pushBytes hsig []
    rw [List.append_nil] at hget
    have hshort : sig.length + 1 ≤ 10000 := by
      have : opPushdata1.toNat = 76 := rfl
      omega
    rw [ScriptEnv.evalScript, hlength, evalLoop_next hget hop, evalLoop_nil]
    simp only [Eval.check, hshort, decide_true, if_true, Eval.ok_bind]
    rfl
  simp only [ScriptEnv.verifyScript, hpush, evalScript_checkSigNot hkey hcode hok, Eval.ok_bind, hp2sh,
    Bool.not_false, or_true, if_true]
  cases ok with
  | false => exact iff_of_true rfl rfl
  | true =>
    refine iff_of_false ?_ (by decide)
    intro h
    cases h

end Negated

/-! ### Exactly which flags are safe to add -/

/-- A compressed public key, and one in the hybrid form that only `STRICTENC` refuses. -/
def compressedKey : Bytes := 0x02 :: List.replicate 32 0
def hybridKey : Bytes := 0x06 :: List.replicate 64 0

/-- A signature in strict DER, and one with a padded R. -/
def strictSig : Bytes := [0x30, 6, 2, 1, 1, 2, 1, 1, 1]
def paddedSig : Bytes := [0x30, 7, 2, 2, 0, 1, 2, 1, 1, 1]

theorem signatureOk_paddedSig (flags : BitVec 32) (scriptCode : Bytes) :
    trustingEnv.signatureOk flags scriptCode paddedSig compressedKey =
      .ok (decide (flags &&& derFlags = 0)) := by
  have hpadded : isValidSignatureEncoding paddedSig = .ok false := by decide
  have hkey : checkPubKeyEncoding compressedKey flags = .ok true := by
    rw [checkPubKeyEncoding, underFlags]
    split
    · rfl
    · decide
  have hempty : paddedSig.isEmpty = false := rfl
  rw [ScriptEnv.signatureOk, checkSignatureEncoding_eq, hempty, if_neg Bool.false_ne_true, hpadded,
    hkey]
  by_cases hder : flags &&& derFlags = 0
  · have hstrict : flags &&& scriptVerifyStrictenc = 0 := by
      rw [derFlags, BitVec.and_or_distrib_left] at hder
      exact (BitVec.or_eq_zero_iff.mp hder).2
    rw [underFlags, underFlags, if_pos hder, if_pos hstrict, decide_eq_true hder]
    rfl
  · rw [underFlags, if_neg hder, decide_eq_false hder]
    rfl

theorem signatureOk_hybridKey (flags : BitVec 32) (scriptCode : Bytes) :
    trustingEnv.signatureOk flags scriptCode strictSig hybridKey =
      .ok (decide (flags &&& scriptVerifyStrictenc = 0)) := by
  have hstrict : checkSignatureEncoding strictSig flags = .ok true := by
    have hvalid : isValidSignatureEncoding strictSig = .ok true := by decide
    have hempty : strictSig.isEmpty = false := rfl
    have hdefined : isDefinedHashtypeSignature strictSig = true := by decide
    rw [checkSignatureEncoding_eq, hempty, if_neg Bool.false_ne_true, hvalid, hdefined, underFlags,
      underFlags, ite_self, ite_self]
    rfl
  have hhybrid : isCompressedOrUncompressedPubKey hybridKey = .ok false := by decide
  rw [ScriptEnv.signatureOk, hstrict, checkPubKeyEncoding, hhybrid, underFlags]
  split
  · next hoff =>
    rw [decide_eq_true hoff]
    rfl
  · next hon =>
    rw [decide_eq_false hon]
    rfl

/-- Adding the flags `G` to `F` only refuses more, for every script, transaction and oracle, exactly
when it adds no encoding rule: none for strict DER, and not `STRICTENC`. -/
theorem verifyScript_stricter_iff (F G : BitVec 32) :
    (∀ (env : ScriptEnv) (scriptSig scriptPubKey : Bytes),
      env.verifyScript (F ||| G) scriptSig scriptPubKey = .ok () →
        env.verifyScript F scriptSig scriptPubKey = .ok ()) ↔
      (G &&& derFlags ≠ 0 → F &&& derFlags ≠ 0) ∧
        (G &&& scriptVerifyStrictenc ≠ 0 → F &&& scriptVerifyStrictenc ≠ 0) := by
  have hunion : ∀ mask, (F ||| G) &&& mask = 0 ↔ F &&& mask = 0 ∧ G &&& mask = 0 := by
    intro mask
    rw [BitVec.and_or_distrib_right]
    exact BitVec.or_eq_zero_iff
  constructor
  · intro hsafe
    constructor
    · intro hG hF
      have hrefused : trustingEnv.verifyScript F (pushBytes paddedSig) (checkSigNot compressedKey) =
          .ok () ↔ _ :=
        verifyScript_checkSigNot (by decide) (by decide) (by decide) (by decide)
          (signatureOk_paddedSig F _)
      have haccepted : trustingEnv.verifyScript (F ||| G) (pushBytes paddedSig)
          (checkSigNot compressedKey) = .ok () ↔ _ :=
        verifyScript_checkSigNot (by decide) (by decide) (by decide) (by decide)
          (signatureOk_paddedSig (F ||| G) _)
      have h := hsafe _ _ _ (haccepted.mpr (decide_eq_false fun h ↦ hG ((hunion _).mp h).2))
      exact of_decide_eq_false (hrefused.mp h) hF
    · intro hG hF
      have hrefused : trustingEnv.verifyScript F (pushBytes strictSig) (checkSigNot hybridKey) =
          .ok () ↔ _ :=
        verifyScript_checkSigNot (by decide) (by decide) (by decide) (by decide)
          (signatureOk_hybridKey F _)
      have haccepted : trustingEnv.verifyScript (F ||| G) (pushBytes strictSig)
          (checkSigNot hybridKey) = .ok () ↔ _ :=
        verifyScript_checkSigNot (by decide) (by decide) (by decide) (by decide)
          (signatureOk_hybridKey (F ||| G) _)
      have h := hsafe _ _ _ (haccepted.mpr (decide_eq_false fun h ↦ hG ((hunion _).mp h).2))
      exact of_decide_eq_false (hrefused.mp h) hF
  · rintro ⟨hder, hstrict⟩ env scriptSig scriptPubKey hverify
    have hsame : ∀ mask, (G &&& mask ≠ 0 → F &&& mask ≠ 0) →
        (F &&& mask = 0 ↔ (F ||| G) &&& mask = 0) := by
      intro mask hmask
      rw [hunion]
      constructor
      · intro hF
        exact ⟨hF, not_not.mp fun hG ↦ hmask hG hF⟩
      · exact And.left
    have hrelaxes : Relaxes F (F ||| G) :=
      ⟨hsame _ hder, hsame _ hstrict, fun h ↦ ((hunion _).mp h).1, fun h ↦ ((hunion _).mp h).1⟩
    exact hrelaxes.verifyScript hverify

/-- A signature that is not strict DER, in a script that negates its check: refused without
`DERSIG`, accepted with it. -/
theorem dersig_accepts_more :
    trustingEnv.verifyScript (scriptVerifyP2SH ||| scriptVerifyDersig) (pushBytes paddedSig)
        (checkSigNot compressedKey) = .ok () ∧
      trustingEnv.verifyScript scriptVerifyP2SH (pushBytes paddedSig) (checkSigNot compressedKey) ≠
        .ok () := by
  constructor <;> decide

end Bitmark
