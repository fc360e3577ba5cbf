import Bitmark.Script.Building
import Bitmark.Script.SigOps
import Bitmark.Script.SoftFork
import Bitmark.Script.Templates

/-!
# Scripts without branches

The evaluation of the standard scripts, instruction by instruction: pushes put their data on the
stack in order, and each template leaves a single truth value where its signatures verify.
-/

namespace Bitmark

variable {env : ScriptEnv} {flags : BitVec 32} {script pc rest : Bytes} {s s' t : ScriptState}
  {op : ScriptOp} {ops : List ScriptOp}

/-! ### Lengths -/

theorem getOp_length_le (h : getOp pc = some (op, rest)) :
    pc.length ≤ op.data.length + 5 + rest.length := by
  cases pc with
  | nil => cases h
  | cons opcode pc =>
    rw [getOp] at h
    split at h
    case isTrue =>
      obtain ⟨⟨nSize, pc'⟩, hoperand, hdata⟩ := Option.bind_eq_some_iff.mp h
      clear h
      dsimp only at hdata
      obtain ⟨used, rfl, hused⟩ := operandSize_eq_some hoperand
      split at hdata
      · cases hdata
      · obtain ⟨rfl, rfl⟩ := Prod.mk.inj (Option.some.inj hdata)
        rw [List.length_cons, List.length_append, List.length_take, List.length_drop]
        omega
    case isFalse =>
      obtain ⟨rfl, rfl⟩ := Prod.mk.inj (Option.some.inj h)
      rw [List.length_cons, List.length_nil]
      omega

/-- A script is at most as long as its data with five bytes for each instruction. -/
theorem length_le_of_getOps (h : getOps script = (ops, true)) :
    script.length ≤ (ops.map fun op ↦ op.data.length + 5).sum := by
  induction ops generalizing script with
  | nil =>
    rw [getOps_eq_nil h]
    exact Nat.zero_le _
  | cons op ops ih =>
    obtain ⟨rest, hop, hrest⟩ := getOps_eq_cons h
    have hle := getOp_length_le hop
    have hih := ih hrest
    rw [List.map_cons, List.sum_cons]
    omega

/-! ### Deleting what is not there -/

/-- A push of less than 76 bytes that starts a script is its first instruction. -/
theorem getOp_of_isPrefixOf {b : Bytes} (hb : b.length < opPushdata1.toNat)
    (h : (pushBytes b).isPrefixOf pc = true) :
    ∃ rest, getOp pc = some (⟨UInt8.ofNat b.length, b⟩, rest) := by
  obtain ⟨rest, rfl⟩ := List.isPrefixOf_iff_prefix.mp h
  exact ⟨rest, getOp_pushBytes hb rest⟩

theorem findAndDeleteFrom_eq_self {b : Bytes} (hb : b.length < opPushdata1.toNat)
    (h : ∀ op ∈ (getOps pc).1, op.data ≠ b) (fuel : Nat) :
    findAndDeleteFrom (pushBytes b) fuel pc = pc := by
  induction fuel generalizing pc with
  | zero => rfl
  | succ fuel ih =>
    rw [findAndDeleteFrom]
    split
    case isTrue hprefix =>
      obtain ⟨rest, hop⟩ := getOp_of_isPrefixOf hb hprefix
      rw [getOps_cons hop] at h
      exact absurd rfl (h _ List.mem_cons_self)
    case isFalse =>
      cases hop : getOp pc with
      | none => rfl
      | some p =>
        obtain ⟨op, rest⟩ := p
        obtain ⟨used, rfl⟩ := getOp_eq_some hop
        have hrest : ∀ op ∈ (getOps rest).1, op.data ≠ b := by
          intro op' hop'
          apply h
          rw [getOps_cons hop]
          exact List.mem_cons_of_mem _ hop'
        dsimp only
        rw [ih hrest, List.length_cons, List.length_append, ← List.cons_append]
        rw [show used.length + rest.length + 1 - rest.length = (op.opcode :: used).length by
          rw [List.length_cons]; omega, List.take_left]

/-- A short signature that no instruction pushes is not found in a script. -/
theorem findAndDelete_eq_self {b : Bytes} (hb : b.length < opPushdata1.toNat)
    (h : ∀ op ∈ (getOps script).1, op.data ≠ b) : findAndDelete script (pushBytes b) = script := by
  unfold findAndDelete
  split
  · rfl
  · exact findAndDeleteFrom_eq_self hb h _

/-! ### Runs -/

/-- Instructions that the loop of `EvalScript` executes one after the other. -/
def ScriptEnv.Runs (env : ScriptEnv) (flags : BitVec 32) :
    List ScriptOp → ScriptState → ScriptState → Prop
  | [], s, s' => s' = s
  | op :: ops, s, s' => ∃ t, (∀ pc, env.execInstr flags op pc s = .ok t) ∧ env.Runs flags ops t s'

theorem ScriptEnv.Runs.append {ops' : List ScriptOp} (h : env.Runs flags ops s t)
    (h' : env.Runs flags ops' t s') : env.Runs flags (ops ++ ops') s s' := by
  induction ops generalizing s with
  | nil =>
    obtain rfl : t = _ := h
    exact h'
  | cons op ops ih =>
    obtain ⟨u, hexec, hrest⟩ := h
    exact ⟨u, hexec, ih hrest⟩

theorem ScriptEnv.Runs.evalLoop (h : env.Runs flags ops s s') (hparse : getOps pc = (ops, true))
    {fuel : Nat} (hfuel : pc.length ≤ fuel) : env.evalLoop flags fuel pc s = .ok s' := by
  induction ops generalizing pc s fuel with
  | nil =>
    obtain rfl := h
    rw [getOps_eq_nil hparse]
    exact evalLoop_nil fuel _
  | cons op ops ih =>
    obtain ⟨t, hexec, hrun⟩ := h
    obtain ⟨rest, hop, hrest⟩ := getOps_eq_cons hparse
    have hlt := getOp_length_lt hop
    obtain ⟨fuel, rfl⟩ := Nat.exists_eq_succ_of_ne_zero (n := fuel) (by omega)
    rw [evalLoop_next hop (hexec rest)]
    exact ih hrun hrest (by omega)

theorem ScriptEnv.Runs.evalScript {stack : List Bytes}
    (h : env.Runs flags ops { stack, codeHash := script } s') (hparse : getOps script = (ops, true))
    (hlength : script.length ≤ 10000) (hexec : s'.vfExec = []) :
    env.evalScript flags stack script = .ok s'.stack := by
  rw [ScriptEnv.evalScript, h.evalLoop hparse le_rfl, decide_eq_true hlength]
  change (do .check s'.vfExec.isEmpty; return s'.stack : Eval (List Bytes)) = _
  rw [hexec]
  rfl

theorem ScriptEnv.Runs.evalLoop_concat (h : env.Runs flags ops s t)
    (hparse : getOps pc = (ops ++ [op], true)) {fuel : Nat} (hfuel : pc.length ≤ fuel) :
    env.evalLoop flags fuel pc s = env.execInstr flags op [] t := by
  induction ops generalizing pc s fuel with
  | nil =>
    obtain rfl : t = s := h
    obtain ⟨rest, hop, hrest⟩ := getOps_eq_cons hparse
    obtain rfl := getOps_eq_nil hrest
    obtain ⟨fuel, rfl⟩ := Nat.exists_eq_succ_of_ne_zero (n := fuel) (by
      have hlt := getOp_length_lt hop
      omega)
    rw [evalLoop_cons hop]
    cases env.execInstr flags op [] t with
    | ok s' => exact evalLoop_nil fuel s'
    | error e => rfl
  | cons op' ops ih =>
    obtain ⟨u, hexec, hrun⟩ := h
    obtain ⟨rest, hop, hrest⟩ := getOps_eq_cons hparse
    have hlt := getOp_length_lt hop
    obtain ⟨fuel, rfl⟩ := Nat.exists_eq_succ_of_ne_zero (n := fuel) (by omega)
    rw [evalLoop_next hop (hexec rest)]
    exact ih hrun hrest (by omega)

/-- What the last instruction does after instructions that succeed. -/
theorem ScriptEnv.Runs.evalScript_concat {stack : List Bytes}
    (h : env.Runs flags ops { stack, codeHash := script } t)
    (hparse : getOps script = (ops ++ [op], true)) (hlength : script.length ≤ 10000) :
    env.evalScript flags stack script = (do
      let s ← env.execInstr flags op [] t
      .check s.vfExec.isEmpty
      return s.stack) := by
  rw [ScriptEnv.evalScript, h.evalLoop_concat hparse le_rfl, decide_eq_true hlength]
  rfl

/-- A push in any of its forms, outside of conditions. -/
theorem execInstr_pushData (hpush : op.opcode ≤ opPushdata4) (hdata : op.data.length ≤ 520)
    (hexec : s.vfExec = []) (hroom : s.stack.length + s.altstack.length < 1000) :
    env.execInstr flags op pc s = .ok { s with stack := op.data :: s.stack } := by
  have hall : ∀ n ≤ opPushdata4.toNat, opCase (UInt8.ofNat n) = .default := by decide
  have hcase := hall op.opcode.toNat (UInt8.le_iff_toNat_le.mp hpush)
  rw [UInt8.ofNat_toNat] at hcase
  have hcount : ¬ op16 < op.opcode := UInt8.not_lt.mpr (UInt8.le_trans hpush (by decide))
  have hdispatch : env.dispatch flags op pc s = .ok { s with stack := op.data :: s.stack } := by
    rw [ScriptEnv.dispatch, hexec, List.all_nil, Bool.true_and, if_pos (decide_eq_true hpush)]
  have hroom' : (op.data :: s.stack).length + s.altstack.length ≤ 1000 := by
    rw [List.length_cons]
    omega
  rw [ScriptEnv.execInstr, ScriptState.count, if_neg hcount]
  simp only [maxScriptElementSize, hdata, hcase, hcount, hdispatch, hroom', Eval.check, decide_true,
    decide_false, Bool.false_and, Bool.not_false, if_true, Eval.ok_bind, ne_eq, reduceCtorEq,
    not_false_eq_true]
  rfl

/-- Pushes put their data on the stack. -/
theorem runs_pushes (env : ScriptEnv) (flags : BitVec 32)
    (hops : ∀ op ∈ ops, op.opcode ≤ opPushdata4 ∧ op.data.length ≤ 520)
    (hexec : s.vfExec = []) (hroom : s.stack.length + s.altstack.length + ops.length ≤ 1000) :
    env.Runs flags ops s { s with stack := (ops.map (·.data)).reverse ++ s.stack } := by
  induction ops generalizing s with
  | nil => rfl
  | cons op ops ih =>
    rw [List.length_cons] at hroom
    obtain ⟨hpush, hdata⟩ := hops op List.mem_cons_self
    refine ⟨{ s with stack := op.data :: s.stack },
      fun pc ↦ execInstr_pushData hpush hdata hexec (by omega), ?_⟩
    have hrest := ih (s := { s with stack := op.data :: s.stack })
      (fun op' hop' ↦ hops op' (List.mem_cons_of_mem _ hop')) hexec
      (by dsimp only; rw [List.length_cons]; omega)
    rwa [List.map_cons, List.reverse_cons, List.append_assoc, List.singleton_append]

/-! ### Written pushes -/

theorem length_pushBytes_le (b : Bytes) : (pushBytes b).length ≤ b.length + 5 := by
  rw [pushBytes]
  split_ifs <;> simp only [List.length_cons, List.length_append, length_leBytes] <;> omega

/-- What is written push by push is parsed so. -/
theorem getOps_pushes {bs : List Bytes} (h : ∀ b ∈ bs, b.length < 2 ^ 16) :
    ∃ ops, getOps (bs.flatMap pushBytes) = (ops, true) ∧ ops.map (·.data) = bs ∧
      ∀ op ∈ ops, op.opcode ≤ opPushdata4 := by
  induction bs with
  | nil => exact ⟨[], rfl, rfl, fun op hop ↦ by cases hop⟩
  | cons b bs ih =>
    obtain ⟨ops, hparse, hdata, hpush⟩ := ih fun b' hb' ↦ h b' (List.mem_cons_of_mem _ hb')
    have hop := ScriptItem.getOp_pushBytes_append ((h b List.mem_cons_self).trans (by decide))
      (bs.flatMap pushBytes)
    refine ⟨⟨ScriptItem.pushOpcode b.length, b⟩ :: ops, ?_, ?_, ?_⟩
    · rw [List.flatMap_cons, getOps_cons hop, hparse]
    · rw [List.map_cons, hdata]
    · exact List.forall_mem_cons.mpr ⟨ScriptItem.pushOpcode_le b.length, hpush⟩

theorem isPushOnly_pushes {bs : List Bytes} (h : ∀ b ∈ bs, b.length < 2 ^ 16) :
    isPushOnly (bs.flatMap pushBytes) = true := by
  obtain ⟨ops, hparse, -, hpush⟩ := getOps_pushes h
  rw [isPushOnly, hparse]
  simp only [Bool.true_and, List.all_eq_true, decide_eq_true_eq]
  exact fun op hop ↦ UInt8.le_trans (hpush op hop) (by decide)

/-- Evaluating what is written push by push. -/
theorem evalScript_pushes (env : ScriptEnv) (flags : BitVec 32) {bs stack : List Bytes}
    (h : ∀ b ∈ bs, b.length ≤ 520)
    (hroom : stack.length + bs.length ≤ 1000) (hlength : (bs.flatMap pushBytes).length ≤ 10000) :
    env.evalScript flags stack (bs.flatMap pushBytes) = .ok (bs.reverse ++ stack) := by
  obtain ⟨ops, hparse, hdata, hpush⟩ :=
    getOps_pushes fun b hb ↦ Nat.lt_of_le_of_lt (h b hb) (by decide)
  have hops : ∀ op ∈ ops, op.opcode ≤ opPushdata4 ∧ op.data.length ≤ 520 := fun op hop ↦
    ⟨hpush op hop, h _ (hdata ▸ List.mem_map_of_mem hop)⟩
  have hcount : ops.length = bs.length := by rw [← hdata, List.length_map]
  have hruns := runs_pushes env flags (s := { stack, codeHash := bs.flatMap pushBytes }) hops rfl
    (by rw [hcount]; exact hroom)
  rw [hruns.evalScript hparse hlength rfl, hdata]

/-! ### The templates -/

theorem data_le_of_isPubkeySize {b : Bytes} (h : isPubkeySize b = true) : b.length ≤ 65 := by
  rw [isPubkeySize, Bool.and_eq_true, decide_eq_true_eq, decide_eq_true_eq] at h
  exact h.2

/-- A push that is a key or a hash is not one of the opcodes without data. -/
theorem opcode_le_of_data_ne_nil (hparse : getOps script = (ops, true)) (hop : op ∈ ops)
    (hne : op.data ≠ []) : op.opcode ≤ opPushdata4 :=
  (data_of_mem_getOps hparse op hop).resolve_right hne

/-- `OP_CHECKSIG` on a signature that verifies. -/
theorem execInstr_checkSig {vchSig vchPubKey scriptCode : Bytes} {stack : List Bytes}
    (hstack : s.stack = vchPubKey :: vchSig :: stack)
    (hcode : findAndDelete s.codeHash (pushBytes vchSig) = scriptCode)
    (hok : env.signatureOk flags scriptCode vchSig vchPubKey = .ok true)
    (hexec : s.vfExec = []) (hcount : s.nOpCount < 201)
    (hroom : stack.length + s.altstack.length < 1000) (pc : Bytes) :
    env.execInstr flags ⟨opChecksig, []⟩ pc s =
      .ok { s with stack := [1] :: stack, nOpCount := s.nOpCount + 1 } := by
  apply execInstr_op (by decide) (by decide) hexec hcount _ (by
    rw [List.length_cons]
    dsimp only
    omega)
  rw [show opCase opChecksig = .checkSig false by decide, ScriptState.count, if_pos (by decide),
    ScriptEnv.execOp]
  dsimp only
  rw [hstack]
  dsimp only
  rw [hcode, hok]
  rfl

/-- A public key and `OP_CHECKSIG`. -/
theorem evalScript_pubkey {push : ScriptOp} {vchSig : Bytes} {stack : List Bytes}
    (hparse : getOps script = ([push, ⟨opChecksig, []⟩], true))
    (hsize : isPubkeySize push.data = true)
    (hcode : findAndDelete script (pushBytes vchSig) = script)
    (hok : env.signatureOk flags script vchSig push.data = .ok true) (hroom : stack.length ≤ 900) :
    env.evalScript flags (vchSig :: stack) script = .ok ([1] :: stack) := by
  have hle := data_le_of_isPubkeySize hsize
  have hne : push.data ≠ [] := by
    intro hnil
    rw [hnil] at hsize
    cases hsize
  have hpush := opcode_le_of_data_ne_nil hparse List.mem_cons_self hne
  have hlength := length_le_of_getOps hparse
  simp only [List.map_cons, List.map_nil, List.sum_cons, List.sum_nil, List.length_nil] at hlength
  have hruns : env.Runs flags [push, ⟨opChecksig, []⟩]
      { stack := vchSig :: stack, codeHash := script }
      { stack := [1] :: stack, nOpCount := 1, codeHash := script } :=
    ⟨_, fun pc ↦ execInstr_pushData hpush (by omega) rfl (by
        change stack.length + 1 + 0 < 1000
        omega),
      _, execInstr_checkSig rfl hcode hok rfl (by simp) (by
        change stack.length + 0 < 1000
        omega), rfl⟩
  exact hruns.evalScript hparse (by omega) rfl

/-- `OP_DUP`, the hash of the public key and `OP_CHECKSIG`. -/
theorem evalScript_pubkeyhash {push : ScriptOp} {vchSig vchPubKey : Bytes} {stack : List Bytes}
    (hparse : getOps script = ([⟨opDup, []⟩, ⟨opHash160, []⟩, push, ⟨opEqualverify, []⟩,
      ⟨opChecksig, []⟩], true))
    (hsize : push.data.length = 20) (hhash : env.crypto.hash160 vchPubKey = push.data)
    (hcode : findAndDelete script (pushBytes vchSig) = script)
    (hok : env.signatureOk flags script vchSig vchPubKey = .ok true) (hroom : stack.length ≤ 900) :
    env.evalScript flags (vchPubKey :: vchSig :: stack) script = .ok ([1] :: stack) := by
  have hne : push.data ≠ [] := by
    intro hnil
    rw [hnil] at hsize
    cases hsize
  have hpush := opcode_le_of_data_ne_nil hparse (by simp) hne
  have hlength := length_le_of_getOps hparse
  simp only [List.map_cons, List.map_nil, List.sum_cons, List.sum_nil, List.length_nil,
    hsize] at hlength
  have hdup : ∀ pc, env.execInstr flags ⟨opDup, []⟩ pc
      { stack := vchPubKey :: vchSig :: stack, codeHash := script } =
        .ok { stack := vchPubKey :: vchPubKey :: vchSig :: stack, nOpCount := 1,
              codeHash := script } := by
    intro pc
    apply execInstr_op (by decide) (by decide) rfl (by simp) rfl
    change stack.length + 3 + 0 ≤ 1000
    omega
  have hhash160 : ∀ pc, env.execInstr flags ⟨opHash160, []⟩ pc
      { stack := vchPubKey :: vchPubKey :: vchSig :: stack, nOpCount := 1, codeHash := script } =
        .ok { stack := push.data :: vchPubKey :: vchSig :: stack, nOpCount := 2,
              codeHash := script } := by
    intro pc
    apply execInstr_op (by decide) (by decide) rfl (by simp) _ (by
      change stack.length + 3 + 0 ≤ 1000
      omega)
    rw [← hhash]
    rfl
  have hpushed : ∀ pc, env.execInstr flags push pc
      { stack := push.data :: vchPubKey :: vchSig :: stack, nOpCount := 2, codeHash := script } =
        .ok { stack := push.data :: push.data :: vchPubKey :: vchSig :: stack, nOpCount := 2,
              codeHash := script } :=
    fun pc ↦ execInstr_pushData hpush (by omega) rfl (by
      change stack.length + 3 + 0 < 1000
      omega)
  have hequal : ∀ pc, env.execInstr flags ⟨opEqualverify, []⟩ pc
      { stack := push.data :: push.data :: vchPubKey :: vchSig :: stack, nOpCount := 2,
        codeHash := script } =
        .ok { stack := vchPubKey :: vchSig :: stack, nOpCount := 3, codeHash := script } := by
    intro pc
    apply execInstr_op (by decide) (by decide) rfl (by simp) _ (by
      change stack.length + 2 + 0 ≤ 1000
      omega)
    rw [show opCase opEqualverify = .equal true by decide, ScriptState.count, if_pos (by decide)]
    simp [ScriptEnv.execOp, ScriptState.pushTest, Eval.check]
  have hruns : env.Runs flags [⟨opDup, []⟩, ⟨opHash160, []⟩, push, ⟨opEqualverify, []⟩,
      ⟨opChecksig, []⟩] { stack := vchPubKey :: vchSig :: stack, codeHash := script }
      { stack := [1] :: stack, nOpCount := 4, codeHash := script } :=
    ⟨_, hdup, _, hhash160, _, hpushed, _, hequal,
      _, execInstr_checkSig rfl hcode hok rfl (by simp) (by
        change stack.length + 0 < 1000
        omega), rfl⟩
  exact hruns.evalScript hparse (by omega) rfl

/-! ### Several signatures -/

/-- Signatures that verify under some of the keys, in the order of the keys, pass the loop. -/
theorem multisigLoop_of_sublist {scriptCode : Bytes} {keys sigs signers : List Bytes}
    (hsigners : List.Forall₂ (fun vchSig vchPubKey ↦
      env.signatureOk flags scriptCode vchSig vchPubKey = .ok true) sigs signers)
    (hsub : signers.Sublist keys)
    (hok : ∀ vchSig ∈ sigs, ∀ vchPubKey ∈ keys, ∃ fOk,
      env.signatureOk flags scriptCode vchSig vchPubKey = .ok fOk) :
    env.multisigLoop flags scriptCode keys sigs = .ok true := by
  induction keys generalizing sigs signers with
  | nil =>
    obtain rfl := List.sublist_nil.mp hsub
    cases hsigners
    rfl
  | cons vchPubKey keys ih =>
    cases hsigners with
    | nil => rfl
    | @cons vchSig signer sigs signers hsigner hsigners =>
      obtain ⟨fOk, hfOk⟩ := hok vchSig List.mem_cons_self vchPubKey List.mem_cons_self
      have hlength := hsigners.length_eq
      have hrest : signers.Sublist keys := by
        cases hsub with
        | cons _ hskip => exact (List.sublist_cons_self signer signers).trans hskip
        | cons_cons _ htake => exact htake
      rw [ScriptEnv.multisigLoop, hfOk]
      change (if keys.length < (if fOk = true then sigs else vchSig :: sigs).length then
        return false else _) = _
      cases fOk with
      | true =>
        have hle := hrest.length_le
        rw [if_pos rfl, if_neg (by omega)]
        apply ih hsigners hrest
        intro vchSig' hvchSig' vchPubKey' hvchPubKey'
        exact hok vchSig' (List.mem_cons_of_mem _ hvchSig') vchPubKey'
          (List.mem_cons_of_mem _ hvchPubKey')
      | false =>
        -- the key at hand is not the one the signature is for
        have hskip : (signer :: signers).Sublist keys := by
          cases hsub with
          | cons _ hskip => exact hskip
          | cons_cons _ _ =>
            rw [hsigner] at hfOk
            cases hfOk
        have hle := hskip.length_le
        rw [List.length_cons] at hle
        rw [if_neg Bool.false_ne_true, if_neg (by rw [List.length_cons]; omega)]
        apply ih (List.Forall₂.cons hsigner hsigners) hskip
        intro vchSig' hvchSig' vchPubKey' hvchPubKey'
        exact hok vchSig' hvchSig' vchPubKey' (List.mem_cons_of_mem _ hvchPubKey')

/-- A placeholder on the top is not valid under any key. -/
theorem multisigLoop_placeholder {scriptCode : Bytes} {keys sigs : List Bytes}
    (h : ∀ vchPubKey ∈ keys, env.signatureOk flags scriptCode [] vchPubKey = .ok false) :
    env.multisigLoop flags scriptCode keys ([] :: sigs) = .ok false := by
  induction keys with
  | nil => rfl
  | cons vchPubKey keys ih =>
    obtain ⟨hfirst, hrest⟩ := List.forall_mem_cons.mp h
    rw [ScriptEnv.multisigLoop, hfirst]
    change (if keys.length < ([] :: sigs).length then return false else _) = _
    split
    · rfl
    · exact ih hrest

/-- `OP_CHECKMULTISIG` below the keys and numbers of a script. -/
theorem checkMultisig_numbers {m n : UInt8} {keys stack : List Bytes}
    (hs : s.stack = scriptNumSerialize (decodeOpN n) ::
      (keys ++ scriptNumSerialize (decodeOpN m) :: stack))
    (hm : op1 ≤ m ∧ m ≤ op16) (hn : op1 ≤ n ∧ n ≤ op16) (hkeys : keys.length = decodeOpN n)
    (hle : decodeOpN m ≤ decodeOpN n) (hcount : s.nOpCount + keys.length ≤ 201) :
    env.checkMultisig flags s false = (do
      .check (decodeOpN m + 1 ≤ stack.length)
      let sigs := stack.take (decodeOpN m)
      let scriptCode := sigs.foldl
        (fun scriptCode vchSig ↦ findAndDelete scriptCode (pushBytes vchSig)) s.codeHash
      let fSuccess ← .ofAccess (env.multisigLoop flags scriptCode keys sigs)
      return { s with
        stack := boolBytes fSuccess :: stack.drop (decodeOpN m + 1)
        nOpCount := s.nOpCount + keys.length }) := by
  have hsixteen : decodeOpN n ≤ 16 := by
    have hhi : n.toNat ≤ 0x60 := UInt8.le_iff_toNat_le.mp hn.2
    rw [decodeOpN, show op1.toNat = 0x51 from rfl]
    omega
  have htop : s.stack[0]? = some (scriptNumSerialize (decodeOpN n)) := by rw [hs]; rfl
  have hnum : s.stack[1 + decodeOpN n]? = some (scriptNumSerialize (decodeOpN m)) := by
    rw [hs, Nat.add_comm, List.getElem?_cons_succ, ← hkeys, List.getElem?_append_right le_rfl,
      Nat.sub_self]
    rfl
  have hlength : (3 + decodeOpN n + decodeOpN m ≤ s.stack.length) =
      (decodeOpN m + 1 ≤ stack.length) := by
    rw [hs]
    simp only [List.length_cons, List.length_append, hkeys, eq_iff_iff]
    omega
  have htakeKeys : (s.stack.drop 1).take (decodeOpN n) = keys := by
    rw [hs, List.drop_succ_cons, List.drop_zero, List.take_left' hkeys]
  have hdropKeys : s.stack.drop (2 + decodeOpN n) = stack := by
    rw [hs, show 2 + decodeOpN n = decodeOpN n + 1 + 1 by omega, List.drop_succ_cons,
      ← List.drop_drop, List.drop_left' hkeys]
    rfl
  have hdropSigs : s.stack.drop (3 + decodeOpN n + decodeOpN m) =
      stack.drop (decodeOpN m + 1) := by
    rw [show 3 + decodeOpN n + decodeOpN m = 2 + decodeOpN n + (decodeOpN m + 1) by omega,
      ← List.drop_drop, hdropKeys]
  have hkeysCheck : (decide ((0 : Int) ≤ decodeOpN n) &&
      decide ((decodeOpN n : Int) ≤ 20)) = true := by
    simp only [Bool.and_eq_true, decide_eq_true_eq]
    omega
  have hsigsCheck : (decide ((0 : Int) ≤ decodeOpN m) &&
      decide ((decodeOpN m : Int) ≤ decodeOpN n)) = true := by
    simp only [Bool.and_eq_true, decide_eq_true_eq]
    omega
  have hcountCheck : s.nOpCount + decodeOpN n ≤ 201 := by rwa [← hkeys]
  rw [ScriptEnv.checkMultisig]
  simp only [htop, hnum, Eval.get, Eval.ok_bind, scriptNum_decodeOpN hm.1 hm.2,
    scriptNum_decodeOpN hn.1 hn.2, getInt_decodeOpN, hkeysCheck, hsigsCheck, Int.toNat_natCast,
    hcountCheck, hlength, decide_true, Eval.check, if_true, htakeKeys, hdropKeys, hdropSigs, hkeys]
  rfl

/-- A small number. -/
theorem execInstr_number (env : ScriptEnv) (flags : BitVec 32) {opcode : UInt8}
    (hlo : op1 ≤ opcode) (hhi : opcode ≤ op16)
    (hexec : s.vfExec = []) (hcount : s.nOpCount < 201)
    (hroom : s.stack.length + s.altstack.length < 1000) (pc : Bytes) :
    env.execInstr flags ⟨opcode, []⟩ pc s =
      .ok { s with stack := scriptNumSerialize (decodeOpN opcode) :: s.stack } := by
  have hsame : s.count ⟨opcode, []⟩ = s := if_neg (UInt8.not_lt.mpr hhi)
  have hcase := opCase_number hlo hhi
  apply execInstr_op (UInt8.lt_of_lt_of_le (by decide) hlo) (by simp [hcase]) hexec hcount
  · rw [hsame, hcase]
    rfl
  · rw [List.length_cons]
    dsimp only
    omega

theorem sum_le_of_isPubkeySize {keys : List ScriptOp}
    (h : ∀ key ∈ keys, isPubkeySize key.data = true) :
    (keys.map fun op ↦ op.data.length + 5).sum ≤ 70 * keys.length := by
  induction keys with
  | nil => exact Nat.zero_le _
  | cons key keys ih =>
    obtain ⟨hkey, hkeys⟩ := List.forall_mem_cons.mp h
    have hsize := data_le_of_isPubkeySize hkey
    have hrest := ih hkeys
    rw [List.map_cons, List.sum_cons, List.length_cons]
    omega

/-- The two numbers around the keys and `OP_CHECKMULTISIG`, on any stack. -/
theorem evalScript_multisig_eq {m n : UInt8} {keys : List ScriptOp} {stack : List Bytes}
    (hparse : getOps script =
      (⟨m, []⟩ :: (keys ++ [⟨n, []⟩, ⟨opCheckmultisig, []⟩]), true))
    (hkeys : ∀ key ∈ keys, isPubkeySize key.data = true) (hm : op1 ≤ m ∧ m ≤ op16)
    (hn : op1 ≤ n ∧ n ≤ op16) (hle : decodeOpN m ≤ decodeOpN n) (hcount : decodeOpN n = keys.length)
    (hroom : stack.length ≤ 950) :
    env.evalScript flags stack script = (do
      .check (decodeOpN m + 1 ≤ stack.length)
      let sigs := stack.take (decodeOpN m)
      let scriptCode := sigs.foldl
        (fun scriptCode vchSig ↦ findAndDelete scriptCode (pushBytes vchSig)) script
      let fSuccess ← .ofAccess
        (env.multisigLoop flags scriptCode (keys.map (·.data)).reverse sigs)
      return boolBytes fSuccess :: stack.drop (decodeOpN m + 1)) := by
  have hsixteen : decodeOpN n ≤ 16 := by
    have hhi : n.toNat ≤ 0x60 := UInt8.le_iff_toNat_le.mp hn.2
    rw [decodeOpN, show op1.toNat = 0x51 from rfl]
    omega
  have hpush : ∀ key ∈ keys, key.opcode ≤ opPushdata4 ∧ key.data.length ≤ 520 := by
    intro key hkey
    have hsize := hkeys key hkey
    refine ⟨opcode_le_of_data_ne_nil hparse (by simp [hkey]) ?_,
      (data_le_of_isPubkeySize hsize).trans (by decide)⟩
    intro hnil
    rw [hnil] at hsize
    cases hsize
  have hlength : script.length ≤ 10000 := by
    have hbound := length_le_of_getOps hparse
    have hkeysSum := sum_le_of_isPubkeySize hkeys
    simp only [List.map_cons, List.map_append, List.map_nil, List.sum_cons, List.sum_append,
      List.sum_nil, List.length_nil] at hbound
    omega
  have hnumber := execInstr_number env flags (s := { stack, codeHash := script }) hm.1 hm.2 rfl
    (by simp) (by
      change stack.length + 0 < 1000
      omega)
  have hruns := runs_pushes env flags
    (s := { stack := scriptNumSerialize (decodeOpN m) :: stack, codeHash := script }) hpush rfl (by
      change stack.length + 1 + 0 + keys.length ≤ 1000
      omega)
  have hnumber' := execInstr_number env flags
    (s := { stack := (keys.map (·.data)).reverse ++ scriptNumSerialize (decodeOpN m) :: stack,
            codeHash := script })
    hn.1 hn.2 rfl (by simp) (by
      change ((keys.map (·.data)).reverse ++ _ :: stack).length + 0 < 1000
      rw [List.length_append, List.length_cons, List.length_reverse, List.length_map]
      omega)
  have hall : env.Runs flags (⟨m, []⟩ :: (keys ++ [⟨n, []⟩])) { stack, codeHash := script }
      { stack := scriptNumSerialize (decodeOpN n) ::
          ((keys.map (·.data)).reverse ++ scriptNumSerialize (decodeOpN m) :: stack),
        codeHash := script } :=
    ⟨_, hnumber, hruns.append ⟨_, hnumber', rfl⟩⟩
  have hkeysLength : (keys.map (·.data)).reverse.length = decodeOpN n := by
    rw [List.length_reverse, List.length_map, hcount]
  rw [hall.evalScript_concat (by simpa using hparse) hlength,
    execInstr_eq (by decide) (by decide) rfl (by simp),
    show opCase opCheckmultisig = .checkMultisig false by decide, ScriptState.count,
    if_pos (by decide), ScriptEnv.execOp,
    checkMultisig_numbers rfl hm hn hkeysLength hle (by
      change 1 + _ ≤ 201
      rw [hkeysLength]
      omega)]
  have hdrop : (stack.drop (decodeOpN m + 1)).length ≤ stack.length := by
    rw [List.length_drop]
    exact Nat.sub_le _ _
  cases hcheck : (Eval.check (decodeOpN m + 1 ≤ stack.length) : Eval Unit) with
  | error e => rfl
  | ok u =>
    simp only [Eval.ok_bind]
    cases env.multisigLoop flags _ (keys.map (·.data)).reverse (stack.take (decodeOpN m)) with
    | error f => rfl
    | ok fSuccess =>
      have hleft : (boolBytes fSuccess :: stack.drop (decodeOpN m + 1)).length +
          ([] : List Bytes).length ≤ 1000 := by
        rw [List.length_cons, List.length_nil]
        omega
      simp only [Eval.ofAccess, Eval.ok_bind, pure, Except.pure, hleft, Eval.check, decide_true,
        if_true, List.isEmpty_nil]

/-- The signatures that a script asks for, if they are not in it. -/
theorem evalScript_multisig {m n : UInt8} {keys : List ScriptOp} {sigs stack : List Bytes}
    (hparse : getOps script =
      (⟨m, []⟩ :: (keys ++ [⟨n, []⟩, ⟨opCheckmultisig, []⟩]), true))
    (hkeys : ∀ key ∈ keys, isPubkeySize key.data = true) (hm : op1 ≤ m ∧ m ≤ op16)
    (hn : op1 ≤ n ∧ n ≤ op16) (hle : decodeOpN m ≤ decodeOpN n) (hcount : decodeOpN n = keys.length)
    (hsigs : sigs.length = decodeOpN m)
    (hcode : ∀ vchSig ∈ sigs, findAndDelete script (pushBytes vchSig) = script)
    (hloop : env.multisigLoop flags script (keys.map (·.data)).reverse sigs = .ok true)
    (hroom : stack.length ≤ 900) :
    env.evalScript flags (sigs ++ [] :: stack) script = .ok ([1] :: stack) := by
  have hsixteen : decodeOpN n ≤ 16 := by
    have hhi : n.toNat ≤ 0x60 := UInt8.le_iff_toNat_le.mp hn.2
    rw [decodeOpN, show op1.toNat = 0x51 from rfl]
    omega
  have hlength : (sigs ++ [] :: stack).length = decodeOpN m + 1 + stack.length := by
    rw [List.length_append, List.length_cons, hsigs]
    omega
  have hfold : sigs.foldl (fun scriptCode vchSig ↦ findAndDelete scriptCode (pushBytes vchSig))
      script = script := by
    clear hloop hsigs hlength
    induction sigs with
    | nil => rfl
    | cons vchSig sigs ih =>
      obtain ⟨hfirst, hrest⟩ := List.forall_mem_cons.mp hcode
      rw [List.foldl_cons, hfirst]
      exact ih hrest
  have hdrop : (sigs ++ [] :: stack).drop (decodeOpN m + 1) = stack := by
    rw [← List.drop_drop, List.drop_left' hsigs]
    rfl
  rw [evalScript_multisig_eq hparse hkeys hm hn hle hcount (by omega)]
  simp only [List.take_left' hsigs, hfold, hloop, hdrop, hlength, Nat.le_add_right, decide_true,
    Eval.check, if_true, Eval.ok_bind, Eval.ofAccess]
  rfl

/-! ### Pay-to-script-hash -/

theorem eq_of_isPayToScriptHash (h : isPayToScriptHash script = true) :
    script = opHash160 :: 0x14 :: ((script.drop 2).take 20 ++ [opEqual]) := by
  simp only [isPayToScriptHash, Bool.and_eq_true, decide_eq_true_eq, beq_iff_eq] at h
  obtain ⟨⟨⟨hlength, hhash⟩, hsize⟩, hequal⟩ := h
  obtain ⟨a, script, rfl⟩ := List.exists_cons_of_length_eq_add_one hlength
  obtain ⟨b, script, rfl⟩ := List.exists_cons_of_length_eq_add_one (Nat.succ.inj hlength)
  obtain rfl := Option.some.inj hhash
  obtain rfl := Option.some.inj hsize
  have hrest : script.length = 21 := Nat.succ.inj (Nat.succ.inj hlength)
  have hlast : script[20] = opEqual := Option.some.inj
    ((List.getElem?_eq_getElem (by omega)).symm.trans hequal)
  have hdrop : script.drop 20 = [opEqual] := by
    rw [List.drop_eq_getElem_cons (by omega), hlast, List.drop_of_length_le (by omega)]
  change _ = opHash160 :: 0x14 :: (script.take 20 ++ [opEqual])
  rw [← hdrop, List.take_append_drop]

theorem length_hash_of_isPayToScriptHash (h : isPayToScriptHash script = true) :
    ((script.drop 2).take 20).length = 20 := by
  simp only [isPayToScriptHash, Bool.and_eq_true, decide_eq_true_eq] at h
  rw [List.length_take, List.length_drop, h.1.1.1]
  rfl

theorem getOps_scripthash (h : isPayToScriptHash script = true) :
    getOps script =
      ([⟨opHash160, []⟩, ⟨0x14, (script.drop 2).take 20⟩, ⟨opEqual, []⟩], true) := by
  have hscript := eq_of_isPayToScriptHash h
  have hlength := length_hash_of_isPayToScriptHash h
  generalize (script.drop 2).take 20 = hash at hscript hlength
  have hpush : getOp (0x14 :: (hash ++ [opEqual])) = some (⟨0x14, hash⟩, [opEqual]) := by
    have hop := getOp_pushBytes (b := hash) (by rw [hlength]; decide) [opEqual]
    rw [pushBytes, if_pos (by rw [hlength]; decide), hlength] at hop
    exact hop
  have hfirst : getOp (opHash160 :: 0x14 :: (hash ++ [opEqual])) =
      some (⟨opHash160, []⟩, 0x14 :: (hash ++ [opEqual])) := rfl
  rw [hscript, getOps_cons hfirst, getOps_cons hpush]
  rfl

/-- The hash of the top of the stack is compared with that of the script. -/
theorem evalScript_scripthash {pubKeySerialized : Bytes} {stack : List Bytes}
    (h : isPayToScriptHash script = true)
    (hhash : env.crypto.hash160 pubKeySerialized = (script.drop 2).take 20)
    (hroom : stack.length ≤ 900) :
    env.evalScript flags (pubKeySerialized :: stack) script = .ok ([1] :: stack) := by
  have hscript := eq_of_isPayToScriptHash h
  have hlength := length_hash_of_isPayToScriptHash h
  have hparse := getOps_scripthash h
  generalize (script.drop 2).take 20 = hash at hscript hlength hparse hhash
  have hhash160 : ∀ pc, env.execInstr flags ⟨opHash160, []⟩ pc
      { stack := pubKeySerialized :: stack, codeHash := script } =
        .ok { stack := hash :: stack, nOpCount := 1, codeHash := script } := by
    intro pc
    apply execInstr_op (by decide) (by decide) rfl (by simp) _ (by
      change stack.length + 1 + 0 ≤ 1000
      omega)
    rw [← hhash]
    rfl
  have hpushed : ∀ pc, env.execInstr flags ⟨0x14, hash⟩ pc
      { stack := hash :: stack, nOpCount := 1, codeHash := script } =
        .ok { stack := hash :: hash :: stack, nOpCount := 1, codeHash := script } :=
    fun pc ↦ execInstr_pushData (by change (0x14 : UInt8) ≤ 0x4e; decide) (by
      change hash.length ≤ 520
      omega) rfl (by
      change stack.length + 1 + 0 < 1000
      omega)
  have hequal : ∀ pc, env.execInstr flags ⟨opEqual, []⟩ pc
      { stack := hash :: hash :: stack, nOpCount := 1, codeHash := script } =
        .ok { stack := [1] :: stack, nOpCount := 2, codeHash := script } := by
    intro pc
    apply execInstr_op (by decide) (by decide) rfl (by simp) _ (by
      change stack.length + 1 + 0 ≤ 1000
      omega)
    rw [show opCase opEqual = .equal false by decide, ScriptState.count, if_pos (by decide)]
    simp [ScriptEnv.execOp, ScriptState.pushTest, boolBytes, pure, Except.pure]
  have hruns : env.Runs flags [⟨opHash160, []⟩, ⟨0x14, hash⟩, ⟨opEqual, []⟩]
      { stack := pubKeySerialized :: stack, codeHash := script }
      { stack := [1] :: stack, nOpCount := 2, codeHash := script } :=
    ⟨_, hhash160, _, hpushed, _, hequal, rfl⟩
  refine hruns.evalScript hparse ?_ rfl
  rw [hscript, List.length_cons, List.length_cons, List.length_append, hlength]
  decide

/-- Nothing on the stack has the hash of a script. -/
theorem evalScript_scripthash_nil (h : isPayToScriptHash script = true) :
    env.evalScript flags [] script = .error .fail := by
  have hscript := eq_of_isPayToScriptHash h
  have hlength : script.length ≤ 10000 := by
    rw [hscript, List.length_cons, List.length_cons, List.length_append,
      length_hash_of_isPayToScriptHash h]
    decide
  obtain ⟨rest, hop, -⟩ := getOps_eq_cons (getOps_scripthash h)
  obtain ⟨fuel, hfuel⟩ := Nat.exists_eq_succ_of_ne_zero (n := script.length) (by
    have hlt := getOp_length_lt hop
    omega)
  rw [ScriptEnv.evalScript, decide_eq_true hlength, hfuel, evalLoop_cons hop,
    execInstr_eq (by decide) (by decide) rfl (by simp)]
  rfl

/-! ### `VerifyScript` -/

section Verify

variable {bs stack : List Bytes}

theorem endsInTrue_one (stack : List Bytes) : endsInTrue ([1] :: stack) = .ok () := rfl

/-- Pushes for a script of another type. -/
theorem verifyScript_pushes_eq (hbs : ∀ b ∈ bs, b.length ≤ 520) (hroom : bs.length ≤ 1000)
    (hlength : (bs.flatMap pushBytes).length ≤ 10000) (hp2sh : isPayToScriptHash script = false) :
    env.verifyScript flags (bs.flatMap pushBytes) script =
      (do endsInTrue (← env.evalScript flags bs.reverse script)) := by
  have hpushes : env.evalScript flags [] (bs.flatMap pushBytes) = .ok (bs.reverse ++ []) :=
    evalScript_pushes env flags hbs (by rwa [List.length_nil, Nat.zero_add]) hlength
  rw [List.append_nil] at hpushes
  rw [ScriptEnv.verifyScript, hpushes]
  simp only [Eval.ok_bind, hp2sh, Bool.not_false, or_true, if_true]
  cases env.evalScript flags bs.reverse script with
  | error e => rfl
  | ok stack =>
    simp only [Eval.ok_bind]
    cases endsInTrue stack with
    | error e => rfl
    | ok u => rfl

/-- Pushes that satisfy a script of another type. -/
theorem verifyScript_pushes (hbs : ∀ b ∈ bs, b.length ≤ 520) (hroom : bs.length ≤ 1000)
    (hlength : (bs.flatMap pushBytes).length ≤ 10000) (hp2sh : isPayToScriptHash script = false)
    (heval : env.evalScript flags bs.reverse script = .ok ([1] :: stack)) :
    env.verifyScript flags (bs.flatMap pushBytes) script = .ok () := by
  rw [verifyScript_pushes_eq hbs hroom hlength hp2sh, heval]
  rfl

/-- Pushes for a redeem script, and the redeem script. -/
theorem verifyScript_redeem_eq {redeemScript : Bytes} (hbs : ∀ b ∈ bs, b.length ≤ 520)
    (hredeem : redeemScript.length ≤ 520) (hroom : bs.length ≤ 900)
    (hlength : (bs.flatMap pushBytes).length ≤ 9000) (hp2sh : isPayToScriptHash script = true)
    (hhash : env.crypto.hash160 redeemScript = (script.drop 2).take 20) :
    env.verifyScript flags (bs.flatMap pushBytes ++ pushBytes redeemScript) script =
      if flags &&& scriptVerifyP2SH = 0 then .ok ()
      else (do endsInTrue (← env.evalScript flags bs.reverse redeemScript)) := by
  have hscriptSig : bs.flatMap pushBytes ++ pushBytes redeemScript =
      (bs ++ [redeemScript]).flatMap pushBytes := by
    rw [List.flatMap_append, List.flatMap_singleton]
  have hall : ∀ b ∈ bs ++ [redeemScript], b.length ≤ 520 := by
    intro b hb
    rcases List.mem_append.mp hb with hb | hb
    · exact hbs b hb
    · rwa [List.mem_singleton.mp hb]
  have hpushLength := length_pushBytes_le redeemScript
  have hpushes : env.evalScript flags [] ((bs ++ [redeemScript]).flatMap pushBytes) =
      .ok ((bs ++ [redeemScript]).reverse ++ []) :=
    evalScript_pushes env flags hall
      (by rw [List.length_nil, List.length_append, List.length_singleton]; omega)
      (by rw [← hscriptSig, List.length_append]; omega)
  rw [List.append_nil, List.reverse_append, List.reverse_singleton,
    List.singleton_append] at hpushes
  have hhashed : env.evalScript flags (redeemScript :: bs.reverse) script =
      .ok ([1] :: bs.reverse) :=
    evalScript_scripthash hp2sh hhash (by rwa [List.length_reverse])
  have hpushOnly : isPushOnly ((bs ++ [redeemScript]).flatMap pushBytes) = true :=
    isPushOnly_pushes fun b hb ↦ Nat.lt_of_le_of_lt (hall b hb) (by decide)
  rw [hscriptSig, ScriptEnv.verifyScript, hpushes]
  simp only [Eval.ok_bind, hhashed, endsInTrue_one, hp2sh, Bool.not_true, Bool.false_eq_true,
    or_false, hpushOnly, Eval.check, if_true]

/-- Pushes that satisfy a redeem script, and the redeem script. -/
theorem verifyScript_redeem {redeemScript : Bytes} (hbs : ∀ b ∈ bs, b.length ≤ 520)
    (hredeem : redeemScript.length ≤ 520) (hroom : bs.length ≤ 900)
    (hlength : (bs.flatMap pushBytes).length ≤ 9000) (hp2sh : isPayToScriptHash script = true)
    (hhash : env.crypto.hash160 redeemScript = (script.drop 2).take 20)
    (heval : env.evalScript flags bs.reverse redeemScript = .ok ([1] :: stack)) :
    env.verifyScript flags (bs.flatMap pushBytes ++ pushBytes redeemScript) script = .ok () := by
  rw [verifyScript_redeem_eq hbs hredeem hroom hlength hp2sh hhash, heval]
  split <;> rfl

end Verify

end Bitmark
