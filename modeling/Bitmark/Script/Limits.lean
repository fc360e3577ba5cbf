import Bitmark.Script.HeightPush
import Bitmark.Script.Safety

/-!
# The limits of an evaluation

`EvalScript` (`src/script.cpp:447`) bounds the data of each push, the number of its operations and
the depth of its stacks. In every state that `VerifyScript` comes to, the bounds hold of all there
is: of the values that operations compute, of what the first evaluation leaves for the next ones and
of the nesting of conditions, for which there is no test.
-/

namespace Bitmark

/-- What the limits leave of a state. -/
structure ScriptState.Limited (s : ScriptState) : Prop where
  element : ∀ vch ∈ s.stack ++ s.altstack, vch.length ≤ maxScriptElementSize
  depth : s.stack.length + s.altstack.length ≤ 1000
  count : s.nOpCount ≤ 201
  nesting : s.vfExec.length ≤ s.nOpCount

/-- The digests of the hash functions are short. -/
def ScriptCrypto.Short (crypto : ScriptCrypto) : Prop :=
  ∀ (op : HashOp) (bs : Bytes), (op.run crypto bs).length ≤ 32

/-- What an opcode may do to the parts of the state that are limited. -/
structure ScriptState.Effect (s s' : ScriptState) : Prop where
  mem : ∀ vch ∈ s'.stack ++ s'.altstack, vch ∈ s.stack ++ s.altstack ∨
    vch.length ≤ maxScriptElementSize
  vfExec_le : s'.vfExec.length ≤ s.vfExec.length + 1
  le_count : s.nOpCount ≤ s'.nOpCount
  count_le : s'.nOpCount ≤ max s.nOpCount 201

section Effect

variable {env : ScriptEnv} {flags : BitVec 32} {pc rest : Bytes} {op : ScriptOp}
  {s t s' : ScriptState}

theorem scriptNumSerialize_fits (value : Int) :
    (scriptNumSerialize value).length ≤ maxScriptElementSize :=
  (length_scriptNumSerialize_lt value).le.trans (by decide)

theorem boolBytes_fits (b : Bool) : (boolBytes b).length ≤ maxScriptElementSize := by
  cases b <;> decide

/-- The stack operations move values and push sizes. -/
theorem StackOp.mem_of_run {op : StackOp} {stack stack' : List Bytes} (h : op.run stack = some stack')
    {vch : Bytes} (hvch : vch ∈ stack') : vch ∈ stack ∨ vch.length ≤ maxScriptElementSize := by
  unfold StackOp.run at h
  split at h
  case h_7 x stack =>
    obtain rfl := Option.some.inj h
    split at hvch <;> simp_all
  case h_8 =>
    obtain rfl := Option.some.inj h
    rcases List.mem_cons.mp hvch with rfl | hvch
    · exact .inr (scriptNumSerialize_fits _)
    · exact .inl hvch
  case h_16 =>
    obtain rfl := Option.some.inj h
    rcases List.mem_cons.mp hvch with rfl | hvch
    · exact .inr (scriptNumSerialize_fits _)
    · exact .inl hvch
  case h_17 => cases h
  all_goals
    cases h
    try simp only [List.mem_cons] at hvch ⊢
    tauto

namespace ScriptState.Effect

theorem refl (s : ScriptState) : s.Effect s :=
  ⟨fun _ h ↦ .inl h, Nat.le_succ _, Nat.le_refl _, Nat.le_max_left _ _⟩

/-- Only the stack changes. -/
theorem of_stack {stack : List Bytes}
    (h : ∀ vch ∈ stack, vch ∈ s.stack ∨ vch.length ≤ maxScriptElementSize) :
    s.Effect { s with stack } := by
  refine ⟨fun vch hvch ↦ ?_, Nat.le_succ _, Nat.le_refl _, Nat.le_max_left _ _⟩
  rcases List.mem_append.mp hvch with hvch | hvch
  · exact (h vch hvch).imp_left (List.mem_append_left _)
  · exact .inl (List.mem_append_right _ hvch)

theorem of_suffix {stack : List Bytes} (h : stack <:+ s.stack) : s.Effect { s with stack } :=
  of_stack fun _ hx ↦ .inl (h.mem hx)

/-- A short value is pushed onto what is left of the stack. -/
theorem of_push {stack : List Bytes} {vch : Bytes} (hvch : vch.length ≤ maxScriptElementSize)
    (h : stack <:+ s.stack) : s.Effect { s with stack := vch :: stack } := by
  apply of_stack
  intro x hx
  rcases List.mem_cons.mp hx with rfl | hx
  · exact .inr hvch
  · exact .inl (h.mem hx)

theorem of_pushTest {stack : List Bytes} {fValue fVerify : Bool}
    (h : s.pushTest stack fValue fVerify = .ok s') (hstack : stack <:+ s.stack) : s.Effect s' := by
  cases fVerify with
  | false =>
    obtain rfl := Except.ok.inj h
    exact of_push (boolBytes_fits fValue) hstack
  | true =>
    obtain ⟨_, -, h⟩ := Eval.bind_eq_ok.mp h
    obtain rfl := Except.ok.inj h
    exact of_suffix hstack

end ScriptState.Effect

theorem altstack_count (s : ScriptState) (op : ScriptOp) : (s.count op).altstack = s.altstack := by
  unfold ScriptState.count
  split <;> rfl

/-- What `OP_CHECKMULTISIG` leaves of the stack and of the count. -/
theorem stack_multisigArgs {args : MultisigArgs} (h : s.multisigArgs = .ok args) :
    args.stack <:+ s.stack ∧ s.nOpCount ≤ args.nOpCount ∧ args.nOpCount ≤ 201 := by
  obtain ⟨top, -, h⟩ := Eval.bind_eq_ok.mp h
  obtain ⟨n, -, h⟩ := Eval.bind_eq_ok.mp h
  obtain ⟨_, -, h⟩ := Eval.bind_eq_ok.mp h
  obtain ⟨_, hcount, h⟩ := Eval.bind_eq_ok.mp h
  obtain ⟨_, _, h⟩ := Eval.bind_eq_ok.mp h
  obtain ⟨_, _, h⟩ := Eval.bind_eq_ok.mp h
  obtain ⟨_, _, h⟩ := Eval.bind_eq_ok.mp h
  obtain ⟨_, _, h⟩ := Eval.bind_eq_ok.mp h
  obtain rfl := Except.ok.inj h
  exact ⟨List.drop_suffix _ _, Nat.le_add_right _ _, of_decide_eq_true (Eval.check_eq_ok.mp hcount)⟩

/-- The effect of an opcode that succeeds. -/
theorem effect_of_execOp (hcrypto : env.crypto.Short) {fExec : Bool} {c : OpCase}
    (h : env.execOp flags pc fExec s c = .ok s') : s.Effect s' := by
  cases c with
  | disabled | opReturn | default => cases h
  | number n =>
    obtain rfl := Except.ok.inj h
    exact .of_push (scriptNumSerialize_fits n) (List.suffix_refl _)
  | nop =>
    obtain rfl := Except.ok.inj h
    exact .refl s
  | codeSeparator =>
    obtain rfl := Except.ok.inj h
    exact ⟨fun _ hx ↦ .inl hx, Nat.le_succ _, Nat.le_refl _, Nat.le_max_left _ _⟩
  | checkLockTimeVerify =>
    rw [ScriptEnv.execOp] at h
    split at h
    · obtain rfl := Except.ok.inj h
      exact .refl s
    · obtain ⟨_, -, h⟩ := Eval.bind_eq_ok.mp h
      obtain rfl := Except.ok.inj h
      exact .refl s
  | opIf fNot =>
    rw [ScriptEnv.execOp] at h
    split at h
    · split at h
      · cases h
      case h_2 vch stack hstack =>
        obtain rfl := Except.ok.inj h
        refine ⟨fun x hx ↦ .inl ?_, Nat.le_refl _, Nat.le_refl _, Nat.le_max_left _ _⟩
        rw [hstack]
        exact List.mem_cons_of_mem _ hx
    · obtain rfl := Except.ok.inj h
      exact ⟨fun _ hx ↦ .inl hx, Nat.le_refl _, Nat.le_refl _, Nat.le_max_left _ _⟩
  | opElse | opEndif =>
    rw [ScriptEnv.execOp] at h
    split at h
    · cases h
    case h_2 fValue vfExec hvfExec =>
      obtain rfl := Except.ok.inj h
      refine ⟨fun _ hx ↦ .inl hx, ?_, Nat.le_refl _, Nat.le_max_left _ _⟩
      rw [hvfExec, List.length_cons]
      first | exact Nat.le_succ _ | exact (Nat.le_succ _).trans (Nat.le_succ _)
  | verify =>
    rw [ScriptEnv.execOp] at h
    split at h
    · cases h
    case h_2 vch stack hstack =>
      obtain ⟨_, -, h⟩ := Eval.bind_eq_ok.mp h
      obtain rfl := Except.ok.inj h
      exact .of_suffix ⟨[vch], hstack.symm⟩
  | toAltStack =>
    rw [ScriptEnv.execOp] at h
    split at h
    · cases h
    case h_2 vch stack hstack =>
      obtain rfl := Except.ok.inj h
      refine ⟨fun x hx ↦ .inl ?_, Nat.le_succ _, Nat.le_refl _, Nat.le_max_left _ _⟩
      rw [hstack]
      simp only [List.mem_append, List.mem_cons] at hx ⊢
      tauto
  | fromAltStack =>
    rw [ScriptEnv.execOp] at h
    split at h
    · cases h
    case h_2 vch altstack haltstack =>
      obtain rfl := Except.ok.inj h
      refine ⟨fun x hx ↦ .inl ?_, Nat.le_succ _, Nat.le_refl _, Nat.le_max_left _ _⟩
      rw [haltstack]
      simp only [List.mem_append, List.mem_cons] at hx ⊢
      tauto
  | stack op =>
    obtain ⟨stack, hrun, h⟩ := Eval.bind_eq_ok.mp h
    obtain rfl := Except.ok.inj h
    cases hop : op.run s.stack with
    | none =>
      rw [hop] at hrun
      cases hrun
    | some stack' =>
      rw [hop] at hrun
      obtain rfl := Except.ok.inj hrun
      exact .of_stack fun x hx ↦ op.mem_of_run hop hx
  | pick fRoll =>
    rw [ScriptEnv.execOp] at h
    split at h
    case h_1 top vch rest hstack =>
      obtain ⟨n, -, h⟩ := Eval.bind_eq_ok.mp h
      obtain ⟨_, -, h⟩ := Eval.bind_eq_ok.mp h
      obtain ⟨x, hx, h⟩ := Eval.bind_eq_ok.mp h
      obtain rfl := Except.ok.inj h
      have hmem : x ∈ vch :: rest := by
        cases hget : (vch :: rest)[(getInt n).toNat]? with
        | none =>
          rw [hget] at hx
          cases hx
        | some y =>
          rw [hget] at hx
          obtain rfl := Except.ok.inj hx
          exact List.mem_of_getElem? hget
      apply ScriptState.Effect.of_stack
      intro y hy
      rw [hstack]
      refine .inl (List.mem_cons_of_mem _ ?_)
      rcases List.mem_cons.mp hy with rfl | hy
      · exact hmem
      · split at hy
        · exact List.mem_of_mem_eraseIdx hy
        · exact hy
    · cases h
  | equal fVerify =>
    rw [ScriptEnv.execOp] at h
    split at h
    case h_1 vch2 vch1 stack hstack =>
      exact .of_pushTest h ⟨[vch2, vch1], hstack.symm⟩
    · cases h
  | unary op =>
    rw [ScriptEnv.execOp] at h
    split at h
    case h_1 vch stack hstack =>
      obtain ⟨bn, -, h⟩ := Eval.bind_eq_ok.mp h
      obtain rfl := Except.ok.inj h
      exact .of_push (scriptNumSerialize_fits _) ⟨[vch], hstack.symm⟩
    · cases h
  | binary op fVerify =>
    rw [ScriptEnv.execOp] at h
    split at h
    case h_1 vch2 vch1 stack hstack =>
      have hsuffix : stack <:+ s.stack := ⟨[vch2, vch1], hstack.symm⟩
      obtain ⟨bn1, -, h⟩ := Eval.bind_eq_ok.mp h
      obtain ⟨bn2, -, h⟩ := Eval.bind_eq_ok.mp h
      dsimp only at h
      split at h
      · exact .of_pushTest h hsuffix
      · obtain rfl := Except.ok.inj h
        exact .of_push (scriptNumSerialize_fits _) hsuffix
    · cases h
  | within =>
    rw [ScriptEnv.execOp] at h
    split at h
    case h_1 vch3 vch2 vch1 stack hstack =>
      obtain ⟨bn1, -, h⟩ := Eval.bind_eq_ok.mp h
      obtain ⟨bn2, -, h⟩ := Eval.bind_eq_ok.mp h
      obtain ⟨bn3, -, h⟩ := Eval.bind_eq_ok.mp h
      exact .of_pushTest h ⟨[vch3, vch2, vch1], hstack.symm⟩
    · cases h
  | hash op =>
    rw [ScriptEnv.execOp] at h
    split at h
    case h_1 vch stack hstack =>
      obtain rfl := Except.ok.inj h
      exact .of_push ((hcrypto op vch).trans (by decide)) ⟨[vch], hstack.symm⟩
    · cases h
  | checkSig fVerify =>
    rw [ScriptEnv.execOp] at h
    split at h
    case h_1 vchPubKey vchSig stack hstack =>
      obtain ⟨fSuccess, -, h⟩ := Eval.bind_eq_ok.mp h
      exact .of_pushTest h ⟨[vchPubKey, vchSig], hstack.symm⟩
    · cases h
  | checkMultisig fVerify =>
    rw [ScriptEnv.execOp, checkMultisig_eq] at h
    obtain ⟨args, hargs, h⟩ := Eval.bind_eq_ok.mp h
    obtain ⟨fSuccess, -, h⟩ := Eval.bind_eq_ok.mp h
    obtain ⟨hstack, hle, hcount⟩ := stack_multisigArgs hargs
    have heffect : ({ s with nOpCount := args.nOpCount } : ScriptState).Effect s' :=
      .of_pushTest h hstack
    refine ⟨heffect.mem, heffect.vfExec_le, hle.trans heffect.le_count, ?_⟩
    exact heffect.count_le.trans (max_le (le_max_of_le_right hcount) (le_max_right _ _))

/-- The effect of an instruction that is not stopped by a limit. -/
theorem effect_of_dispatch (hcrypto : env.crypto.Short) (hdata : op.data.length ≤ maxScriptElementSize)
    (h : env.dispatch flags op rest s = .ok s') : s.Effect s' := by
  rw [ScriptEnv.dispatch] at h
  split at h
  · obtain rfl := Except.ok.inj h
    exact .of_push hdata (List.suffix_refl _)
  · split at h
    · exact effect_of_execOp hcrypto h
    · obtain rfl := Except.ok.inj h
      exact .refl s

/-- Only opcodes that are counted open a condition. -/
theorem vfExec_of_dispatch (hop : op.opcode ≤ op16) (h : env.dispatch flags op rest s = .ok s') :
    s'.vfExec = s.vfExec := by
  rw [ScriptEnv.dispatch] at h
  split at h
  · obtain rfl := Except.ok.inj h
    rfl
  case isFalse hnopush =>
    split at h
    case isTrue hcond =>
      have hif : ¬ opIf ≤ op.opcode := UInt8.not_le.mpr (UInt8.lt_of_le_of_lt hop (by decide))
      have hexec : s.vfExec.all id = true := by simpa [hif] using hcond
      rw [hexec, Bool.true_and, decide_eq_true_eq] at hnopush
      rcases opCase_push (UInt8.not_le.mp hnopush) hop with hcase | hcase
      · rw [hcase] at h
        obtain rfl := Except.ok.inj h
        rfl
      · rw [hcase] at h
        cases h
    · obtain rfl := Except.ok.inj h
      rfl

/-! ### Every state -/

/-- An instruction keeps the limits. -/
theorem ScriptState.Limited.execInstr (hcrypto : env.crypto.Short) (hs : s.Limited)
    (h : env.execInstr flags op rest s = .ok t) : t.Limited := by
  obtain ⟨_, hdata, h⟩ := Eval.bind_eq_ok.mp h
  obtain ⟨_, hops, h⟩ := Eval.bind_eq_ok.mp h
  obtain ⟨_, -, h⟩ := Eval.bind_eq_ok.mp h
  obtain ⟨t', hdispatch, h⟩ := Eval.bind_eq_ok.mp h
  obtain ⟨_, hdepth, h⟩ := Eval.bind_eq_ok.mp h
  obtain rfl := Except.ok.inj h
  have heffect := effect_of_dispatch hcrypto (of_decide_eq_true (Eval.check_eq_ok.mp hdata)) hdispatch
  have hops' : ¬ (op16 < op.opcode ∧ 201 < (s.count op).nOpCount) := by
    simpa [imp_iff_not_or] using Eval.check_eq_ok.mp hops
  refine ⟨fun vch hvch ↦ ?_, of_decide_eq_true (Eval.check_eq_ok.mp hdepth), ?_, ?_⟩
  · rcases heffect.mem vch hvch with hold | hsize
    · rw [stack_count, altstack_count] at hold
      exact hs.element vch hold
    · exact hsize
  · apply heffect.count_le.trans
    apply max_le _ le_rfl
    by_cases hop : op16 < op.opcode
    · exact Nat.le_of_not_lt fun hlt ↦ hops' ⟨hop, hlt⟩
    · rw [ScriptState.count, if_neg hop]
      exact hs.count
  · have hnesting := hs.nesting
    have hle := heffect.le_count
    by_cases hop : op16 < op.opcode
    · have hopened := heffect.vfExec_le
      rw [vfExec_count] at hopened
      rw [count_nOpCount s hop] at hle
      omega
    · rw [vfExec_of_dispatch (UInt8.not_lt.mp hop) hdispatch, vfExec_count]
      rw [ScriptState.count, if_neg hop] at hle
      exact hnesting.trans hle

/-- An evaluation starts within the limits when its stack is. -/
theorem limited_start {stack : List Bytes} (script : Bytes)
    (hstack : ∀ vch ∈ stack, vch.length ≤ maxScriptElementSize) (hdepth : stack.length ≤ 1000) :
    ({ stack, codeHash := script } : ScriptState).Limited := by
  refine ⟨fun vch hvch ↦ ?_, hdepth, Nat.zero_le _, Nat.le_refl _⟩
  rw [List.append_nil] at hvch
  exact hstack vch hvch

theorem ScriptEnv.Visits.limited (hcrypto : env.crypto.Short) {pc' : Bytes}
    (h : env.Visits flags pc s pc' s') (hs : s.Limited) : s'.Limited :=
  h.keeps (fun hs hexec ↦ hs.execInstr hcrypto hexec) hs

/-- What one evaluation leaves for the next is within the limits again. -/
theorem limited_of_evalScript (hcrypto : env.crypto.Short) {stack stack' : List Bytes} {script : Bytes}
    (h : env.evalScript flags stack script = .ok stack')
    (hstack : ∀ vch ∈ stack, vch.length ≤ maxScriptElementSize) (hdepth : stack.length ≤ 1000) :
    (∀ vch ∈ stack', vch.length ≤ maxScriptElementSize) ∧ stack'.length ≤ 1000 := by
  obtain ⟨_, -, h⟩ := Eval.bind_eq_ok.mp h
  obtain ⟨t, hloop, h⟩ := Eval.bind_eq_ok.mp h
  obtain ⟨_, -, h⟩ := Eval.bind_eq_ok.mp h
  obtain rfl := Except.ok.inj h
  have ht := (visits_of_evalLoop hloop).limited hcrypto (limited_start script hstack hdepth)
  have hsum := ht.depth
  exact ⟨fun vch hvch ↦ ht.element vch (List.mem_append_left _ hvch), by omega⟩

/-- For all scripts and flags, in every state that `VerifyScript` comes to the stacks hold at most a
thousand values of at most 520 bytes, at most 201 operations are counted, and no more conditions are
open than that. -/
theorem verifyScript_limited (hcrypto : env.crypto.Short) {scriptSig scriptPubKey : Bytes}
    (h : env.Reaches flags scriptSig scriptPubKey pc s) : s.Limited := by
  have hsig : ∀ {stackCopy : List Bytes}, env.evalScript flags [] scriptSig = .ok stackCopy →
      (∀ vch ∈ stackCopy, vch.length ≤ maxScriptElementSize) ∧ stackCopy.length ≤ 1000 :=
    fun heval ↦ limited_of_evalScript hcrypto heval (by simp) (by simp)
  cases h with
  | scriptSig _ hvisits => exact hvisits.limited hcrypto (limited_start _ (by simp) (by simp))
  | scriptPubKey heval _ hvisits =>
    obtain ⟨hstack, hdepth⟩ := hsig heval
    exact hvisits.limited hcrypto (limited_start _ hstack hdepth)
  | redeemScript heval _ _ _ _ _ _ hvisits =>
    obtain ⟨hstack, hdepth⟩ := hsig heval
    refine hvisits.limited hcrypto (limited_start _ ?_ (Nat.le_of_succ_le hdepth))
    exact fun vch hvch ↦ hstack vch (List.mem_cons_of_mem _ hvch)

/-- Digests of the lengths that the hash functions have. -/
def digestEnv : ScriptEnv :=
  let digest (n : Nat) (bs : Bytes) : Bytes := (bs ++ List.replicate n 0).take n
  { trustingEnv with
    crypto := ⟨digest 20, digest 20, digest 32, digest 20, digest 32, fun _ _ _ _ _ _ ↦ true⟩ }

theorem digestEnv_short : digestEnv.crypto.Short := by
  intro op bs
  cases op <;> exact (List.length_take_le _ _).trans (by decide)

/-- After a push, the output script opens a condition. -/
theorem verifyScript_limited_sample :
    ({ stack := [[7]], vfExec := [true], nOpCount := 1, codeHash := [0x51, 0x63, 0xa9, 0x68] } :
      ScriptState).Limited :=
  @verifyScript_limited digestEnv 0 [0xa9, 0x68] _ digestEnv_short [1, 7] [0x51, 0x63, 0xa9, 0x68]
    (.scriptPubKey rfl (by decide) (.next rfl rfl (.next rfl rfl (.here _ _))))

end Effect

end Bitmark
