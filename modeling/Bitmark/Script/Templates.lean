import Mathlib.Data.List.TakeWhile
import Bitmark.Script.SignatureHash
import Bitmark.Script.Standard

/-!
# What fits a template

A script that `Solver` gives a type is the instruction list of its template with the pushes it
extracts.
-/

namespace Bitmark

/-! ### Parsed scripts -/

theorem getOps_eq_nil {pc : Bytes} (h : getOps pc = ([], true)) : pc = [] := by
  rcases eq_nil_or_getOp (congrArg Prod.snd h) with rfl | ⟨op, rest, hop⟩
  · rfl
  · rw [getOps_cons hop] at h
    cases h

theorem getOps_eq_cons {pc : Bytes} {op : ScriptOp} {ops : List ScriptOp}
    (h : getOps pc = (op :: ops, true)) :
    ∃ rest, getOp pc = some (op, rest) ∧ getOps rest = (ops, true) := by
  rcases eq_nil_or_getOp (congrArg Prod.snd h) with rfl | ⟨op', rest, hop⟩
  · cases h
  · rw [getOps_cons hop] at h
    obtain ⟨hops, hcomplete⟩ := Prod.mk.inj h
    obtain ⟨rfl, htail⟩ := List.cons.inj hops
    exact ⟨rest, hop, Prod.ext htail hcomplete⟩

/-- Only a push has data. -/
theorem getOp_data {pc rest : Bytes} {op : ScriptOp} (h : getOp pc = some (op, rest)) :
    op.opcode ≤ opPushdata4 ∨ op.data = [] := by
  cases pc with
  | nil => cases h
  | cons opcode pc =>
    rw [getOp] at h
    split at h
    case isTrue hpush =>
      left
      obtain ⟨⟨nSize, pc'⟩, -, h⟩ := Option.bind_eq_some_iff.mp h
      dsimp only at h
      split at h
      · cases h
      · obtain ⟨rfl, -⟩ := Prod.mk.inj (Option.some.inj h)
        exact hpush
    case isFalse =>
      right
      obtain ⟨rfl, -⟩ := Prod.mk.inj (Option.some.inj h)
      rfl

theorem data_of_mem_getOps {ops : List ScriptOp} {pc : Bytes} (h : getOps pc = (ops, true)) :
    ∀ op ∈ ops, op.opcode ≤ opPushdata4 ∨ op.data = [] := by
  induction ops generalizing pc with
  | nil =>
    intro op hop
    cases hop
  | cons op ops ih =>
    obtain ⟨rest, hop, hrest⟩ := getOps_eq_cons h
    intro op' hop'
    cases List.mem_cons.mp hop' with
    | inl heq =>
      rw [heq]
      exact getOp_data hop
    | inr hmem => exact ih hrest op' hmem

/-! ### One opcode of a template -/

variable {op : ScriptOp} {vs : List Bytes}

theorem matchOpcode_pubkey :
    matchOpcode opPubkey op = some vs ↔ isPubkeySize op.data = true ∧ vs = [op.data] := by
  rw [matchOpcode, if_pos rfl, Option.ite_none_right_eq_some, Option.some.injEq, eq_comm (a := vs)]

theorem matchOpcode_pubkeyhash :
    matchOpcode opPubkeyhash op = some vs ↔ op.data.length = 20 ∧ vs = [op.data] := by
  rw [matchOpcode, if_neg (by decide), if_pos rfl, Option.ite_none_right_eq_some, Option.some.injEq,
    eq_comm (a := vs)]

/-- A number of a template, with the opcode `OP_0` or `OP_1` to `OP_16`. -/
theorem matchOpcode_smallinteger (h : matchOpcode opSmallinteger op = some vs) :
    (op.opcode = 0 ∧ vs = [[0]]) ∨
      (op1 ≤ op.opcode ∧ op.opcode ≤ op16 ∧ vs = [[UInt8.ofNat (decodeOpN op.opcode)]]) := by
  rw [matchOpcode, if_neg (by decide), if_neg (by decide), if_pos rfl] at h
  split at h
  case isTrue hzero => exact .inl ⟨hzero, (Option.some.inj h).symm⟩
  case isFalse =>
    obtain ⟨⟨hlo, hhi⟩, h⟩ := Option.ite_none_right_eq_some.mp h
    exact .inr ⟨hlo, hhi, (Option.some.inj h).symm⟩

/-- The other opcodes of a template are matched by themselves. -/
theorem matchOpcode_literal {opcode2 : UInt8} (hlt : opcode2 < opSmalldata) :
    matchOpcode opcode2 op = some vs ↔ op = ⟨opcode2, []⟩ ∧ vs = [] := by
  have hne : ∀ c, opSmalldata ≤ c → opcode2 ≠ c := fun c hc heq ↦
    absurd hlt (UInt8.not_lt.mpr (heq ▸ hc))
  rw [matchOpcode, if_neg (hne _ (by decide)), if_neg (hne _ (by decide)),
    if_neg (hne _ (by decide)), if_neg (hne _ (by decide)), Option.ite_none_right_eq_some,
    Option.some.injEq, eq_comm (a := vs)]
  cases op
  rw [ScriptOp.mk.injEq]

/-! ### A template -/

variable {complete : Bool} {template : List UInt8} {ops : List ScriptOp}

theorem matchTemplate_nil (h : matchTemplate complete [] ops = some vs) :
    ops = [] ∧ complete = true ∧ vs = [] := by
  cases ops with
  | nil =>
    obtain ⟨hcomplete, h⟩ := Option.ite_none_right_eq_some.mp h
    exact ⟨rfl, hcomplete, (Option.some.inj h).symm⟩
  | cons op ops => cases h

/-- A template opcode that stands for one instruction. -/
theorem matchTemplate_cons {opcode2 : UInt8} (hne : opcode2 ≠ opPubkeys)
    (h : matchTemplate complete (opcode2 :: template) ops = some vs) :
    ∃ op ops' solution solutions, ops = op :: ops' ∧ matchOpcode opcode2 op = some solution ∧
      matchTemplate complete template ops' = some solutions ∧ vs = solution ++ solutions := by
  cases ops with
  | nil => cases h
  | cons op ops =>
    rw [matchTemplate, if_neg hne] at h
    obtain ⟨solution, hsolution, h⟩ := Option.bind_eq_some_iff.mp h
    obtain ⟨solutions, hsolutions, h⟩ := Option.bind_eq_some_iff.mp h
    exact ⟨op, ops, solution, solutions, rfl, hsolution, hsolutions, (Option.some.inj h).symm⟩

/-- `OP_PUBKEYS` stands for keys, and the template opcode behind it for the next instruction. -/
theorem matchTemplate_pubkeys {opcode2 : UInt8}
    (h : matchTemplate complete (opPubkeys :: opcode2 :: template) ops = some vs) :
    ∃ keys op ops' solution solutions, ops = keys ++ op :: ops' ∧
      (∀ key ∈ keys, isPubkeySize key.data = true) ∧ matchOpcode opcode2 op = some solution ∧
      matchTemplate complete template ops' = some solutions ∧
      vs = keys.map (·.data) ++ solution ++ solutions := by
  cases ops with
  | nil => cases h
  | cons op ops =>
    rw [matchTemplate, if_pos rfl] at h
    dsimp only at h
    cases hdrop : (op :: ops).dropWhile fun op ↦ isPubkeySize op.data with
    | nil =>
      rw [hdrop] at h
      cases h
    | cons op' ops' =>
      rw [hdrop] at h
      obtain ⟨solution, hsolution, h⟩ := Option.bind_eq_some_iff.mp h
      obtain ⟨solutions, hsolutions, h⟩ := Option.bind_eq_some_iff.mp h
      refine ⟨(op :: ops).takeWhile fun op ↦ isPubkeySize op.data, op', ops', solution, solutions,
        ?_, ?_, hsolution, hsolutions, (Option.some.inj h).symm⟩
      · rw [← hdrop, List.takeWhile_append_dropWhile]
      · intro key hkey
        have hsize := List.mem_takeWhile_imp hkey
        exact hsize

/-! ### The scan -/

theorem scanTemplates_eq_some {templates : List (TxnOutType × List UInt8)} {type : TxnOutType}
    (h : scanTemplates ops complete templates = some (type, vs)) :
    ∃ template, (type, template) ∈ templates ∧ matchTemplate complete template ops = some vs ∧
      (type = .multisig → multisigChecks vs = true) := by
  induction templates with
  | nil => cases h
  | cons entry templates ih =>
    obtain ⟨type', template⟩ := entry
    rw [scanTemplates] at h
    cases hmatch : matchTemplate complete template ops with
    | none =>
      rw [hmatch] at h
      obtain ⟨template', hmem, hrest⟩ := ih h
      exact ⟨template', List.mem_cons_of_mem _ hmem, hrest⟩
    | some vSolutions =>
      rw [hmatch] at h
      dsimp only at h
      split at h
      · cases h
      case isFalse hchecks =>
        obtain ⟨rfl, rfl⟩ := Prod.mk.inj (Option.some.inj h)
        refine ⟨template, List.mem_cons_self, hmatch, ?_⟩
        rintro rfl
        simpa using hchecks

variable {script : Bytes} {type : TxnOutType}

theorem solver_scripthash (h : solver script = some (.scripthash, vs)) :
    isPayToScriptHash script = true ∧ vs = [(script.drop 2).take 20] := by
  rw [solver] at h
  split at h
  case isTrue hp2sh => exact ⟨hp2sh, (Prod.mk.inj (Option.some.inj h)).2.symm⟩
  case isFalse =>
    obtain ⟨template, hmem, -⟩ := scanTemplates_eq_some h
    simp [mTemplates] at hmem

/-- A type other than pay-to-script-hash comes from a template. -/
theorem solver_template (hne : type ≠ .scripthash) (h : solver script = some (type, vs)) :
    isPayToScriptHash script = false ∧ ∃ template, (type, template) ∈ mTemplates ∧
      matchTemplate (getOps script).2 template (getOps script).1 = some vs ∧
      (type = .multisig → multisigChecks vs = true) := by
  rw [solver] at h
  split at h
  case isTrue => exact absurd (Prod.mk.inj (Option.some.inj h)).1.symm hne
  case isFalse hp2sh => exact ⟨Bool.eq_false_iff.mpr hp2sh, scanTemplates_eq_some h⟩

theorem solver_pubkey (h : solver script = some (.pubkey, vs)) :
    ∃ push, getOps script = ([push, ⟨opChecksig, []⟩], true) ∧ isPubkeySize push.data = true ∧
      vs = [push.data] := by
  obtain ⟨-, template, hmem, hmatch, -⟩ := solver_template (by decide) h
  obtain rfl : template = [opPubkey, opChecksig] := by simpa [mTemplates] using hmem
  obtain ⟨push, ops₁, vs₁, rest₁, hops, hpush, h₁, rfl⟩ := matchTemplate_cons (by decide) hmatch
  obtain ⟨op, ops₂, vs₂, rest₂, rfl, hop, h₂, rfl⟩ := matchTemplate_cons (by decide) h₁
  obtain ⟨rfl, hcomplete, rfl⟩ := matchTemplate_nil h₂
  obtain ⟨hsize, rfl⟩ := matchOpcode_pubkey.mp hpush
  obtain ⟨rfl, rfl⟩ := (matchOpcode_literal (by decide)).mp hop
  exact ⟨push, Prod.ext hops hcomplete, hsize, rfl⟩

theorem solver_pubkeyhash (h : solver script = some (.pubkeyhash, vs)) :
    ∃ push, getOps script = ([⟨opDup, []⟩, ⟨opHash160, []⟩, push, ⟨opEqualverify, []⟩,
      ⟨opChecksig, []⟩], true) ∧ push.data.length = 20 ∧ vs = [push.data] := by
  obtain ⟨-, template, hmem, hmatch, -⟩ := solver_template (by decide) h
  obtain rfl : template = [opDup, opHash160, opPubkeyhash, opEqualverify, opChecksig] := by
    simpa [mTemplates] using hmem
  obtain ⟨dup, ops₁, vs₁, rest₁, hops, hdup, h₁, rfl⟩ := matchTemplate_cons (by decide) hmatch
  obtain ⟨hash, ops₂, vs₂, rest₂, rfl, hhash, h₂, rfl⟩ := matchTemplate_cons (by decide) h₁
  obtain ⟨push, ops₃, vs₃, rest₃, rfl, hpush, h₃, rfl⟩ := matchTemplate_cons (by decide) h₂
  obtain ⟨equal, ops₄, vs₄, rest₄, rfl, hequal, h₄, rfl⟩ := matchTemplate_cons (by decide) h₃
  obtain ⟨op, ops₅, vs₅, rest₅, rfl, hop, h₅, rfl⟩ := matchTemplate_cons (by decide) h₄
  obtain ⟨rfl, hcomplete, rfl⟩ := matchTemplate_nil h₅
  obtain ⟨rfl, rfl⟩ := (matchOpcode_literal (by decide)).mp hdup
  obtain ⟨rfl, rfl⟩ := (matchOpcode_literal (by decide)).mp hhash
  obtain ⟨hsize, rfl⟩ := matchOpcode_pubkeyhash.mp hpush
  obtain ⟨rfl, rfl⟩ := (matchOpcode_literal (by decide)).mp hequal
  obtain ⟨rfl, rfl⟩ := (matchOpcode_literal (by decide)).mp hop
  exact ⟨push, Prod.ext hops hcomplete, hsize, rfl⟩

theorem multisigChecks_eq_true {m n : UInt8} {keys : List Bytes} :
    multisigChecks ([m] :: (keys ++ [[n]])) = true ↔
      1 ≤ m.toNat ∧ 1 ≤ n.toNat ∧ m.toNat ≤ n.toNat ∧ keys.length = n.toNat := by
  have hlast : ([m] :: (keys ++ [[n]])).getLast? = some [n] := by
    rw [← List.cons_append, List.getLast?_concat]
  have hlength : ([m] :: (keys ++ [[n]])).length - 2 = keys.length := by simp
  rw [multisigChecks, hlast, hlength]
  simp [and_assoc]

/-- Of a multisignature script: `m` and `n` are opcodes of the numbers 1 to 16, in this order, and
`n` is the number of keys. -/
theorem solver_multisig (h : solver script = some (.multisig, vs)) :
    ∃ m keys n, getOps script = (⟨m, []⟩ :: (keys ++ [⟨n, []⟩, ⟨opCheckmultisig, []⟩]), true) ∧
      (∀ key ∈ keys, isPubkeySize key.data = true) ∧ (op1 ≤ m ∧ m ≤ op16) ∧ (op1 ≤ n ∧ n ≤ op16) ∧
      decodeOpN m ≤ decodeOpN n ∧ decodeOpN n = keys.length ∧
      vs = [UInt8.ofNat (decodeOpN m)] :: (keys.map (·.data) ++ [[UInt8.ofNat (decodeOpN n)]]) := by
  obtain ⟨-, template, hmem, hmatch, hchecks⟩ := solver_template (by decide) h
  obtain rfl : template = [opSmallinteger, opPubkeys, opSmallinteger, opCheckmultisig] := by
    simpa [mTemplates] using hmem
  obtain ⟨m, ops₁, vs₁, rest₁, hops, hm, h₁, rfl⟩ := matchTemplate_cons (by decide) hmatch
  obtain ⟨keys, n, ops₂, vs₂, rest₂, rfl, hkeys, hn, h₂, rfl⟩ := matchTemplate_pubkeys h₁
  obtain ⟨op, ops₃, vs₃, rest₃, rfl, hop, h₃, rfl⟩ := matchTemplate_cons (by decide) h₂
  obtain ⟨rfl, hcomplete, rfl⟩ := matchTemplate_nil h₃
  obtain ⟨rfl, rfl⟩ := (matchOpcode_literal (by decide)).mp hop
  have hparse : getOps script = (m :: (keys ++ [n, ⟨opCheckmultisig, []⟩]), true) :=
    Prod.ext hops hcomplete
  have hdata := data_of_mem_getOps hparse
  have hlt : ∀ opcode : UInt8, opcode ≤ op16 → decodeOpN opcode < 256 := fun opcode hle ↦
    Nat.lt_of_le_of_lt (Nat.sub_le _ _) opcode.toNat_lt
  have hvalue : ∀ op : ScriptOp, op1 ≤ op.opcode → (op.opcode ≤ opPushdata4 ∨ op.data = []) →
      op = ⟨op.opcode, []⟩ := by
    rintro ⟨opcode, data⟩ hlo (hle | hnil)
    · exact absurd (UInt8.le_trans hlo hle) (by decide)
    · exact congrArg (ScriptOp.mk opcode) hnil
  have hchecks := hchecks rfl
  rcases matchOpcode_smallinteger hm with ⟨-, rfl⟩ | ⟨hmlo, hmhi, rfl⟩
  · rcases matchOpcode_smallinteger hn with ⟨-, rfl⟩ | ⟨-, -, rfl⟩ <;>
      simp [multisigChecks_eq_true] at hchecks
  rcases matchOpcode_smallinteger hn with ⟨-, rfl⟩ | ⟨hnlo, hnhi, rfl⟩
  · simp [multisigChecks_eq_true] at hchecks
  rw [hvalue m hmlo (hdata m (by simp)), hvalue n hnlo (hdata n (by simp))] at hparse
  have hvs : [UInt8.ofNat (decodeOpN m.opcode)] :: (keys.map (·.data) ++
      [[UInt8.ofNat (decodeOpN n.opcode)]]) = [[UInt8.ofNat (decodeOpN m.opcode)]] ++
        (keys.map (·.data) ++ [[UInt8.ofNat (decodeOpN n.opcode)]] ++ ([] ++ [])) := by simp
  rw [← hvs, multisigChecks_eq_true, UInt8.toNat_ofNat_of_lt' (hlt _ hmhi),
    UInt8.toNat_ofNat_of_lt' (hlt _ hnhi), List.length_map] at hchecks
  obtain ⟨-, -, hle, hlength⟩ := hchecks
  exact ⟨m.opcode, keys, n.opcode, hparse, hkeys, ⟨hmlo, hmhi⟩, ⟨hnlo, hnhi⟩, hle, hlength.symm,
    hvs.symm⟩

end Bitmark
