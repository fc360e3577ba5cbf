import Bitmark.Script.DerSignature
import Bitmark.Script.ScriptNum
import Bitmark.Script.StraightLine

/-!
# The course of an evaluation

The states in which the loop of `EvalScript` (`src/script.cpp:447`) fetches an instruction, and
those of the up to three evaluations of `VerifyScript` (`src/script.cpp:1813`). An evaluation that
ends early does so in one of its states.
-/

namespace Bitmark

/-- From `pc` and `s` the loop comes to `pc'` and `s'`. -/
inductive ScriptEnv.Visits (env : ScriptEnv) (flags : BitVec 32) :
    Bytes → ScriptState → Bytes → ScriptState → Prop
  | here (pc : Bytes) (s : ScriptState) : Visits env flags pc s pc s
  | next {pc rest pc' : Bytes} {op : ScriptOp} {s t s' : ScriptState}
    (hop : getOp pc = some (op, rest)) (hexec : env.execInstr flags op rest s = .ok t)
    (hvisits : Visits env flags rest t pc' s') : Visits env flags pc s pc' s'

/-- The evaluations of `VerifyScript`, each in a state it comes to. -/
inductive ScriptEnv.Reaches (env : ScriptEnv) (flags : BitVec 32) (scriptSig scriptPubKey : Bytes) :
    Bytes → ScriptState → Prop
  | scriptSig {pc : Bytes} {s : ScriptState} (hsize : scriptSig.length ≤ 10000)
    (hvisits : env.Visits flags scriptSig { stack := [], codeHash := scriptSig } pc s) :
    Reaches env flags scriptSig scriptPubKey pc s
  | scriptPubKey {stackCopy : List Bytes} {pc : Bytes} {s : ScriptState}
    (heval : env.evalScript flags [] scriptSig = .ok stackCopy) (hsize : scriptPubKey.length ≤ 10000)
    (hvisits : env.Visits flags scriptPubKey { stack := stackCopy, codeHash := scriptPubKey } pc s) :
    Reaches env flags scriptSig scriptPubKey pc s
  | redeemScript {pubKeySerialized : Bytes} {stackCopy stack : List Bytes} {pc : Bytes}
    {s : ScriptState} (heval : env.evalScript flags [] scriptSig = .ok (pubKeySerialized :: stackCopy))
    (hpubKey : env.evalScript flags (pubKeySerialized :: stackCopy) scriptPubKey = .ok stack)
    (htrue : endsInTrue stack = .ok ()) (hflag : flags &&& scriptVerifyP2SH ≠ 0)
    (hscript : isPayToScriptHash scriptPubKey = true) (hpush : isPushOnly scriptSig = true)
    (hsize : pubKeySerialized.length ≤ 10000)
    (hvisits : env.Visits flags pubKeySerialized { stack := stackCopy, codeHash := pubKeySerialized }
      pc s) :
    Reaches env flags scriptSig scriptPubKey pc s

section Visits

variable {env : ScriptEnv} {flags : BitVec 32} {pc rest pc' : Bytes} {op : ScriptOp}
  {s t s' : ScriptState}

/-- A property that each instruction keeps holds in every state of the evaluation. -/
theorem ScriptEnv.Visits.keeps {motive : ScriptState → Prop} (h : env.Visits flags pc s pc' s')
    (hexec : ∀ {op rest s t}, motive s → env.execInstr flags op rest s = .ok t → motive t)
    (hs : motive s) : motive s' := by
  induction h with
  | here => exact hs
  | next _ hstep _ ih => exact ih (hexec hs hstep)

/-- The loop ends well where all of the script was fetched. -/
theorem visits_of_evalLoop {fuel : Nat} (h : env.evalLoop flags fuel pc s = .ok s') :
    env.Visits flags pc s [] s' := by
  induction fuel generalizing pc s with
  | zero =>
    obtain ⟨_, hempty, h⟩ := Eval.bind_eq_ok.mp h
    obtain rfl := List.isEmpty_iff.mp (Eval.check_eq_ok.mp hempty)
    obtain rfl := Except.ok.inj h
    exact .here [] s
  | succ fuel ih =>
    rw [ScriptEnv.evalLoop] at h
    split at h
    case isTrue hempty =>
      obtain rfl := List.isEmpty_iff.mp hempty
      obtain rfl := Except.ok.inj h
      exact .here [] s
    case isFalse =>
      obtain ⟨⟨op, rest⟩, hop, h⟩ := Eval.bind_eq_ok.mp h
      obtain ⟨t, hexec, h⟩ := Eval.bind_eq_ok.mp h
      cases hget : getOp pc with
      | none =>
        rw [hget] at hop
        cases hop
      | some p =>
        rw [hget] at hop
        obtain rfl := Except.ok.inj hop
        exact .next hget hexec (ih h)

/-- Where the loop ends well, every instruction it came to was executed. -/
theorem ScriptEnv.Visits.execInstr_ok {fuel : Nat} (h : env.Visits flags pc s pc' s')
    (hloop : env.evalLoop flags fuel pc s = .ok t) (hop : getOp pc' = some (op, rest)) :
    ∃ t', env.execInstr flags op rest s' = .ok t' := by
  induction h generalizing fuel with
  | here pc s =>
    cases fuel with
    | zero =>
      obtain ⟨_, hempty, -⟩ := Eval.bind_eq_ok.mp hloop
      obtain rfl := List.isEmpty_iff.mp (Eval.check_eq_ok.mp hempty)
      cases hop
    | succ fuel =>
      rw [evalLoop_cons hop] at hloop
      obtain ⟨t', hexec, -⟩ := Eval.bind_eq_ok.mp hloop
      exact ⟨t', hexec⟩
  | next hop' hexec _ ih =>
    cases fuel with
    | zero =>
      obtain ⟨_, hempty, -⟩ := Eval.bind_eq_ok.mp hloop
      obtain rfl := List.isEmpty_iff.mp (Eval.check_eq_ok.mp hempty)
      cases hop'
    | succ fuel =>
      rw [evalLoop_next hop' hexec] at hloop
      exact ih hloop hop

/-- What ends the evaluation in this state: an instruction that does not parse, or one that fails. -/
def ScriptEnv.StopsAt (env : ScriptEnv) (flags : BitVec 32) (pc : Bytes) (s : ScriptState)
    (e : ScriptStop) : Prop :=
  (pc ≠ [] ∧ getOp pc = none ∧ e = .fail) ∨
    ∃ op rest, getOp pc = some (op, rest) ∧ env.execInstr flags op rest s = .error e

/-- Some state of the evaluation ends it. -/
def ScriptEnv.Stops (env : ScriptEnv) (flags : BitVec 32) (pc : Bytes) (s : ScriptState)
    (e : ScriptStop) : Prop :=
  ∃ pc' s', env.Visits flags pc s pc' s' ∧ env.StopsAt flags pc' s' e

theorem stopsAt_of_getOp (hop : getOp pc = some (op, rest)) {e : ScriptStop} :
    env.StopsAt flags pc s e ↔ env.execInstr flags op rest s = .error e := by
  constructor
  · rintro (⟨-, hnone, -⟩ | ⟨op', rest', hop', hstop⟩)
    · rw [hop] at hnone
      cases hnone
    · obtain ⟨rfl, rfl⟩ := Prod.mk.inj (Option.some.inj (hop.symm.trans hop'))
      exact hstop
  · intro h
    exact .inr ⟨op, rest, hop, h⟩

/-- The first state ends the evaluation, or the rest of the evaluation ends. -/
theorem stops_of_getOp (hop : getOp pc = some (op, rest)) {e : ScriptStop} :
    env.Stops flags pc s e ↔ env.execInstr flags op rest s = .error e ∨
      ∃ t, env.execInstr flags op rest s = .ok t ∧ env.Stops flags rest t e := by
  constructor
  · rintro ⟨pc', s', hvisits, hstops⟩
    cases hvisits with
    | here => exact .inl ((stopsAt_of_getOp hop).mp hstops)
    | next hop' hexec hvisits =>
      obtain ⟨rfl, rfl⟩ := Prod.mk.inj (Option.some.inj (hop.symm.trans hop'))
      exact .inr ⟨_, hexec, pc', s', hvisits, hstops⟩
  · rintro (hstop | ⟨t, hexec, pc', s', hvisits, hstops⟩)
    · exact ⟨pc, s, .here pc s, (stopsAt_of_getOp hop).mpr hstop⟩
    · exact ⟨pc', s', .next hop hexec hvisits, hstops⟩

/-- What does not parse ends the evaluation, unless it is empty. -/
theorem stops_of_getOp_eq_none (hop : getOp pc = none) {e : ScriptStop} :
    env.Stops flags pc s e ↔ pc ≠ [] ∧ e = .fail := by
  constructor
  · rintro ⟨pc', s', hvisits, hstops⟩
    cases hvisits with
    | here =>
      rcases hstops with ⟨hne, -, he⟩ | ⟨op, rest, hop', -⟩
      · exact ⟨hne, he⟩
      · rw [hop] at hop'
        cases hop'
    | next hop' =>
      rw [hop] at hop'
      cases hop'
  · rintro ⟨hne, he⟩
    exact ⟨pc, s, .here pc s, .inl ⟨hne, hop, he⟩⟩

/-- The loop ends early exactly where one of its states does. -/
theorem evalLoop_eq_error_iff {fuel : Nat} {e : ScriptStop} (hfuel : pc.length ≤ fuel) :
    env.evalLoop flags fuel pc s = .error e ↔ env.Stops flags pc s e := by
  induction fuel generalizing pc s with
  | zero =>
    obtain rfl := List.eq_nil_of_length_eq_zero (Nat.le_zero.mp hfuel)
    rw [stops_of_getOp_eq_none rfl, evalLoop_nil]
    simp
  | succ fuel ih =>
    cases hop : getOp pc with
    | none =>
      rw [stops_of_getOp_eq_none hop, ScriptEnv.evalLoop]
      cases pc with
      | nil => simp [pure, Except.pure]
      | cons b pc =>
        rw [List.isEmpty_cons, if_neg Bool.false_ne_true, hop]
        simp [Eval.get, eq_comm, bind, Except.bind]
    | some p =>
      obtain ⟨op, rest⟩ := p
      have hlt := getOp_length_lt hop
      rw [evalLoop_cons hop, stops_of_getOp hop]
      cases hexec : env.execInstr flags op rest s with
      | error e' => simp [bind, Except.bind]
      | ok t => simp [@ih rest t (by omega)]

end Visits

end Bitmark
