import Bitmark.Primitives.Transaction

/-!
# Validation states and verdicts

`CValidationState` of `src/main.h:553` records why a block or transaction was refused. A
validation routine returns a verdict: it accepts with a result, refuses with the state it
leaves behind, or does not return (a failed assertion, an exception, a fault).
-/

namespace Bitmark

/-- `CValidationState::mode_state`. -/
inductive ModeState where
  | valid | invalid | error
deriving DecidableEq, Repr

/-- Reject codes, `src/main.h:75–82`. -/
def rejectInvalid : UInt8 := 0x10
def rejectObsolete : UInt8 := 0x11
def rejectNonstandard : UInt8 := 0x40
def rejectCheckpoint : UInt8 := 0x43

/-- `CValidationState`. -/
structure CValidationState where
  mode : ModeState := .valid
  nDoS : Int := 0
  strRejectReason : String := ""
  chRejectCode : UInt8 := 0
  corruptionPossible : Bool := false
deriving DecidableEq, Repr

namespace CValidationState

/-- `CValidationState::DoS`, `src/main.h:566`. -/
def doS (state : CValidationState) (level : Int) (chRejectCodeIn : UInt8 := 0)
    (strRejectReasonIn : String := "") (corruptionIn : Bool := false) : CValidationState :=
  let state :=
    { state with
      chRejectCode := chRejectCodeIn
      strRejectReason := strRejectReasonIn
      corruptionPossible := corruptionIn }
  if state.mode = .error then state
  else { state with nDoS := state.nDoS + level, mode := .invalid }

/-- `CValidationState::Invalid`. -/
def invalid (state : CValidationState) (chRejectCodeIn : UInt8 := 0)
    (strRejectReasonIn : String := "") : CValidationState :=
  state.doS 0 chRejectCodeIn strRejectReasonIn

/-- `CValidationState::Error`, and `Abort` without its call of `AbortNode`. -/
def error (state : CValidationState) (strRejectReasonIn : String := "") : CValidationState :=
  { state with
    strRejectReason := if state.mode = .valid then strRejectReasonIn else state.strRejectReason
    mode := .error }

/-- `CValidationState::IsValid`. -/
def isValid (state : CValidationState) : Bool := state.mode = .valid

/-- `CValidationState::IsInvalid`. -/
def isInvalid (state : CValidationState) : Bool := state.mode = .invalid

/-- `CValidationState::IsError`. -/
def isError (state : CValidationState) : Bool := state.mode = .error

/-- A state that is not in error becomes invalid, with the corruption flag of the call. -/
theorem isInvalid_doS {state : CValidationState} (h : state.mode ≠ .error) (level : Int)
    (code : UInt8) (reason : String) (corruption : Bool) :
    (state.doS level code reason corruption).isInvalid = true ∧
      (state.doS level code reason corruption).corruptionPossible = corruption := by
  simp [doS, h, isInvalid]

end CValidationState

/-! ### Verdicts -/

/-- The outcome of a validation routine. -/
inductive Verdict (α : Type) where
  | accept (a : α)
  | refuse (state : CValidationState)
  | abort
deriving DecidableEq, Repr

namespace Verdict

/-- Continue with the result of an accepting routine. -/
protected def bind {α β : Type} (v : Verdict α) (f : α → Verdict β) : Verdict β :=
  match v with
  | accept a => f a
  | refuse state => refuse state
  | abort => abort

instance : Monad Verdict where
  pure := accept
  bind := Verdict.bind

instance : LawfulMonad Verdict := .mk' (m := Verdict)
  (by intro α x; cases x <;> rfl) (by intro α β x f; rfl) (by intro α β γ x f g; cases x <;> rfl)

@[simp] theorem accept_bind {α β : Type} (a : α) (f : α → Verdict β) :
    (accept a >>= f) = f a := rfl

@[simp] theorem refuse_bind {α β : Type} (state : CValidationState) (f : α → Verdict β) :
    (refuse state >>= f) = refuse state := rfl

@[simp] theorem abort_bind {α β : Type} (f : α → Verdict β) :
    ((abort : Verdict α) >>= f) = abort := rfl

/-- The result of an accepting routine. -/
def result {α : Type} : Verdict α → Option α
  | accept a => some a
  | _ => none

theorem result_eq_some {α : Type} {v : Verdict α} {a : α} : v.result = some a ↔ v = accept a := by
  cases v <;> simp [result]

/-- A sequence accepts when each part does. -/
theorem bind_eq_accept {α β : Type} {v : Verdict α} {f : α → Verdict β} {b : β} :
    (v >>= f) = accept b ↔ ∃ a, v = accept a ∧ f a = accept b := by
  cases v <;> simp

/-- `if (!ok) return state.DoS(...)`. -/
def check (ok : Bool) (state : CValidationState) : Verdict Unit :=
  if ok then accept () else refuse state

@[simp] theorem check_eq_accept {ok : Bool} {state : CValidationState} {u : Unit} :
    check ok state = accept u ↔ ok = true := by
  cases ok <;> simp [check]

@[simp] theorem check_eq_refuse {ok : Bool} {state state' : CValidationState} :
    check ok state = refuse state' ↔ ok = false ∧ state = state' := by
  cases ok <;> simp [check]

/-- A check made only under a condition. -/
def onlyIf (c : Bool) (v : Verdict Unit) : Verdict Unit := if c then v else accept ()

theorem onlyIf_eq_accept {c : Bool} {v : Verdict Unit} {u : Unit} :
    onlyIf c v = accept u ↔ (c = true → v = accept u) := by
  cases c <;> simp [onlyIf]

/-- `assert(ok)`, or an operation that throws. -/
def require {α : Type} (x : Option α) : Verdict α :=
  match x with
  | some a => accept a
  | none => abort

@[simp] theorem require_eq_accept {α : Type} {x : Option α} {a : α} :
    require x = accept a ↔ x = some a := by
  cases x <;> simp [require]

@[simp] theorem require_ne_refuse {α : Type} {x : Option α} {state : CValidationState} :
    require x ≠ refuse state := by
  cases x <;> simp [require]

end Verdict

end Bitmark
