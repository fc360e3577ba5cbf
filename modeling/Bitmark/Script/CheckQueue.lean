import Bitmark.Lib.Parties
import Mathlib.Algebra.Order.BigOperators.Group.Finset
import Mathlib.Data.Fintype.Option

/-!
# The queue of script checks

`CCheckQueue`: the master pushes checks onto a stack, workers take batches of them, and the master
joins the workers until everything is done. A thread touches the queue only in the critical section
of `Loop`, where it cleans up after its last batch and takes the next one; it runs the checks of its
batch outside the lock. A state is the queue with the place every thread is at.
-/

namespace Bitmark

/-- The queue, top of the stack first. `nTodo` is the code's `unsigned int` without its bound: it
never exceeds the number of checks added since the last `Wait`. -/
structure CCheckQueue (τ : Type*) where
  queue : List τ
  nIdle : Int
  nTotal : Int
  fAllOk : Bool
  nTodo : Nat
  fQuit : Bool
  nBatchSize : Nat

/-- Where a thread is: not in `Loop`, blocked on its condition variable, or with a batch of `nNow`
checks of which `vChecks` are left. -/
inductive Phase (τ : Type*) where
  | outside
  | waiting (notified : Bool)
  | working (vChecks : List τ) (nNow : Nat) (fOk : Bool)

namespace Phase

variable {τ : Type*}

/-- In the critical section, past the clean-up. -/
def cleanedUp : Phase τ := working [] 0 true

def nNow : Phase τ → Nat
  | working _ nNow _ => nNow
  | _ => 0

def remaining : Phase τ → Multiset τ
  | working vChecks _ _ => vChecks
  | _ => 0

def idle : Phase τ → Int
  | waiting _ => 1
  | _ => 0

def total : Phase τ → Int
  | outside => 0
  | _ => 1

/-- The thread has observed a failure. -/
def Failed : Phase τ → Prop
  | working _ _ fOk => fOk = false
  | _ => False

theorem not_failed_cleanedUp : ¬ (cleanedUp : Phase τ).Failed := nofun

/-- A batch is never empty when it is taken. -/
def Busy : Phase τ → Prop
  | working _ nNow _ => 0 < nNow
  | _ => True

def notify : Phase τ → Phase τ
  | waiting _ => waiting true
  | p => p

section Notify

variable (p : Phase τ)

@[simp]
theorem nNow_notify : p.notify.nNow = p.nNow := by cases p <;> rfl

@[simp]
theorem remaining_notify : p.notify.remaining = p.remaining := by cases p <;> rfl

@[simp]
theorem idle_notify : p.notify.idle = p.idle := by cases p <;> rfl

@[simp]
theorem total_notify : p.notify.total = p.total := by cases p <;> rfl

@[simp]
theorem failed_notify : p.notify.Failed ↔ p.Failed := by cases p <;> rfl

@[simp]
theorem busy_notify : p.notify.Busy ↔ p.Busy := by cases p <;> rfl

@[simp]
theorem notify_eq_outside_iff : p.notify = .outside ↔ p = .outside := by cases p <;> simp [notify]

theorem notify_ne_waiting_false : p.notify ≠ .waiting false := by cases p <;> simp [notify]

variable {p}

theorem waiting_of_notify {b : Bool} (h : p.notify = .waiting b) : ∃ b', p = .waiting b' := by
  cases p with
  | waiting b' => exact ⟨b', rfl⟩
  | outside | working => cases h

end Notify

theorem working_of_remaining_ne {p : Phase τ} (h : p.remaining ≠ 0) :
    ∃ c vChecks nNow fOk, p = .working (c :: vChecks) nNow fOk := by
  match p with
  | working (c :: vChecks) nNow fOk => exact ⟨c, vChecks, nNow, fOk, rfl⟩
  | working [] _ _ | outside | waiting _ => exact absurd rfl h

end Phase

/-- The ways out of the `while` of `Loop`. -/
inductive LoopExit (τ : Type*) where
  | ret (fRet : Bool)
  | wait
  | batch (vChecks : List τ) (nNow : Nat) (fOk : Bool)

namespace CCheckQueue

variable {τ : Type*}

def new (nBatchSizeIn : Nat) : CCheckQueue τ :=
  { queue := [], nIdle := 0, nTotal := 0, fAllOk := true, nTodo := 0, fQuit := false,
    nBatchSize := nBatchSizeIn }

/-- `CCheckQueueControl` asserts this of the queue it is given. -/
def Unused (q : CCheckQueue τ) : Prop :=
  q.nTotal = q.nIdle ∧ q.nTodo = 0 ∧ q.fAllOk = true

def add (q : CCheckQueue τ) (vChecks : List τ) : CCheckQueue τ :=
  { q with queue := vChecks.reverse ++ q.queue, nTodo := q.nTodo + vChecks.length }

/-- The clean-up of the previous loop run; on the first iteration the thread is counted. -/
def cleanUp (q : CCheckQueue τ) (nNow : Nat) (fOk : Bool) : CCheckQueue τ :=
  if nNow ≠ 0 then { q with fAllOk := q.fAllOk && fOk, nTodo := q.nTodo - nNow }
  else { q with nTotal := q.nTotal + 1 }

/-- How many work units to process now. -/
def batchSize (q : CCheckQueue τ) : Nat :=
  max 1 (min q.nBatchSize (q.queue.length / (q.nTotal + q.nIdle + 1).toNat))

theorem batchSize_pos (q : CCheckQueue τ) : 0 < q.batchSize := by
  rw [batchSize]
  omega

theorem batchSize_le (q : CCheckQueue τ) (h : q.queue ≠ []) : q.batchSize ≤ q.queue.length := by
  have hpos := List.length_pos_iff.mpr h
  have hdiv := Nat.div_le_self q.queue.length (q.nTotal + q.nIdle + 1).toNat
  rw [batchSize]
  omega

/-- The `while` of `Loop` up to the next `wait`, and the taking of a batch behind it. -/
def loopWhile (q : CCheckQueue τ) (fMaster : Bool) : CCheckQueue τ × LoopExit τ :=
  if q.queue = [] then
    if (fMaster || q.fQuit) && q.nTodo == 0 then
      ({ q with nTotal := q.nTotal - 1, fAllOk := if fMaster then true else q.fAllOk },
        .ret q.fAllOk)
    else ({ q with nIdle := q.nIdle + 1 }, .wait)
  else
    let nNow := q.batchSize
    ({ q with queue := q.queue.drop nNow }, .batch (q.queue.take nNow) nNow q.fAllOk)

/-- What happens in a round of checks, that is between two returns of `Wait`. -/
inductive Event (τ ω : Type*) where
  | add (vChecks : List τ)
  | take (t : Option ω) (vChecks : List τ)
  | eval (t : Option ω) (c : τ) (ok : Bool)
  | skip (t : Option ω) (c : τ)
  | ret (fRet : Bool)

namespace Event

variable {ω : Type*}

def added : Event τ ω → Multiset τ
  | add vChecks => vChecks
  | _ => 0

def taken : Event τ ω → Multiset τ
  | take _ vChecks => vChecks
  | _ => 0

def processed : Event τ ω → Multiset τ
  | eval _ c _ => {c}
  | skip _ c => {c}
  | _ => 0

end Event

/-- The queue and its threads, of which `none` is the master. -/
structure State (τ ω : Type*) where
  q : CCheckQueue τ
  phase : Option ω → Phase τ

section Turns

variable {ω : Type*} [DecidableEq ω]

def State.start (nBatchSize : Nat) : State τ ω := ⟨new nBatchSize, fun _ ↦ .outside⟩

/-- `condMaster.notify_one()`. -/
def notifyMaster (phase : Option ω → Phase τ) : Option ω → Phase τ :=
  Function.update phase none (phase none).notify

/-- The thread in the critical section, from its entry to the end of the clean-up. -/
def State.begin (s : State τ ω) (t : Option ω) : State τ ω :=
  match s.phase t with
  | .outside => ⟨s.q.cleanUp 0 true, Function.update s.phase t .cleanedUp⟩
  | .waiting _ => ⟨{ s.q with nIdle := s.q.nIdle - 1 }, Function.update s.phase t .cleanedUp⟩
  | .working _ nNow fOk =>
    let q := s.q.cleanUp nNow fOk
    let phase := Function.update s.phase t .cleanedUp
    ⟨q, if nNow ≠ 0 ∧ q.nTodo = 0 ∧ t ≠ none then notifyMaster phase else phase⟩

/-- The rest of the critical section. -/
def State.resume (s : State τ ω) (t : Option ω) : State τ ω × Option (Event τ ω) :=
  let (q, exit) := s.q.loopWhile t.isNone
  match exit with
  | .ret fRet => (⟨q, Function.update s.phase t .outside⟩, some (.ret fRet))
  | .wait => (⟨q, Function.update s.phase t (.waiting false)⟩, none)
  | .batch vChecks nNow fOk =>
    (⟨q, Function.update s.phase t (.working vChecks nNow fOk)⟩, some (.take t vChecks))

theorem State.resume_cases (s : State τ ω) (t : Option ω) :
    (s.q.queue = [] ∧ (t.isNone = true ∨ s.q.fQuit = true) ∧ s.q.nTodo = 0 ∧
      s.resume t = (⟨{ s.q with nTotal := s.q.nTotal - 1,
                                fAllOk := if t.isNone then true else s.q.fAllOk },
        Function.update s.phase t .outside⟩, some (.ret s.q.fAllOk))) ∨
    (s.q.queue = [] ∧ (t.isNone = true → s.q.nTodo ≠ 0) ∧
      s.resume t = (⟨{ s.q with nIdle := s.q.nIdle + 1 },
        Function.update s.phase t (.waiting false)⟩, none)) ∨
    (s.q.queue ≠ [] ∧
      s.resume t = (⟨{ s.q with queue := s.q.queue.drop s.q.batchSize },
        Function.update s.phase t
          (.working (s.q.queue.take s.q.batchSize) s.q.batchSize s.q.fAllOk)⟩,
        some (.take t (s.q.queue.take s.q.batchSize)))) := by
  by_cases hq : s.q.queue = []
  · by_cases hret : ((t.isNone || s.q.fQuit) && s.q.nTodo == 0) = true
    · refine .inl ⟨hq, ?_⟩
      simp only [Bool.and_eq_true, Bool.or_eq_true, beq_iff_eq] at hret
      refine ⟨hret.1, hret.2, ?_⟩
      simp only [resume, loopWhile, if_pos hq, hret.2]
      rcases hret.1 with h | h <;> simp [h]
    · refine .inr (.inl ⟨hq, ?_, ?_⟩)
      · intro ht hn
        exact hret (by simp [ht, hn])
      · simp only [resume, loopWhile, if_pos hq, if_neg hret]
  · refine .inr (.inr ⟨hq, ?_⟩)
    simp only [resume, loopWhile, if_neg hq]

/-- The next thing the thread does: one check of its batch, outside the lock, or the critical
section. A waiting thread may wake up without having been notified. -/
def State.turn (check : τ → Bool) (s : State τ ω) (t : Option ω) :
    State τ ω × Option (Event τ ω) :=
  match s.phase t with
  | .working (c :: vChecks) nNow true =>
    (⟨s.q, Function.update s.phase t (.working vChecks nNow (check c))⟩,
      some (.eval t c (check c)))
  | .working (c :: vChecks) nNow false =>
    (⟨s.q, Function.update s.phase t (.working vChecks nNow false)⟩, some (.skip t c))
  | _ => (s.begin t).resume t

section Turn

variable {check : τ → Bool} {s : State τ ω} {t : Option ω}

theorem State.turn_of_remaining (h : (s.phase t).remaining = 0) :
    s.turn check t = (s.begin t).resume t := by
  cases hp : s.phase t with
  | outside => rw [turn, hp]
  | waiting => rw [turn, hp]
  | working vChecks nNow fOk =>
    rw [hp, Phase.remaining, Multiset.coe_eq_zero] at h
    subst h
    rw [turn, hp]

theorem State.turn_eval {c : τ} {vChecks : List τ} {nNow : Nat}
    (h : s.phase t = .working (c :: vChecks) nNow true) :
    s.turn check t = (⟨s.q, Function.update s.phase t (.working vChecks nNow (check c))⟩,
      some (.eval t c (check c))) := by
  rw [turn, h]

theorem State.turn_skip {c : τ} {vChecks : List τ} {nNow : Nat}
    (h : s.phase t = .working (c :: vChecks) nNow false) :
    s.turn check t = (⟨s.q, Function.update s.phase t (.working vChecks nNow false)⟩,
      some (.skip t c)) := by
  rw [turn, h]

end Turn

/-- The waiting workers that `Add` notifies: none for an empty batch, one of them for a single
check, all of them for more. -/
def Notified (n : Nat) (phase phase' : Option ω → Phase τ) : Prop :=
  match n with
  | 0 => phase' = phase
  | 1 => (∃ w b, phase (some w) = .waiting b ∧
      phase' = Function.update phase (some w) (phase (some w)).notify) ∨
    (∀ w b, phase (some w) ≠ .waiting b) ∧ phase' = phase
  | _ => phase' none = phase none ∧ ∀ w, phase' (some w) = (phase (some w)).notify

/-- The events of the round after one more. -/
def record : Option (Event τ ω) → List (Event τ ω) → List (Event τ ω)
  | none, events => events
  | some (.ret _), _ => []
  | some e, events => e :: events

/-- The states that the master and the workers get to in any interleaving, with the events since
`Wait` last returned, the latest first. -/
inductive Reachable (check : τ → Bool) (nBatchSize : Nat) :
    State τ ω → List (Event τ ω) → Prop
  | start : Reachable check nBatchSize (.start nBatchSize) []
  | add {s events phase'} (vChecks : List τ) : Reachable check nBatchSize s events →
      s.phase none = .outside → Notified vChecks.length s.phase phase' →
      Reachable check nBatchSize ⟨s.q.add vChecks, phase'⟩ (.add vChecks :: events)
  | turn {s events} (t : Option ω) : Reachable check nBatchSize s events →
      Reachable check nBatchSize (s.turn check t).1 (record (s.turn check t).2 events)

end Turns

end CCheckQueue

end Bitmark
