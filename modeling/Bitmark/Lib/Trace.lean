import Mathlib.Data.List.Basic

/-!
# Runs of a step function

A run folds a step function over a list of actions. A condition holds throughout a run when every
action meets it in the state it is applied to. An invariant may speak of the actions done so far.
-/

namespace Trace

variable {σ α : Type*}

/-- Every action of a run meets a condition in the state it is applied to. -/
def Throughout (step : σ → α → σ) (P : σ → α → Prop) : σ → List α → Prop
  | _, [] => True
  | s, a :: as => P s a ∧ Throughout step P (step s a) as

variable {step : σ → α → σ} {P : σ → α → Prop}

@[simp] theorem throughout_nil (s : σ) : Throughout step P s [] := trivial

theorem throughout_cons {s : σ} {a : α} {as : List α} :
    Throughout step P s (a :: as) ↔ P s a ∧ Throughout step P (step s a) as := Iff.rfl

theorem throughout_append {s : σ} {as bs : List α} :
    Throughout step P s (as ++ bs) ↔
      Throughout step P s as ∧ Throughout step P (as.foldl step s) bs := by
  induction as generalizing s with
  | nil => exact (iff_of_eq (true_and _)).symm
  | cons a as ih =>
    rw [List.cons_append, throughout_cons, throughout_cons, ih, and_assoc]
    rfl

theorem throughout_of_forall (h : ∀ s a, P s a) (s : σ) (as : List α) :
    Throughout step P s as := by
  induction as generalizing s with
  | nil => trivial
  | cons a as ih => exact ⟨h s a, ih (step s a)⟩

instance decidableThroughout [∀ s a, Decidable (P s a)] (s : σ) (as : List α) :
    Decidable (Throughout step P s as) :=
  match as with
  | [] => .isTrue trivial
  | a :: as =>
    have : Decidable (Throughout step P (step s a) as) := decidableThroughout (step s a) as
    inferInstanceAs (Decidable (P s a ∧ Throughout step P (step s a) as))

/-- An invariant of the steps that meet the condition holds after the run, for all actions done. -/
theorem Throughout.invariant_history {I : List α → σ → Prop}
    (hstep : ∀ done s a, I done s → P s a → I (done ++ [a]) (step s a)) {done as : List α} {s : σ}
    (hs : I done s) (h : Throughout step P s as) : I (done ++ as) (as.foldl step s) := by
  induction as generalizing done s with
  | nil =>
    rw [List.append_nil]
    exact hs
  | cons a as ih =>
    have hrest := ih (hstep done s a hs h.1) h.2
    rw [List.append_assoc] at hrest
    exact hrest

/-- The invariant for a run from its start. -/
theorem Throughout.invariant_run {I : List α → σ → Prop}
    (hstep : ∀ done s a, I done s → P s a → I (done ++ [a]) (step s a)) {as : List α} {s : σ}
    (hs : I [] s) (h : Throughout step P s as) : I as (as.foldl step s) :=
  Throughout.invariant_history hstep hs h

theorem Throughout.invariant {I : σ → Prop} (hstep : ∀ s a, I s → P s a → I (step s a))
    {as : List α} {s : σ} (hs : I s) (h : Throughout step P s as) : I (as.foldl step s) :=
  Throughout.invariant_run (I := fun _ ↦ I) (fun _ ↦ hstep) hs h

/-- What an invariant and the condition give for every step of a run. -/
theorem Throughout.of_invariant {I : σ → Prop} {Q : σ → α → Prop}
    (hstep : ∀ s a, I s → P s a → Q s a ∧ I (step s a)) {as : List α} {s : σ} (hs : I s)
    (h : Throughout step P s as) : Throughout step Q s as := by
  induction as generalizing s with
  | nil => trivial
  | cons a as ih =>
    obtain ⟨hq, hnext⟩ := hstep s a hs h.1
    exact ⟨hq, ih hnext h.2⟩

/-- An invariant of every step. -/
theorem invariant_foldl (step : σ → α → σ) {I : σ → Prop} (hstep : ∀ s a, I s → I (step s a))
    {s : σ} (hs : I s) (as : List α) : I (as.foldl step s) :=
  (throughout_of_forall (fun _ _ ↦ trivial) s as : Throughout step (fun _ _ ↦ True) s as).invariant
    (fun s a hs _ ↦ hstep s a hs) hs

end Trace
