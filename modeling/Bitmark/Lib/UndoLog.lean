import Mathlib.Data.List.Basic

/-!
# Undo logs

A run writes one log entry a step. Where every single step can be taken back from its log
entry, up to a relation between the states of the two directions, the whole run can be taken
back by going through its log in reverse.
-/

namespace UndoLog

universe u

variable {S L : Type*} {T : Type u} (step : S → L → S → Prop)

/-- A run from one state to another, with its log. -/
inductive Run : S → List L → S → Prop
  | nil (s : S) : Run s [] s
  | cons {s₁ s₂ s₃ : S} {l : L} {log : List L} (hstep : step s₁ l s₂) (hrun : Run s₂ log s₃) :
    Run s₁ (l :: log) s₃

variable {step}

/-- If each step can be taken back, so can each run, last step first. -/
theorem Run.undo {m : Type u → Type*} [Monad m] [LawfulMonad m] {R : T → S → Prop}
    {undo : T → L → m T} {s s' : S} {log : List L} (h : Run step s log s')
    (hlocal : ∀ s l s' t, step s l s' → R t s' → ∃ t', undo t l = pure t' ∧ R t' s)
    {t : T} (ht : R t s') : ∃ t', log.reverse.foldlM undo t = pure t' ∧ R t' s := by
  induction h with
  | nil => exact ⟨t, rfl, ht⟩
  | cons hone _ ih =>
    obtain ⟨t₂, hundo, h₂⟩ := ih ht
    obtain ⟨t₁, hone', h₁⟩ := hlocal _ _ _ _ hone h₂
    refine ⟨t₁, ?_, h₁⟩
    rw [List.reverse_cons, List.foldlM_append, hundo, pure_bind, List.foldlM_cons, hone',
      pure_bind, List.foldlM_nil]

end UndoLog
