import Mathlib.Data.Option.Basic
import Mathlib.Tactic.Ring

/-!
# Counted loops with checked accesses

A loop body answers `none` where it would leave its array. The rules give both that a loop ends
without such an access and what holds then.
-/

namespace Loops

variable {σ : Type*}

/-- `for (i = 0; i < n; i++)`, the state handed from one pass to the next. -/
def upto (body : ℕ → σ → Option σ) : ℕ → σ → Option σ
  | 0, s => some s
  | n + 1, s => (upto body n s).bind (body n)

/-- What each pass carries from its index to the next holds at the end. -/
theorem upto_spec {body : ℕ → σ → Option σ} {n : ℕ} {s : σ} (I : ℕ → σ → Prop) (hinit : I 0 s)
    (hstep : ∀ i t, i < n → I i t → ∃ u, body i t = some u ∧ I (i + 1) u) :
    ∃ t, upto body n s = some t ∧ I n t := by
  induction n with
  | zero => exact ⟨s, rfl, hinit⟩
  | succ n ih =>
    obtain ⟨t, ht, hinv⟩ := ih fun i t hi ↦ hstep i t (Nat.lt_succ_of_lt hi)
    obtain ⟨u, hu, hnext⟩ := hstep n t (Nat.lt_succ_self n) hinv
    refine ⟨u, ?_, hnext⟩
    rw [upto, ht]
    exact hu

/-- `for (i = start; i < start + n; i++) if (!test) return false; return true`. -/
def allFrom (test : ℕ → Option Bool) : ℕ → ℕ → Option Bool
  | _, 0 => some true
  | start, n + 1 => (test start).bind fun ok ↦
      if ok then allFrom test (start + 1) n else some false

/-- Where every test answers, the loop says whether all of them hold. -/
theorem allFrom_spec {test : ℕ → Option Bool} (P : ℕ → Prop) {start n : ℕ}
    (htest : ∀ i, start ≤ i → i < start + n → ∃ ok, test i = some ok ∧ (ok = true ↔ P i)) :
    ∃ ok, allFrom test start n = some ok ∧
      (ok = true ↔ ∀ i, start ≤ i → i < start + n → P i) := by
  induction n generalizing start with
  | zero => exact ⟨true, rfl, iff_of_true rfl fun i hlo hhi ↦ by omega⟩
  | succ n ih =>
    obtain ⟨ok, hok, hiff⟩ := htest start le_rfl (by omega)
    rw [allFrom, hok, Option.bind_some]
    cases ok with
    | false =>
      refine ⟨false, rfl, iff_of_false Bool.false_ne_true fun hall ↦ ?_⟩
      exact Bool.false_ne_true (hiff.mpr (hall start le_rfl (by omega)))
    | true =>
      obtain ⟨rest, hrest, hall⟩ := @ih (start + 1) fun i hlo hhi ↦
        htest i (by omega) (by omega)
      refine ⟨rest, hrest, hall.trans ⟨fun h i hlo hhi ↦ ?_, fun h i hlo hhi ↦ ?_⟩⟩
      · obtain heq | hlt := hlo.eq_or_lt
        · exact heq ▸ hiff.mp rfl
        · exact h i hlt (by omega)
      · exact h i (by omega) (by omega)

end Loops
