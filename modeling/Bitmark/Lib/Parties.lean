import Mathlib.Algebra.BigOperators.Group.Finset.Basic
import Mathlib.Data.Fintype.Basic

/-!
# Parties that move one at a time

Finitely many parties, each in a state of its own, and a quantity that is summed over them. When one
party moves, the sum changes by what that party has. A schedule says who moves next; it is fair when
a party that can make progress gets to move.
-/

namespace Parties

open Finset

variable {ι σ M : Type*} [Fintype ι] [DecidableEq ι] [AddCommMonoid M]

theorem sum_update_add (f : ι → σ → M) (s : ι → σ) (i : ι) (x : σ) :
    ∑ j, f j (Function.update s i x j) + f i (s i) = ∑ j, f j (s j) + f i x := by
  rw [← add_sum_erase univ (fun j ↦ f j (Function.update s i x j)) (mem_univ i),
    ← add_sum_erase univ (fun j ↦ f j (s j)) (mem_univ i), Function.update_self]
  have hrest : ∑ j ∈ univ.erase i, f j (Function.update s i x j) =
      ∑ j ∈ univ.erase i, f j (s j) := by
    refine sum_congr rfl fun j hj ↦ ?_
    rw [Function.update_of_ne (ne_of_mem_erase hj)]
  rw [hrest, add_right_comm, add_comm (f i x), add_right_comm, add_right_comm (f i (s i))]

/-- A move that changes nothing of the quantity. -/
theorem sum_update_of_eq (f : ι → σ → M) (s : ι → σ) {i : ι} {x : σ} (h : f i x = f i (s i)) :
    ∑ j, f j (Function.update s i x j) = ∑ j, f j (s j) := by
  refine sum_congr rfl fun j _ ↦ ?_
  by_cases hj : j = i
  · rw [hj, Function.update_self, h]
  · rw [Function.update_of_ne hj]

omit [Fintype ι] in
/-- What holds of one party after a move. -/
theorem exists_update_iff {s : ι → σ} {i : ι} {x : σ} {P : ι → σ → Prop} :
    (∃ j, P j (Function.update s i x j)) ↔ P i x ∨ ∃ j, j ≠ i ∧ P j (s j) := by
  constructor
  · rintro ⟨j, hj⟩
    by_cases hji : j = i
    · subst hji
      rw [Function.update_self] at hj
      exact .inl hj
    · rw [Function.update_of_ne hji] at hj
      exact .inr ⟨j, hji, hj⟩
  · rintro (hi | ⟨j, hji, hj⟩)
    · exact ⟨i, by rwa [Function.update_self]⟩
    · exact ⟨j, by rwa [Function.update_of_ne hji]⟩

omit [Fintype ι] in
theorem exists_iff_or {s : ι → σ} {P : ι → σ → Prop} (i : ι) :
    (∃ j, P j (s j)) ↔ P i (s i) ∨ ∃ j, j ≠ i ∧ P j (s j) := by
  simpa only [Function.update_eq_self] using
    exists_update_iff (s := s) (i := i) (x := s i) (P := P)

section Schedules

variable {S P : Type*}

/-- The states a system goes through under a schedule. -/
def run (next : S → P → S) (s : S) (sched : ℕ → P) : ℕ → S
  | 0 => s
  | n + 1 => next (run next s sched n) (sched n)

/-- No party stays ready for ever without getting to move. -/
def Fair (next : S → P → S) (ready : S → P → Prop) (s : S) (sched : ℕ → P) : Prop :=
  ∀ n i, ready (run next s sched n) i → ∃ m ≥ n, sched m = i

/-- Every move reaches the goal, decreases the measure or changes nothing, the last only where the
party was not ready; and someone is always ready. Then a fair schedule reaches the goal. -/
theorem exists_goal {next : S → P → S} {ready goal : S → P → Prop} {Ok : S → Prop} {w : S → ℕ}
    (hstep : ∀ s i, Ok s → ¬ goal s i →
      Ok (next s i) ∧ (w (next s i) < w s ∨ next s i = s ∧ ¬ ready s i))
    (hready : ∀ s, Ok s → ∃ i, ready s i) {s : S} {sched : ℕ → P}
    (hfair : Fair next ready s sched) (hs : Ok s) :
    ∃ n, goal (run next s sched n) (sched n) := by
  by_contra hnever
  push Not at hnever
  have hok : ∀ n, Ok (run next s sched n) := by
    intro n
    induction n with
    | zero => exact hs
    | succ n ih => exact (hstep _ _ ih (hnever n)).1
  -- from any point on, the measure gets smaller
  have hdecr : ∀ n, ∃ m, w (run next s sched m) < w (run next s sched n) := by
    intro n
    by_contra hstill
    push Not at hstill
    have hnot : ∀ d, ¬ w (next (run next s sched (n + d)) (sched (n + d))) <
        w (run next s sched n) := fun d ↦ (hstill (n + d + 1)).not_gt
    have hsame : ∀ d, run next s sched (n + d) = run next s sched n := by
      intro d
      induction d with
      | zero => rfl
      | succ d ih =>
        have hmove := (hstep _ _ (hok (n + d)) (hnever (n + d))).2
        rcases hmove with hlt | ⟨heq, -⟩
        · exact absurd (ih ▸ hlt) (ih ▸ hnot d)
        · exact heq.trans ih
    obtain ⟨i, hi⟩ := hready _ (hok n)
    obtain ⟨m, hnm, hm⟩ := hfair n i hi
    obtain ⟨d, rfl⟩ := Nat.exists_eq_add_of_le hnm
    rcases (hstep _ _ (hok (n + d)) (hnever (n + d))).2 with hlt | ⟨-, hidle⟩
    · exact absurd (hsame d ▸ hlt) (hsame d ▸ hnot d)
    · rw [hsame d, hm] at hidle
      exact hidle hi
  have hall : ∀ k n, w (run next s sched n) ≠ k := by
    intro k
    induction k using Nat.strong_induction_on with
    | _ k ih =>
      intro n hn
      obtain ⟨m, hm⟩ := hdecr n
      exact ih _ (hn ▸ hm) m rfl
  exact hall _ 0 rfl

end Schedules

end Parties
