import Mathlib.Data.List.Perm.Basic
import Mathlib.Logic.Equiv.Basic

/-!
# Shuffles by exchanging elements

A list is shuffled in rounds, each of which exchanges the elements at two positions. When round `k`
exchanges position `k` with one at or above it, the element it brings to `k` stays there.
-/

namespace Shuffle

variable {α : Type*}

/-- The elements at two positions exchanged. -/
def swapAt (l : List α) (i p : ℕ) : List α :=
  match l[i]?, l[p]? with
  | some a, some b => (l.set p a).set i b
  | _, _ => l

/-- The rounds `0, …, m - 1`, round `k` with position `p k`. -/
def rounds (p : ℕ → ℕ) : ℕ → List α → List α
  | 0, l => l
  | m + 1, l => swapAt (rounds p m l) m (p m)

theorem swapAt_eq {l : List α} {i p : ℕ} (hi : i < l.length) (hp : p < l.length) :
    swapAt l i p = (l.set p l[i]).set i l[p] := by
  rw [swapAt, List.getElem?_eq_getElem hi, List.getElem?_eq_getElem hp]

theorem swapAt_perm (l : List α) (i p : ℕ) : (swapAt l i p).Perm l := by
  rw [swapAt]
  split
  case h_1 a b ha hb =>
    obtain ⟨hi, rfl⟩ := List.getElem?_eq_some_iff.mp ha
    obtain ⟨hp, rfl⟩ := List.getElem?_eq_some_iff.mp hb
    exact List.set_set_perm hp hi
  case h_2 => exact List.Perm.refl l

@[simp] theorem length_swapAt (l : List α) (i p : ℕ) : (swapAt l i p).length = l.length :=
  (swapAt_perm l i p).length_eq

theorem rounds_perm (p : ℕ → ℕ) (m : ℕ) (l : List α) : (rounds p m l).Perm l := by
  induction m with
  | zero => exact List.Perm.refl l
  | succ m ih => exact (swapAt_perm _ _ _).trans ih

@[simp] theorem length_rounds (p : ℕ → ℕ) (m : ℕ) (l : List α) : (rounds p m l).length = l.length :=
  (rounds_perm p m l).length_eq

theorem getElem?_swapAt {l : List α} {i p : ℕ} (hi : i < l.length) (hp : p < l.length) (q : ℕ) :
    (swapAt l i p)[q]? = l[Equiv.swap i p q]? := by
  rw [swapAt_eq hi hp]
  by_cases hqi : q = i
  · subst hqi
    rw [Equiv.swap_apply_left, List.getElem?_eq_getElem hp]
    exact List.getElem?_set_self (by rwa [List.length_set])
  · rw [List.getElem?_set_ne (Ne.symm hqi)]
    by_cases hqp : q = p
    · subst hqp
      rw [Equiv.swap_apply_right, List.getElem?_eq_getElem hi]
      exact List.getElem?_set_self hp
    · rw [Equiv.swap_apply_of_ne_of_ne hqi hqp]
      exact List.getElem?_set_ne (Ne.symm hqp)

/-- What round `k` brings to its position is there after every later round. -/
theorem getElem?_rounds {l : List α} {p : ℕ → ℕ} {m k : ℕ} (hk : k < m)
    (hp : ∀ i < m, i ≤ p i ∧ p i < l.length) : (rounds p m l)[k]? = (rounds p k l)[p k]? := by
  induction m with
  | zero => exact absurd hk (Nat.not_lt_zero k)
  | succ m ih =>
    obtain ⟨hle, hlt⟩ := hp m (Nat.lt_succ_self m)
    have hm : m < (rounds p m l).length := by
      rw [length_rounds]
      omega
    have hpm : p m < (rounds p m l).length := by rwa [length_rounds]
    rw [rounds, getElem?_swapAt hm hpm]
    rcases Nat.lt_succ_iff_lt_or_eq.mp hk with hlt' | rfl
    · rw [Equiv.swap_apply_of_ne_of_ne (by omega) (by omega)]
      exact ih hlt' fun i hi ↦ hp i (Nat.lt_succ_of_lt hi)
    · rw [Equiv.swap_apply_left]

end Shuffle
