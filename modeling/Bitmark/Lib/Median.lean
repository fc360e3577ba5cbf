import Mathlib.Data.List.Sort

/-!
# Medians

An element of a list is a median when fewer than half of the elements lie below it and fewer than
half above. The middle element of a sorted list of odd length is one.
-/

namespace Median

variable {α : Type*} [LinearOrder α]

/-- An element with fewer than half of the list on either side. -/
structure IsMedian (m : α) (l : List α) : Prop where
  mem : m ∈ l
  below : 2 * l.countP (· < m) < l.length
  above : 2 * l.countP (m < ·) < l.length

variable {m : α} {l l' : List α}

theorem IsMedian.perm (h : IsMedian m l) (hperm : l.Perm l') : IsMedian m l' := by
  constructor
  · exact hperm.mem_iff.mp h.mem
  · rw [← hperm.countP_eq, ← hperm.length_eq]
    exact h.below
  · rw [← hperm.countP_eq, ← hperm.length_eq]
    exact h.above

/-- Behind the first `n` elements of a sorted list nothing is below the next one. -/
theorem countP_lt_le (hsorted : l.Pairwise (· ≤ ·)) {n : Nat} (hn : l[n]? = some m) :
    l.countP (· < m) ≤ n := by
  induction l generalizing n with
  | nil => cases hn
  | cons a l ih =>
    obtain ⟨hle, hsorted⟩ := List.pairwise_cons.mp hsorted
    cases n with
    | zero =>
      obtain rfl : a = m := Option.some.inj hn
      have hnone : (a :: l).countP (· < a) = 0 := by
        rw [List.countP_eq_zero]
        intro b hb
        rcases List.mem_cons.mp hb with rfl | hb
        · simp
        · simpa using hle b hb
      omega
    | succ n =>
      have hrest := ih hsorted hn
      rw [List.countP_cons]
      split <;> omega

/-- Up to the element at `n` nothing is above it. -/
theorem countP_gt_le (hsorted : l.Pairwise (· ≤ ·)) {n : Nat} (hn : l[n]? = some m) :
    l.countP (m < ·) + (n + 1) ≤ l.length := by
  induction l generalizing n with
  | nil => cases hn
  | cons a l ih =>
    obtain ⟨hle, hsorted⟩ := List.pairwise_cons.mp hsorted
    cases n with
    | zero =>
      obtain rfl : a = m := Option.some.inj hn
      have hall := List.countP_le_length (p := fun b ↦ decide (a < b)) (l := l)
      rw [List.countP_cons_of_neg (by simp), List.length_cons]
      omega
    | succ n =>
      have hrest := ih hsorted hn
      have ham : ¬ m < a := not_lt_of_ge (hle m (List.mem_of_getElem? hn))
      rw [List.countP_cons_of_neg (by simpa using ham), List.length_cons]
      omega

/-- What is at `n` in a sorted list is not below `m` when at most `n` elements are. -/
theorem le_of_countP_lt_le {x : α} (hsorted : l.Pairwise (· ≤ ·)) {n : Nat} (hn : l[n]? = some x)
    (hcount : l.countP (· < m) ≤ n) : m ≤ x := by
  by_contra hlt
  have hx : x < m := not_le.mp hlt
  clear hlt
  induction l generalizing n with
  | nil => cases hn
  | cons a l ih =>
    obtain ⟨hle, hsorted⟩ := List.pairwise_cons.mp hsorted
    cases n with
    | zero =>
      obtain rfl : a = x := Option.some.inj hn
      rw [List.countP_cons_of_pos (by simpa using hx)] at hcount
      omega
    | succ n =>
      have ha : a < m := (hle x (List.mem_of_getElem? hn)).trans_lt hx
      rw [List.countP_cons_of_pos (by simpa using ha)] at hcount
      exact ih hsorted hn (Nat.le_of_succ_le_succ hcount)

/-- The middle element of a sorted list of odd length. -/
theorem isMedian_middle (hsorted : l.Pairwise (· ≤ ·)) (hodd : l.length % 2 = 1)
    (hm : l[l.length / 2]? = some m) : IsMedian m l := by
  have hbelow := countP_lt_le hsorted hm
  have habove := countP_gt_le hsorted hm
  constructor
  · exact List.mem_of_getElem? hm
  · omega
  · omega

end Median
