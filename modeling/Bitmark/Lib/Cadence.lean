import Mathlib.Data.List.GetD
import Mathlib.Data.Nat.Find
import Mathlib.Tactic.Ring

/-!
# Marks at a fixed distance

A sequence of marks, newest first, to which a mark is added only when none of the last `n - 1`
is set, and must be set when the one `n` places back is. From the first set mark on, exactly
every `n`-th is set.
-/

namespace Cadence

/-- What may be added to a sequence: a set mark with none set within `n - 1` places, or an unset
one with none set exactly `n` places back. -/
def Fits (n : Nat) (x : Bool) (l : List Bool) : Prop :=
  if x then ∀ k < n - 1, l.getD k false = false else l.getD (n - 1) false = false

/-- Every mark fit when it was added. -/
def Cadenced (n : Nat) : List Bool → Prop
  | [] => True
  | x :: l => Fits n x l ∧ Cadenced n l

variable {n : Nat} {l : List Bool}

theorem Cadenced.drop (h : Cadenced n l) (k : Nat) : Cadenced n (l.drop k) := by
  induction l generalizing k with
  | nil => simp [Cadenced]
  | cons x l ih =>
    cases k with
    | zero => exact h
    | succ k => exact ih h.2 k

/-- A mark fits the marks behind it. -/
theorem Cadenced.fits (h : Cadenced n l) {k : Nat} (hk : k < l.length) :
    Fits n (l.getD k false) (l.drop (k + 1)) := by
  have hdrop := h.drop k
  rw [List.drop_eq_getElem_cons hk] at hdrop
  rw [List.getD_eq_getElem l false hk]
  exact hdrop.1

/-- Two set marks are at least `n` places apart. -/
theorem Cadenced.apart (h : Cadenced n l) {i k : Nat} (hi : l.getD i false = true) (hik : i < k)
    (hk : k < i + n) : l.getD k false = false := by
  have hlen : i < l.length := by
    by_contra hge
    rw [List.getD_eq_default l false (by omega)] at hi
    cases hi
  have hfits := h.fits hlen
  rw [hi, Fits, if_pos rfl] at hfits
  have := hfits (k - i - 1) (by omega)
  rwa [List.getD_eq_getElem?_getD, List.getElem?_drop, ← List.getD_eq_getElem?_getD,
    show i + 1 + (k - i - 1) = k by omega] at this

/-- `n` places before a set mark, a mark is set. -/
theorem Cadenced.next (h : Cadenced n l) (hn : 0 < n) {k : Nat}
    (hk : l.getD (k + n) false = true) : l.getD k false = true := by
  have hlen : k + n < l.length := by
    by_contra hge
    rw [List.getD_eq_default l false (by omega)] at hk
    cases hk
  have hfits := h.fits (k := k) (by omega)
  by_contra hset
  rw [Bool.not_eq_true] at hset
  rw [hset, Fits, if_neg Bool.false_ne_true, List.getD_eq_getElem?_getD, List.getElem?_drop,
    ← List.getD_eq_getElem?_getD, show k + 1 + (n - 1) = k + n by omega, hk] at hfits
  cases hfits

/-- From some place on, counted from the oldest mark, exactly every `n`-th mark is set. -/
theorem Cadenced.every (h : Cadenced n l) (hn : 0 < n) : ∃ first, ∀ j < l.length,
    (l.reverse.getD j false = true ↔ first ≤ j ∧ n ∣ j - first) := by
  suffices hstart : ∃ first ≤ l.length, ∀ j < l.length,
      (l.reverse.getD j false = true ↔ first ≤ j ∧ n ∣ j - first) by
    obtain ⟨first, -, hfirst⟩ := hstart
    exact ⟨first, hfirst⟩
  induction l with
  | nil => exact ⟨0, le_rfl, fun j hj ↦ absurd hj (Nat.not_lt_zero j)⟩
  | cons x l ih =>
    obtain ⟨first, hle, hfirst⟩ := ih h.2
    -- marks that are already there keep their places
    have hold : ∀ j < l.length, (x :: l).reverse.getD j false = l.reverse.getD j false := by
      intro j hj
      rw [List.reverse_cons, List.getD_append _ _ _ _ (by simpa using hj)]
    have hnew : (x :: l).reverse.getD l.length false = x := by
      rw [List.reverse_cons, List.getD_append_right _ _ _ _ (by simp), List.length_reverse,
        Nat.sub_self]
      rfl
    have hplace : ∀ k < l.length, l.getD k false = l.reverse.getD (l.length - 1 - k) false := by
      intro k hk
      rw [List.getD_eq_getElem _ _ hk, List.getD_eq_getElem _ _ (by simp; omega),
        List.getElem_reverse]
      congr 1
      omega
    have hfits : Fits n x l := h.1
    rcases Nat.lt_or_ge first l.length with hlt | hge
    · refine ⟨first, by simp only [List.length_cons]; omega, fun j hj ↦ ?_⟩
      rw [List.length_cons] at hj
      rcases Nat.lt_or_ge j l.length with hj' | hj'
      · rw [hold j hj', hfirst j hj']
      obtain rfl : j = l.length := by omega
      rw [hnew]
      constructor
      · intro hx
        refine ⟨hle, ?_⟩
        by_contra hdvd
        -- the newest set mark is nearer than `n`
        have hmod := Nat.mod_lt (l.length - first) hn
        have hpos : 0 < (l.length - first) % n := by
          rw [Nat.dvd_iff_mod_eq_zero] at hdvd
          omega
        have hdiv := Nat.mod_add_div (l.length - first) n
        have hset := (hfirst (l.length - (l.length - first) % n) (by omega)).mpr
          ⟨by omega, ⟨(l.length - first) / n, by omega⟩⟩
        rw [hx, Fits, if_pos rfl] at hfits
        have := hfits ((l.length - first) % n - 1) (by omega)
        rw [hplace _ (by omega), show l.length - 1 - ((l.length - first) % n - 1) =
          l.length - (l.length - first) % n by omega, hset] at this
        cases this
      · rintro ⟨-, q, hq⟩
        by_contra hx
        rw [Bool.not_eq_true] at hx
        rw [hx, Fits, if_neg Bool.false_ne_true] at hfits
        have hone : 1 ≤ q := by
          rcases Nat.eq_zero_or_pos q with rfl | hpos
          · omega
          · exact hpos
        obtain ⟨q, rfl⟩ := Nat.exists_eq_add_of_le hone
        have hmul : n * (1 + q) = n + n * q := by ring
        have hset := (hfirst (l.length - n) (by omega)).mpr ⟨by omega, ⟨q, by omega⟩⟩
        rw [hplace _ (by omega), show l.length - 1 - (n - 1) = l.length - n by omega, hset] at hfits
        cases hfits
    · -- no mark is set yet
      have hnone : ∀ j < l.length, l.reverse.getD j false = false := by
        intro j hj
        rw [← Bool.not_eq_true, hfirst j hj]
        omega
      refine ⟨if x then l.length else l.length + 1, ?_, fun j hj ↦ ?_⟩
      · rw [List.length_cons]
        split <;> omega
      · rw [List.length_cons] at hj
        rcases Nat.lt_or_ge j l.length with hj' | hj'
        · rw [hold j hj', hnone j hj']
          constructor
          · intro habs
            cases habs
          · rintro ⟨hle', -⟩
            split at hle' <;> omega
        · obtain rfl : j = l.length := by omega
          rw [hnew]
          cases x <;> simp

/-! ### The mark to add next -/

/-- The rule of a writer: set the mark unless one is set within `n - 1` places. -/
def choice (n : Nat) (l : List Bool) : Bool := (List.range (n - 1)).all fun k ↦ !l.getD k false

theorem choice_eq_true : choice n l = true ↔ ∀ k < n - 1, l.getD k false = false := by
  simp [choice]

/-- The writer's choice always fits. -/
theorem Cadenced.fits_choice (h : Cadenced n l) : Fits n (choice n l) l := by
  rw [Fits]
  split
  · next hchoice => exact choice_eq_true.mp hchoice
  · next hchoice =>
    rw [choice_eq_true] at hchoice
    push Not at hchoice
    obtain ⟨k, hk, hset⟩ := hchoice
    exact h.apart (by simpa using hset) (by omega) (by omega)

/-- Once a mark is set, only the writer's choice fits. -/
theorem Cadenced.eq_choice (h : Cadenced n l) (hn : 0 < n) (hset : ∃ k, l.getD k false = true)
    {x : Bool} (hx : Fits n x l) : x = choice n l := by
  have hfirst := Nat.find_spec hset
  have hmin : ∀ k < Nat.find hset, l.getD k false = false := fun k hk ↦
    Bool.eq_false_iff.mpr (Nat.find_min hset hk)
  -- the newest set mark is not more than `n` places back
  have hnear : Nat.find hset < n := by
    by_contra hge
    have hback := h.next hn (k := Nat.find hset - n)
      (by rwa [Nat.sub_add_cancel (by omega)])
    rw [hmin _ (by omega)] at hback
    cases hback
  cases x with
  | true =>
    rw [Fits, if_pos rfl] at hx
    exact (choice_eq_true.mpr hx).symm
  | false =>
    rw [Fits, if_neg Bool.false_ne_true] at hx
    symm
    rw [Bool.eq_false_iff, ne_eq, choice_eq_true]
    intro hall
    rcases Nat.lt_or_ge (Nat.find hset) (n - 1) with hlt | hge
    · rw [hall _ hlt] at hfirst
      cases hfirst
    · rw [show Nat.find hset = n - 1 by omega, hx] at hfirst
      cases hfirst

end Cadence
