import Mathlib.Data.List.Basic

/-!
# A cursor into a sequence of frames

A sequence of frames is sent or received as one string of symbols. The cursor counts the symbols of
the first frame that are done; it stays inside the first frame, and is at the start when there is
none.
-/

namespace Framing

variable {σ : Type*}

/-- The cursor is inside the first frame. -/
def Cursor (n : ℕ) : List (List σ) → Prop
  | [] => n = 0
  | f :: _ => n < f.length

/-- The symbols from the cursor on. -/
def remaining (n : ℕ) (frames : List (List σ)) : List σ := frames.flatten.drop n

variable {n : ℕ} {f : List σ} {frames : List (List σ)}

@[simp]
theorem remaining_nil : remaining n ([] : List (List σ)) = [] := List.drop_nil

@[simp]
theorem cursor_nil : Cursor n ([] : List (List σ)) ↔ n = 0 := Iff.rfl

@[simp]
theorem cursor_cons : Cursor n (f :: frames) ↔ n < f.length := Iff.rfl

theorem remaining_cons (h : n ≤ f.length) :
    remaining n (f :: frames) = f.drop n ++ frames.flatten := by
  rw [remaining, List.flatten_cons, List.drop_append_of_le_length h]

@[simp]
theorem remaining_zero : remaining 0 frames = frames.flatten := List.drop_zero

/-- Before the first of some frames. -/
theorem cursor_zero (h : ∀ f ∈ frames, f ≠ []) : Cursor 0 frames := by
  cases frames with
  | nil => rfl
  | cons f frames => exact List.length_pos_iff.mpr (h f List.mem_cons_self)

/-- Appending a frame does not move the cursor. -/
theorem Cursor.append (h : Cursor n frames) (hf : f ≠ []) : Cursor n (frames ++ [f]) := by
  cases frames with
  | nil =>
    rw [cursor_nil] at h
    rw [h]
    exact List.length_pos_iff.mpr hf
  | cons g frames => exact h

theorem Cursor.remaining_append (h : Cursor n frames) :
    remaining n (frames ++ [f]) = remaining n frames ++ f := by
  cases frames with
  | nil =>
    rw [cursor_nil] at h
    rw [h]
    simp
  | cons g frames =>
    rw [cursor_cons] at h
    rw [List.cons_append, remaining_cons (Nat.le_of_lt h), remaining_cons (Nat.le_of_lt h)]
    simp

/-- Going on inside the first frame. -/
theorem remaining_add (k : ℕ) : remaining (n + k) frames = (remaining n frames).drop k := by
  rw [remaining, remaining, List.drop_drop]

/-- Going on to the end of the first frame. -/
theorem remaining_length : remaining f.length (f :: frames) = remaining 0 frames := by
  rw [remaining_cons (Nat.le_refl _), List.drop_length, List.nil_append, remaining_zero]

/-- Nothing remains only when there is no frame. -/
theorem Cursor.eq_nil (h : Cursor n frames) (hrest : remaining n frames = []) : frames = [] := by
  cases frames with
  | nil => rfl
  | cons f frames =>
    rw [cursor_cons] at h
    rw [remaining_cons (Nat.le_of_lt h)] at hrest
    have hdrop := (List.append_eq_nil_iff.mp hrest).1
    exact absurd (List.drop_eq_nil_iff.mp hdrop) (Nat.not_le.mpr h)

end Framing
