import Mathlib.Data.List.Basic
import Mathlib.Tactic.Linarith

/-!
# Ring buffers

A buffer that holds a window of a longer sequence, each element at its position modulo the length of
the buffer. A piece that is written behind the window and does not wrap around moves the window.
-/

namespace Ring

variable {α : Type*} {content buf xs : List α} {lo hi lo' pos k q n : ℕ}

/-- `xs` written over a list from `pos` on. -/
def overwrite (buf : List α) (pos : ℕ) (xs : List α) : List α :=
  buf.take pos ++ xs ++ buf.drop (pos + xs.length)

/-- The buffer holds the elements of `content` from `lo` up to `hi`. -/
def Shows (content buf : List α) (lo hi : ℕ) : Prop :=
  ∀ q, lo ≤ q → q < hi → buf[q % buf.length]? = content[q]?

theorem length_overwrite (h : pos + xs.length ≤ buf.length) :
    (overwrite buf pos xs).length = buf.length := by
  simp only [overwrite, List.length_append, List.length_take, List.length_drop]
  omega

/-- Outside the piece the list is as before. -/
theorem getElem?_overwrite_of_notMem (h : pos + xs.length ≤ buf.length) {i : ℕ}
    (hi : i < pos ∨ pos + xs.length ≤ i) : (overwrite buf pos xs)[i]? = buf[i]? := by
  have htake : (buf.take pos).length = pos := List.length_take_of_le (by omega)
  obtain hi | hi := hi
  · rw [overwrite, List.append_assoc, List.getElem?_append_left (by omega), List.getElem?_take_of_lt hi]
  · rw [overwrite, List.getElem?_append_right (by rw [List.length_append]; omega),
      List.getElem?_drop, List.length_append, htake]
    congr 1
    omega

theorem getElem?_overwrite_add (h : pos + xs.length ≤ buf.length) {j : ℕ} (hj : j < xs.length) :
    (overwrite buf pos xs)[pos + j]? = xs[j]? := by
  have htake : (buf.take pos).length = pos := List.length_take_of_le (by omega)
  rw [overwrite, List.append_assoc, List.getElem?_append_right (by omega), htake,
    Nat.add_sub_cancel_left, List.getElem?_append_left hj]

/-- Where the sum does not wrap around. -/
theorem add_mod_of_lt {size j : ℕ} (h : q % size + j < size) : (q + j) % size = q % size + j := by
  rw [Nat.add_mod, Nat.mod_eq_of_lt (show j < size by omega), Nat.mod_eq_of_lt h]

/-- A position of the window before `hi` that stays in it is not where the piece behind `hi` goes. -/
theorem mod_outside {size : ℕ} (hq : q < hi) (hkeep : hi + k ≤ q + size) :
    q % size < hi % size ∨ hi % size + k ≤ q % size := by
  by_contra hin
  have hqdiv := Nat.div_add_mod q size
  have hhidiv := Nat.div_add_mod hi size
  have hlt : q / size < hi / size := by
    by_contra hge
    have := Nat.mul_le_mul_left size (not_lt.mp hge)
    omega
  have hmul := Nat.mul_le_mul_left size (Nat.succ_le_of_lt hlt)
  rw [Nat.mul_succ] at hmul
  omega

/-- The next elements of the content are written behind the window. -/
theorem Shows.overwrite (h : Shows content buf lo hi) (lo' : ℕ) (hlo : lo ≤ lo')
    (hpiece : xs = (content.drop hi).take n) (hfit : hi % buf.length + xs.length ≤ buf.length)
    (hkeep : hi + xs.length ≤ lo' + buf.length) :
    Shows content (overwrite buf (hi % buf.length) xs) lo' (hi + xs.length) := by
  have hlen : xs.length ≤ n := hpiece ▸ List.length_take_le n (content.drop hi)
  intro q hq hqlt
  rw [length_overwrite hfit]
  by_cases hqhi : q < hi
  · have hout : q % buf.length < hi % buf.length ∨ hi % buf.length + xs.length ≤ q % buf.length :=
      mod_outside hqhi (by omega)
    rw [getElem?_overwrite_of_notMem hfit hout]
    exact h q (hlo.trans hq) hqhi
  · obtain ⟨j, rfl⟩ := Nat.exists_eq_add_of_le (not_lt.mp hqhi)
    have hj : j < xs.length := by omega
    have hxs : xs[j]? = content[hi + j]? := by
      rw [hpiece, List.getElem?_take_of_lt (hj.trans_le hlen), List.getElem?_drop]
    rw [add_mod_of_lt (by omega), getElem?_overwrite_add hfit hj, hxs]

/-- A part of the window that does not wrap around. -/
theorem Shows.slice (h : Shows content buf lo hi) (hlo : lo ≤ q) (hhi : q + n ≤ hi)
    (hfit : q % buf.length + n ≤ buf.length) :
    (buf.drop (q % buf.length)).take n = (content.drop q).take n := by
  apply List.ext_getElem?
  intro i
  by_cases hi : i < n
  · have hq := h (q + i) (by omega) (by omega)
    rw [add_mod_of_lt (by omega)] at hq
    rw [List.getElem?_take_of_lt hi, List.getElem?_take_of_lt hi, List.getElem?_drop,
      List.getElem?_drop, hq]
  · rw [List.getElem?_take, List.getElem?_take, if_neg hi, if_neg hi]

end Ring
