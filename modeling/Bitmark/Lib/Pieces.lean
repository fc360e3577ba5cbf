import Mathlib.Data.List.Induction
import Mathlib.Data.Nat.Bitwise
import Mathlib.Tactic.Ring

/-!
# Pieces of a number

A number of `w * m` bits is cut into `m` pieces of `w` bits, the high one first. Exclusive or works
piece by piece.
-/

namespace Pieces

/-- The low `m` pieces of `w` bits. -/
def pieces (w : ℕ) : ℕ → ℕ → List ℕ
  | 0, _ => []
  | m + 1, x => pieces w m (x / 2 ^ w) ++ [x % 2 ^ w]

variable {w m x y : ℕ}

@[simp] theorem length_pieces (w m x : ℕ) : (pieces w m x).length = m := by
  induction m generalizing x with
  | zero => rfl
  | succ m ih => rw [pieces, List.length_append, ih, List.length_singleton]

theorem lt_of_mem_pieces {d : ℕ} (h : d ∈ pieces w m x) : d < 2 ^ w := by
  induction m generalizing x with
  | zero => cases h
  | succ m ih =>
    rcases List.mem_append.mp h with h | h
    · exact ih h
    · rw [List.mem_singleton.mp h]
      exact Nat.mod_lt _ (Nat.two_pow_pos w)

/-- The high piece and the others. -/
theorem pieces_succ_eq_cons (w m x : ℕ) :
    pieces w (m + 1) x = x / 2 ^ (w * m) % 2 ^ w :: pieces w m x := by
  induction m generalizing x with
  | zero => rw [pieces, pieces, pieces, Nat.mul_zero, Nat.pow_zero, Nat.div_one, List.nil_append]
  | succ m ih =>
    rw [pieces, ih, pieces, Nat.div_div_eq_div_mul, ← Nat.pow_add, Nat.mul_succ, Nat.add_comm w]
    rfl

/-- The pieces by their positions. -/
theorem pieces_eq_map (w m x : ℕ) :
    pieces w m x = (List.range m).map fun i ↦ x / 2 ^ (w * (m - i - 1)) % 2 ^ w := by
  induction m generalizing x with
  | zero => rfl
  | succ m ih =>
    rw [pieces, ih, List.range_succ, List.map_append, List.map_singleton, Nat.add_sub_cancel_left,
      Nat.sub_self, Nat.mul_zero, Nat.pow_zero, Nat.div_one]
    congr 1
    apply List.map_congr_left
    intro i hi
    have hlt := List.mem_range.mp hi
    have hpos : m + 1 - i - 1 = m - i - 1 + 1 := by omega
    rw [Nat.div_div_eq_div_mul, ← Nat.pow_add, hpos, Nat.mul_succ, Nat.add_comm w]

theorem pieces_xor (w m x y : ℕ) :
    pieces w m (x ^^^ y) = List.zipWith (· ^^^ ·) (pieces w m x) (pieces w m y) := by
  induction m generalizing x y with
  | zero => rfl
  | succ m ih =>
    rw [pieces, pieces, pieces, List.zipWith_append (by rw [length_pieces, length_pieces]), ← ih,
      Nat.xor_div_two_pow, Nat.xor_mod_two_pow]
    rfl

/-- The pieces are all zero when the number is. -/
theorem pieces_eq_zero_iff (h : x < 2 ^ (w * m)) : (∀ d ∈ pieces w m x, d = 0) ↔ x = 0 := by
  induction m generalizing x with
  | zero =>
    rw [Nat.mul_zero, Nat.pow_zero, Nat.lt_one_iff] at h
    exact iff_of_true (fun d hd ↦ absurd hd List.not_mem_nil) h
  | succ m ih =>
    have hhigh : x / 2 ^ w < 2 ^ (w * m) := by
      rw [Nat.div_lt_iff_lt_mul (Nat.two_pow_pos w), ← Nat.pow_add]
      exact h
    have hsplit := Nat.div_add_mod x (2 ^ w)
    rw [pieces, List.forall_mem_append, List.forall_mem_singleton, ih hhigh]
    constructor
    · rintro ⟨hdiv, hmod⟩
      rw [← hsplit, hdiv, hmod, Nat.mul_zero]
    · rintro rfl
      exact ⟨Nat.zero_div _, Nat.zero_mod _⟩

/-- The pieces depend on the low bits only. -/
theorem pieces_mod (w m x : ℕ) : pieces w m (x % 2 ^ (w * m)) = pieces w m x := by
  induction m generalizing x with
  | zero => rfl
  | succ m ih =>
    have hpow : 2 ^ (w * (m + 1)) = 2 ^ w * 2 ^ (w * m) := by
      rw [← Nat.pow_add, Nat.mul_succ, Nat.add_comm]
    rw [pieces, pieces, hpow, Nat.mod_mul_right_div_self, ih,
      Nat.mod_mod_of_dvd _ (Nat.dvd_mul_right _ _)]

/-- The number that is made of pieces. -/
def join (w : ℕ) (ds : List ℕ) : ℕ := ds.foldl (fun x d ↦ x * 2 ^ w + d) 0

@[simp] theorem join_nil (w : ℕ) : join w [] = 0 := rfl

@[simp] theorem join_concat (w : ℕ) (ds : List ℕ) (d : ℕ) :
    join w (ds ++ [d]) = join w ds * 2 ^ w + d := by
  rw [join, List.foldl_append]
  rfl

theorem join_lt {ds : List ℕ} (h : ∀ d ∈ ds, d < 2 ^ w) : join w ds < 2 ^ (w * ds.length) := by
  induction ds using List.reverseRecOn with
  | nil => exact Nat.one_pos
  | append_singleton ds d ih =>
    rw [List.forall_mem_append, List.forall_mem_singleton] at h
    have hlt := ih h.1
    rw [join_concat, List.length_append, List.length_singleton, Nat.mul_succ, Nat.pow_add]
    calc join w ds * 2 ^ w + d < join w ds * 2 ^ w + 2 ^ w := Nat.add_lt_add_left h.2 _
      _ = (join w ds + 1) * 2 ^ w := by ring
      _ ≤ 2 ^ (w * ds.length) * 2 ^ w := Nat.mul_le_mul_right _ hlt

/-- A number is made of its pieces. -/
theorem join_pieces (w m x : ℕ) : join w (pieces w m x) = x % 2 ^ (w * m) := by
  induction m generalizing x with
  | zero => rw [pieces, join_nil, Nat.mul_zero, Nat.pow_zero, Nat.mod_one]
  | succ m ih =>
    have hpow : 2 ^ (w * (m + 1)) = 2 ^ w * 2 ^ (w * m) := by
      rw [← Nat.pow_add, Nat.mul_succ, Nat.add_comm]
    rw [pieces, join_concat, ih, hpow, Nat.mod_mul, Nat.mul_comm, Nat.add_comm]

/-- A number that is made of pieces has these pieces. -/
theorem pieces_join {ds : List ℕ} (h : ∀ d ∈ ds, d < 2 ^ w) :
    pieces w ds.length (join w ds) = ds := by
  induction ds using List.reverseRecOn with
  | nil => rfl
  | append_singleton ds d ih =>
    rw [List.forall_mem_append, List.forall_mem_singleton] at h
    have hpos := Nat.two_pow_pos w
    rw [List.length_append, List.length_singleton, pieces, join_concat, Nat.mul_comm,
      Nat.mul_add_div hpos, Nat.mul_add_mod, Nat.div_eq_of_lt h.2, Nat.mod_eq_of_lt h.2,
      Nat.add_zero, ih h.1]

end Pieces
