import Mathlib.Data.List.GetD
import Mathlib.Data.Nat.Digits.Lemmas
import Mathlib.Tactic.LinearCombination

/-!
# Digit strings

A digit string has its high digit first. A string without a leading zero is the one that its number
has, and a buffer of digits is multiplied and added to in place, digit by digit from the low end.
Texts write the digits as letters of an alphabet.
-/

namespace Radix

variable {b m L x c : ℕ} {ds : List ℕ}

/-- The number that a string of digits denotes. -/
def value (b : ℕ) (ds : List ℕ) : ℕ := Nat.ofDigits b ds.reverse

@[simp] theorem value_nil (b : ℕ) : value b [] = 0 := rfl

theorem value_cons (b d : ℕ) (ds : List ℕ) :
    value b (d :: ds) = d * b ^ ds.length + value b ds := by
  rw [value, Nat.ofDigits_reverse_cons, Nat.add_comm, Nat.mul_comm]
  rfl

theorem value_append (b : ℕ) (ds es : List ℕ) :
    value b (ds ++ es) = value b ds * b ^ es.length + value b es := by
  rw [value, List.reverse_append, Nat.ofDigits_append, List.length_reverse, Nat.add_comm,
    Nat.mul_comm]
  rfl

theorem value_concat (b : ℕ) (ds : List ℕ) (d : ℕ) : value b (ds ++ [d]) = value b ds * b + d := by
  rw [value_append, value_cons, value_nil, List.length_singleton, List.length_nil, pow_one, pow_zero,
    Nat.mul_one, Nat.add_zero]

@[simp] theorem value_replicate_zero (b n : ℕ) : value b (List.replicate n 0) = 0 := by
  rw [value, List.reverse_replicate, Nat.ofDigits_replicate_zero]

theorem value_lt (hb : 1 < b) (h : ∀ d ∈ ds, d < b) : value b ds < b ^ ds.length := by
  rw [← List.length_reverse]
  exact Nat.ofDigits_lt_base_pow_length hb fun d hd ↦ h d (List.mem_reverse.mp hd)

/-- Strings of one length are determined by their numbers. -/
theorem value_inj {es : List ℕ} (hb : 1 < b) (hds : ∀ d ∈ ds, d < b) (hes : ∀ d ∈ es, d < b)
    (hlen : ds.length = es.length) (h : value b ds = value b es) : ds = es := by
  apply List.reverse_injective
  apply Nat.ofDigits_inj_of_len_eq hb
  · rw [List.length_reverse, List.length_reverse, hlen]
  · exact fun d hd ↦ hds d (List.mem_reverse.mp hd)
  · exact fun d hd ↦ hes d (List.mem_reverse.mp hd)
  · exact h

/-! ### Leading zeros -/

/-- The string without the zeros in front. -/
def strip (ds : List ℕ) : List ℕ := ds.dropWhile (· == 0)

theorem strip_subset (ds : List ℕ) : strip ds ⊆ ds := (List.dropWhile_sublist _).subset

/-- Zeros in front do not change the number. -/
@[simp] theorem value_strip (b : ℕ) (ds : List ℕ) : value b (strip ds) = value b ds := by
  induction ds with
  | nil => rfl
  | cons d ds ih =>
    rw [strip, List.dropWhile_cons]
    split
    case isTrue hd =>
      rw [beq_iff_eq] at hd
      rw [value_cons, hd, Nat.zero_mul, Nat.zero_add]
      exact ih
    case isFalse => rfl

/-- What is left is the canonical string of the number. -/
theorem strip_eq_digits (hb : 1 < b) (h : ∀ d ∈ ds, d < b) :
    strip ds = (Nat.digits b (value b ds)).reverse := by
  rw [← value_strip, value, Nat.digits_ofDigits b hb, List.reverse_reverse]
  · intro d hd
    exact h d (strip_subset ds (List.mem_reverse.mp hd))
  · intro hne
    rw [List.getLast_reverse]
    have hhead := List.head_dropWhile_not (· == 0) (l := ds) (by simpa [strip] using hne)
    simpa [strip] using hhead

/-- A string without a leading zero is read back from its number. -/
theorem digits_value (hb : 1 < b) (h : ∀ d ∈ ds, d < b) (hstrip : strip ds = ds) :
    (Nat.digits b (value b ds)).reverse = ds := by
  rw [← strip_eq_digits hb h, hstrip]

theorem value_digits (b x : ℕ) : value b (Nat.digits b x).reverse = x := by
  rw [value, List.reverse_reverse, Nat.ofDigits_digits]

theorem strip_digits (hb : 1 < b) (x : ℕ) :
    strip (Nat.digits b x).reverse = (Nat.digits b x).reverse := by
  have hlt : ∀ d ∈ (Nat.digits b x).reverse, d < b := fun d hd ↦
    Nat.digits_lt_base hb (List.mem_reverse.mp hd)
  rw [strip_eq_digits hb hlt, value_digits]

/-! ### Multiplying in place -/

/-- `m * ds + c` in place, from the low digit up, with the carry that is left over. -/
def mulAdd (b m c : ℕ) (ds : List ℕ) : List ℕ × ℕ :=
  ds.foldr (fun d s ↦ ((s.2 + m * d) % b :: s.1, (s.2 + m * d) / b)) ([], c)

@[simp] theorem length_mulAdd (b m c : ℕ) (ds : List ℕ) : (mulAdd b m c ds).1.length = ds.length := by
  induction ds with
  | nil => rfl
  | cons d ds ih => exact congrArg Nat.succ ih

theorem value_mulAdd (b m c : ℕ) (ds : List ℕ) :
    value b (mulAdd b m c ds).1 + (mulAdd b m c ds).2 * b ^ ds.length = m * value b ds + c := by
  induction ds with
  | nil => simp [mulAdd]
  | cons d ds ih =>
    have hdiv := Nat.mod_add_div ((mulAdd b m c ds).2 + m * d) b
    change value b (((mulAdd b m c ds).2 + m * d) % b :: (mulAdd b m c ds).1) +
      ((mulAdd b m c ds).2 + m * d) / b * b ^ (ds.length + 1) = _
    rw [value_cons, value_cons, length_mulAdd]
    linear_combination ih + b ^ ds.length * hdiv

theorem mulAdd_lt (hb : 0 < b) (m c : ℕ) (ds : List ℕ) : ∀ d ∈ (mulAdd b m c ds).1, d < b := by
  induction ds with
  | nil => exact fun d hd ↦ absurd hd List.not_mem_nil
  | cons d ds ih =>
    intro e he
    obtain rfl | he := List.mem_cons.mp he
    · exact Nat.mod_lt _ hb
    · exact ih e he

/-- A buffer of `L` digits that holds the number `x`. -/
structure Holds (b L x : ℕ) (ds : List ℕ) : Prop where
  length_eq : ds.length = L
  lt : ∀ d ∈ ds, d < b
  value_eq : value b ds = x

theorem holds_zero (hb : 0 < b) (L : ℕ) : Holds b L 0 (List.replicate L 0) where
  length_eq := List.length_replicate
  lt := fun _ hd ↦ List.eq_of_mem_replicate hd ▸ hb
  value_eq := value_replicate_zero b L

/-- Where the result fits, nothing is carried out of the buffer. -/
theorem Holds.mulAdd (hb : 1 < b) (h : Holds b L x ds) (hfit : m * x + c < b ^ L) :
    (mulAdd b m c ds).2 = 0 ∧ Holds b L (m * x + c) (mulAdd b m c ds).1 := by
  have hvalue := value_mulAdd b m c ds
  rw [h.value_eq, h.length_eq] at hvalue
  have hcarry : (Radix.mulAdd b m c ds).2 = 0 := by
    by_contra hne
    have hle : b ^ L ≤ (Radix.mulAdd b m c ds).2 * b ^ L :=
      Nat.le_mul_of_pos_left _ (Nat.pos_of_ne_zero hne)
    omega
  rw [hcarry, Nat.zero_mul, Nat.add_zero] at hvalue
  exact ⟨hcarry, (length_mulAdd b m c ds).trans h.length_eq,
    mulAdd_lt (Nat.zero_lt_of_lt hb) m c ds, hvalue⟩

/-- The size of a buffer for another base: where `p / q` of a digit is enough for one, so is the
larger rate `M / N`, rounded up. -/
theorem pow_le_pow_size {a p q M N : ℕ} (hb : 0 < b) (hq : 0 < q) (hN : 0 < N)
    (hbase : a ^ q ≤ b ^ p) (hrate : p * N ≤ q * M) (n : ℕ) : a ^ n ≤ b ^ (n * M / N + 1) := by
  have hsize : n * p ≤ q * (n * M / N + 1) := by
    have hup : n * M < N * (n * M / N + 1) := Nat.lt_mul_div_succ (n * M) hN
    have hmul : n * p * N ≤ q * (n * M / N + 1) * N := by
      calc n * p * N = n * (p * N) := Nat.mul_assoc n p N
        _ ≤ n * (q * M) := Nat.mul_le_mul_left n hrate
        _ = q * (n * M) := by ring
        _ ≤ q * (N * (n * M / N + 1)) := Nat.mul_le_mul_left q hup.le
        _ = q * (n * M / N + 1) * N := by ring
    exact Nat.le_of_mul_le_mul_right hmul hN
  apply (Nat.pow_le_pow_iff_left hq.ne').mp
  calc (a ^ n) ^ q = (a ^ q) ^ n := by rw [← pow_mul, ← pow_mul, Nat.mul_comm]
    _ ≤ (b ^ p) ^ n := Nat.pow_le_pow_left hbase n
    _ = b ^ (n * p) := by rw [← pow_mul, Nat.mul_comm]
    _ ≤ b ^ (q * (n * M / N + 1)) := Nat.pow_le_pow_right hb hsize
    _ = (b ^ (n * M / N + 1)) ^ q := by rw [← pow_mul, Nat.mul_comm]

/-! ### Letters -/

section Letters

variable {α : Type*} [DecidableEq α] {letters : List α} {z : α} {d : ℕ}

theorem idxOf?_getD (hnodup : letters.Nodup) (hd : d < letters.length) :
    letters.idxOf? (letters.getD d z) = some d := by
  rw [List.getD_eq_getElem _ _ hd, List.idxOf?_eq_some_iff]
  refine ⟨hd, rfl, fun j hj heq ↦ ?_⟩
  exact hj.ne ((hnodup.getElem_inj_iff).mp heq)

theorem getD_of_idxOf? {c : α} (h : letters.idxOf? c = some d) :
    d < letters.length ∧ letters.getD d z = c := by
  obtain ⟨hd, heq, -⟩ := List.idxOf?_eq_some_iff.mp h
  exact ⟨hd, by rw [List.getD_eq_getElem _ _ hd, heq]⟩

end Letters

end Radix
