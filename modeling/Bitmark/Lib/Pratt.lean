import Mathlib.Data.List.Prime
import Mathlib.NumberTheory.LucasPrimality

/-!
# Certified primes

A number is prime when some residue has the order that only a prime allows, which the prime factors
of the number less one decide. The test computes powers by squaring and can be evaluated.
-/

namespace Pratt

/-- The square modulo `m`. The cases have an evaluation compute `r` before it is used twice. -/
def square (m : ℕ) : ℕ → ℕ
  | 0 => 0
  | r + 1 => (r + 1) * (r + 1) % m

theorem square_eq (m r : ℕ) : square m r = r * r % m := by
  cases r with
  | zero => exact (Nat.zero_mod m).symm
  | succ r => rfl

/-- `a ^ n` modulo `m`, where `n` has at most `bits` bits. -/
def powMod (m a : ℕ) : (bits n : ℕ) → ℕ
  | 0, _ => 1 % m
  | bits + 1, n =>
    if n % 2 = 0 then square m (powMod m a bits (n / 2))
    else square m (powMod m a bits (n / 2)) * a % m

theorem powMod_eq (m a : ℕ) {bits n : ℕ} (h : n < 2 ^ bits) : powMod m a bits n = a ^ n % m := by
  induction bits generalizing n with
  | zero =>
    obtain rfl : n = 0 := by omega
    rfl
  | succ bits ih =>
    have hsquare : square m (powMod m a bits (n / 2)) = a ^ (n / 2 + n / 2) % m := by
      rw [square_eq, ih (by omega), ← Nat.mul_mod, Nat.pow_add]
    rw [powMod, hsquare]
    split
    case isTrue heven =>
      have hn : n / 2 + n / 2 = n := by omega
      rw [hn]
    case isFalse hodd =>
      have hn : n / 2 + n / 2 + 1 = n := by omega
      rw [Nat.mod_mul_mod, ← pow_succ, hn]

/-- The test of Lucas with a residue `a` and the prime factors of `p - 1`. -/
def test (p a : ℕ) (factors : List ℕ) : Bool :=
  decide (1 < p ∧ p < 2 ^ 256) && factors.prod == p - 1 && powMod p a 256 (p - 1) == 1 &&
    factors.all fun q ↦ powMod p a 256 ((p - 1) / q) != 1

theorem pow_eq_one_iff {p : ℕ} (hp : 1 < p) (a n : ℕ) : (a : ZMod p) ^ n = 1 ↔ a ^ n % p = 1 := by
  rw [← Nat.cast_pow, ← Nat.cast_one, ZMod.natCast_eq_natCast_iff', Nat.mod_eq_of_lt hp]

/-- A number that passes the test with prime factors is prime. -/
theorem prime_of_test {p : ℕ} (a : ℕ) (factors : List ℕ) (hfactors : ∀ q ∈ factors, q.Prime)
    (h : test p a factors = true) : p.Prime := by
  simp only [test, Bool.and_eq_true, decide_eq_true_eq, beq_iff_eq, List.all_eq_true,
    bne_iff_ne] at h
  obtain ⟨⟨⟨⟨hone, hlt⟩, hprod⟩, hfull⟩, hproper⟩ := h
  refine lucas_primality p a ?_ ?_
  · rw [pow_eq_one_iff hone, ← powMod_eq p a (show p - 1 < 2 ^ 256 by omega), hfull]
  · intro q hq hdvd
    rw [← hprod] at hdvd
    have hmem : q ∈ factors :=
      mem_list_primes_of_dvd_prod hq.prime (fun r hr ↦ (hfactors r hr).prime) hdvd
    have hquotient : (p - 1) / q < 2 ^ 256 := (Nat.div_le_self _ _).trans_lt (by omega)
    rw [Ne, pow_eq_one_iff hone, ← powMod_eq p a hquotient]
    exact hproper q hmem

/-- Certificates `(p, a, factors)`, each of which may take its factors from the given primes and from
the numbers of those behind it. -/
def testAll (primes : List ℕ) : List (ℕ × ℕ × List ℕ) → Bool
  | [] => true
  | (p, a, factors) :: certificates =>
    factors.all (fun q ↦ primes.contains q || (certificates.map Prod.fst).contains q) &&
      test p a factors && testAll primes certificates

/-- The numbers of a list of certificates that passes are prime. -/
theorem prime_of_testAll {primes : List ℕ} {certificates : List (ℕ × ℕ × List ℕ)}
    (hprimes : ∀ q ∈ primes, q.Prime) (h : testAll primes certificates = true) :
    ∀ p ∈ certificates.map Prod.fst, p.Prime := by
  induction certificates with
  | nil => exact fun p hp ↦ absurd hp List.not_mem_nil
  | cons certificate certificates ih =>
    obtain ⟨p, a, factors⟩ := certificate
    simp only [testAll, Bool.and_eq_true, List.all_eq_true, Bool.or_eq_true,
      List.contains_iff_mem] at h
    obtain ⟨⟨hfactors, htest⟩, hrest⟩ := h
    have hbehind := ih hrest
    refine List.forall_mem_cons.mpr ⟨prime_of_test a factors ?_ htest, hbehind⟩
    intro q hq
    exact (hfactors q hq).elim (hprimes q) (hbehind q)

end Pratt
