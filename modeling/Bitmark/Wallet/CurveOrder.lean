import Bitmark.Lib.Pratt
import Bitmark.Wallet.ExtKeys
import Mathlib.Tactic.NormNum.Prime

/-!
# The order is prime

The order of the group of secp256k1, with the primes on the way to its certificate.
-/

namespace Bitmark

open Pratt

/-- The certificate of the order, and those of the primes it rests on. -/
def orderCertificates : List (ℕ × ℕ × List ℕ) :=
  [(curveOrder, 7, [107361793816595537, 174723607534414371449, 341948486974166000522343609283189,
      2, 2, 2, 2, 2, 2, 3, 149, 631]),
    (341948486974166000522343609283189, 2, [29047611873442575647497758179, 2, 2, 3, 3, 3, 109]),
    (29047611873442575647497758179, 2, [545358713, 297159362677, 2, 293, 305873]),
    (174723607534414371449, 3, [44706919, 2, 2, 2, 17, 59, 4051, 120233]),
    (107361793816595537, 3, [2, 2, 2, 2, 16699, 85831, 4681609]),
    (297159362677, 2, [2, 2, 3, 3, 11, 461, 1627771]),
    (545358713, 5, [2, 2, 2, 41, 59, 28181]),
    (44706919, 6, [2, 3, 797, 9349])]

/-- The primes without a certificate. -/
def smallPrimes : List ℕ :=
  [2, 3, 11, 17, 41, 59, 109, 149, 293, 461, 631, 797, 4051, 9349, 16699, 28181, 85831, 120233,
    305873, 1627771, 4681609]

theorem prime_of_mem_smallPrimes : ∀ q ∈ smallPrimes, q.Prime := by
  simp only [smallPrimes, List.forall_mem_cons]
  norm_num

theorem prime_curveOrder : Nat.Prime curveOrder :=
  have htest : testAll smallPrimes orderCertificates = true := by decide +kernel
  prime_of_testAll prime_of_mem_smallPrimes htest curveOrder List.mem_cons_self

instance : Fact curveOrder.Prime := ⟨prime_curveOrder⟩

end Bitmark
