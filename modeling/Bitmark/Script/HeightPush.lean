import Bitmark.Script.Script

/-!
# The height in a coinbase

A coinbase script starts with `CScript() << nHeight`. Two heights never start the same script.
-/

namespace Bitmark

theorem leNat_append_zero (bs : Bytes) : leNat (bs ++ [0]) = leNat bs := by
  induction bs with
  | nil => rfl
  | cons b bs ih => rw [List.cons_append, leNat, leNat, ih]

theorem leNat_magnitudeBytes {fuel n : Nat} (h : n < 256 ^ fuel) :
    leNat (magnitudeBytes fuel n) = n := by
  induction fuel generalizing n with
  | zero =>
    rw [pow_zero] at h
    rw [magnitudeBytes, leNat]
    omega
  | succ fuel ih =>
    rw [magnitudeBytes]
    split
    · next hzero => rw [hzero, leNat]
    · rw [leNat, ih (Nat.div_lt_of_lt_mul (by rwa [pow_succ, Nat.mul_comm] at h))]
      have hbyte : (UInt8.ofNat (n % 256)).toNat = n % 256 :=
        Nat.mod_eq_of_lt (Nat.mod_lt n (by decide))
      omega

/-- The magnitude of a number that is not negative is what its bytes say. -/
theorem leNat_scriptNumSerialize {n : Nat} (h : n < 2 ^ 64) : leNat (scriptNumSerialize n) = n := by
  have hbytes : leNat (magnitudeBytes 8 n) = n := leNat_magnitudeBytes h
  have hsign : ¬ (n : Int) < 0 := Int.not_lt.mpr (Int.natCast_nonneg n)
  unfold scriptNumSerialize
  simp only [Int.natAbs_natCast, hsign, if_false]
  split
  · next hnone =>
    rw [List.getLast?_eq_none_iff.mp hnone] at hbytes
    exact hbytes
  · split
    · rw [leNat_append_zero, hbytes]
    · exact hbytes

theorem length_scriptNumSerialize_lt (value : Int) : (scriptNumSerialize value).length < 10 := by
  have hmagnitude : ∀ fuel absvalue, (magnitudeBytes fuel absvalue).length ≤ fuel := by
    intro fuel
    induction fuel with
    | zero => exact fun _ ↦ le_rfl
    | succ fuel ih =>
      intro absvalue
      rw [magnitudeBytes]
      split
      · exact Nat.zero_le _
      · exact Nat.succ_le_succ (ih _)
  have h := hmagnitude 8 value.natAbs
  unfold scriptNumSerialize
  dsimp only
  split
  · decide
  · split
    · rw [List.length_append, List.length_singleton]
      omega
    · split
      · rw [List.length_append, List.length_dropLast, List.length_singleton]
        omega
      · omega

/-- The push of a height that is not a small constant: its length and its bytes. -/
theorem pushInt64_of_large {n : Nat} (h : ¬ (1 ≤ n ∧ n ≤ 16)) :
    pushInt64 n = UInt8.ofNat (scriptNumSerialize n).length :: scriptNumSerialize n := by
  have hlength := length_scriptNumSerialize_lt n
  rw [pushInt64, if_neg (by omega), pushBytes, if_pos]
  exact hlength.trans (by decide)

private theorem pushInt64_of_small {n : Nat} (h : 1 ≤ n ∧ n ≤ 16) :
    pushInt64 n = [UInt8.ofNat (n + 80)] := by
  rw [pushInt64, if_pos (.inr (by omega))]
  congr 2

/-- The height that starts a script is determined by it. -/
theorem eq_of_pushInt64_isPrefixOf {a b : Nat} {script : Bytes} (hsize : a < 2 ^ 64 ∧ b < 2 ^ 64)
    (ha : (pushInt64 a).isPrefixOf script = true) (hb : (pushInt64 b).isPrefixOf script = true) :
    a = b := by
  rw [List.isPrefixOf_iff_prefix] at ha hb
  have hbyte : ∀ n : Nat, n < 256 → (UInt8.ofNat n).toNat = n := fun n hn ↦ Nat.mod_eq_of_lt hn
  -- a small constant and a length start with different bytes
  have hmixed : ∀ m n : Nat, 1 ≤ m ∧ m ≤ 16 → ¬ (1 ≤ n ∧ n ≤ 16) →
      pushInt64 m <+: script → pushInt64 n <+: script → False := by
    intro m n hm hn hpm hpn
    rw [pushInt64_of_small hm] at hpm
    rw [pushInt64_of_large hn] at hpn
    obtain ⟨rest, rfl⟩ := hpm
    have hhead := (List.cons_prefix_cons.mp hpn).1
    have hlength := length_scriptNumSerialize_lt n
    have := congrArg UInt8.toNat hhead
    rw [hbyte _ (by omega), hbyte _ (by omega)] at this
    omega
  by_cases hsa : 1 ≤ a ∧ a ≤ 16
  · by_cases hsb : 1 ≤ b ∧ b ≤ 16
    · rw [pushInt64_of_small hsa] at ha
      rw [pushInt64_of_small hsb] at hb
      obtain ⟨rest, rfl⟩ := ha
      have hhead := (List.cons_prefix_cons.mp hb).1
      have := congrArg UInt8.toNat hhead
      rw [hbyte _ (by omega), hbyte _ (by omega)] at this
      omega
    · exact (hmixed a b hsa hsb ha hb).elim
  · by_cases hsb : 1 ≤ b ∧ b ≤ 16
    · exact (hmixed b a hsb hsa hb ha).elim
    · rw [pushInt64_of_large hsa] at ha
      rw [pushInt64_of_large hsb] at hb
      obtain ⟨rest, rfl⟩ := ha
      rw [List.cons_append, List.cons_prefix_cons] at hb
      have hla := length_scriptNumSerialize_lt a
      have hlb := length_scriptNumSerialize_lt b
      have hlength := congrArg UInt8.toNat hb.1
      rw [hbyte _ (by omega), hbyte _ (by omega)] at hlength
      have heq : scriptNumSerialize b = scriptNumSerialize a :=
        (List.prefix_append_right_inj []).mp
          (List.prefix_of_prefix_length_le hb.2 (List.prefix_append _ _) hlength.le) |>.eq_of_length
          hlength
      have := congrArg leNat heq
      rw [leNat_scriptNumSerialize hsize.1, leNat_scriptNumSerialize hsize.2] at this
      exact this.symm

end Bitmark
