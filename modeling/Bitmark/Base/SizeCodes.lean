import Bitmark.Base.Codec
import Bitmark.Base.VarInt

/-!
# One code for each size

The two codes for sizes of `src/serialize.h`: a variable-length integer has one encoding among the
byte strings that do not wrap around, and of the forms a compact size could be written in only the
shortest is accepted.
-/

namespace Bitmark

open Codec

/-- The forms in which a compact size could hold `n`, the shortest first. -/
def compactForms (n : Nat) : List Bytes :=
  (if n < 253 then [leBytes 1 n] else []) ++ (if n ≤ 0xffff then [253 :: leBytes 2 n] else []) ++
    (if n ≤ 0xffffffff then [254 :: leBytes 4 n] else []) ++ [255 :: leBytes 8 n]

/-- `WriteCompactSize` takes the first form there is. -/
theorem head?_compactForms (n : Nat) : (compactForms n).head? = some (writeCompactSize n) := by
  unfold compactForms writeCompactSize
  by_cases hbyte : n < 253
  · simp [hbyte]
  by_cases hshort : n ≤ 0xffff
  · simp [hbyte, hshort]
  by_cases hword : n ≤ 0xffffffff
  · simp [hbyte, hshort, hword]
  · simp [hbyte, hshort, hword]

/-- Every other form is longer. -/
theorem pairwise_compactForms (n : Nat) :
    (compactForms n).Pairwise fun e e' ↦ e.length < e'.length := by
  unfold compactForms
  split_ifs <;> simp

theorem length_writeCompactSize_lt {n : Nat} {e : Bytes} (he : e ∈ compactForms n)
    (hne : e ≠ writeCompactSize n) : (writeCompactSize n).length < e.length := by
  have hhead := head?_compactForms n
  have hpairs := pairwise_compactForms n
  generalize compactForms n = forms at *
  cases forms with
  | nil => cases he
  | cons first rest =>
    obtain rfl := Option.some.inj hhead
    rcases List.mem_cons.mp he with rfl | hrest
    · exact absurd rfl hne
    · exact (List.pairwise_cons.mp hpairs).1 e hrest

/-- A compact size is accepted exactly as it is written. -/
theorem readCompactSize_eq_some {s r : Bytes} {n : Nat} :
    readCompactSize s = some (n, r) ↔ n ≤ maxSize ∧ s = writeCompactSize n ++ r := by
  constructor
  · intro h
    exact (canonical_compactSize h).symm
  · rintro ⟨hn, rfl⟩
    exact reads_compactSize hn r

/-- Every number of 64 bits comes back from its variable-length code, which has the size announced
for it and is the only one that does not wrap around; a size up to the limit has one compact code
that is accepted, the shortest of its forms. -/
theorem sizeCodes_bijective :
    (∀ n < 2 ^ 64, ∀ r, readVarUint 64 (writeVarInt (n : Nat) ++ r) = some (n, r)) ∧
    (∀ n < 2 ^ 64, getSizeOfVarInt (n : Nat) = (writeVarInt (n : Nat)).length) ∧
    (∀ a b m n, readVarUint 64 a = some (m, []) → varIntWraps 64 0 a = false →
      readVarUint 64 b = some (n, []) → varIntWraps 64 0 b = false → a ≠ b → m ≠ n) ∧
    (∀ s r n, readCompactSize s = some (n, r) ↔ n ≤ maxSize ∧ s = writeCompactSize n ++ r) ∧
    (∀ n, ∀ e ∈ compactForms n, e ≠ writeCompactSize n →
      (writeCompactSize n).length < e.length) := by
  refine ⟨fun n hn r ↦ reads_varUint hn r, fun n _ ↦ (length_writeVarInt n).symm, ?_,
    fun s r n ↦ readCompactSize_eq_some, fun n e he hne ↦ length_writeCompactSize_lt he hne⟩
  rintro a b m n ha hwa hb hwb hne rfl
  obtain ⟨hs, -⟩ := canonical_varUint ha hwa
  obtain ⟨ht, -⟩ := canonical_varUint hb hwb
  exact hne (hs.trans ht.symm)

theorem sizeCodes_bijective_sample :
    readVarUint 64 (writeVarInt (300 : Nat) ++ [7]) = some (300, [7]) ∧
      getSizeOfVarInt (300 : Nat) = (writeVarInt (300 : Nat)).length ∧ 128 ≠ 0 ∧
      readCompactSize (writeCompactSize 300 ++ [7]) = some (300, [7]) ∧
      (writeCompactSize 300).length < (254 :: leBytes 4 300).length := by
  obtain ⟨hread, hsize, hinj, haccept, hshort⟩ := sizeCodes_bijective
  exact ⟨hread 300 (by decide) [7], hsize 300 (by decide),
    hinj [0x80, 0x00] [0x00] 128 0 (by decide) (by decide) (by decide) (by decide) (by decide),
    (haccept _ _ _).mpr ⟨by decide, rfl⟩, hshort 300 _ (by decide) (by decide)⟩

end Bitmark
