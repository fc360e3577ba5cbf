import Bitmark.Base.Stream
import Bitmark.Lib.Codec

/-!
# Variable-length integers

`WriteVarInt` and `ReadVarInt` (`src/serialize.h:266–309`) for any integer type: base 128 with
the most significant digit first, where every digit but the last carries the high bit and counts
from one. A negative number is below the bound that ends the loop, so only its low seven bits
are written.
-/

namespace Bitmark

open Codec

/-- The loop of `GetSizeOfVarInt`. -/
def getSizeOfVarInt (n : Int) : Nat :=
  if n ≤ 0x7F then 1 else getSizeOfVarInt (n / 128 - 1) + 1
  termination_by n.toNat

/-- The loop of `WriteVarInt`; `tmp` holds the digits written so far, the highest first, and
`mark` is the high bit of the next one. -/
def writeVarIntLoop (n : Int) (mark : Nat) (tmp : Bytes) : Bytes :=
  let tmp := UInt8.ofNat ((n % 128).toNat + mark) :: tmp
  if n ≤ 0x7F then tmp else writeVarIntLoop (n / 128 - 1) 0x80 tmp
  termination_by n.toNat

/-- `WriteVarInt`, `src/serialize.h:279`. -/
def writeVarInt (n : Int) : Bytes := writeVarIntLoop n 0 []

/-- The loop of `ReadVarInt` for an integer type, given by how it stores a number. -/
def readVarIntLoopAs (store : Int → Int) (n : Int) : Stream Int
  | [] => none
  | chData :: s =>
    let n := store (n * 128 + (chData.toNat % 128 : Nat))
    if 0x80 ≤ chData.toNat then readVarIntLoopAs store (store (n + 1)) s else some (n, s)

/-- `ReadVarInt`, `src/serialize.h:296`. -/
def readVarIntAs (store : Int → Int) : Stream Int := readVarIntLoopAs store 0

/-- `ReadVarInt<unsigned int>` and `ReadVarInt<uint64_t>`. -/
def readVarUint (width : Nat) : Stream Nat := Int.toNat <$> readVarIntAs (· % 2 ^ width)

/-- `ReadVarInt<int>`. -/
def readVarInt32 : Stream (BitVec 32) := BitVec.ofInt 32 <$> readVarIntAs fun n ↦ n.bmod (2 ^ 32)

/-- The loop of `ReadVarInt<int64_t>`. -/
def readVarIntLoop (n : Int) : Stream Int
  | [] => none
  | chData :: s =>
    let n := toInt64 (n * 128 + (chData.toNat % 128 : Nat))
    if 0x80 ≤ chData.toNat then readVarIntLoop (toInt64 (n + 1)) s else some (n, s)

/-- `ReadVarInt<int64_t>`. -/
def readVarInt : Stream Int := readVarIntLoop 0

theorem readVarIntLoop_eq (n : Int) (s : Bytes) : readVarIntLoop n s = readVarIntLoopAs toInt64 n s := by
  induction s generalizing n with
  | nil => rfl
  | cons chData s ih => simp only [readVarIntLoop, readVarIntLoopAs, ih]

/-! ### Sizes -/

private theorem writeVarIntLoop_append (n : Int) (mark : Nat) (tmp rest : Bytes) :
    writeVarIntLoop n mark tmp ++ rest = writeVarIntLoop n mark (tmp ++ rest) := by
  fun_induction writeVarIntLoop n mark tmp with
  | case1 n mark tmp tmp' h => rw [writeVarIntLoop, if_pos h, List.cons_append]
  | case2 n mark tmp tmp' h ih =>
    rw [ih, writeVarIntLoop.eq_def n mark (tmp ++ rest), if_neg h, List.cons_append]

private theorem length_writeVarIntLoop (n : Int) (mark : Nat) (tmp : Bytes) :
    (writeVarIntLoop n mark tmp).length = getSizeOfVarInt n + tmp.length := by
  fun_induction writeVarIntLoop n mark tmp with
  | case1 n mark tmp tmp' h =>
    rw [getSizeOfVarInt, if_pos h, List.length_cons, Nat.add_comm]
  | case2 n mark tmp tmp' h ih =>
    rw [getSizeOfVarInt, if_neg h, ih, List.length_cons]
    omega

/-- `GetSizeOfVarInt` is the number of bytes written. -/
theorem length_writeVarInt (n : Int) : (writeVarInt n).length = getSizeOfVarInt n :=
  length_writeVarIntLoop n 0 []

/-- Of a negative number only the low seven bits are written. -/
theorem writeVarInt_of_neg {n : Int} (h : n < 0) : writeVarInt n = writeVarInt (n % 128) := by
  have hsmall : n % 128 ≤ 0x7F := by omega
  rw [writeVarInt, writeVarIntLoop.eq_def, if_pos (by omega), writeVarInt,
    writeVarIntLoop.eq_def, if_pos hsmall, Int.emod_emod]

/-! ### Reading back -/

section Reading

variable {store : Int → Int} {bound : Int} (hstore : ∀ x, 0 ≤ x → x < bound → store x = x)
include hstore

/-- Reading one digit after the number of the digits before it. -/
private theorem readVarIntLoop_digit {n : Int} {mark : Nat} (hmark : mark = 0 ∨ mark = 128)
    (hlo : 0 ≤ n) (hhi : n < bound) (s : Bytes) :
    readVarIntLoopAs store (n / 128) (UInt8.ofNat ((n % 128).toNat + mark) :: s) =
      if mark = 0 then some (n, s) else readVarIntLoopAs store (store (n + 1)) s := by
  have hbyte : (UInt8.ofNat ((n % 128).toNat + mark)).toNat = (n % 128).toNat + mark := by
    rw [UInt8.toNat_ofNat']
    exact Nat.mod_eq_of_lt (by omega)
  have hvalue : n / 128 * 128 + (((n % 128).toNat + mark) % 128 : Nat) = n := by
    rcases hmark with rfl | rfl <;> omega
  simp only [readVarIntLoopAs, hbyte, hvalue, hstore n hlo hhi]
  rcases hmark with rfl | rfl
  · rw [if_neg (by omega), if_pos rfl]
  · rw [if_pos (by omega), if_neg (by decide)]

private theorem readVarIntLoop_write {n : Int} {mark : Nat} (hmark : mark = 0 ∨ mark = 128)
    (hlo : 0 ≤ n) (hhi : n < bound) (s : Bytes) :
    readVarIntLoopAs store 0 (writeVarIntLoop n mark s) =
      if mark = 0 then some (n, s) else readVarIntLoopAs store (store (n + 1)) s := by
  induction h : n.toNat using Nat.strongRecOn generalizing n mark s with
  | ind k ih =>
    have hdigit := readVarIntLoop_digit hstore hmark hlo hhi s
    rw [writeVarIntLoop]
    split
    · have hzero : n / 128 = 0 := by omega
      rw [← hdigit, hzero]
    · rw [ih _ (by omega) (.inr rfl) (by omega) (by omega) _ rfl, if_neg (by decide),
        sub_add_cancel, hstore (n / 128) (by omega) (by omega), hdigit]

/-- A number that the type stores as it is comes back as it was written. -/
theorem reads_varInt {n : Int} (hlo : 0 ≤ n) (hhi : n < bound) :
    Reads (readVarIntAs store) n (writeVarInt n) := by
  intro rest
  rw [writeVarInt, writeVarIntLoop_append, List.nil_append, readVarIntAs,
    readVarIntLoop_write hstore (.inl rfl) hlo hhi rest, if_pos rfl]

end Reading

theorem reads_varUint {width n : Nat} (h : n < 2 ^ width) :
    Reads (readVarUint width) n (writeVarInt n) := by
  have hread : Reads (readVarIntAs (· % 2 ^ width)) (n : Int) (writeVarInt n) := by
    have hlt : (n : Int) < 2 ^ width := by exact_mod_cast h
    exact reads_varInt (fun x hlo hhi ↦ Int.emod_eq_of_lt hlo hhi) (Int.natCast_nonneg n) hlt
  exact hread.map Int.toNat

theorem reads_varInt32 {w : BitVec 32} (h : 0 ≤ w.toInt) :
    Reads readVarInt32 w (writeVarInt w.toInt) := by
  have hread : Reads (readVarIntAs fun n ↦ n.bmod (2 ^ 32)) w.toInt (writeVarInt w.toInt) := by
    have hlt : w.toInt < 2 ^ 31 := by
      have := w.toInt_lt
      simpa using this
    refine reads_varInt (fun x hlo (hhi : x < 2 ^ 31) ↦ ?_) h hlt
    exact Int.bmod_eq_of_le (by omega) (by omega)
  have hword := hread.map (BitVec.ofInt 32)
  rwa [BitVec.ofInt_toInt] at hword

/-! ### One encoding for each number -/

/-- Reading `s` after the digits of `n` drops a bit or wraps around in some round of the loop. -/
def varIntWraps (width : Nat) (n : Int) : Bytes → Bool
  | [] => false
  | chData :: s =>
    let n := n * 128 + (chData.toNat % 128 : Nat)
    2 ^ width ≤ n || (0x80 ≤ chData.toNat && (2 ^ width ≤ n + 1 || varIntWraps width (n + 1) s))

/-- The digits that `ReadVarInt` has read when it stands at `n`. -/
private def digitsRead (n : Int) : Bytes := if n = 0 then [] else writeVarIntLoop (n - 1) 0x80 []

private theorem writeVarIntLoop_digit {n : Int} (hn : 0 ≤ n) {d : Nat} (hd : d < 128) (mark : Nat) :
    writeVarIntLoop (n * 128 + d) mark [] = digitsRead n ++ [UInt8.ofNat (d + mark)] := by
  have hlow : ((n * 128 + d) % 128).toNat = d := by omega
  have hhigh : (n * 128 + d) / 128 = n := by omega
  rw [writeVarIntLoop, digitsRead, hlow, hhigh]
  by_cases hzero : n = 0
  · rw [if_pos hzero, if_pos (by omega), List.nil_append]
  · rw [if_neg hzero, if_neg (by omega), writeVarIntLoop_append, List.nil_append]

private theorem ofNat_digit {chData : UInt8} (hlast : chData.toNat < 128) :
    UInt8.ofNat (chData.toNat % 128 + 0) = chData := by
  rw [Nat.mod_eq_of_lt hlast, Nat.add_zero, UInt8.ofNat_toNat]

private theorem ofNat_digit_marked {chData : UInt8} (hmark : 128 ≤ chData.toNat) :
    UInt8.ofNat (chData.toNat % 128 + 0x80) = chData := by
  have hlt := chData.toNat_lt
  rw [show chData.toNat % 128 + 0x80 = chData.toNat by omega, UInt8.ofNat_toNat]

-- The induction is on the bytes left, with the digits before them as the invariant.
private theorem readVarIntLoop_canonical {width : Nat} {n v : Int} {s r : Bytes} (hn : 0 ≤ n)
    (hread : readVarIntLoopAs (· % 2 ^ width) n s = some (v, r))
    (hwraps : varIntWraps width n s = false) :
    digitsRead n ++ s = writeVarInt v ++ r ∧ 0 ≤ v ∧ v < 2 ^ width := by
  induction s generalizing n with
  | nil => cases hread
  | cons chData s ih =>
    have hdigit : chData.toNat % 128 < 128 := Nat.mod_lt _ (by decide)
    simp only [varIntWraps, Bool.or_eq_false_iff, decide_eq_false_iff_not, not_le] at hwraps
    obtain ⟨hfits, hmore⟩ := hwraps
    have hstore : (n * 128 + (chData.toNat % 128 : Nat)) % 2 ^ width =
        n * 128 + (chData.toNat % 128 : Nat) := Int.emod_eq_of_lt (by omega) hfits
    simp only [readVarIntLoopAs, hstore] at hread
    split at hread
    · next hmark =>
      simp only [hmark, decide_true, Bool.true_and, Bool.or_eq_false_iff, decide_eq_false_iff_not,
        not_le] at hmore
      rw [Int.emod_eq_of_lt (by omega) hmore.1] at hread
      obtain ⟨hs, hv⟩ := ih (by omega) hread hmore.2
      refine ⟨?_, hv⟩
      rw [← hs, digitsRead.eq_def (_ + 1), if_neg (by omega), add_sub_cancel_right,
        writeVarIntLoop_digit hn hdigit, ofNat_digit_marked hmark, List.append_assoc,
        List.singleton_append]
    · next hlast =>
      obtain ⟨rfl, rfl⟩ := Prod.mk.inj (Option.some.inj hread)
      refine ⟨?_, by omega, hfits⟩
      rw [writeVarInt, writeVarIntLoop_digit hn hdigit, ofNat_digit (by omega), List.append_assoc,
        List.singleton_append]

/-- What is accepted without wrapping around is what is written. -/
theorem canonical_varUint {width n : Nat} {s r : Bytes} (hread : readVarUint width s = some (n, r))
    (hwraps : varIntWraps width 0 s = false) : s = writeVarInt n ++ r ∧ n < 2 ^ width := by
  obtain ⟨v, hv, rfl⟩ := map_eq_some.mp hread
  obtain ⟨hs, hnonneg, hlt⟩ := readVarIntLoop_canonical le_rfl hv hwraps
  rw [Int.toNat_of_nonneg hnonneg]
  refine ⟨by simpa [digitsRead] using hs, ?_⟩
  have hcast : (v.toNat : Int) < 2 ^ width := by rwa [Int.toNat_of_nonneg hnonneg]
  exact_mod_cast hcast

/-! ### Signed numbers -/

/-- A nonnegative number is read back as it was written. -/
theorem readVarInt_writeVarInt {n : Int} (hlo : 0 ≤ n) (hhi : n < 2 ^ 63) :
    readVarInt (writeVarInt n) = some (n, []) := by
  have hread : Reads (readVarIntAs toInt64) n (writeVarInt n) :=
    reads_varInt (fun x hx hx' ↦ toInt64_of_range (by omega) hx') hlo hhi
  rw [readVarInt, readVarIntLoop_eq]
  simpa [readVarIntAs] using hread []

/-- Of a negative number the low seven bits come back. -/
theorem readVarInt_writeVarInt_of_neg {n : Int} (h : n < 0) :
    readVarInt (writeVarInt n) = some (n % 128, []) := by
  rw [writeVarInt_of_neg h]
  exact readVarInt_writeVarInt (by omega) (by omega)

end Bitmark
