import Bitmark.Base.BaseUintHex

/-!
# Arithmetic modulo `2 ^ BITS`

The operators of `base_uint` together: on every pair of values and every shift count they answer,
and the answer is that of the arithmetic modulo `2 ^ BITS`. Values of `WIDTH` limbs stand for words
of `BitVec`, and `uint256` of the other modules is such a word.
-/

namespace Bitmark

open Limbs

namespace BaseUint

variable {WIDTH : ℕ}

/-- Every operator answers, so no access leaves the limbs, and with the number that arithmetic
modulo `2 ^ (32 * WIDTH)` gives. -/
structure Modular (WIDTH : ℕ) : Prop where
  add : ∀ a b : BaseUint WIDTH,
    (addAssign a b).map num = some ((num a + num b) % 2 ^ (32 * WIDTH))
  addUint64 : ∀ (a : BaseUint WIDTH) (b : BitVec 64),
    (addAssignUint64 a b).map num = some ((num a + b.toNat) % 2 ^ (32 * WIDTH))
  sub : ∀ a b : BaseUint WIDTH,
    (subAssign a b).map num = some ((num a + (2 ^ (32 * WIDTH) - num b)) % 2 ^ (32 * WIDTH))
  subUint64 : ∀ (a : BaseUint WIDTH) (b : BitVec 64), (subAssignUint64 a b).map num =
    some ((num a + (2 ^ (32 * WIDTH) - b.toNat)) % 2 ^ (32 * WIDTH))
  neg : ∀ a : BaseUint WIDTH,
    (negate a).map num = some ((2 ^ (32 * WIDTH) - num a) % 2 ^ (32 * WIDTH))
  increment : ∀ a : BaseUint WIDTH,
    (increment a).map num = some ((num a + 1) % 2 ^ (32 * WIDTH))
  postIncrement : ∀ a : BaseUint WIDTH, (postIncrement a).map (Prod.map num num) =
    some (num a, (num a + 1) % 2 ^ (32 * WIDTH))
  decrement : ∀ a : BaseUint WIDTH,
    (decrement a).map num = some ((num a + (2 ^ (32 * WIDTH) - 1)) % 2 ^ (32 * WIDTH))
  postDecrement : ∀ a : BaseUint WIDTH, (postDecrement a).map (Prod.map num num) =
    some (num a, (num a + (2 ^ (32 * WIDTH) - 1)) % 2 ^ (32 * WIDTH))
  shiftLeft : ∀ (a : BaseUint WIDTH) (shift : BitVec 32),
    (shiftLeftAssign a shift).map num = some (num a * 2 ^ shift.toNat % 2 ^ (32 * WIDTH))
  shiftRight : ∀ (a : BaseUint WIDTH) (shift : BitVec 32),
    (shiftRightAssign a shift).map num = some (num a / 2 ^ shift.toNat)
  lt : ∀ a b : BaseUint WIDTH, lt a b = some (decide (num a < num b))
  le : ∀ a b : BaseUint WIDTH, le a b = some (decide (num a ≤ num b))
  gt : ∀ a b : BaseUint WIDTH, gt a b = some (decide (num a > num b))
  ge : ∀ a b : BaseUint WIDTH, ge a b = some (decide (num a ≥ num b))
  eq : ∀ a b : BaseUint WIDTH, eq a b = some (decide (num a = num b))
  ne : ∀ a b : BaseUint WIDTH, ne a b = some (decide (num a ≠ num b))
  assignUint64 : ∀ (pn : BaseUint WIDTH) (b : BitVec 64),
    (assignUint64 pn b).map num = some b.toNat
  ltUint64 : ∀ (a : BaseUint WIDTH) (b : BitVec 64),
    compareUint64 BaseUint.lt a b = some (decide (num a < b.toNat))
  leUint64 : ∀ (a : BaseUint WIDTH) (b : BitVec 64),
    compareUint64 BaseUint.le a b = some (decide (num a ≤ b.toNat))
  gtUint64 : ∀ (a : BaseUint WIDTH) (b : BitVec 64),
    compareUint64 BaseUint.gt a b = some (decide (num a > b.toNat))
  geUint64 : ∀ (a : BaseUint WIDTH) (b : BitVec 64),
    compareUint64 BaseUint.ge a b = some (decide (num a ≥ b.toNat))
  eqUint64 : ∀ (a : BaseUint WIDTH) (b : BitVec 64),
    eqUint64 a b = some (decide (num a = b.toNat))
  neUint64 : ∀ (a : BaseUint WIDTH) (b : BitVec 64),
    neUint64 a b = some (decide (num a ≠ b.toNat))
  setHex : ∀ a pn : BaseUint WIDTH, (getHex a).bind (setHex pn) = some a
  setHexString : ∀ a pn : BaseUint WIDTH, (getHex a).bind (setHexString pn) = some a

end BaseUint

open BaseUint

/-- `base_uint` computes modulo `2 ^ BITS`, whatever its width of at least two limbs. -/
theorem baseUint_modular {WIDTH : ℕ} (hwidth : 2 ≤ WIDTH) : Modular WIDTH where
  add := addAssign_eq
  addUint64 := addAssignUint64_eq hwidth
  sub := subAssign_eq (by omega)
  subUint64 := subAssignUint64_eq hwidth
  neg := negate_eq (by omega)
  increment := increment_eq (by omega)
  postIncrement a := by
    obtain ⟨t, ht, hnum⟩ := Option.map_eq_some_iff.mp (increment_eq (by omega : 0 < WIDTH) a)
    rw [postIncrement, ht, Option.map_some, Option.map_some, Prod.map_apply, hnum]
  decrement := decrement_eq (by omega)
  postDecrement a := by
    obtain ⟨t, ht, hnum⟩ := Option.map_eq_some_iff.mp (decrement_eq (by omega : 0 < WIDTH) a)
    rw [postDecrement, ht, Option.map_some, Option.map_some, Prod.map_apply, hnum]
  shiftLeft := shiftLeftAssign_eq
  shiftRight := shiftRightAssign_eq
  lt := lt_eq
  le := le_eq
  gt := gt_eq
  ge := ge_eq
  eq := eq_eq
  ne := ne_eq
  assignUint64 := assignUint64_eq hwidth
  ltUint64 := compareUint64_eq hwidth lt_eq
  leUint64 := compareUint64_eq hwidth le_eq
  gtUint64 := compareUint64_eq hwidth gt_eq
  geUint64 := compareUint64_eq hwidth ge_eq
  eqUint64 := eqUint64_eq hwidth
  neUint64 := neUint64_eq hwidth
  setHex := setHex_getHex
  setHexString := setHexString_getHex

/-- The widths of `uint160` and `uint256`. -/
theorem baseUint_modular_uint160_uint256 : Modular 5 ∧ Modular 8 :=
  ⟨baseUint_modular (by decide), baseUint_modular (by decide)⟩

namespace BaseUint

variable {WIDTH : ℕ}

/-! ### Words -/

/-- The word that the limbs denote; `Uint256` is the word of eight limbs. -/
def toBitVec (a : BaseUint WIDTH) : BitVec (32 * WIDTH) := BitVec.ofNat _ (num a)

@[simp] theorem toNat_toBitVec (a : BaseUint WIDTH) : a.toBitVec.toNat = num a := by
  rw [toBitVec, BitVec.toNat_ofNat, Nat.mod_eq_of_lt (num_lt a)]

theorem toBitVec_inj {a b : BaseUint WIDTH} : a.toBitVec = b.toBitVec ↔ a = b := by
  rw [← BitVec.toNat_inj, toNat_toBitVec, toNat_toBitVec, num_inj]

theorem map_toBitVec {o : Option (BaseUint WIDTH)} {x : BitVec (32 * WIDTH)}
    (h : o.map num = some x.toNat) : o.map toBitVec = some x := by
  obtain ⟨t, rfl, hnum⟩ := Option.map_eq_some_iff.mp h
  rw [Option.map_some, toBitVec, hnum, BitVec.ofNat_toNat, BitVec.setWidth_eq]

theorem toBitVec_addAssign (a b : BaseUint WIDTH) :
    (addAssign a b).map toBitVec = some (a.toBitVec + b.toBitVec) :=
  map_toBitVec (by rw [addAssign_eq, BitVec.toNat_add, toNat_toBitVec, toNat_toBitVec])

theorem toBitVec_subAssign (hwidth : 0 < WIDTH) (a b : BaseUint WIDTH) :
    (subAssign a b).map toBitVec = some (a.toBitVec - b.toBitVec) :=
  map_toBitVec (by
    rw [subAssign_eq hwidth, BitVec.toNat_sub, toNat_toBitVec, toNat_toBitVec, Nat.add_comm])

theorem toBitVec_negate (hwidth : 0 < WIDTH) (a : BaseUint WIDTH) :
    (negate a).map toBitVec = some (-a.toBitVec) :=
  map_toBitVec (by rw [negate_eq hwidth, BitVec.toNat_neg, toNat_toBitVec])

theorem toBitVec_shiftLeftAssign (a : BaseUint WIDTH) (shift : BitVec 32) :
    (shiftLeftAssign a shift).map toBitVec = some (a.toBitVec <<< shift) :=
  map_toBitVec (by
    rw [shiftLeftAssign_eq, BitVec.shiftLeft_eq', BitVec.toNat_shiftLeft, Nat.shiftLeft_eq,
      toNat_toBitVec])

theorem toBitVec_shiftRightAssign (a : BaseUint WIDTH) (shift : BitVec 32) :
    (shiftRightAssign a shift).map toBitVec = some (a.toBitVec >>> shift) :=
  map_toBitVec (by
    rw [shiftRightAssign_eq, BitVec.ushiftRight_eq', BitVec.toNat_ushiftRight,
      Nat.shiftRight_eq_div_pow, toNat_toBitVec])

theorem lt_eq_toBitVec (a b : BaseUint WIDTH) :
    lt a b = some (decide (a.toBitVec < b.toBitVec)) := by
  simp only [lt_eq, BitVec.lt_def, toNat_toBitVec]

theorem toNat_byte (a : BaseUint WIDTH) (p : ℕ) : (byte a p).toNat = num a / 256 ^ p % 256 := by
  have hpow : 256 ^ p = 2 ^ (8 * p) := (Nat.pow_mul 2 8 p).symm
  apply Nat.eq_of_testBit_eq
  intro i
  rw [byte, UInt8.toNat_ofBitVec, BitVec.testBit_toNat, BitVec.getLsbD_extractLsb', hpow,
    show 256 = 2 ^ 8 from rfl, Nat.testBit_mod_two_pow, Nat.testBit_div_two_pow]
  by_cases hi : i < 8
  · have hsplit : i + 8 * p = 32 * (p / 4) + (8 * (p % 4) + i) := by omega
    rw [hsplit, testBit_num_add a (by omega)]
  · rw [decide_eq_false hi, Bool.false_and, Bool.false_and]

/-- Memory shows the bytes of the word, the low byte first. -/
theorem leBytes_num (a : BaseUint WIDTH) (m : ℕ) :
    leBytes m (num a) = (List.range m).map (byte a) := by
  have hfrom : ∀ p, leBytes m (num a / 256 ^ p) = (List.range' p m).map (byte a) := by
    induction m with
    | zero => exact fun p ↦ rfl
    | succ m ih =>
      intro p
      rw [leBytes, Nat.div_div_eq_div_mul, ← Nat.pow_succ, ih, ← toNat_byte, UInt8.ofNat_toNat]
      rfl
  rw [← Nat.div_one (num a), List.range_eq_range']
  exact hfrom 0

theorem bytes256_toBitVec (a : BaseUint 8) : bytes256 a.toBitVec = (List.range 32).map (byte a) := by
  rw [bytes256, toNat_toBitVec, leBytes_num]

end BaseUint

end Bitmark
