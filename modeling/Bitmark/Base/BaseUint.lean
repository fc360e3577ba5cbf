import Bitmark.Base.Word
import Bitmark.Lib.Limbs
import Bitmark.Lib.Loops
import Mathlib.Data.Int.ModEq
import Mathlib.Tactic.LinearCombination
import Mathlib.Tactic.Zify

/-!
# The limbs of `base_uint`

The operators of `src/uint256.h:47–304` work on `WIDTH` limbs of 32 bits, the low limb first.
Every access is checked: an operator answers `none` where it would leave the limbs. Each result is
the one of the arithmetic modulo `2 ^ BITS` on the numbers that the limbs denote.
-/

namespace Bitmark

open Limbs Loops

/-- `base_uint<BITS>`, `src/uint256.h:35`, with `WIDTH = BITS / 32`. -/
abbrev BaseUint (WIDTH : ℕ) := Limbs 32 WIDTH

namespace BaseUint

variable {WIDTH : ℕ}

/-- `operator~`, `src/uint256.h:47`. -/
def complement (a : BaseUint WIDTH) : Option (BaseUint WIDTH) :=
  upto (fun i pn ↦ (load a i).bind fun x ↦ store pn i (~~~x)) WIDTH (Vector.replicate WIDTH 0)

/-- The loop of `operator++` and `operator--`, `src/uint256.h:193–217`: the update of a limb goes on
to the next one where it gives `wrapped`. -/
def ripple (f : BitVec 32 → BitVec 32) (wrapped : BitVec 32) (pn : BaseUint WIDTH) (i : ℕ) :
    Option (BaseUint WIDTH) := do
  let x ← load pn i
  let pn ← store pn i (f x)
  if f x = wrapped ∧ i + 1 < WIDTH then ripple f wrapped pn (i + 1) else some pn
termination_by WIDTH - i

/-- Prefix `operator++`, `src/uint256.h:193`. -/
def increment (a : BaseUint WIDTH) : Option (BaseUint WIDTH) := ripple (· + 1) 0 a 0

/-- Postfix `operator++`, `src/uint256.h:202`: the old value, and the new one in place. -/
def postIncrement (a : BaseUint WIDTH) : Option (BaseUint WIDTH × BaseUint WIDTH) :=
  (increment a).map fun pn ↦ (a, pn)

/-- Prefix `operator--`, `src/uint256.h:210`; the `-1` it compares with is `0xffffffff`. -/
def decrement (a : BaseUint WIDTH) : Option (BaseUint WIDTH) := ripple (· - 1) 0xffffffff a 0

/-- Postfix `operator--`, `src/uint256.h:219`: the old value, and the new one in place. -/
def postDecrement (a : BaseUint WIDTH) : Option (BaseUint WIDTH × BaseUint WIDTH) :=
  (decrement a).map fun pn ↦ (a, pn)

/-- `operator-`, `src/uint256.h:55`. -/
def negate (a : BaseUint WIDTH) : Option (BaseUint WIDTH) := (complement a).bind increment

/-- `operator=(uint64)`, `src/uint256.h:80`, also the constructors from a `uint64`. -/
def assignUint64 (pn : BaseUint WIDTH) (b : BitVec 64) : Option (BaseUint WIDTH) := do
  let pn ← store pn 0 (b.setWidth 32)
  let pn ← store pn 1 ((b >>> 32).setWidth 32)
  upto (fun i pn ↦ store pn (i + 2) 0) (WIDTH - 2) pn

/-- `if (c) pn[m] |= f(a.pn[i])`. -/
def orIf (c : Prop) [Decidable c] (a : BaseUint WIDTH) (i : ℕ) (f : BitVec 32 → BitVec 32)
    (pn : BaseUint WIDTH) (m : ℕ) : Option (BaseUint WIDTH) :=
  if c then (load a i).bind fun x ↦ (load pn m).bind fun y ↦ store pn m (y ||| f x) else some pn

/-- A pass of `operator<<=`, for the limb `i` of the copy `a`. -/
def shiftLeftStep (a : BaseUint WIDTH) (k s i : ℕ) (pn : BaseUint WIDTH) :
    Option (BaseUint WIDTH) := do
  let pn ← orIf (i + k + 1 < WIDTH ∧ s ≠ 0) a i (· >>> (32 - s)) pn (i + k + 1)
  orIf (i + k < WIDTH) a i (· <<< s) pn (i + k)

/-- `operator<<=`, `src/uint256.h:124`. -/
def shiftLeftAssign (a : BaseUint WIDTH) (shift : BitVec 32) : Option (BaseUint WIDTH) :=
  (upto (fun i pn ↦ store pn i 0) WIDTH a).bind
    (upto (shiftLeftStep a (shift.toNat / 32) (shift.toNat % 32)) WIDTH)

/-- A pass of `operator>>=`, for the limb `i` of the copy `a`; the indices it tests are signed. -/
def shiftRightStep (a : BaseUint WIDTH) (k s i : ℕ) (pn : BaseUint WIDTH) :
    Option (BaseUint WIDTH) := do
  let pn ← orIf ((0 : ℤ) ≤ i - k - 1 ∧ s ≠ 0) a i (· <<< (32 - s)) pn (i - k - 1)
  orIf ((0 : ℤ) ≤ i - k) a i (· >>> s) pn (i - k)

/-- `operator>>=`, `src/uint256.h:141`. -/
def shiftRightAssign (a : BaseUint WIDTH) (shift : BitVec 32) : Option (BaseUint WIDTH) :=
  (upto (fun i pn ↦ store pn i 0) WIDTH a).bind
    (upto (shiftRightStep a (shift.toNat / 32) (shift.toNat % 32)) WIDTH)

/-- A pass of `operator+=`, with the limbs so far and the carry of 64 bits. -/
def addStep (b : BaseUint WIDTH) (i : ℕ) (s : BaseUint WIDTH × BitVec 64) :
    Option (BaseUint WIDTH × BitVec 64) := do
  let x ← load s.1 i
  let y ← load b i
  let n := s.2 + x.setWidth 64 + y.setWidth 64
  let pn ← store s.1 i ((n &&& 0xffffffff).setWidth 32)
  some (pn, n >>> 32)

/-- `operator+=`, `src/uint256.h:158`. -/
def addAssign (a b : BaseUint WIDTH) : Option (BaseUint WIDTH) :=
  (upto (addStep b) WIDTH (a, 0)).map Prod.fst

/-- `operator-=`, `src/uint256.h:170`. -/
def subAssign (a b : BaseUint WIDTH) : Option (BaseUint WIDTH) := (negate b).bind (addAssign a)

/-- `operator+=(uint64)`, `src/uint256.h:176`; the temporary starts with any limbs. -/
def addAssignUint64 (a : BaseUint WIDTH) (b64 : BitVec 64) : Option (BaseUint WIDTH) :=
  (assignUint64 (Vector.replicate WIDTH 0) b64).bind (addAssign a)

/-- `operator-=(uint64)`, `src/uint256.h:184`. -/
def subAssignUint64 (a : BaseUint WIDTH) (b64 : BitVec 64) : Option (BaseUint WIDTH) :=
  (assignUint64 (Vector.replicate WIDTH 0) b64).bind fun b ↦ (negate b).bind (addAssign a)

/-! ### Comparisons -/

/-- The loop of the order operators, `src/uint256.h:228–274`, from the high limb down: the first
test that a pair of limbs passes decides, and `equal` is the answer where none does. -/
def compareLoop (yes no : BitVec 32 → BitVec 32 → Bool) (equal : Bool) (a b : BaseUint WIDTH) :
    ℕ → Option Bool
  | 0 => some equal
  | i + 1 => do
    let x ← load a i
    let y ← load b i
    if yes x y then some true
    else if no x y then some false
    else compareLoop yes no equal a b i

/-- `operator<`, `src/uint256.h:228`. -/
def lt (a b : BaseUint WIDTH) : Option Bool :=
  compareLoop (fun x y ↦ x < y) (fun x y ↦ x > y) false a b WIDTH

/-- `operator<=`, `src/uint256.h:240`. -/
def le (a b : BaseUint WIDTH) : Option Bool :=
  compareLoop (fun x y ↦ x < y) (fun x y ↦ x > y) true a b WIDTH

/-- `operator>`, `src/uint256.h:252`. -/
def gt (a b : BaseUint WIDTH) : Option Bool :=
  compareLoop (fun x y ↦ x > y) (fun x y ↦ x < y) false a b WIDTH

/-- `operator>=`, `src/uint256.h:264`. -/
def ge (a b : BaseUint WIDTH) : Option Bool :=
  compareLoop (fun x y ↦ x > y) (fun x y ↦ x < y) true a b WIDTH

/-- The test of `operator==` on a pair of limbs. -/
def sameLimb (a b : BaseUint WIDTH) (i : ℕ) : Option Bool := do
  let x ← load a i
  let y ← load b i
  some (x == y)

/-- `operator==`, `src/uint256.h:276`. -/
def eq (a b : BaseUint WIDTH) : Option Bool := allFrom (sameLimb a b) 0 WIDTH

/-- `operator!=`, `src/uint256.h:296`. -/
def ne (a b : BaseUint WIDTH) : Option Bool := (eq a b).map not

/-- The test of `operator==(uint64)` on a limb above the lowest two. -/
def zeroLimb (a : BaseUint WIDTH) (i : ℕ) : Option Bool := (load a i).map (· == 0)

/-- `operator==(uint64)`, `src/uint256.h:284`. -/
def eqUint64 (a : BaseUint WIDTH) (b : BitVec 64) : Option Bool := do
  let x ← load a 0
  if x ≠ b.setWidth 32 then some false
  else
    let y ← load a 1
    if y ≠ (b >>> 32).setWidth 32 then some false
    else allFrom (zeroLimb a) 2 (WIDTH - 2)

/-- `operator!=(uint64)`, `src/uint256.h:301`. -/
def neUint64 (a : BaseUint WIDTH) (b : BitVec 64) : Option Bool := (eqUint64 a b).map not

/-- An order operator between a value and a `uint64`, which the constructor converts first. -/
def compareUint64 (op : BaseUint WIDTH → BaseUint WIDTH → Option Bool) (a : BaseUint WIDTH)
    (b : BitVec 64) : Option Bool :=
  (assignUint64 (Vector.replicate WIDTH 0) b).bind (op a)

/-! ### Results -/

theorem exists_complement (a : BaseUint WIDTH) :
    ∃ t, complement a = some t ∧ num t + num a + 1 = 2 ^ (32 * WIDTH) := by
  have hlimbs : ∃ t, complement a = some t ∧ ∀ j, j < WIDTH → limb t j = ~~~limb a j := by
    refine upto_spec (fun i t ↦ ∀ j, j < i → limb t j = ~~~limb a j) ?_ ?_
    · exact fun j hj ↦ absurd hj (Nat.not_lt_zero j)
    · intro i t hi hinv
      obtain ⟨u, hu, hself, hother⟩ := exists_store t hi (~~~limb a i)
      refine ⟨u, by rw [load_of_lt a hi]; exact hu, fun j hj ↦ ?_⟩
      obtain hlt | rfl := Nat.lt_succ_iff_lt_or_eq.mp hj
      · rw [hother j hlt.ne, hinv j hlt]
      · exact hself
  obtain ⟨t, ht, hlimb⟩ := hlimbs
  exact ⟨t, ht, num_not hlimb⟩

/-- An update that adds `d` to a limb, where `wrapped` is left when it wraps around, adds `d` to
the number that the limbs from `i` on denote. -/
theorem exists_ripple {f : BitVec 32 → BitVec 32} {wrapped : BitVec 32} {d : ℤ}
    (hf : ∀ x, ((f x).toNat : ℤ) = x.toNat + d - if f x = wrapped then d * 2 ^ 32 else 0)
    (pn : BaseUint WIDTH) {i : ℕ} (hi : i < WIDTH) :
    ∃ t, ripple f wrapped pn i = some t ∧
      (num t : ℤ) ≡ num pn + d * 2 ^ (32 * i) [ZMOD 2 ^ (32 * WIDTH)] := by
  induction hm : WIDTH - i generalizing i pn with
  | zero => omega
  | succ m ih =>
    obtain ⟨u, hu, hself, hother⟩ := exists_store pn hi (f (limb pn i))
    have hnum : (num u : ℤ) = num pn + d * 2 ^ (32 * i) -
        if f (limb pn i) = wrapped then d * 2 ^ (32 * (i + 1)) else 0 := by
      have h := num_update hi hother
      have hlimb := hf (limb pn i)
      rw [hself] at h
      zify at h
      rw [hlimb] at h
      split at h
      case isTrue hw => rw [if_pos hw, Nat.mul_succ, pow_add]; linear_combination h
      case isFalse hw => rw [if_neg hw]; linear_combination h
    rw [ripple, load_of_lt pn hi]
    simp only [Option.bind_eq_bind, Option.bind_some, hu]
    split
    case isTrue hgo =>
      -- the carry goes to the next limb
      obtain ⟨t, ht, hcongr⟩ := ih u hgo.2 (by omega)
      refine ⟨t, ht, hcongr.trans ?_⟩
      rw [hnum, if_pos hgo.1, sub_add_cancel]
    case isFalse hstop =>
      refine ⟨u, rfl, ?_⟩
      rw [hnum]
      split
      case isTrue hw =>
        -- the carry out of the highest limb is lost
        have hlast : i + 1 = WIDTH := by
          by_contra hne
          exact hstop ⟨hw, by omega⟩
        rw [hlast]
        exact Int.modEq_iff_dvd.mpr ⟨d, by ring⟩
      case isFalse => rw [sub_zero]

private theorem map_num_eq {o : Option (BaseUint WIDTH)} {x : ℕ}
    (h : ∃ t, o = some t ∧ (num t : ℤ) ≡ x [ZMOD 2 ^ (32 * WIDTH)]) :
    o.map num = some (x % 2 ^ (32 * WIDTH)) := by
  obtain ⟨t, rfl, hcongr⟩ := h
  have hmod : num t ≡ x [MOD 2 ^ (32 * WIDTH)] := Int.natCast_modEq_iff.mp (mod_cast hcongr)
  rw [Option.map_some, ← hmod, Nat.mod_eq_of_lt (num_lt t)]

theorem increment_eq (hwidth : 0 < WIDTH) (a : BaseUint WIDTH) :
    (increment a).map num = some ((num a + 1) % 2 ^ (32 * WIDTH)) := by
  have hadd : ∀ x : BitVec 32,
      ((x + 1).toNat : ℤ) = x.toNat + 1 - if x + 1 = 0 then 1 * 2 ^ 32 else 0 := by
    intro x
    have hx := x.isLt
    have hone : (1 : BitVec 32).toNat = 1 := rfl
    have hzero : (0 : BitVec 32).toNat = 0 := rfl
    simp only [← BitVec.toNat_inj, BitVec.toNat_add, hone, hzero]
    split <;> omega
  obtain ⟨t, ht, hcongr⟩ := exists_ripple hadd a hwidth
  refine map_num_eq ⟨t, ht, ?_⟩
  rw [Nat.mul_zero, pow_zero, mul_one] at hcongr
  exact_mod_cast hcongr

theorem decrement_eq (hwidth : 0 < WIDTH) (a : BaseUint WIDTH) :
    (decrement a).map num = some ((num a + (2 ^ (32 * WIDTH) - 1)) % 2 ^ (32 * WIDTH)) := by
  have hsub : ∀ x : BitVec 32, ((x - 1).toNat : ℤ) =
      x.toNat + -1 - if x - 1 = 0xffffffff then -1 * 2 ^ 32 else 0 := by
    intro x
    have hx := x.isLt
    have hone : (1 : BitVec 32).toNat = 1 := rfl
    have hmax : (0xffffffff : BitVec 32).toNat = 2 ^ 32 - 1 := rfl
    simp only [← BitVec.toNat_inj, BitVec.toNat_sub, hone, hmax]
    split <;> omega
  obtain ⟨t, ht, hcongr⟩ := exists_ripple hsub a hwidth
  refine map_num_eq ⟨t, ht, hcongr.trans ?_⟩
  rw [Nat.cast_add, Nat.cast_sub Nat.one_le_two_pow]
  apply Int.modEq_iff_dvd.mpr
  exact ⟨1, by push_cast; ring⟩

theorem negate_eq (hwidth : 0 < WIDTH) (a : BaseUint WIDTH) :
    (negate a).map num = some ((2 ^ (32 * WIDTH) - num a) % 2 ^ (32 * WIDTH)) := by
  obtain ⟨t, ht, hnum⟩ := exists_complement a
  have hsum : num t + 1 = 2 ^ (32 * WIDTH) - num a := by omega
  rw [negate, ht, Option.bind_some, increment_eq hwidth, hsum]

/-- A pass adds a limb of each number and the carry. -/
theorem exists_addStep (b : BaseUint WIDTH) {i : ℕ} (hi : i < WIDTH) (pn : BaseUint WIDTH)
    {carry : BitVec 64} (hcarry : carry.toNat ≤ 1) :
    ∃ t carry', addStep b i (pn, carry) = some (t, carry') ∧ carry'.toNat ≤ 1 ∧
      (limb t i).toNat + 2 ^ 32 * carry'.toNat =
        (limb pn i).toNat + (limb b i).toNat + carry.toNat ∧
      ∀ j, j ≠ i → limb t j = limb pn j := by
  have hx := (limb pn i).isLt
  have hy := (limb b i).isLt
  let n := carry + (limb pn i).setWidth 64 + (limb b i).setWidth 64
  have hn : n.toNat = carry.toNat + (limb pn i).toNat + (limb b i).toNat := by
    rw [BitVec.toNat_add, BitVec.toNat_add, BitVec.toNat_setWidth, BitVec.toNat_setWidth]
    omega
  have hlow : ((n &&& 0xffffffff).setWidth 32).toNat = n.toNat % 2 ^ 32 := by
    have hmask : (0xffffffff : BitVec 64).toNat = 2 ^ 32 - 1 := rfl
    rw [BitVec.toNat_setWidth, BitVec.toNat_and, hmask, Nat.and_two_pow_sub_one_eq_mod,
      Nat.mod_mod]
  have hhigh : (n >>> 32).toNat = n.toNat / 2 ^ 32 := by
    rw [BitVec.toNat_ushiftRight, Nat.shiftRight_eq_div_pow]
  obtain ⟨t, ht, hself, hother⟩ := exists_store pn hi ((n &&& 0xffffffff).setWidth 32)
  refine ⟨t, n >>> 32, ?_, ?_, ?_, hother⟩
  · rw [addStep, load_of_lt pn hi, load_of_lt b hi]
    simp only [Option.bind_eq_bind, Option.bind_some]
    rw [ht, Option.bind_some]
  · omega
  · rw [hself, hlow, hhigh, Nat.mod_add_div, hn]
    omega

/-- After `i` passes the carry stands for what the limbs below leave over. -/
def Added (a b : BaseUint WIDTH) (i : ℕ) (s : BaseUint WIDTH × BitVec 64) : Prop :=
  low s.1 i + 2 ^ (32 * i) * s.2.toNat = low a i + low b i ∧ s.2.toNat ≤ 1 ∧
    ∀ j, i ≤ j → limb s.1 j = limb a j

theorem Added.step {a b : BaseUint WIDTH} {i : ℕ} {s : BaseUint WIDTH × BitVec 64}
    (hi : i < WIDTH) (h : Added a b i s) :
    ∃ t, addStep b i s = some t ∧ Added a b (i + 1) t := by
  obtain ⟨hsum, hcarry, hrest⟩ := h
  obtain ⟨t, carry, hstep, hcarry', hlimb, hother⟩ := exists_addStep b hi s.1 hcarry
  refine ⟨(t, carry), hstep, ?_, hcarry', fun j hj ↦ ?_⟩
  · have hlow : low t i = low s.1 i := low_congr fun j hj ↦ hother j hj.ne
    rw [hrest i le_rfl] at hlimb
    simp only [low, hlow]
    rw [Nat.mul_succ, Nat.pow_add]
    linear_combination hsum + 2 ^ (32 * i) * hlimb
  · rw [hother j (by omega), hrest j (by omega)]

theorem addAssign_eq (a b : BaseUint WIDTH) :
    (addAssign a b).map num = some ((num a + num b) % 2 ^ (32 * WIDTH)) := by
  have hstart : Added a b 0 (a, 0) := ⟨rfl, Nat.zero_le 1, fun j _ ↦ rfl⟩
  obtain ⟨⟨t, carry⟩, ht, hsum, -⟩ := upto_spec (Added a b) hstart fun i t hi h ↦ h.step hi
  have hnum : num a + num b = num t + 2 ^ (32 * WIDTH) * carry.toNat := hsum.symm
  rw [addAssign, ht, hnum, Nat.add_mul_mod_self_left, Nat.mod_eq_of_lt (num_lt t)]
  rfl

theorem subAssign_eq (hwidth : 0 < WIDTH) (a b : BaseUint WIDTH) :
    (subAssign a b).map num =
      some ((num a + (2 ^ (32 * WIDTH) - num b)) % 2 ^ (32 * WIDTH)) := by
  obtain ⟨t, ht, hnum⟩ := Option.map_eq_some_iff.mp (negate_eq hwidth b)
  rw [subAssign, ht, Option.bind_some, addAssign_eq, hnum, Nat.add_mod_mod]

/-! ### Shifts -/

theorem exists_zeroed (a : BaseUint WIDTH) :
    ∃ t, upto (fun i (pn : BaseUint WIDTH) ↦ store pn i 0) WIDTH a = some t ∧
      ∀ j, limb t j = 0#32 := by
  have hloop : ∃ t, upto (fun i (pn : BaseUint WIDTH) ↦ store pn i 0) WIDTH a = some t ∧
      ∀ j, j < WIDTH → limb t j = 0#32 := by
    refine upto_spec (fun i t ↦ ∀ j, j < i → limb t j = 0#32) ?_ ?_
    · exact fun j hj ↦ absurd hj (Nat.not_lt_zero j)
    · intro i t hi hinv
      obtain ⟨u, hu, hself, hother⟩ := exists_store t hi 0
      refine ⟨u, hu, fun j hj ↦ ?_⟩
      obtain hlt | rfl := Nat.lt_succ_iff_lt_or_eq.mp hj
      · rw [hother j hlt.ne, hinv j hlt]
      · exact hself
  obtain ⟨t, ht, hlimb⟩ := hloop
  refine ⟨t, ht, fun j ↦ ?_⟩
  obtain hlt | hle := lt_or_ge j WIDTH
  · exact hlimb j hlt
  · exact limb_of_le t hle

theorem exists_orIf (a pn : BaseUint WIDTH) {i m : ℕ} (hi : i < WIDTH) {c : Prop} [Decidable c]
    (hc : c → m < WIDTH) (f : BitVec 32 → BitVec 32) :
    ∃ t, orIf c a i f pn m = some t ∧
      ∀ j, limb t j = limb pn j ||| (if c ∧ j = m then f (limb a i) else 0#32) := by
  rw [orIf]
  split
  case isTrue h =>
    obtain ⟨t, ht, hself, hother⟩ := exists_store pn (hc h) (limb pn m ||| f (limb a i))
    refine ⟨t, by rw [load_of_lt a hi, load_of_lt pn (hc h)]; exact ht, fun j ↦ ?_⟩
    by_cases hj : j = m
    · rw [if_pos ⟨h, hj⟩, hj, hself]
    · rw [if_neg fun hcj ↦ hj hcj.2, hother j hj, BitVec.or_zero]
  case isFalse h =>
    refine ⟨pn, rfl, fun j ↦ ?_⟩
    rw [if_neg fun hcj ↦ h hcj.1, BitVec.or_zero]

/-- After `i` passes of `operator<<=` the limbs hold what the lowest `i` limbs of `a` leave. -/
def ShiftedLeft (a : BaseUint WIDTH) (k s i : ℕ) (pn : BaseUint WIDTH) : Prop :=
  ∀ j, j < WIDTH → limb pn j =
    (if k + 1 ≤ j ∧ s ≠ 0 ∧ j - (k + 1) < i then limb a (j - (k + 1)) >>> (32 - s) else 0#32) |||
      (if k ≤ j ∧ j - k < i then limb a (j - k) <<< s else 0#32)

theorem ShiftedLeft.step {a pn : BaseUint WIDTH} {k s i : ℕ} (hi : i < WIDTH)
    (h : ShiftedLeft a k s i pn) :
    ∃ t, shiftLeftStep a k s i pn = some t ∧ ShiftedLeft a k s (i + 1) t := by
  obtain ⟨u, hu, hfirst⟩ := exists_orIf a pn hi (m := i + k + 1)
    (c := i + k + 1 < WIDTH ∧ s ≠ 0) And.left (· >>> (32 - s))
  obtain ⟨v, hv, hsecond⟩ := exists_orIf a u hi (m := i + k) (c := i + k < WIDTH) id (· <<< s)
  refine ⟨v, by rw [shiftLeftStep, hu]; exact hv, fun j hj ↦ ?_⟩
  rw [hsecond, hfirst, h j hj]
  -- the pass reaches the limbs `i + k` and `i + k + 1`
  grind

theorem shiftLeftAssign_eq (a : BaseUint WIDTH) (shift : BitVec 32) :
    (shiftLeftAssign a shift).map num =
      some (num a * 2 ^ shift.toNat % 2 ^ (32 * WIDTH)) := by
  obtain ⟨z, hz, hzero⟩ := exists_zeroed a
  have hstart : ShiftedLeft a (shift.toNat / 32) (shift.toNat % 32) 0 z := by
    intro j hj
    rw [hzero, if_neg (by omega), if_neg (by omega), BitVec.or_zero]
  obtain ⟨t, ht, hlimb⟩ := upto_spec _ hstart fun i t hi h ↦ h.step hi
  have hnum := num_shiftLeft (a := a) (r := t) (k := shift.toNat / 32)
    (Nat.mod_lt shift.toNat (by decide : 32 > 0)) fun j hj ↦ by rw [hlimb j hj]; grind
  rw [shiftLeftAssign, hz, Option.bind_some, ht, Option.map_some, hnum, Nat.div_add_mod]

/-- After `i` passes of `operator>>=` the limbs hold what the lowest `i` limbs of `a` leave. -/
def ShiftedRight (a : BaseUint WIDTH) (k s i : ℕ) (pn : BaseUint WIDTH) : Prop :=
  ∀ j, j < WIDTH → limb pn j =
    (if j + k < i then limb a (j + k) >>> s else 0#32) |||
      (if j + k + 1 < i ∧ s ≠ 0 then limb a (j + k + 1) <<< (32 - s) else 0#32)

theorem ShiftedRight.step {a pn : BaseUint WIDTH} {k s i : ℕ} (hi : i < WIDTH)
    (h : ShiftedRight a k s i pn) :
    ∃ t, shiftRightStep a k s i pn = some t ∧ ShiftedRight a k s (i + 1) t := by
  obtain ⟨u, hu, hfirst⟩ := exists_orIf a pn hi (m := i - k - 1)
    (c := (0 : ℤ) ≤ i - k - 1 ∧ s ≠ 0) (by omega) (· <<< (32 - s))
  obtain ⟨v, hv, hsecond⟩ := exists_orIf a u hi (m := i - k) (c := (0 : ℤ) ≤ i - k) (by omega)
    (· >>> s)
  refine ⟨v, by rw [shiftRightStep, hu]; exact hv, fun j hj ↦ ?_⟩
  rw [hsecond, hfirst, h j hj]
  -- the pass reaches the limbs `i - k` and `i - k - 1`
  grind

theorem shiftRightAssign_eq (a : BaseUint WIDTH) (shift : BitVec 32) :
    (shiftRightAssign a shift).map num = some (num a / 2 ^ shift.toNat) := by
  obtain ⟨z, hz, hzero⟩ := exists_zeroed a
  have hstart : ShiftedRight a (shift.toNat / 32) (shift.toNat % 32) 0 z := by
    intro j hj
    rw [hzero, if_neg (by omega), if_neg (by omega), BitVec.or_zero]
  obtain ⟨t, ht, hlimb⟩ := upto_spec _ hstart fun i t hi h ↦ h.step hi
  have hnum := num_shiftRight (a := a) (r := t) (k := shift.toNat / 32)
    (Nat.mod_lt shift.toNat (by decide : 32 > 0)) fun j hj ↦ by
      have habove : ∀ m, WIDTH ≤ m → limb a m = 0#32 := fun m ↦ limb_of_le a
      rw [hlimb j hj]
      grind
  rw [shiftRightAssign, hz, Option.bind_some, ht, Option.map_some, hnum, Nat.div_add_mod]

/-! ### Values of 64 bits -/

/-- An assignment of a `uint64` leaves its halves in the lowest limbs and zero above. -/
theorem exists_assignUint64 (hwidth : 2 ≤ WIDTH) (pn : BaseUint WIDTH) (b : BitVec 64) :
    ∃ t, assignUint64 pn b = some t ∧ limb t 0 = b.setWidth 32 ∧
      limb t 1 = (b >>> 32).setWidth 32 ∧ ∀ j, 2 ≤ j → limb t j = 0#32 := by
  obtain ⟨u, hu, hu0, -⟩ := exists_store pn (i := 0) (by omega) (b.setWidth 32)
  obtain ⟨v, hv, hv1, hv0⟩ := exists_store u (i := 1) (by omega) ((b >>> 32).setWidth 32)
  have hloop : ∃ t, upto (fun i (pn : BaseUint WIDTH) ↦ store pn (i + 2) 0) (WIDTH - 2) v = some t ∧
      (limb t 0 = limb v 0 ∧ limb t 1 = limb v 1 ∧
        ∀ j, 2 ≤ j → j < WIDTH - 2 + 2 → limb t j = 0#32) := by
    refine upto_spec (fun i t ↦ limb t 0 = limb v 0 ∧ limb t 1 = limb v 1 ∧
      ∀ j, 2 ≤ j → j < i + 2 → limb t j = 0#32) ?_ ?_
    · exact ⟨rfl, rfl, fun j hlo hhi ↦ by omega⟩
    · rintro i t hi ⟨h0, h1, hinv⟩
      obtain ⟨x, hx, hself, hother⟩ := exists_store t (i := i + 2) (by omega) 0
      refine ⟨x, hx, ?_, ?_, fun j hlo hhi ↦ ?_⟩
      · rw [hother 0 (by omega), h0]
      · rw [hother 1 (by omega), h1]
      · obtain hlt | rfl := (show j < i + 2 ∨ j = i + 2 by omega)
        · rw [hother j hlt.ne, hinv j hlo hlt]
        · exact hself
  obtain ⟨t, ht, h0, h1, hzero⟩ := hloop
  refine ⟨t, ?_, ?_, ?_, fun j hj ↦ ?_⟩
  · rw [assignUint64, hu]
    simp only [Option.bind_eq_bind, Option.bind_some, hv, ht]
  · rw [h0, hv0 0 (by omega), hu0]
  · rw [h1, hv1]
  · obtain hlt | hle := lt_or_ge j WIDTH
    · exact hzero j hj (by omega)
    · exact limb_of_le t hle

/-- The number of a value whose lowest limbs are the halves of a `uint64`, with zero above. -/
theorem num_of_halves (hwidth : 2 ≤ WIDTH) {t : BaseUint WIDTH} {b : BitVec 64}
    (h0 : limb t 0 = b.setWidth 32) (h1 : limb t 1 = (b >>> 32).setWidth 32)
    (hzero : ∀ j, 2 ≤ j → limb t j = 0#32) : num t = b.toNat := by
  have hb := b.isLt
  obtain ⟨m, rfl⟩ := Nat.exists_eq_add_of_le hwidth
  rw [num, low_of_limb_eq_zero hzero, low, low, low, h0, h1, BitVec.toNat_setWidth,
    BitVec.toNat_setWidth, BitVec.toNat_ushiftRight, Nat.shiftRight_eq_div_pow]
  omega

theorem assignUint64_eq (hwidth : 2 ≤ WIDTH) (pn : BaseUint WIDTH) (b : BitVec 64) :
    (assignUint64 pn b).map num = some b.toNat := by
  obtain ⟨t, ht, h0, h1, hzero⟩ := exists_assignUint64 hwidth pn b
  rw [ht, Option.map_some, num_of_halves hwidth h0 h1 hzero]

theorem addAssignUint64_eq (hwidth : 2 ≤ WIDTH) (a : BaseUint WIDTH) (b64 : BitVec 64) :
    (addAssignUint64 a b64).map num = some ((num a + b64.toNat) % 2 ^ (32 * WIDTH)) := by
  obtain ⟨t, ht, hnum⟩ := Option.map_eq_some_iff.mp (assignUint64_eq hwidth _ b64)
  rw [addAssignUint64, ht, Option.bind_some, addAssign_eq, hnum]

theorem subAssignUint64_eq (hwidth : 2 ≤ WIDTH) (a : BaseUint WIDTH) (b64 : BitVec 64) :
    (subAssignUint64 a b64).map num =
      some ((num a + (2 ^ (32 * WIDTH) - b64.toNat)) % 2 ^ (32 * WIDTH)) := by
  obtain ⟨t, ht, hnum⟩ := Option.map_eq_some_iff.mp (assignUint64_eq hwidth _ b64)
  rw [subAssignUint64, ht, Option.bind_some, ← hnum]
  exact subAssign_eq (by omega) a t

/-! ### Order -/

/-- The pair of limbs that differs first from above decides as the numbers do. -/
theorem compareLoop_eq (equal : Bool) (a b : BaseUint WIDTH) {i : ℕ} (hi : i ≤ WIDTH) :
    compareLoop (fun x y ↦ x < y) (fun x y ↦ x > y) equal a b i =
      some (if low a i = low b i then equal else low a i < low b i) := by
  induction i with
  | zero => rfl
  | succ i ih =>
    have hab := low_succ_lt_iff a b i
    have hba := low_succ_lt_iff b a i
    rw [compareLoop, load_of_lt a hi, load_of_lt b hi, ih (Nat.le_of_succ_le hi)]
    simp only [Option.bind_eq_bind, Option.bind_some, decide_eq_true_eq]
    split
    case isTrue hlt =>
      have hnum := hab.mpr (Or.inl hlt)
      rw [if_neg hnum.ne, decide_eq_true hnum]
    case isFalse hge =>
      split
      case isTrue hgt =>
        have hnum := hba.mpr (Or.inl hgt)
        rw [if_neg hnum.ne', decide_eq_false hnum.not_gt]
      case isFalse hle =>
        have heq : limb a i = limb b i :=
          BitVec.le_antisymm (BitVec.not_lt.mp hle) (BitVec.not_lt.mp hge)
        simp only [low, heq, Nat.add_left_cancel_iff, Nat.add_lt_add_iff_left]

/-- The tests of `>` and `>=` are those of `<` and `<=` on the pair the other way round. -/
theorem compareLoop_swap (equal : Bool) (a b : BaseUint WIDTH) {i : ℕ} (hi : i ≤ WIDTH) :
    compareLoop (fun x y ↦ x > y) (fun x y ↦ x < y) equal a b i =
      compareLoop (fun x y ↦ x < y) (fun x y ↦ x > y) equal b a i := by
  induction i with
  | zero => rfl
  | succ i ih =>
    rw [compareLoop, compareLoop, load_of_lt a hi, load_of_lt b hi, ih (Nat.le_of_succ_le hi)]
    rfl

theorem lt_eq (a b : BaseUint WIDTH) : lt a b = some (decide (num a < num b)) := by
  rw [lt, compareLoop_eq false a b le_rfl]
  split
  case isTrue h => rw [decide_eq_false (show ¬num a < num b from h.not_lt)]
  case isFalse => rfl

theorem le_eq (a b : BaseUint WIDTH) : le a b = some (decide (num a ≤ num b)) := by
  rw [le, compareLoop_eq true a b le_rfl]
  split
  case isTrue h => rw [decide_eq_true (show num a ≤ num b from h.le)]
  case isFalse h =>
    rw [decide_eq_decide.mpr (show low a WIDTH < low b WIDTH ↔ num a ≤ num b from
      ⟨Nat.le_of_lt, fun hle ↦ lt_of_le_of_ne hle h⟩)]

theorem gt_eq (a b : BaseUint WIDTH) : gt a b = some (decide (num a > num b)) := by
  rw [gt, compareLoop_swap false a b le_rfl]
  exact lt_eq b a

theorem ge_eq (a b : BaseUint WIDTH) : ge a b = some (decide (num a ≥ num b)) := by
  rw [ge, compareLoop_swap true a b le_rfl]
  exact le_eq b a

theorem eq_eq (a b : BaseUint WIDTH) : eq a b = some (decide (num a = num b)) := by
  have htest : ∀ i, 0 ≤ i → i < 0 + WIDTH →
      ∃ ok, sameLimb a b i = some ok ∧ (ok = true ↔ limb a i = limb b i) := by
    intro i _ hi
    rw [Nat.zero_add] at hi
    refine ⟨limb a i == limb b i, ?_, beq_iff_eq⟩
    rw [sameLimb, load_of_lt a hi, load_of_lt b hi]
    rfl
  obtain ⟨ok, hok, hiff⟩ := allFrom_spec _ htest
  have hnum : ok = true ↔ num a = num b := by
    refine hiff.trans ⟨fun h ↦ ?_, fun h i _ _ ↦ ?_⟩
    · exact low_congr fun j hj ↦ h j (Nat.zero_le j) (by omega)
    · rw [num_inj.mp h]
  rw [eq, hok, Option.some_inj, Bool.eq_iff_iff, hnum, decide_eq_true_iff]

theorem ne_eq (a b : BaseUint WIDTH) : ne a b = some (decide (num a ≠ num b)) := by
  rw [ne, eq_eq, Option.map_some, decide_not]

theorem eqUint64_eq (hwidth : 2 ≤ WIDTH) (a : BaseUint WIDTH) (b : BitVec 64) :
    eqUint64 a b = some (decide (num a = b.toNat)) := by
  have htest : ∀ i, 2 ≤ i → i < 2 + (WIDTH - 2) →
      ∃ ok, zeroLimb a i = some ok ∧ (ok = true ↔ limb a i = 0#32) := by
    intro i _ hi
    refine ⟨limb a i == 0, ?_, beq_iff_eq⟩
    rw [zeroLimb, load_of_lt a (by omega)]
    rfl
  obtain ⟨ok, hok, hiff⟩ := allFrom_spec _ htest
  obtain ⟨t, -, h0, h1, hzero⟩ := exists_assignUint64 hwidth a b
  have hnum : num a = b.toNat ↔ a = t := by
    rw [← num_of_halves hwidth h0 h1 hzero, num_inj]
  rw [eqUint64, load_of_lt a (by omega), load_of_lt a (by omega), hok]
  simp only [Option.bind_eq_bind, Option.bind_some, hnum]
  split
  case isTrue hne =>
    rw [decide_eq_false fun h ↦ hne (by rw [h, h0])]
  case isFalse heq0 =>
    split
    case isTrue hne =>
      rw [decide_eq_false fun h ↦ hne (by rw [h, h1])]
    case isFalse heq1 =>
      rw [not_not] at heq0 heq1
      rw [Option.some_inj, Bool.eq_iff_iff, hiff, decide_eq_true_iff]
      constructor
      · intro hall
        apply ext_limb
        intro i hi
        match i with
        | 0 => rw [heq0, h0]
        | 1 => rw [heq1, h1]
        | i + 2 => rw [hall (i + 2) (by omega) (by omega), hzero (i + 2) (by omega)]
      · rintro rfl i hlo -
        exact hzero i hlo

theorem neUint64_eq (hwidth : 2 ≤ WIDTH) (a : BaseUint WIDTH) (b : BitVec 64) :
    neUint64 a b = some (decide (num a ≠ b.toNat)) := by
  rw [neUint64, eqUint64_eq hwidth, Option.map_some, decide_not]

/-- An order operator that compares numbers compares with a `uint64` as well. -/
theorem compareUint64_eq (hwidth : 2 ≤ WIDTH) {op : BaseUint WIDTH → BaseUint WIDTH → Option Bool}
    {r : ℕ → ℕ → Prop} [DecidableRel r] (hop : ∀ a b, op a b = some (decide (r (num a) (num b))))
    (a : BaseUint WIDTH) (b : BitVec 64) :
    compareUint64 op a b = some (decide (r (num a) b.toNat)) := by
  obtain ⟨t, ht, hnum⟩ := Option.map_eq_some_iff.mp (assignUint64_eq hwidth _ b)
  rw [compareUint64, ht, Option.bind_some, hop]
  simp only [hnum]

end BaseUint

end Bitmark
