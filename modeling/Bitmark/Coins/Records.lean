import Bitmark.Coins.View
import Bitmark.Coins.Compressor

/-!
# Coin and undo records

How the coin database and the undo files store `CCoins` (`src/coins.h:136–217`,
`src/coins.cpp:16`), `CTxInUndo` (`src/core.h:660–695`), `CTxUndo` and `CBlockUndo`. A coins
record starts with a code that holds which of the first two outputs are unspent and how many
nonzero bytes of a mask for the others follow. Positions and sizes are `unsigned`.
-/

namespace Bitmark

open Codec

/-! ### The mask -/

/-- The byte whose bit `i` is set where `avail` says so. -/
def maskByte (avail : Nat → Bool) : Nat :=
  (List.range 8).foldl (fun chAvail i ↦ if avail i then chAvail ||| 2 ^ i else chAvail) 0

/-- The eight bits of a mask byte, `src/coins.h:196`. -/
def maskBits (chAvail : UInt8) : List Bool := (List.range 8).map chAvail.toNat.testBit

private theorem testBit_maskFold (avail : Nat → Bool) (n i : Nat) :
    ((List.range n).foldl (fun chAvail i ↦ if avail i then chAvail ||| 2 ^ i else chAvail) 0).testBit i
      = (decide (i < n) && avail i) := by
  induction n with
  | zero => simp
  | succ n ih =>
    rw [List.range_succ, List.foldl_append, List.foldl_cons, List.foldl_nil]
    by_cases havail : avail n = true
    · rw [if_pos havail, Nat.testBit_or, ih, Nat.testBit_two_pow]
      by_cases hi : n = i
      · subst hi
        simp [havail]
      · have hlt : i < n ↔ i < n + 1 := by omega
        simp [hi, hlt]
    · rw [if_neg havail, ih]
      by_cases hi : n = i
      · subst hi
        simp [havail]
      · have hlt : i < n ↔ i < n + 1 := by omega
        simp [hlt]

theorem testBit_maskByte (avail : Nat → Bool) (i : Nat) :
    (maskByte avail).testBit i = (decide (i < 8) && avail i) :=
  testBit_maskFold avail 8 i

theorem maskByte_lt (avail : Nat → Bool) : maskByte avail < 256 := by
  refine Nat.lt_pow_two_of_testBit (n := 8) _ fun i hi ↦ ?_
  rw [testBit_maskByte, decide_eq_false (by omega), Bool.false_and]

theorem maskBits_maskByte (avail : Nat → Bool) :
    maskBits (UInt8.ofNat (maskByte avail)) = (List.range 8).map avail := by
  rw [maskBits, UInt8.toNat_ofNat', Nat.mod_eq_of_lt (maskByte_lt avail)]
  refine List.map_congr_left fun i hi ↦ ?_
  rw [testBit_maskByte, decide_eq_true (List.mem_range.mp hi), Bool.true_and]

/-- A mask byte is zero when none of its outputs is unspent. -/
theorem maskByte_eq_zero_iff (avail : Nat → Bool) :
    UInt8.ofNat (maskByte avail) = 0 ↔ (List.range 8).any avail = false := by
  have hbit : UInt8.ofNat (maskByte avail) = 0 ↔ maskByte avail = 0 := by
    rw [← UInt8.toNat_inj, UInt8.toNat_ofNat', Nat.mod_eq_of_lt (maskByte_lt avail)]
    rfl
  rw [hbit, List.any_eq_false]
  constructor
  · intro hzero i hi
    have htest := testBit_maskByte avail i
    rw [hzero, Nat.zero_testBit, decide_eq_true (List.mem_range.mp hi), Bool.true_and] at htest
    simp [← htest]
  · intro hnone
    refine Nat.eq_of_testBit_eq fun i ↦ ?_
    rw [testBit_maskByte, Nat.zero_testBit]
    by_cases hi : i < 8
    · have := hnone i (List.mem_range.mpr hi)
      simp [this]
    · rw [decide_eq_false hi, Bool.false_and]

/-- Reading mask bytes until `nMaskCode` nonzero ones were read, `src/coins.h:192–202`. -/
def readMask (nMaskCode : Nat) : Stream (List Bool)
  | [] => if nMaskCode = 0 then some ([], []) else none
  | chAvail :: s =>
    if nMaskCode = 0 then some ([], chAvail :: s)
    else do
      let (vAvail, s) ← readMask (if chAvail ≠ 0 then nMaskCode - 1 else nMaskCode) s
      some (maskBits chAvail ++ vAvail, s)

/-- Mask bytes that do not end in a zero byte are read back by the number of nonzero ones. -/
theorem reads_mask {bs : Bytes} (hlast : bs.getLast? ≠ some 0) :
    Reads (readMask (bs.countP (· ≠ 0))) (bs.flatMap maskBits) bs := by
  intro rest
  induction bs with
  | nil => cases rest <;> rfl
  | cons chAvail bs ih =>
    have hrest : bs.getLast? ≠ some 0 := by
      intro h
      rw [List.getLast?_cons, h] at hlast
      exact hlast rfl
    have hpos : (chAvail :: bs).countP (· ≠ 0) ≠ 0 := by
      intro hzero
      rw [List.countP_eq_zero] at hzero
      have hmem := List.getLast_mem (List.cons_ne_nil chAvail bs)
      have := hzero _ hmem
      rw [List.getLast?_eq_some_getLast (List.cons_ne_nil chAvail bs)] at hlast
      simp_all
    rw [List.cons_append, readMask, if_neg hpos, List.flatMap_cons]
    have hcode : (if chAvail ≠ 0 then (chAvail :: bs).countP (· ≠ 0) - 1
        else (chAvail :: bs).countP (· ≠ 0)) = bs.countP (· ≠ 0) := by
      rw [List.countP_cons]
      split <;> simp_all
    rw [hcode, ih hrest]
    rfl

namespace CCoins

/-- Whether mask byte `b` has an unspent output, the negation of `fZero`. -/
def maskUsed (coins : CCoins) (b : Nat) : Bool :=
  (List.range 8).any fun i ↦ coins.isAvailable (2 + b * 8 + i)

/-- `CCoins::CalcMaskSize`, `src/coins.cpp:16`: the number of mask bytes and of nonzero ones among
them, over the bytes `b` with `2 + b * 8 < vout.size()`. -/
def calcMaskSize (coins : CCoins) : Nat × Nat :=
  (List.range ((coins.vout.length + 5) / 8)).foldl
    (fun p b ↦ if coins.maskUsed b then (b + 1, p.2 + 1) else p) (0, 0)

/-- Mask byte `b`, `src/coins.h:168–171`. -/
def chAvail (coins : CCoins) (b : Nat) : UInt8 :=
  UInt8.ofNat (maskByte fun i ↦ coins.isAvailable (2 + b * 8 + i))

/-- The header code, `src/coins.h:145` and `161`. -/
def nCode (coins : CCoins) : Nat :=
  let nMaskCode := coins.calcMaskSize.2
  let fFirst := coins.isAvailable 0
  let fSecond := coins.isAvailable 1
  toUint32 (8 * (nMaskCode - (if fFirst || fSecond then 0 else 1)) +
    (if coins.fCoinBase then 1 else 0) + (if fFirst then 2 else 0) + (if fSecond then 4 else 0))

/-- The assertion of `GetSerializeSize` and `Serialize`. -/
def writable (coins : CCoins) : Bool :=
  coins.isAvailable 0 || coins.isAvailable 1 || coins.calcMaskSize.2 ≠ 0

/-- `CCoins::Serialize`, `src/coins.h:154`; `none` is the failed assertion. -/
def serialize (ec : PubKeyOps) (coins : CCoins) : Option Bytes :=
  if coins.writable then
    some (writeVarInt coins.nVersion.toInt ++ writeVarInt coins.nCode ++
      (List.range coins.calcMaskSize.1).map coins.chAvail ++
      (coins.vout.filter fun txout ↦ !txout.isNull).flatMap (CTxOut.serializeCompressed ec) ++
      writeVarInt coins.nHeight)
  else none

/-- `CCoins::GetSerializeSize`, `src/coins.h:137`. -/
def getSerializeSize (ec : PubKeyOps) (coins : CCoins) : Option Nat :=
  if coins.writable then
    some (toUint32 (getSizeOfVarInt coins.nVersion.toInt + getSizeOfVarInt coins.nCode +
      coins.calcMaskSize.1 +
      ((coins.vout.filter fun txout ↦ !txout.isNull).map (CTxOut.compressedSize ec)).sum +
      getSizeOfVarInt coins.nHeight))
  else none

/-- An output of the vector the reader fills, `src/coins.h:206`. -/
def readOut (ec : PubKeyOps) (f : Bool) : Stream CTxOut :=
  if f then CTxOut.unserializeCompressed ec else pure .null

/-- The outputs whose bits are set, among null ones. -/
def readOuts (ec : PubKeyOps) : List Bool → Stream (List CTxOut)
  | [] => pure []
  | f :: vAvail => do
    let txout ← readOut ec f
    let vout ← readOuts ec vAvail
    pure (txout :: vout)

/-- `CCoins::Unserialize`, `src/coins.h:182`. -/
def unserialize (ec : PubKeyOps) : Stream CCoins := do
  let nVersion ← readVarInt32
  let nCode ← readVarUint 32
  let nMaskCode := nCode / 8 + if nCode &&& 6 ≠ 0 then 0 else 1
  let vMask ← readMask nMaskCode
  let vout ← readOuts ec (nCode.testBit 1 :: nCode.testBit 2 :: vMask)
  let nHeight ← readVarInt32
  pure ⟨nCode.testBit 0, cleanup vout, nHeight.toInt, nVersion⟩

/-! ### Reading coins back -/

/-- What `CalcMaskSize` counts: the mask ends with its last used byte. -/
private theorem calcMaskSize_fold (used : Nat → Bool) (m : Nat) :
    let p := (List.range m).foldl (fun p b ↦ if used b then (b + 1, p.2 + 1) else p) (0, 0)
    p.2 = (List.range p.1).countP used ∧ p.2 = (List.range m).countP used ∧
      (p.1 ≠ 0 → used (p.1 - 1) = true) ∧ ∀ b, p.1 ≤ b → b < m → used b = false := by
  induction m with
  | zero => simp
  | succ m ih =>
    rw [List.range_succ, List.foldl_append, List.foldl_cons, List.foldl_nil]
    obtain ⟨hlast, hall, hused, hrest⟩ := ih
    split
    · next hm =>
      have hcount : (List.range m ++ [m]).countP used = (List.range m).countP used + 1 := by
        simp [hm]
      refine ⟨?_, ?_, fun _ ↦ hm, fun b hb hb' ↦ ?_⟩
      · rw [List.range_succ, hcount, hall]
      · rw [hcount, hall]
      · change m + 1 ≤ b at hb
        omega
    · next hm =>
      have hm' : used m = false := by simpa using hm
      refine ⟨hlast, ?_, hused, fun b hb hb' ↦ ?_⟩
      · simpa [hm'] using hall
      · rcases Nat.lt_succ_iff_lt_or_eq.mp hb' with hlt | rfl
        · exact hrest b hb hlt
        · exact hm'

variable {coins : CCoins}

theorem calcMaskSize_spec (coins : CCoins) :
    coins.calcMaskSize.2 = (List.range coins.calcMaskSize.1).countP coins.maskUsed ∧
      coins.calcMaskSize.2 =
        (List.range ((coins.vout.length + 5) / 8)).countP coins.maskUsed ∧
      (coins.calcMaskSize.1 ≠ 0 → coins.maskUsed (coins.calcMaskSize.1 - 1) = true) ∧
      ∀ b, coins.calcMaskSize.1 ≤ b → b < (coins.vout.length + 5) / 8 →
        coins.maskUsed b = false :=
  calcMaskSize_fold coins.maskUsed _

theorem maskUsed_eq_false {b : Nat} (h : coins.calcMaskSize.1 ≤ b) : coins.maskUsed b = false := by
  by_cases hb : b < (coins.vout.length + 5) / 8
  · exact coins.calcMaskSize_spec.2.2.2 b h hb
  · simp only [maskUsed, List.any_eq_false, List.mem_range, isAvailable]
    intro i hi
    rw [decide_eq_false (by omega)]
    simp

/-- No output behind the mask is unspent. -/
theorem isAvailable_eq_false {i : Nat} (h : 2 + coins.calcMaskSize.1 * 8 ≤ i) :
    coins.isAvailable i = false := by
  have hunused : coins.maskUsed ((i - 2) / 8) = false := maskUsed_eq_false (by omega)
  simp only [maskUsed, List.any_eq_false, List.mem_range] at hunused
  have hat := hunused ((i - 2) % 8) (by omega)
  rw [show 2 + (i - 2) / 8 * 8 + (i - 2) % 8 = i by omega] at hat
  simpa using hat

theorem chAvail_eq_zero_iff {b : Nat} : coins.chAvail b = 0 ↔ coins.maskUsed b = false :=
  maskByte_eq_zero_iff _

/-- The mask has as many nonzero bytes as the code says. -/
theorem countP_mask : ((List.range coins.calcMaskSize.1).map coins.chAvail).countP (· ≠ 0) =
    coins.calcMaskSize.2 := by
  rw [coins.calcMaskSize_spec.1, List.countP_map]
  refine List.countP_congr fun b _ ↦ ?_
  simp [chAvail_eq_zero_iff]

/-- The mask does not end in a zero byte. -/
theorem getLast_mask (coins : CCoins) :
    ((List.range coins.calcMaskSize.1).map coins.chAvail).getLast? ≠ some 0 := by
  rw [List.getLast?_map]
  cases hsize : coins.calcMaskSize.1 with
  | zero => simp
  | succ n =>
    have hused := coins.calcMaskSize_spec.2.2.1
    rw [hsize] at hused
    rw [List.range_succ, List.getLast?_concat, Option.map_some, ne_eq, Option.some.injEq,
      chAvail_eq_zero_iff]
    simpa using hused (by omega)

/-- The bits of the mask are the availability of the outputs from the third on. -/
theorem maskBits_mask : ((List.range coins.calcMaskSize.1).map coins.chAvail).flatMap maskBits =
    (List.range (coins.calcMaskSize.1 * 8)).map fun i ↦ coins.isAvailable (2 + i) := by
  generalize coins.calcMaskSize.1 = n
  induction n with
  | zero => rfl
  | succ n ih =>
    rw [List.range_succ, List.map_append, List.flatMap_append, ih, Nat.succ_mul, List.range_add,
      List.map_append, List.map_map]
    simp [chAvail, maskBits_maskByte, Function.comp_def, Nat.add_assoc]

private theorem and_six_ne_zero (n : Nat) : n &&& 6 ≠ 0 ↔ (n.testBit 1 || n.testBit 2) = true := by
  have hlow : n &&& 6 = n % 2 ^ 3 &&& 6 := by
    refine Nat.eq_of_testBit_eq fun i ↦ ?_
    rw [Nat.testBit_and, Nat.testBit_and, Nat.testBit_mod_two_pow]
    by_cases hi : i < 3
    · simp [hi]
    · have hsix : Nat.testBit 6 i = false :=
        Nat.testBit_lt_two_pow (Nat.lt_of_lt_of_le (by decide : 6 < 2 ^ 3)
          (Nat.pow_le_pow_right (by decide) (by omega)))
      simp [hsix]
  have hbit : ∀ i < 3, n.testBit i = (n % 2 ^ 3).testBit i := fun i hi ↦ by
    rw [Nat.testBit_mod_two_pow, decide_eq_true hi, Bool.true_and]
  rw [hlow, hbit 1 (by decide), hbit 2 (by decide)]
  have hall : ∀ k < 2 ^ 3, k &&& 6 ≠ 0 ↔ (k.testBit 1 || k.testBit 2) = true := by decide
  exact hall _ (Nat.mod_lt _ (by decide))

/-- What the reader takes from the header code. -/
theorem nCode_fields (hwritable : coins.writable = true)
    (hlen : coins.vout.length + 16 < 2 ^ 32) :
    coins.nCode.testBit 0 = coins.fCoinBase ∧ coins.nCode.testBit 1 = coins.isAvailable 0 ∧
      coins.nCode.testBit 2 = coins.isAvailable 1 ∧
      coins.nCode / 8 + (if coins.nCode &&& 6 ≠ 0 then 0 else 1) = coins.calcMaskSize.2 := by
  have hle := (List.range ((coins.vout.length + 5) / 8)).countP_le_length (p := coins.maskUsed)
  rw [← coins.calcMaskSize_spec.2.1, List.length_range] at hle
  have hcode : coins.nCode = 8 * (coins.calcMaskSize.2 -
        (if coins.isAvailable 0 || coins.isAvailable 1 then 0 else 1)) +
      (if coins.fCoinBase then 1 else 0) + (if coins.isAvailable 0 then 2 else 0) +
      (if coins.isAvailable 1 then 4 else 0) := by
    refine Nat.mod_eq_of_lt ?_
    split <;> split <;> split <;> split <;> omega
  simp only [and_six_ne_zero, hcode, Nat.testBit_eq_decide_div_mod_eq]
  simp only [writable] at hwritable
  clear hcode hle
  revert hwritable
  cases coins.fCoinBase <;> cases coins.isAvailable 0 <;> cases coins.isAvailable 1 <;> grind

theorem nCode_lt (coins : CCoins) : coins.nCode < 2 ^ 32 := Nat.mod_lt _ (by decide)

section Outputs

variable {ec : PubKeyOps}

/-- Reading the unspent ones among some positions. -/
theorem reads_outs (is : List Nat)
    (h : ∀ i ∈ is, coins.isAvailable i = true →
      Reads (CTxOut.unserializeCompressed ec) (coins.outAt i)
        ((coins.outAt i).serializeCompressed ec)) :
    Reads (readOuts ec (is.map coins.isAvailable))
      (is.map fun i ↦ if coins.isAvailable i then coins.outAt i else .null)
      (is.flatMap fun i ↦
        if coins.isAvailable i then (coins.outAt i).serializeCompressed ec else []) := by
  induction is with
  | nil => exact Reads.pure []
  | cons i is ih =>
    obtain ⟨hi, his⟩ := List.forall_mem_cons.mp h
    rw [List.map_cons, readOuts, List.map_cons, List.flatMap_cons]
    refine Reads.bind ?_ ((ih his).bind_pure (Reads.pure _))
    unfold readOut
    split
    · next havail => exact hi havail
    · exact Reads.pure _

private theorem flatMap_filter {α β : Type} (p : α → Bool) (f : α → List β) (xs : List α) :
    (xs.filter p).flatMap f = xs.flatMap fun x ↦ if p x then f x else [] := by
  induction xs with
  | nil => rfl
  | cons x xs ih =>
    rw [List.filter_cons, List.flatMap_cons, ← ih]
    split <;> rfl

/-- The outputs up to a position behind the last one are written in order. -/
theorem flatMap_outs {m : Nat} (h : coins.vout.length ≤ m) :
    ((List.range m).flatMap fun i ↦
        if coins.isAvailable i then (coins.outAt i).serializeCompressed ec else []) =
      (coins.vout.filter fun txout ↦ !txout.isNull).flatMap (CTxOut.serializeCompressed ec) := by
  obtain ⟨d, rfl⟩ := Nat.exists_eq_add_of_le h
  have hvout : coins.vout = (List.range coins.vout.length).map coins.outAt := by
    refine List.ext_getElem (by simp) fun i hi _ ↦ ?_
    rw [List.getElem_map, List.getElem_range, outAt, List.getD_eq_getElem _ _ hi]
  have hbehind : ((List.range d).map (coins.vout.length + ·)).flatMap (fun i ↦
      if coins.isAvailable i then (coins.outAt i).serializeCompressed ec else []) = [] := by
    rw [List.flatMap_eq_nil_iff]
    intro i hi
    obtain ⟨j, -, rfl⟩ := List.mem_map.mp hi
    simp [isAvailable]
  rw [List.range_add, List.flatMap_append, hbehind, List.append_nil]
  conv_rhs => rw [hvout, flatMap_filter, List.flatMap_map]
  refine List.flatMap_congr fun i hi ↦ ?_
  simp [isAvailable, List.mem_range.mp hi]

/-- The outputs that are read are the outputs that were written, up to null ones at the end. -/
theorem cleanup_outs (hexact : ExactNulls coins.vout) :
    cleanup ((List.range (2 + coins.calcMaskSize.1 * 8)).map fun i ↦
        if coins.isAvailable i then coins.outAt i else .null) = cleanup coins.vout := by
  refine cleanup_eq_of_unspent ?_ hexact fun i ↦ ?_
  · intro txout htxout hnull
    obtain ⟨i, -, rfl⟩ := List.mem_map.mp htxout
    by_cases havail : coins.isAvailable i = true
    · rw [if_pos havail] at hnull
      simp [isAvailable, hnull] at havail
    · rw [if_neg havail]
  · change _ = coins.unspent i
    by_cases havail : coins.isAvailable i = true
    · have hi : i < 2 + coins.calcMaskSize.1 * 8 := by
        by_contra hge
        rw [isAvailable_eq_false (by omega)] at havail
        cases havail
      rw [List.getD_eq_getElem _ _ (by simpa using hi), List.getElem_map, List.getElem_range,
        if_pos havail]
      rfl
    · have hnone : coins.unspent i = none := by
        rwa [isAvailable_eq_isSome, Bool.not_eq_true, Option.isSome_eq_false_iff,
          Option.isNone_iff_eq_none] at havail
      rw [hnone]
      by_cases hi : i < 2 + coins.calcMaskSize.1 * 8
      · rw [List.getD_eq_getElem _ _ (by simpa using hi), List.getElem_map, List.getElem_range,
          if_neg havail]
        rfl
      · rw [List.getD_eq_default _ _ (by simpa using hi)]
        rfl

end Outputs

/-! ### Round trips -/

/-- The coins the database is given: trimmed and not pruned, with a version and a height that are
not negative and amounts in range where not spent. The last two bounds keep the sizes `unsigned`. -/
structure Storable (coins : CCoins) : Prop where
  trimmed : cleanup coins.vout = coins.vout
  notPruned : coins.isPruned = false
  version : 0 ≤ coins.nVersion.toInt
  height : 0 ≤ coins.nHeight ∧ coins.nHeight < 2 ^ 31
  amounts : ∀ txout ∈ coins.vout, txout = .null ∨ moneyRange txout.nValue = true
  scripts : ∀ txout ∈ coins.vout, txout.scriptPubKey.length + nSpecialScripts < 2 ^ 32
  count : coins.vout.length + 16 < 2 ^ 32

theorem Storable.exactNulls (h : coins.Storable) : ExactNulls coins.vout := by
  intro txout htxout hnull
  rcases h.amounts txout htxout with hspent | hrange
  · exact hspent
  · have hlo := (moneyRange_iff.mp hrange).1
    have hvalue : txout.nValue = -1 := by simpa [CTxOut.isNull] using hnull
    omega

/-- Coins that are not pruned pass the assertion. -/
theorem writable_of_not_isPruned (h : coins.isPruned = false) : coins.writable = true := by
  obtain ⟨i, hi⟩ : ∃ i, coins.isAvailable i = true := by
    by_contra hnone
    have hpruned : coins.isPruned = true := isPruned_iff.mpr fun i ↦ by
      have hi : ¬ coins.isAvailable i = true := fun hi ↦ hnone ⟨i, hi⟩
      rwa [isAvailable_eq_isSome, Bool.not_eq_true, Option.isSome_eq_false_iff,
        Option.isNone_iff_eq_none] at hi
    rw [hpruned] at h
    cases h
  by_cases hsize : coins.calcMaskSize.1 = 0
  · have hlt : i < 2 := by
      by_contra hge
      rw [isAvailable_eq_false (by omega)] at hi
      cases hi
    obtain rfl | rfl : i = 0 ∨ i = 1 := by omega
    · simp [writable, hi]
    · simp [writable, hi]
  · obtain ⟨hcount, -, hused, -⟩ := coins.calcMaskSize_spec
    have hpos : 0 < (List.range coins.calcMaskSize.1).countP coins.maskUsed :=
      List.countP_pos_iff.mpr ⟨_, List.mem_range.mpr (by omega), hused hsize⟩
    have hnonzero : coins.calcMaskSize.2 ≠ 0 := by
      omega
    simp [writable, hnonzero]

/-- The mask covers a trimmed vector. -/
theorem length_le_mask (h : cleanup coins.vout = coins.vout) :
    coins.vout.length ≤ 2 + coins.calcMaskSize.1 * 8 := by
  by_contra hlt
  have hne : coins.vout ≠ [] := fun hnil ↦ by simp [hnil] at hlt
  have htrimmed : coins.vout.rdropWhile CTxOut.isNull = coins.vout := h
  have hlast := List.rdropWhile_last_not CTxOut.isNull coins.vout (by rwa [htrimmed])
  have hunavailable : coins.isAvailable (coins.vout.length - 1) = false :=
    isAvailable_eq_false (by omega)
  simp only [htrimmed, List.getLast_eq_getElem] at hlast
  rw [isAvailable, outAt, List.getD_eq_getElem _ _ (by omega), decide_eq_true (by omega)] at hunavailable
  simp [hlast] at hunavailable

/-- The outputs of a record are read back, with nulls up to the end of the mask. -/
theorem reads_allOuts {ec : PubKeyOps} (hec : ec.Lawful) (h : coins.Storable) :
    Reads (readOuts ec ((List.range (2 + coins.calcMaskSize.1 * 8)).map coins.isAvailable))
      ((List.range (2 + coins.calcMaskSize.1 * 8)).map fun i ↦
        if coins.isAvailable i then coins.outAt i else .null)
      ((coins.vout.filter fun txout ↦ !txout.isNull).flatMap
        (CTxOut.serializeCompressed ec)) := by
  rw [← flatMap_outs (length_le_mask h.trimmed)]
  refine reads_outs _ fun i _ havail ↦ ?_
  simp only [isAvailable, Bool.and_eq_true, decide_eq_true_eq, Bool.not_eq_true'] at havail
  have hmem : coins.outAt i ∈ coins.vout := by
    rw [outAt, List.getD_eq_getElem _ _ havail.1]
    exact List.getElem_mem havail.1
  have hrange : moneyRange (coins.outAt i).nValue = true := by
    rcases h.amounts _ hmem with hspent | hrange
    · rw [hspent] at havail
      cases havail.2
    · exact hrange
  exact CTxOut.reads_compressed hec hrange (h.scripts _ hmem)

/-- Storable coins are read back as they were written. -/
theorem reads_coins {ec : PubKeyOps} (hec : ec.Lawful) (h : coins.Storable) {bytes : Bytes}
    (hwrite : coins.serialize ec = some bytes) : Reads (unserialize ec) coins bytes := by
  have hwritable := writable_of_not_isPruned h.notPruned
  rw [serialize, if_pos hwritable] at hwrite
  obtain rfl := Option.some.inj hwrite
  obtain ⟨hcoinbase, hfirst, hsecond, hmask⟩ := nCode_fields hwritable h.count
  have hreadMask := reads_mask (getLast_mask coins)
  rw [countP_mask, maskBits_mask] at hreadMask
  have hbits : coins.isAvailable 0 :: coins.isAvailable 1 ::
      (List.range (coins.calcMaskSize.1 * 8)).map (fun i ↦ coins.isAvailable (2 + i)) =
        (List.range (2 + coins.calcMaskSize.1 * 8)).map coins.isAvailable := by
    rw [List.range_add, List.map_append, List.map_map]
    rfl
  have hheight : (BitVec.ofInt 32 coins.nHeight).toInt = coins.nHeight := by
    rw [BitVec.toInt_ofInt]
    exact Int.bmod_eq_of_le (by have := h.height; omega) (by have := h.height; omega)
  have hreadHeight : Reads readVarInt32 (BitVec.ofInt 32 coins.nHeight) (writeVarInt coins.nHeight) := by
    have hread := reads_varInt32 (w := BitVec.ofInt 32 coins.nHeight) (by
      rw [hheight]
      exact h.height.1)
    rwa [hheight] at hread
  simp only [List.append_assoc]
  refine (reads_varInt32 h.version).bind ?_
  refine (reads_varUint (nCode_lt coins)).bind ?_
  rw [hmask]
  refine hreadMask.bind ?_
  rw [hfirst, hsecond, hbits]
  refine (reads_allOuts hec h).bind ?_
  refine hreadHeight.bind_pure ?_
  rw [cleanup_outs h.exactNulls, h.trimmed, hcoinbase, hheight]
  exact Reads.pure coins

/-- `CCoins::GetSerializeSize` is the number of bytes written. -/
theorem getSerializeSize_eq (ec : PubKeyOps) (coins : CCoins) :
    coins.getSerializeSize ec = (coins.serialize ec).map fun bytes ↦ toUint32 bytes.length := by
  unfold getSerializeSize serialize
  split
  · simp only [Option.map_some, List.length_append, length_writeVarInt, List.length_map,
      List.length_range, List.length_flatMap, CTxOut.length_serializeCompressed]
  · rfl

end CCoins

/-! ### Undo records -/

namespace CTxInUndo

/-- The code of an undo record, `src/core.h:677`. -/
def nCode (undo : CTxInUndo) : Int :=
  (undo.nHeight * 2 + if undo.fCoinBase then 1 else 0) % 2 ^ 32

/-- `CTxInUndo::Serialize`, `src/core.h:676`. -/
def serialize (ec : PubKeyOps) (undo : CTxInUndo) : Bytes :=
  writeVarInt undo.nCode ++
    (if undo.nHeight ≠ 0 then writeVarInt undo.nVersion.toInt else []) ++
    undo.txout.serializeCompressed ec

/-- `CTxInUndo::GetSerializeSize`, `src/core.h:670`. -/
def getSerializeSize (ec : PubKeyOps) (undo : CTxInUndo) : Nat :=
  toUint32 (getSizeOfVarInt undo.nCode +
    (if undo.nHeight ≠ 0 then getSizeOfVarInt undo.nVersion.toInt else 0) +
    undo.txout.compressedSize ec)

/-- The version of an undo record, which stays zero without a height. -/
def readVersion (nHeight : Nat) : Stream (BitVec 32) :=
  if 0 < nHeight then readVarInt32 else pure 0

/-- `CTxInUndo::Unserialize` into an empty record, `src/core.h:684`. -/
def unserialize (ec : PubKeyOps) : Stream CTxInUndo := do
  let nCode ← readVarUint 32
  let nHeight := nCode / 2
  let nVersion ← readVersion nHeight
  let txout ← CTxOut.unserializeCompressed ec
  pure ⟨txout, nCode.testBit 0, nHeight, nVersion⟩

/-- The undo records that are kept: a height that leaves room for a bit, no version without a
height and none that is negative, and an amount in range. -/
structure Storable (undo : CTxInUndo) : Prop where
  height : 0 ≤ undo.nHeight ∧ undo.nHeight < 2 ^ 31
  version : 0 ≤ undo.nVersion.toInt
  noVersion : undo.nHeight = 0 → undo.nVersion = 0
  amount : moneyRange undo.txout.nValue = true
  script : undo.txout.scriptPubKey.length + nSpecialScripts < 2 ^ 32

theorem getSerializeSize_eq (ec : PubKeyOps) (undo : CTxInUndo) :
    undo.getSerializeSize ec = toUint32 (undo.serialize ec).length := by
  rw [getSerializeSize, serialize, List.length_append, List.length_append, length_writeVarInt,
    CTxOut.length_serializeCompressed, apply_ite List.length, length_writeVarInt]
  rfl

/-- Storable undo records are read back as they were written. -/
theorem reads_undo {ec : PubKeyOps} (hec : ec.Lawful) {undo : CTxInUndo} (h : undo.Storable) :
    Reads (unserialize ec) undo (undo.serialize ec) := by
  obtain ⟨hlo, hhi⟩ := h.height
  obtain ⟨n, hn⟩ := Int.eq_ofNat_of_zero_le hlo
  have hcode : undo.nCode = (n * 2 + undo.fCoinBase.toNat : Nat) := by
    rw [nCode, hn]
    cases undo.fCoinBase <;> simp <;> omega
  have hcoinbase : (n * 2 + undo.fCoinBase.toNat).testBit 0 = undo.fCoinBase := by
    rw [Nat.testBit_zero]
    cases undo.fCoinBase <;> simp
  have hheight : (n * 2 + undo.fCoinBase.toNat) / 2 = n := by
    have := undo.fCoinBase.toNat_lt
    omega
  have hversion : Reads (readVersion n) undo.nVersion
      (if undo.nHeight ≠ 0 then writeVarInt undo.nVersion.toInt else []) := by
    unfold readVersion
    by_cases hzero : n = 0
    · rw [if_neg (by omega), if_neg (by omega), h.noVersion (by omega)]
      exact Reads.pure 0
    · rw [if_pos (by omega), if_pos (by omega)]
      exact reads_varInt32 h.version
  rw [serialize, hcode, List.append_assoc]
  refine (reads_varUint ?_).bind ?_
  · cases undo.fCoinBase <;> simp <;> omega
  rw [hheight]
  refine hversion.bind ?_
  refine (CTxOut.reads_compressed hec h.amount h.script).bind_pure ?_
  rw [hcoinbase]
  change Reads (pure ⟨undo.txout, undo.fCoinBase, (n : Int), undo.nVersion⟩) undo []
  rw [← hn]
  exact Reads.pure undo

end CTxInUndo

section BlockUndo

variable (ec : PubKeyOps)

/-- `IMPLEMENT_SERIALIZE` of `CTxUndo`, `src/core.h:701`, and of `CBlockUndo`, `src/main.h:284`:
vectors of records and of vectors. -/
def serializeTxUndo (txundo : CTxUndo) : Bytes := writeVector (CTxInUndo.serialize ec) txundo

@[inherit_doc serializeTxUndo]
def serializeBlockUndo (blockundo : List CTxUndo) : Bytes :=
  writeVector (serializeTxUndo ec) blockundo

@[inherit_doc serializeTxUndo]
def unserializeTxUndo : Stream CTxUndo := readVector (CTxInUndo.unserialize ec)

@[inherit_doc serializeTxUndo]
def unserializeBlockUndo : Stream (List CTxUndo) := readVector (unserializeTxUndo ec)

/-- `CTxUndo::GetSerializeSize`. -/
def txUndoSize (txundo : CTxUndo) : Nat := vectorSize (CTxInUndo.getSerializeSize ec) txundo

/-- `CBlockUndo::GetSerializeSize`. -/
def blockUndoSize (blockundo : List CTxUndo) : Nat := vectorSize (txUndoSize ec) blockundo

variable {ec}

/-- The undo data of a block: as many records as a vector may have. -/
structure StorableBlockUndo (blockundo : List CTxUndo) : Prop where
  count : blockundo.length ≤ maxSize
  counts : ∀ txundo ∈ blockundo, txundo.length ≤ maxSize
  records : ∀ txundo ∈ blockundo, ∀ undo ∈ txundo, undo.Storable

theorem reads_blockUndo (hec : ec.Lawful) {blockundo : List CTxUndo}
    (h : StorableBlockUndo blockundo) :
    Reads (unserializeBlockUndo ec) blockundo (serializeBlockUndo ec blockundo) :=
  reads_vector h.count fun txundo htxundo ↦ reads_vector (h.counts txundo htxundo)
    fun undo hundo ↦ CTxInUndo.reads_undo hec (h.records txundo htxundo undo hundo)

theorem blockUndoSize_eq (ec : PubKeyOps) (blockundo : List CTxUndo) :
    blockUndoSize ec blockundo = toUint32 (serializeBlockUndo ec blockundo).length :=
  vectorSize_eq (vectorSize_eq (CTxInUndo.getSerializeSize_eq ec)) blockundo

end BlockUndo

/-! ### The stored records -/

/-- Every record the node stores is read back as it was written, and its size is known before. -/
theorem records_roundTrip {ec : PubKeyOps} (hec : ec.Lawful) :
    (∀ coins : CCoins, coins.Storable →
      ∃ bytes, coins.serialize ec = some bytes ∧
        coins.getSerializeSize ec = some (toUint32 bytes.length) ∧
        Reads (CCoins.unserialize ec) coins bytes) ∧
    (∀ undo : CTxInUndo, undo.Storable →
      undo.getSerializeSize ec = toUint32 (undo.serialize ec).length ∧
        Reads (CTxInUndo.unserialize ec) undo (undo.serialize ec)) ∧
    ∀ blockundo : List CTxUndo, StorableBlockUndo blockundo →
      blockUndoSize ec blockundo = toUint32 (serializeBlockUndo ec blockundo).length ∧
        Reads (unserializeBlockUndo ec) blockundo (serializeBlockUndo ec blockundo) := by
  refine ⟨fun coins h ↦ ?_, fun undo h ↦ ?_, fun blockundo h ↦ ?_⟩
  · obtain ⟨bytes, hbytes⟩ : ∃ bytes, coins.serialize ec = some bytes := by
      rw [CCoins.serialize, if_pos (CCoins.writable_of_not_isPruned h.notPruned)]
      exact ⟨_, rfl⟩
    refine ⟨bytes, hbytes, ?_, CCoins.reads_coins hec h hbytes⟩
    rw [CCoins.getSerializeSize_eq, hbytes]
    rfl
  · exact ⟨undo.getSerializeSize_eq ec, CTxInUndo.reads_undo hec h⟩
  · exact ⟨blockUndoSize_eq ec blockundo, reads_blockUndo hec h⟩

/-- The coordinates of the generator of the curve. -/
def generatorX : Bytes :=
  [0x79, 0xbe, 0x66, 0x7e, 0xf9, 0xdc, 0xbb, 0xac, 0x55, 0xa0, 0x62, 0x95, 0xce, 0x87, 0x0b, 0x07,
    0x02, 0x9b, 0xfc, 0xdb, 0x2d, 0xce, 0x28, 0xd9, 0x59, 0xf2, 0x81, 0x5b, 0x16, 0xf8, 0x17, 0x98]

@[inherit_doc generatorX]
def generatorY : Bytes :=
  [0x48, 0x3a, 0xda, 0x77, 0x26, 0xa3, 0xc4, 0x65, 0x5d, 0xa4, 0xfb, 0xfc, 0x0e, 0x11, 0x08, 0xa8,
    0xfd, 0x17, 0xb4, 0x48, 0xa6, 0x85, 0x54, 0x19, 0x9c, 0x47, 0xd0, 0x8f, 0xfb, 0x10, 0xd4, 0xb8]

/-- Curve functions that know one point. -/
def generatorOps : PubKeyOps where
  isFullyValid key := key = 0x04 :: (generatorX ++ generatorY) ∨ key = 0x02 :: generatorX
  decompress key := if key = 0x02 :: generatorX then some (0x04 :: (generatorX ++ generatorY)) else none

theorem generatorOps_lawful : generatorOps.Lawful := by
  intro x y hx hy hvalid
  simp only [generatorOps, decide_eq_true_eq] at hvalid
  rcases hvalid with hkey | hkey
  · obtain ⟨rfl, rfl⟩ := List.append_inj (List.cons.inj hkey).2 (by rw [hx]; rfl)
    rfl
  · exact absurd (List.cons.inj hkey).1 (by decide)

/-- Coins with outputs of every kind, spent ones between them. -/
def sampleCoins : CCoins where
  fCoinBase := true
  vout := [.null, .null, ⟨0, opReturn :: List.replicate 3 7⟩, .null,
    ⟨50 * coin, opDup :: opHash160 :: 20 :: (List.replicate 20 1 ++ [opEqualverify, opChecksig])⟩,
    ⟨123456789, opHash160 :: 20 :: (List.replicate 20 2 ++ [opEqual])⟩,
    ⟨maxMoney, 33 :: 0x03 :: (List.replicate 32 3 ++ [opChecksig])⟩, .null, .null, .null, .null,
    ⟨1, 65 :: 0x04 :: (generatorX ++ generatorY ++ [opChecksig])⟩]
  nHeight := 120891
  nVersion := 1

/-- An undo record that carries the metadata. -/
def sampleUndo : CTxInUndo where
  txout := ⟨50 * coin, opHash160 :: 20 :: (List.replicate 20 2 ++ [opEqual])⟩
  nHeight := 120891
  nVersion := 2

theorem records_roundTrip_sample :
    (∃ bytes, sampleCoins.serialize generatorOps = some bytes ∧
      sampleCoins.getSerializeSize generatorOps = some (toUint32 bytes.length) ∧
      Reads (CCoins.unserialize generatorOps) sampleCoins bytes) ∧
    Reads (unserializeBlockUndo generatorOps) [[sampleUndo, ⟨⟨0, []⟩, false, 0, 0⟩], []]
      (serializeBlockUndo generatorOps [[sampleUndo, ⟨⟨0, []⟩, false, 0, 0⟩], []]) := by
  obtain ⟨hcoins, -, hblock⟩ := records_roundTrip generatorOps_lawful
  constructor
  · exact hcoins sampleCoins
      ⟨by decide, by decide, by decide, by decide, by decide, by decide, by decide⟩
  · refine (hblock _ ⟨by decide, by decide, ?_⟩).2
    simp only [List.forall_mem_cons, List.not_mem_nil, false_implies, implies_true, and_true]
    constructor
    · exact ⟨by decide, by decide, by decide, by decide, by decide⟩
    · exact ⟨by decide, by decide, by decide, by decide, by decide⟩

/-- A negative version, a version without a height, a script as long as an `unsigned` allows and a
vector above `MAX_SIZE` are not read back. -/
theorem records_not_roundTrip :
    (cleanup [⟨1, []⟩] = [(⟨1, []⟩ : CTxOut)] ∧
      (⟨false, [⟨1, []⟩], 1, -1⟩ : CCoins).isPruned = false ∧
      ((⟨false, [⟨1, []⟩], 1, -1⟩ : CCoins).serialize generatorOps).bind
          (CCoins.unserialize generatorOps) = some (⟨false, [⟨1, []⟩], 1, 127⟩, [])) ∧
    CTxInUndo.unserialize generatorOps
        ((⟨⟨1, []⟩, false, 0, 1⟩ : CTxInUndo).serialize generatorOps) =
      some (⟨⟨1, []⟩, false, 0, 0⟩, []) ∧
    unserializeScript generatorOps
        (serializeScript generatorOps (List.replicate (2 ^ 32 - 6) 0)) ≠
      some (List.replicate (2 ^ 32 - 6) 0, []) ∧
    unserializeBlockUndo generatorOps
      (serializeBlockUndo generatorOps (List.replicate (maxSize + 1) [])) = none := by
  refine ⟨by decide +kernel, by decide +kernel, ?_, ?_⟩
  · rw [unserializeScript_of_wrap generatorOps (by rw [List.length_replicate]; decide)]
    intro h
    have hrest := congrArg List.length (Prod.mk.inj (Option.some.inj h)).2
    rw [List.length_drop, List.length_replicate] at hrest
    exact absurd hrest (by decide)
  · refine readVector_eq_none ?_ ?_ <;> rw [List.length_replicate] <;> decide

end Bitmark
