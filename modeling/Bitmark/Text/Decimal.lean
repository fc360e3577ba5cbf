import Bitmark.Base.CString
import Bitmark.Lib.Radix

/-!
# Decimal text

Numbers as `%d` writes them and `strtoll` reads them, and decimals with a point as a type of its
own: their text, and the rational number they stand for.
-/

namespace Bitmark

open Radix

/-- The digit `d` of a number in text. -/
def digitChar (d : ℕ) : UInt8 := UInt8.ofNat (0x30 + d)

/-- `c - '0'`. -/
def digitValue (c : UInt8) : ℕ := c.toNat - 0x30

/-- The number that the digits of a text denote. -/
def decimal (ds : Bytes) : ℕ := value 10 (ds.map digitValue)

/-- The digits of `%d` for a number that is not negative. -/
def decimalDigits (n : ℕ) : Bytes :=
  if n = 0 then [0x30] else (Nat.digits 10 n).reverse.map digitChar

/-- `%d`, or `%0wd` for a width `w`: zeros after the sign fill the width. -/
def formatInt (w : ℕ) (x : ℤ) : Bytes :=
  let ds := decimalDigits x.natAbs
  if x < 0 then 0x2d :: (List.replicate (w - 1 - ds.length) 0x30 ++ ds)
  else List.replicate (w - ds.length) 0x30 ++ ds

/-- `atoi64`, `src/util.h:234`, of a text of digits: `strtoll` stops at the end of the range. -/
def atoi64 (str : Bytes) : ℤ := min (decimal str) (2 ^ 63 - 1)

theorem digitChar_spec : ∀ d, d < 10 → isdigit (digitChar d) = true ∧ digitValue (digitChar d) = d := by
  decide

theorem isdigit_iff (c : UInt8) : isdigit c = true ↔ 0x30 ≤ c.toNat ∧ c.toNat ≤ 0x39 := by
  rw [isdigit, Bool.and_eq_true, decide_eq_true_iff, decide_eq_true_iff, UInt8.le_iff_toNat_le,
    UInt8.le_iff_toNat_le]
  rfl

theorem digitValue_lt {c : UInt8} (h : isdigit c = true) : digitValue c < 10 := by
  rw [isdigit_iff] at h
  rw [digitValue]
  omega

/-- A digit is no space, no point, and does not end a text. -/
theorem isspace_of_isdigit {c : UInt8} (h : isdigit c = true) : isspace c = false := by
  rw [isdigit_iff] at h
  rw [← Bool.not_eq_true, isspace, Bool.or_eq_true, Bool.and_eq_true, beq_iff_eq,
    decide_eq_true_iff, decide_eq_true_iff, ← UInt8.toNat_inj, UInt8.le_iff_toNat_le,
    UInt8.le_iff_toNat_le]
  change ¬(c.toNat = 0x20 ∨ 0x09 ≤ c.toNat ∧ c.toNat ≤ 0x0d)
  omega

theorem ne_of_isdigit {c d : UInt8} (h : isdigit c = true) (hd : isdigit d = false) : c ≠ d := by
  rintro rfl
  exact Bool.false_ne_true (hd.symm.trans h)

theorem decimal_append (ds es : Bytes) :
    decimal (ds ++ es) = decimal ds * 10 ^ es.length + decimal es := by
  rw [decimal, List.map_append, value_append, List.length_map]
  rfl

theorem decimal_cons (c : UInt8) (ds : Bytes) :
    decimal (c :: ds) = digitValue c * 10 ^ ds.length + decimal ds := by
  rw [decimal, List.map_cons, value_cons, List.length_map]
  rfl

@[simp] theorem decimal_nil : decimal [] = 0 := rfl

theorem decimal_replicate_zero (k : ℕ) : decimal (List.replicate k 0x30) = 0 := by
  rw [decimal, List.map_replicate]
  exact value_replicate_zero 10 k

theorem decimal_lt {ds : Bytes} (h : ∀ c ∈ ds, isdigit c = true) : decimal ds < 10 ^ ds.length := by
  have hdigits : ∀ d ∈ ds.map digitValue, d < 10 := by
    intro d hd
    obtain ⟨c, hc, rfl⟩ := List.mem_map.mp hd
    exact digitValue_lt (h c hc)
  have hlt := value_lt (by decide) hdigits
  rwa [List.length_map] at hlt

theorem decimalDigits_spec (n : ℕ) : decimalDigits n ≠ [] ∧
    (∀ c ∈ decimalDigits n, isdigit c = true) ∧ decimal (decimalDigits n) = n := by
  rw [decimalDigits]
  split
  case isTrue h => exact ⟨by decide, List.forall_mem_singleton.mpr rfl, h.symm⟩
  case isFalse h =>
    have hlt : ∀ d ∈ (Nat.digits 10 n).reverse, d < 10 := fun d hd ↦
      Nat.digits_lt_base (by decide) (List.mem_reverse.mp hd)
    refine ⟨by simpa [Nat.digits_eq_nil_iff_eq_zero] using h, fun c hc ↦ ?_, ?_⟩
    · obtain ⟨d, hd, rfl⟩ := List.mem_map.mp hc
      exact (digitChar_spec d (hlt d hd)).1
    · have hdigits : ((Nat.digits 10 n).reverse.map digitChar).map digitValue =
          (Nat.digits 10 n).reverse := by
        rw [List.map_map]
        exact (List.map_congr_left fun d hd ↦ (digitChar_spec d (hlt d hd)).2).trans (List.map_id _)
      rw [decimal, hdigits, value_digits]

theorem length_decimalDigits_le {n w : ℕ} (hw : 0 < w) (h : n < 10 ^ w) :
    (decimalDigits n).length ≤ w := by
  rw [decimalDigits]
  split
  case isTrue => exact hw
  case isFalse =>
    rw [List.length_map, List.length_reverse]
    exact (Nat.digits_length_le_iff (by decide) n).mpr h

/-- A number that is not negative, filled up to a width that it fits. -/
theorem formatInt_spec {w n : ℕ} (hw : 0 < w) (h : n < 10 ^ w) : (formatInt w n).length = w ∧
    (∀ c ∈ formatInt w n, isdigit c = true) ∧ decimal (formatInt w n) = n := by
  obtain ⟨-, hdigits, hvalue⟩ := decimalDigits_spec n
  have hlen := length_decimalDigits_le hw h
  have hformat : formatInt w n =
      List.replicate (w - (decimalDigits n).length) 0x30 ++ decimalDigits n := by
    rw [formatInt, if_neg (by omega), Int.natAbs_natCast]
  rw [hformat]
  refine ⟨?_, fun c hc ↦ ?_, ?_⟩
  · rw [List.length_append, List.length_replicate]
    omega
  · obtain hc | hc := List.mem_append.mp hc
    · rw [List.eq_of_mem_replicate hc]
      rfl
    · exact hdigits c hc
  · rw [decimal_append, decimal_replicate_zero, hvalue, Nat.zero_mul, Nat.zero_add]

theorem formatInt_zero (n : ℕ) : formatInt 0 n = decimalDigits n := by
  rw [formatInt, if_neg (by omega), Int.natAbs_natCast, Nat.zero_sub, List.replicate_zero,
    List.nil_append]

/-! ### Decimals with a point -/

/-- An unsigned decimal: its digits, and those after the point where it has one. -/
structure Decimal where
  whole : Bytes
  fraction : Option Bytes
  whole_isdigit : ∀ c ∈ whole, isdigit c = true
  fraction_isdigit : ∀ c ∈ fraction.getD [], isdigit c = true

namespace Decimal

/-- The digits after the point. -/
def places (d : Decimal) : Bytes := d.fraction.getD []

/-- The decimal in text. -/
def text (d : Decimal) : Bytes := d.whole ++ d.fraction.elim [] (0x2e :: ·)

/-- The number that the decimal denotes. -/
def toRat (d : Decimal) : ℚ := decimal d.whole + decimal d.places / 10 ^ d.places.length

/-- A character of the text is a digit or the point. -/
theorem mem_text {d : Decimal} {c : UInt8} (h : c ∈ d.text) :
    c ∈ d.whole ++ d.places ∨ c = 0x2e := by
  obtain ⟨whole, fraction, hwhole, hfraction⟩ := d
  cases fraction with
  | none => exact Or.inl h
  | some f =>
    simp only [text, places, Option.elim_some, Option.getD_some, List.mem_append,
      List.mem_cons] at h ⊢
    tauto

theorem isdigit_of_mem {d : Decimal} {c : UInt8} (h : c ∈ d.whole ++ d.places) :
    isdigit c = true := by
  obtain h | h := List.mem_append.mp h
  · exact d.whole_isdigit c h
  · exact d.fraction_isdigit c h

theorem mem_text_of_mem {d : Decimal} {c : UInt8} (h : c ∈ d.whole ++ d.places) : c ∈ d.text := by
  obtain ⟨whole, fraction, hwhole, hfraction⟩ := d
  cases fraction with
  | none => exact h
  | some f =>
    simp only [text, places, Option.elim_some, Option.getD_some, List.mem_append,
      List.mem_cons] at h ⊢
    tauto

theorem isspace_of_mem_text {d : Decimal} {c : UInt8} (h : c ∈ d.text) : isspace c = false := by
  obtain h | rfl := mem_text h
  · exact isspace_of_isdigit (isdigit_of_mem h)
  · rfl

theorem ne_zero_of_mem_text {d : Decimal} {c : UInt8} (h : c ∈ d.text) : c ≠ 0 := by
  obtain h | rfl := mem_text h
  · exact ne_of_isdigit (isdigit_of_mem h) rfl
  · decide

end Decimal

end Bitmark
