import Bitmark.Base.Word
import Mathlib.Data.List.TakeWhile
import Mathlib.Data.List.DropRight

/-!
# C strings

A `std::string` may hold a zero byte, but `c_str()` shows a reader only what stands before the
first one. The parsers under `src/` walk over such a text and end where it does.
-/

namespace Bitmark

/-- The text of `c_str()`, as a reader that stops at the terminating zero sees it. -/
def cString (str : Bytes) : Bytes := str.takeWhile (· ≠ 0)

/-- The bytes of a text in the source. -/
def ascii (text : String) : Bytes := text.toList.map fun c ↦ UInt8.ofNat c.toNat

/-- `isspace` in the C locale. -/
def isspace (c : UInt8) : Bool := c == 0x20 || (0x09 ≤ c && c ≤ 0x0d)

/-- `isdigit` in the C locale. -/
def isdigit (c : UInt8) : Bool := 0x30 ≤ c && c ≤ 0x39

@[simp] theorem isspace_zero : isspace 0 = false := rfl

theorem cString_eq_self {str : Bytes} : cString str = str ↔ 0 ∉ str := by
  rw [cString, List.takeWhile_eq_self_iff]
  constructor
  · intro h hzero
    simpa using h 0 hzero
  · intro h c hc
    rw [decide_eq_true_iff]
    exact ne_of_mem_of_not_mem hc h

theorem zero_notMem_cString (str : Bytes) : 0 ∉ cString str := by
  intro h
  simpa using List.mem_takeWhile_imp h

@[simp] theorem cString_cString (str : Bytes) : cString (cString str) = cString str :=
  cString_eq_self.mpr (zero_notMem_cString str)

/-! ### Scanning -/

/-- A scan that passes `xs` and stops at the first character of `ys`. -/
theorem scan_append {p : UInt8 → Bool} {xs ys : Bytes} (hxs : ∀ c ∈ xs, p c = true)
    (hys : ∀ c ∈ ys.head?, p c = false) :
    (xs ++ ys).takeWhile p = xs ∧ (xs ++ ys).dropWhile p = ys := by
  have hneg : ∀ c ∈ ys.head?, ¬p c = true := by
    intro c hc
    rw [hys c hc]
    exact Bool.false_ne_true
  rw [List.takeWhile_append_of_pos hxs, List.dropWhile_append_of_pos hxs]
  cases ys with
  | nil => exact ⟨List.append_nil xs, rfl⟩
  | cons c ys =>
    have hc := hneg c rfl
    exact ⟨by rw [List.takeWhile_cons_of_neg hc, List.append_nil], List.dropWhile_cons_of_neg hc⟩

/-! ### Surrounding spaces -/

/-- A text without the spaces around it. -/
def trim (str : Bytes) : Bytes := (str.dropWhile isspace).rdropWhile isspace

/-- Spaces around a text that has none are what `trim` takes away. -/
theorem trim_append {lead text trail : Bytes} (hlead : ∀ c ∈ lead, isspace c = true)
    (htext : ∀ c ∈ text, isspace c = false) (htrail : ∀ c ∈ trail, isspace c = true) :
    trim (lead ++ (text ++ trail)) = text := by
  rw [trim, List.dropWhile_append_of_pos hlead]
  cases text with
  | nil =>
    rw [List.nil_append, List.dropWhile_eq_nil_iff.mpr htrail]
    rfl
  | cons c text =>
    have hc : ¬isspace c = true := by
      rw [htext c List.mem_cons_self]
      exact Bool.false_ne_true
    have hrev : ∀ x ∈ trail.reverse, isspace x = true := fun x hx ↦
      htrail x (List.mem_reverse.mp hx)
    rw [List.cons_append, List.dropWhile_cons_of_neg hc, ← List.cons_append, List.rdropWhile,
      List.reverse_append, List.dropWhile_append_of_pos hrev]
    have hself : (c :: text).reverse.dropWhile isspace = (c :: text).reverse := by
      rw [List.dropWhile_eq_self_iff]
      intro hlen
      rw [htext _ (List.mem_reverse.mp (List.getElem_mem hlen))]
      exact Bool.false_ne_true
    rw [hself, List.reverse_reverse]

/-- Skipping the spaces in front leaves a text, with spaces after it. -/
theorem exists_skip {lead text trail : Bytes} (hlead : ∀ c ∈ lead, isspace c = true)
    (htext : ∀ c ∈ text, isspace c = false) (htrail : ∀ c ∈ trail, isspace c = true) :
    ∃ rest, (∀ c ∈ rest, isspace c = true) ∧
      (lead ++ (text ++ trail)).dropWhile isspace = text ++ rest := by
  cases text with
  | nil =>
    refine ⟨[], fun c hc ↦ absurd hc List.not_mem_nil, ?_⟩
    rw [List.dropWhile_append_of_pos hlead]
    exact List.dropWhile_eq_nil_iff.mpr htrail
  | cons c text =>
    refine ⟨trail, htrail, (scan_append hlead fun d hd ↦ ?_).2⟩
    obtain rfl : c = d := Option.some.inj hd
    exact htext c List.mem_cons_self

private theorem mem_dropWhile_of_not {α : Type*} {p : α → Bool} {x : α} (hx : ¬p x = true) :
    ∀ {l : List α}, x ∈ l → x ∈ l.dropWhile p
  | c :: l, hmem => by
    rw [List.dropWhile_cons]
    split
    case isTrue hc =>
      obtain rfl | hmem := List.mem_cons.mp hmem
      · exact absurd hc hx
      · exact mem_dropWhile_of_not hx hmem
    case isFalse => exact hmem

/-- What is no space stays. -/
theorem mem_trim {c : UInt8} (hc : isspace c = false) {str : Bytes} (h : c ∈ str) :
    c ∈ trim str := by
  have hneg : ¬isspace c = true := by
    rw [hc]
    exact Bool.false_ne_true
  rw [trim, List.rdropWhile, List.mem_reverse]
  exact mem_dropWhile_of_not hneg (List.mem_reverse.mpr (mem_dropWhile_of_not hneg h))

end Bitmark
