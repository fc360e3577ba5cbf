import Mathlib.Data.FinEnum
import Mathlib.Tactic.FieldSimp
import Bitmark.Primitives.Transaction
import Bitmark.Text.Decimal

/-!
# Amounts in text

`FormatMoney` and `ParseMoney` of `src/util.cpp:309–376`. An amount is a number of units, of which
`COIN` are one coin, and its text is a decimal number of coins.
-/

namespace Bitmark

/-- The trimming loop of `FormatMoney`, `src/util.cpp:319–325`, on the text from its end: a zero goes
where the character two before it is a digit. `none` is a read before the text. -/
def trimLoop : Bytes → Option Bytes
  | c :: x :: y :: str =>
    if c = 0x30 then
      if isdigit y then trimLoop (x :: y :: str) else some (c :: x :: y :: str)
    else some (c :: x :: y :: str)
  | c :: str => if c = 0x30 then none else some (c :: str)
  | [] => none

/-- `FormatMoney`, `src/util.cpp:309`. -/
def formatMoney (n : ℤ) (fPlus : Bool) : Option Bytes :=
  let n_abs := if n > 0 then n else toInt64 (-n)
  let quotient := n_abs.tdiv coin
  let remainder := n_abs.tmod coin
  let str := formatInt 0 quotient ++ 0x2e :: formatInt 8 remainder
  (trimLoop str.reverse).map fun trimmed ↦
    if n < 0 then 0x2d :: trimmed.reverse
    else if fPlus ∧ n > 0 then 0x2b :: trimmed.reverse
    else trimmed.reverse

/-- The loop over the digits after the point, `src/util.cpp:350–355`: the units, and the text that
is left. -/
def fractionLoop (nMult nUnits : ℤ) : Bytes → ℤ × Bytes
  | [] => (nUnits, [])
  | c :: p =>
    if isdigit c ∧ nMult > 0 then
      fractionLoop (nMult.tdiv 10) (toInt64 (nUnits + nMult * digitValue c)) p
    else (nUnits, c :: p)

/-- The loop over the text, `src/util.cpp:345–363`: the digits of the whole part, the units of the
fraction and the text that is left, or `none` where it returns false. -/
def wholeLoop (strWhole : Bytes) : Bytes → Option (Bytes × ℤ × Bytes)
  | [] => some (strWhole, 0, [])
  | c :: p =>
    if c = 0x2e then some (strWhole, fractionLoop (cent * 10) 0 p)
    else if isspace c then some (strWhole, 0, c :: p)
    else if !isdigit c then none
    else wholeLoop (strWhole ++ [c]) p

/-- `ParseMoney(const char*, int64_t&)`, `src/util.cpp:338`, for the text before the terminating
zero. -/
def parseMoneyText (pszIn : Bytes) : Option ℤ := do
  let (strWhole, nUnits, p) ← wholeLoop [] (pszIn.dropWhile isspace)
  if p.any (!isspace ·) then none
  else if strWhole.length > 10 then none
  else if nUnits < 0 ∨ nUnits > coin then none
  else some (toInt64 (atoi64 strWhole * coin + nUnits))

/-- `ParseMoney(const string&, int64_t&)`, `src/util.cpp:333`. -/
def parseMoney (str : Bytes) : Option ℤ := parseMoneyText (cString str)

/-! ### Parsing -/

/-- The multiplier while `k` digits may follow. -/
def multiplier : ℕ → ℤ
  | 0 => 0
  | k + 1 => 10 ^ k

theorem multiplier_tdiv (k : ℕ) : (multiplier (k + 1)).tdiv 10 = multiplier k := by
  cases k with
  | zero => rfl
  | succ k =>
    rw [multiplier, multiplier, pow_succ]
    exact Int.mul_tdiv_cancel _ (by decide)

/-- The loop reads up to `k` digits at their places. -/
theorem fractionLoop_eq {k : ℕ} (hk : k ≤ 8) {u : ℤ} (hu : 0 ≤ u) (hfit : u + 10 ^ k ≤ 10 ^ 8)
    (p : Bytes) :
    let ds := (p.takeWhile isdigit).take k
    fractionLoop (multiplier k) u p = (u + decimal ds * 10 ^ (k - ds.length), p.drop ds.length) := by
  induction p generalizing k u with
  | nil => simp [fractionLoop]
  | cons c p ih =>
    rw [fractionLoop]
    by_cases hc : isdigit c = true
    · cases k with
      | zero =>
        rw [if_neg fun h ↦ absurd h.2 (by decide)]
        simp
      | succ k =>
        have hdigit := digitValue_lt hc
        have hpos : (0 : ℤ) < 10 ^ k := by positivity
        rw [pow_succ] at hfit
        have hstep : (0 : ℤ) ≤ 10 ^ k * digitValue c ∧ 10 ^ k * (digitValue c : ℤ) ≤ 10 ^ k * 9 :=
          ⟨by positivity, Int.mul_le_mul_of_nonneg_left (by omega) hpos.le⟩
        have hexact : toInt64 (u + multiplier (k + 1) * digitValue c) =
            u + 10 ^ k * digitValue c := by
          apply toInt64_of_range
          · rw [multiplier]; omega
          · rw [multiplier]; omega
        have hih := @ih k (by omega) (u + 10 ^ k * digitValue c) (by omega) (by omega)
        rw [if_pos ⟨hc, hpos⟩, multiplier_tdiv, hexact]
        dsimp only at hih ⊢
        rw [hih, List.takeWhile_cons_of_pos hc, List.take_succ_cons, List.length_cons,
          Nat.succ_sub_succ, List.drop_succ_cons, decimal_cons]
        have hlen : ((p.takeWhile isdigit).take k).length ≤ k := List.length_take_le k _
        have hpow : (10 : ℤ) ^ k = 10 ^ ((p.takeWhile isdigit).take k).length *
            10 ^ (k - ((p.takeWhile isdigit).take k).length) := by
          rw [← pow_add, Nat.add_sub_cancel' hlen]
        refine Prod.ext ?_ rfl
        push_cast
        linear_combination (digitValue c : ℤ) * hpow
    · rw [if_neg fun h ↦ hc h.1]
      simp [List.takeWhile_cons_of_neg hc]

/-- The loop takes the digits in front, and then a point, a space or the end. -/
theorem wholeLoop_eq (strWhole p : Bytes) : wholeLoop strWhole p =
    match p.dropWhile isdigit with
    | [] => some (strWhole ++ p.takeWhile isdigit, 0, [])
    | c :: q =>
      if c = 0x2e then some (strWhole ++ p.takeWhile isdigit, fractionLoop (cent * 10) 0 q)
      else if isspace c then some (strWhole ++ p.takeWhile isdigit, 0, c :: q)
      else none := by
  induction p generalizing strWhole with
  | nil => simp [wholeLoop]
  | cons c p ih =>
    rw [wholeLoop]
    by_cases hc : isdigit c = true
    · rw [if_neg (ne_of_isdigit hc rfl), isspace_of_isdigit hc, if_neg Bool.false_ne_true, hc,
        if_neg (by decide), ih, List.takeWhile_cons_of_pos hc, List.dropWhile_cons_of_pos hc,
        List.append_assoc]
      rfl
    · rw [List.takeWhile_cons_of_neg hc, List.dropWhile_cons_of_neg hc, List.append_nil]
      simp [hc]

/-- The units that up to eight digits after the point stand for. -/
def units (ds : Bytes) : ℤ := decimal ds * 10 ^ (8 - ds.length)

@[simp] theorem units_nil : units [] = 0 := by
  rw [units, decimal_nil, Nat.cast_zero, zero_mul]

theorem units_bounds {ds : Bytes} (h : ∀ c ∈ ds, isdigit c = true) (hlen : ds.length ≤ 8) :
    0 ≤ units ds ∧ units ds < 10 ^ 8 := by
  have hlt : (decimal ds : ℤ) < 10 ^ ds.length := mod_cast decimal_lt h
  have hpow : (10 : ℤ) ^ 8 = 10 ^ ds.length * 10 ^ (8 - ds.length) := by
    rw [← pow_add, Nat.add_sub_cancel' hlen]
  rw [units, hpow]
  exact ⟨by positivity, Int.mul_lt_mul_of_pos_right hlt (by positivity)⟩

theorem fractionLoop_start (q : Bytes) :
    let ds := (q.takeWhile isdigit).take 8
    fractionLoop (cent * 10) 0 q = (units ds, q.drop ds.length) := by
  have hloop := fractionLoop_eq le_rfl le_rfl (by norm_num) q
  simp only [zero_add] at hloop
  exact hloop

/-- The loop reads a decimal, and stops at the spaces after it. -/
theorem wholeLoop_text (d : Decimal) (hplaces : d.places.length ≤ 8) {trail : Bytes}
    (htrail : ∀ c ∈ trail, isspace c = true) : wholeLoop [] (d.text ++ trail) =
      some (d.whole, units d.places, trail) := by
  have hspaces : ∀ c ∈ trail.head?, isdigit c = false := by
    intro c hc
    have hspace := htrail c (List.mem_of_mem_head? hc)
    by_contra hdigit
    rw [isspace_of_isdigit (Bool.not_eq_false _ ▸ hdigit)] at hspace
    exact Bool.false_ne_true hspace
  obtain ⟨whole, fraction, hwhole, hfraction⟩ := d
  rw [wholeLoop_eq]
  cases fraction with
  | none =>
    obtain ⟨htake, hdrop⟩ := scan_append hwhole hspaces
    simp only [Decimal.text, Decimal.places, Option.elim_none, Option.getD_none, List.append_nil,
      htake, hdrop]
    cases trail with
    | nil => simp
    | cons c trail =>
      have hc := htrail c List.mem_cons_self
      have hpoint : c ≠ 0x2e := by
        rintro rfl
        exact absurd hc (by decide)
      simp [hpoint, hc]
  | some f =>
    obtain ⟨htake, hdrop⟩ := @scan_append isdigit whole (0x2e :: (f ++ trail)) hwhole
      fun c hc ↦ Option.some.inj hc ▸ rfl
    obtain ⟨htake', -⟩ := scan_append hfraction hspaces
    have hloop := fractionLoop_start (f ++ trail)
    simp only [Option.getD_some] at htake'
    simp only [Decimal.places, Option.getD_some] at hplaces
    simp only [htake', List.take_of_length_le hplaces, List.drop_left] at hloop
    simp only [Decimal.text, Decimal.places, Option.elim_some, Option.getD_some, List.append_assoc,
      List.cons_append, htake, hdrop, if_true, hloop, List.nil_append]

/-- What the loop has read is a decimal. -/
theorem wholeLoop_eq_some {p rest w : Bytes} {u : ℤ} (h : wholeLoop [] p = some (w, u, rest)) :
    ∃ d : Decimal, d.whole = w ∧ d.places.length ≤ 8 ∧ u = units d.places ∧
      p = d.text ++ rest := by
  have hwhole : ∀ c ∈ p.takeWhile isdigit, isdigit c = true := fun c ↦ List.mem_takeWhile_imp
  have hsplit := List.takeWhile_append_dropWhile (p := isdigit) (l := p)
  rw [wholeLoop_eq] at h
  cases hrest : p.dropWhile isdigit with
  | nil =>
    rw [hrest] at h hsplit
    obtain ⟨rfl, rfl, rfl⟩ : p.takeWhile isdigit = w ∧ 0 = u ∧ [] = rest := by simpa using h
    refine ⟨⟨p.takeWhile isdigit, none, hwhole, fun h ↦ by simp⟩, rfl, Nat.zero_le 8, units_nil.symm, ?_⟩
    simpa [Decimal.text] using hsplit.symm
  | cons c q =>
    rw [hrest] at h hsplit
    dsimp only at h
    split at h
    case isTrue hc =>
      rw [fractionLoop_start] at h
      simp only [List.nil_append, Option.some_inj, Prod.mk.injEq] at h
      obtain ⟨rfl, rfl, rfl⟩ := h
      have hplaces : ∀ d ∈ (q.takeWhile isdigit).take 8, isdigit d = true := fun d hd ↦
        List.mem_takeWhile_imp (List.mem_of_mem_take hd)
      have hprefix : (q.takeWhile isdigit).take 8 <+: q :=
        (List.take_prefix 8 _).trans (List.takeWhile_prefix isdigit)
      refine ⟨⟨p.takeWhile isdigit, some ((q.takeWhile isdigit).take 8), hwhole, hplaces⟩, rfl,
        List.length_take_le 8 _, rfl, ?_⟩
      have hq := List.prefix_iff_eq_append.mp hprefix
      simp only [Decimal.text, Option.elim_some, List.append_assoc, List.cons_append, hq, ← hc, hsplit]
    case isFalse =>
      split at h
      case isTrue =>
        obtain ⟨rfl, rfl, rfl⟩ : p.takeWhile isdigit = w ∧ 0 = u ∧ c :: q = rest := by simpa using h
        refine ⟨⟨p.takeWhile isdigit, none, hwhole, fun h ↦ by simp⟩, rfl, Nat.zero_le 8, units_nil.symm, ?_⟩
        simpa [Decimal.text] using hsplit.symm
      case isFalse => cases h

/-- What is made of the parts of a text. -/
theorem parseMoneyText_of_wholeLoop {psz p w : Bytes} {u : ℤ}
    (h : wholeLoop [] (psz.dropWhile isspace) = some (w, u, p)) (hw : ∀ c ∈ w, isdigit c = true)
    (hu : 0 ≤ u ∧ u < 10 ^ 8) : parseMoneyText psz =
      if (∀ c ∈ p, isspace c = true) ∧ w.length ≤ 10 then some (decimal w * 10 ^ 8 + u)
      else none := by
  have hcoin : coin = 10 ^ 8 := rfl
  rw [parseMoneyText, h]
  by_cases hp : ∀ c ∈ p, isspace c = true
  · have hany : p.any (!isspace ·) = false := by simpa using hp
    by_cases hlen : w.length ≤ 10
    · have hlt : (decimal w : ℤ) < 10 ^ 10 := by
        exact_mod_cast (decimal_lt hw).trans_le (Nat.pow_le_pow_right (by decide) hlen)
      have hatoi : atoi64 w = decimal w := min_eq_left (by omega)
      have hrange : toInt64 (atoi64 w * coin + u) = decimal w * 10 ^ 8 + u := by
        rw [hatoi, hcoin]
        exact toInt64_of_range (by omega) (by omega)
      have hunits : ¬(u < 0 ∨ u > coin) := by omega
      simp only [Option.bind_eq_bind, Option.bind_some, hany, hrange]
      rw [if_neg Bool.false_ne_true, if_neg (by omega), if_neg hunits, if_pos ⟨hp, hlen⟩]
    · simp only [Option.bind_eq_bind, Option.bind_some, hany]
      rw [if_neg Bool.false_ne_true, if_pos (by omega), if_neg fun h ↦ hlen h.2]
  · have hany : p.any (!isspace ·) = true := by simpa using hp
    simp only [Option.bind_eq_bind, Option.bind_some, hany]
    rw [if_pos trivial, if_neg fun h ↦ hp h.1]

/-- An amount in text: a decimal of at most ten and eight digits, with spaces around it. -/
theorem parseMoneyText_iff {psz : Bytes} {n : ℤ} : parseMoneyText psz = some n ↔
    ∃ (d : Decimal) (lead trail : Bytes), (∀ c ∈ lead, isspace c = true) ∧
      (∀ c ∈ trail, isspace c = true) ∧ psz = lead ++ (d.text ++ trail) ∧ d.whole.length ≤ 10 ∧
        d.places.length ≤ 8 ∧ n = decimal d.whole * 10 ^ 8 + units d.places := by
  constructor
  · intro h
    obtain ⟨⟨w, u, p⟩, hloop, -⟩ := Option.bind_eq_some_iff.mp h
    obtain ⟨d, rfl, hplaces, rfl, htext⟩ := wholeLoop_eq_some hloop
    rw [parseMoneyText_of_wholeLoop hloop d.whole_isdigit
      (units_bounds d.fraction_isdigit hplaces)] at h
    split at h
    case isTrue hok =>
      refine ⟨d, psz.takeWhile isspace, p, fun c ↦ List.mem_takeWhile_imp, hok.1, ?_, hok.2,
        hplaces, (Option.some.inj h).symm⟩
      rw [← htext, List.takeWhile_append_dropWhile]
    case isFalse => exact absurd h nofun
  · rintro ⟨d, lead, trail, hlead, htrail, rfl, hwhole, hplaces, rfl⟩
    obtain ⟨rest, hrest, hdrop⟩ := exists_skip hlead (fun c ↦ Decimal.isspace_of_mem_text) htrail
    have hloop := wholeLoop_text d hplaces hrest
    rw [← hdrop] at hloop
    rw [parseMoneyText_of_wholeLoop hloop d.whole_isdigit
      (units_bounds d.fraction_isdigit hplaces), if_pos ⟨hrest, hwhole⟩]

/-! ### Formatting -/

/-- The loop takes zeros from the end of the places and leaves at least two. -/
theorem trimLoop_places {r : Bytes} (hdigits : ∀ c ∈ r, isdigit c = true) (hlen : 2 ≤ r.length)
    (ws : Bytes) : ∃ k s, r = List.replicate k 0x30 ++ s ∧ 2 ≤ s.length ∧
      trimLoop (r ++ 0x2e :: ws) = some (s ++ 0x2e :: ws) := by
  induction r with
  | nil => exact absurd hlen (by decide)
  | cons c r ih =>
    match r, hlen with
    | [x], _ =>
      refine ⟨0, [c, x], rfl, le_rfl, ?_⟩
      have hpoint : isdigit 0x2e = false := rfl
      simp [trimLoop, hpoint]
    | x :: y :: r, _ =>
      have hy : isdigit y = true := hdigits y (by simp)
      by_cases hc : c = 0x30
      · obtain ⟨k, s, hs, hslen, htrim⟩ :=
          ih (fun d hd ↦ hdigits d (List.mem_cons_of_mem c hd)) (by simp)
        refine ⟨k + 1, s, ?_, hslen, ?_⟩
        · rw [hs, hc, List.replicate_succ, List.cons_append]
        · rw [← htrim]
          simp [trimLoop, hc, hy]
      · exact ⟨0, c :: x :: y :: r, rfl, by simp, by simp [trimLoop, hc]⟩

/-- The text of an amount is a decimal that stands for it. -/
theorem exists_formatMoney {n : ℤ} (hn : 0 ≤ n) (hmax : n < 10 ^ 18) :
    ∃ d : Decimal, formatMoney n false = some d.text ∧ d.whole.length ≤ 10 ∧ d.places.length ≤ 8 ∧
      n = decimal d.whole * 10 ^ 8 + units d.places := by
  obtain ⟨m, rfl⟩ := Int.eq_ofNat_of_zero_le hn
  have habs : (if (m : ℤ) > 0 then (m : ℤ) else toInt64 (-m)) = m := by
    split
    case isTrue => rfl
    case isFalse h =>
      obtain rfl : m = 0 := by omega
      rfl
  have hquotient : ((m : ℤ).tdiv coin) = ((m / 10 ^ 8 : ℕ) : ℤ) := rfl
  have hremainder : ((m : ℤ).tmod coin) = ((m % 10 ^ 8 : ℕ) : ℤ) := rfl
  obtain ⟨-, hwhole, hwholeValue⟩ := decimalDigits_spec (m / 10 ^ 8)
  obtain ⟨hlen, hdigits, hvalue⟩ :=
    formatInt_spec (w := 8) (by decide) (Nat.mod_lt m (by decide : 10 ^ 8 > 0))
  have hwholeLen : (decimalDigits (m / 10 ^ 8)).length ≤ 10 :=
    length_decimalDigits_le (by decide) (by omega)
  have hformat : formatMoney m false = (trimLoop ((formatInt 8 (m % 10 ^ 8 : ℕ)).reverse ++
      0x2e :: (decimalDigits (m / 10 ^ 8)).reverse)).map List.reverse := by
    rw [formatMoney]
    simp only [habs, hquotient, hremainder, formatInt_zero, List.reverse_append, List.reverse_cons,
      List.append_assoc, List.singleton_append, not_lt.mpr hn, if_false, Bool.false_eq_true, false_and]
  generalize formatInt 8 (m % 10 ^ 8 : ℕ) = places at hlen hdigits hvalue hformat
  obtain ⟨k, s, hsplit, -, htrim⟩ := @trimLoop_places places.reverse
    (fun c hc ↦ hdigits c (List.mem_reverse.mp hc)) (by rw [List.length_reverse, hlen]; decide)
    (decimalDigits (m / 10 ^ 8)).reverse
  have hplaces : places = s.reverse ++ List.replicate k 0x30 := by
    rw [← List.reverse_reverse places, hsplit, List.reverse_append, List.reverse_replicate]
  have hs : ∀ c ∈ s.reverse, isdigit c = true := fun c hc ↦
    hdigits c (hplaces ▸ List.mem_append_left _ hc)
  have hlength : s.reverse.length + k = 8 := by
    rw [hplaces, List.length_append, List.length_replicate] at hlen
    exact hlen
  refine ⟨⟨decimalDigits (m / 10 ^ 8), some s.reverse, hwhole, hs⟩, ?_, hwholeLen,
    Nat.le_of_add_right_le hlength.le, ?_⟩
  · rw [hformat, htrim, Option.map_some, List.reverse_append, List.reverse_cons,
      List.reverse_reverse, List.append_assoc]
    rfl
  · have hunits : units s.reverse = (m % 10 ^ 8 : ℕ) := by
      rw [hplaces, decimal_append, decimal_replicate_zero, List.length_replicate,
        Nat.add_zero] at hvalue
      have hk : 8 - s.reverse.length = k := by omega
      rw [units, hk]
      exact_mod_cast hvalue
    change (m : ℤ) = decimal (decimalDigits (m / 10 ^ 8)) * 10 ^ 8 + units s.reverse
    rw [hwholeValue, hunits]
    exact_mod_cast (Nat.div_add_mod' m (10 ^ 8)).symm

theorem parseMoney_formatMoney {n : ℤ} (hn : 0 ≤ n) (hmax : n < 10 ^ 18) :
    (formatMoney n false).bind parseMoney = some n := by
  obtain ⟨d, hformat, hwhole, hplaces, hvalue⟩ := exists_formatMoney hn hmax
  have hnul : cString d.text = d.text :=
    cString_eq_self.mpr fun h ↦ Decimal.ne_zero_of_mem_text h rfl
  rw [hformat, Option.bind_some, parseMoney, hnul, parseMoneyText_iff]
  exact ⟨d, [], [], nofun, nofun, (List.append_nil _).symm, hwhole, hplaces, hvalue⟩

/-! ### What is accepted -/

/-- An amount in text: a decimal number of coins with a digit and at most eight places, and spaces
around it. -/
def IsMoneyText (str : Bytes) (n : ℤ) : Prop :=
  ∃ (d : Decimal) (lead trail : Bytes), (∀ c ∈ lead, isspace c = true) ∧
    (∀ c ∈ trail, isspace c = true) ∧ str = lead ++ (d.text ++ trail) ∧ d.whole ++ d.places ≠ [] ∧
      d.places.length ≤ 8 ∧ (n : ℚ) = d.toRat * coin

/-- The result of no step leaves the range that amounts have in text. -/
theorem parseMoney_range {str : Bytes} {n : ℤ} (h : parseMoney str = some n) :
    0 ≤ n ∧ n < 10 ^ 18 := by
  obtain ⟨d, -, -, -, -, -, hwhole, hplaces, rfl⟩ := parseMoneyText_iff.mp h
  obtain ⟨hlo, hhi⟩ := units_bounds d.fraction_isdigit hplaces
  have hlt : (decimal d.whole : ℤ) < 10 ^ 10 := by
    exact_mod_cast (decimal_lt d.whole_isdigit).trans_le (Nat.pow_le_pow_right (by decide) hwhole)
  have hpos : (0 : ℤ) ≤ decimal d.whole := Int.natCast_nonneg _
  change 0 ≤ _ + units (d.fraction.getD []) ∧ _ + units (d.fraction.getD []) < _
  omega

theorem toRat_mul_coin (d : Decimal) (hplaces : d.places.length ≤ 8) :
    ((decimal d.whole * 10 ^ 8 + units d.places : ℤ) : ℚ) = d.toRat * coin := by
  have hpow : (10 : ℚ) ^ 8 = 10 ^ (8 - d.places.length) * 10 ^ d.places.length := by
    rw [← pow_add, Nat.sub_add_cancel hplaces]
  have hcoin : (coin : ℚ) = 10 ^ 8 := by norm_num [coin]
  have hdiv : (decimal d.places : ℚ) / 10 ^ d.places.length * 10 ^ 8 =
      decimal d.places * 10 ^ (8 - d.places.length) := by
    rw [hpow]
    field_simp
  rw [hcoin, Decimal.toRat, units, add_mul, hdiv]
  push_cast
  ring

/-- An accepted string is an amount in text where it has a digit and no zero byte. -/
theorem isMoneyText_iff {str : Bytes} {n : ℤ} (h : parseMoney str = some n) :
    IsMoneyText str n ↔ 0 ∉ str ∧ ∃ c ∈ str, isdigit c = true := by
  have hspace : ∀ {cs : Bytes}, (∀ c ∈ cs, isspace c = true) → 0 ∉ cs := by
    intro cs hcs hzero
    exact absurd (hcs 0 hzero) (by decide)
  constructor
  · rintro ⟨d, lead, trail, hlead, htrail, rfl, hdigits, -, -⟩
    refine ⟨fun hzero ↦ ?_, ?_⟩
    · obtain hzero | hzero := List.mem_append.mp hzero
      · exact hspace hlead hzero
      · obtain hzero | hzero := List.mem_append.mp hzero
        · exact Decimal.ne_zero_of_mem_text hzero rfl
        · exact hspace htrail hzero
    · obtain ⟨c, hc⟩ := List.exists_mem_of_ne_nil _ hdigits
      exact ⟨c, List.mem_append_right _ (List.mem_append_left _ (Decimal.mem_text_of_mem hc)),
        Decimal.isdigit_of_mem hc⟩
  · rintro ⟨hnul, c, hc, hdigit⟩
    rw [parseMoney, cString_eq_self.mpr hnul] at h
    obtain ⟨d, lead, trail, hlead, htrail, rfl, -, hplaces, rfl⟩ := parseMoneyText_iff.mp h
    refine ⟨d, lead, trail, hlead, htrail, rfl, ?_, hplaces, toRat_mul_coin d hplaces⟩
    have hnone : ∀ {cs : Bytes}, (∀ c ∈ cs, isspace c = true) → c ∉ cs := by
      intro cs hcs hmem
      exact Bool.false_ne_true ((isspace_of_isdigit hdigit).symm.trans (hcs c hmem))
    obtain hmem | hmem := List.mem_append.mp hc
    · exact absurd hmem (hnone hlead)
    obtain hmem | hmem := List.mem_append.mp hmem
    · obtain hmem | rfl := Decimal.mem_text hmem
      · exact List.ne_nil_of_mem hmem
      · exact absurd hdigit (by decide)
    · exact absurd hmem (hnone htrail)

/-- Amounts come back from their texts, an accepted string gives its exact value in range, and it is
an amount in text where it has a digit and no zero byte. -/
theorem money_roundTrip_iff (n : ℤ) (str : Bytes) :
    (0 ≤ n → n < 10 ^ 18 → (formatMoney n false).bind parseMoney = some n) ∧
      (parseMoney str = some n → (0 ≤ n ∧ n < 10 ^ 18) ∧
        (IsMoneyText str n ↔ 0 ∉ str ∧ ∃ c ∈ str, isdigit c = true)) :=
  ⟨parseMoney_formatMoney, fun h ↦ ⟨parseMoney_range h, isMoneyText_iff h⟩⟩

/-- An amount with its text, and a text that is accepted. -/
theorem money_roundTrip_iff_sample : (formatMoney 123456789 false).bind parseMoney = some 123456789 ∧
    parseMoney (ascii " .5") = some 50000000 ∧ IsMoneyText (ascii " .5") 50000000 :=
  have haccepted : parseMoney (ascii " .5") = some 50000000 := by decide
  ⟨(money_roundTrip_iff 123456789 []).1 (by decide) (by decide), haccepted,
    ((money_roundTrip_iff 50000000 (ascii " .5")).2 haccepted).2.mpr (by decide)⟩

/-- The empty string and a point alone are accepted, and what follows a zero byte is not seen. -/
theorem parseMoney_accepts_no_digits : parseMoney [] = some 0 ∧ ¬IsMoneyText [] 0 ∧
    parseMoney (ascii ".") = some 0 ∧ parseMoney (ascii "1" ++ 0 :: ascii "x") = some 100000000 := by
  refine ⟨by decide, ?_, by decide, by decide⟩
  rintro ⟨d, lead, trail, -, -, htext, hdigits, -, -⟩
  obtain ⟨-, htext⟩ := List.append_eq_nil_iff.mp htext.symm
  obtain ⟨c, hc⟩ := List.exists_mem_of_ne_nil _ hdigits
  have hmem := Decimal.mem_text_of_mem hc
  rw [(List.append_eq_nil_iff.mp htext).1] at hmem
  exact List.not_mem_nil hmem

end Bitmark
