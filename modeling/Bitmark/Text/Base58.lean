import Bitmark.Base.CString
import Bitmark.Lib.Radix

/-!
# Base58

`EncodeBase58` and `DecodeBase58` of `src/base58.cpp` convert numbers in a buffer that is allocated
before the first digit is seen. Both answer an error where the carry assertion would fail, and where
the `int` that counts leading zeros would overflow.
-/

namespace Bitmark

open Radix

/-- Why a conversion does not end. -/
inductive Base58Fault
  | carry
  | zeroes
  deriving DecidableEq

/-- `pszBase58`, `src/base58.cpp:20`. -/
def pszBase58 : Bytes := ascii "123456789ABCDEFGHJKLMNPQRSTUVWXYZabcdefghijkmnopqrstuvwxyz"

/-- `pszBase58[d]`. -/
def base58Letter (d : ℕ) : UInt8 := pszBase58.getD d 0

/-- A byte into the buffer, `src/base58.cpp:79–87`. -/
def encodeStep (b58 : List ℕ) (ch : UInt8) : Except Base58Fault (List ℕ) :=
  let r := mulAdd 58 256 ch.toNat b58
  if r.2 = 0 then .ok r.1 else .error .carry

/-- `EncodeBase58`, `src/base58.cpp:68`. -/
def encodeBase58 (vch : Bytes) : Except Base58Fault Bytes :=
  let zeroes := (vch.takeWhile (· == 0)).length
  let rest := vch.dropWhile (· == 0)
  if 2 ^ 31 ≤ zeroes then .error .zeroes
  else do
    let b58 ← rest.foldlM encodeStep (List.replicate (rest.length * 138 / 100 + 1) 0)
    return List.replicate zeroes 0x31 ++ (strip b58).map base58Letter

/-- The loop over the characters of a text, `src/base58.cpp:34–49`: the buffer and the text after
the digits, or `none` at a character that is no digit. -/
def decodeLoop (b256 : List ℕ) : Bytes → Except Base58Fault (Option (List ℕ × Bytes))
  | [] => .ok (some (b256, []))
  | c :: psz =>
    if isspace c then .ok (some (b256, c :: psz))
    else match pszBase58.idxOf? c with
      | none => .ok none
      | some d =>
        let r := mulAdd 256 58 d b256
        if r.2 = 0 then decodeLoop r.1 psz else .error .carry

/-- `DecodeBase58(const char*)`, `src/base58.cpp:22`, for the text before the terminating zero; `none`
where it returns false. -/
def decodeBase58Text (psz : Bytes) : Except Base58Fault (Option Bytes) :=
  let psz := psz.dropWhile isspace
  let zeroes := (psz.takeWhile (· == 0x31)).length
  let rest := psz.dropWhile (· == 0x31)
  if 2 ^ 31 ≤ zeroes then .error .zeroes
  else do
    match ← decodeLoop (List.replicate (rest.length * 733 / 1000 + 1) 0) rest with
    | none => return none
    | some (b256, psz) =>
      if psz.dropWhile isspace ≠ [] then return none
      else return some (List.replicate zeroes 0 ++ (strip b256).map UInt8.ofNat)

/-- `DecodeBase58(const std::string&)`, `src/base58.cpp:104`. -/
def decodeBase58 (str : Bytes) : Except Base58Fault (Option Bytes) := decodeBase58Text (cString str)

/-- The four bytes of the checksum, `src/base58.cpp:111`. -/
def base58Checksum (Hash : Bytes → Uint256) (vch : Bytes) : Bytes := (bytes256 (Hash vch)).take 4

/-- `EncodeBase58Check`, `src/base58.cpp:108`. -/
def encodeBase58Check (Hash : Bytes → Uint256) (vchIn : Bytes) : Except Base58Fault Bytes :=
  encodeBase58 (vchIn ++ base58Checksum Hash vchIn)

/-- `DecodeBase58Check(const char*)`, `src/base58.cpp:116`. -/
def decodeBase58CheckText (Hash : Bytes → Uint256) (psz : Bytes) :
    Except Base58Fault (Option Bytes) := do
  match ← decodeBase58Text psz with
  | none => return none
  | some vchRet =>
    if vchRet.length < 4 then return none
    else
      let vch := vchRet.take (vchRet.length - 4)
      if base58Checksum Hash vch ≠ vchRet.drop (vchRet.length - 4) then return none
      else return some vch

/-- `DecodeBase58Check(const std::string&)`, `src/base58.cpp:133`. -/
def decodeBase58Check (Hash : Bytes → Uint256) (str : Bytes) : Except Base58Fault (Option Bytes) :=
  decodeBase58CheckText Hash (cString str)

/-! ### The alphabet -/

theorem nodup_pszBase58 : pszBase58.Nodup := by decide +kernel

theorem idxOf?_base58Letter {d : ℕ} (hd : d < 58) : pszBase58.idxOf? (base58Letter d) = some d :=
  idxOf?_getD nodup_pszBase58 hd

/-- No letter is a space, or ends a text, and only the first one stands for zero. -/
theorem base58Letter_spec : ∀ d, d < 58 →
    isspace (base58Letter d) = false ∧ base58Letter d ≠ 0 ∧ (base58Letter d = 0x31 ↔ d = 0) := by
  decide +kernel

/-! ### The buffers -/

/-- The bytes go into the buffer without a carry out of it. -/
theorem foldlM_encodeStep {L x : ℕ} {b58 : List ℕ} (hbuf : Holds 58 L x b58) (bs : Bytes)
    (hfit : (x + 1) * 256 ^ bs.length ≤ 58 ^ L) :
    ∃ out, bs.foldlM encodeStep b58 = .ok out ∧
      Holds 58 L (x * 256 ^ bs.length + value 256 (bs.map UInt8.toNat)) out := by
  induction bs generalizing x b58 with
  | nil => exact ⟨b58, rfl, by simpa using hbuf⟩
  | cons c bs ih =>
    have hc := c.toNat_lt
    have hnext : (256 * x + c.toNat + 1) * 256 ^ bs.length ≤ 58 ^ L := by
      refine le_trans ?_ hfit
      rw [List.length_cons, pow_succ, Nat.mul_comm (256 ^ _), ← Nat.mul_assoc]
      exact Nat.mul_le_mul_right _ (by omega)
    have hlt : 256 * x + c.toNat < 58 ^ L :=
      (Nat.le_mul_of_pos_right _ (by positivity)).trans hnext
    obtain ⟨hcarry, hstep⟩ := hbuf.mulAdd (by decide) hlt
    obtain ⟨out, hout, hholds⟩ := ih hstep hnext
    refine ⟨out, ?_, ?_⟩
    · rw [List.foldlM_cons, encodeStep, if_pos hcarry]
      exact hout
    · have hvalue : (256 * x + c.toNat) * 256 ^ bs.length + value 256 (bs.map UInt8.toNat) =
          x * 256 ^ (c :: bs).length + value 256 ((c :: bs).map UInt8.toNat) := by
        rw [List.map_cons, value_cons, List.length_map, List.length_cons]
        ring
      rwa [hvalue] at hholds

/-- The digits in front of a text and what follows them, or `none` at another character. -/
def digitsOf : Bytes → Option (List ℕ × Bytes)
  | [] => some ([], [])
  | c :: psz =>
    if isspace c then some ([], c :: psz)
    else (pszBase58.idxOf? c).bind fun d ↦ (digitsOf psz).map fun r ↦ (d :: r.1, r.2)

/-- The digits of a text go into the buffer without a carry out of it. -/
theorem decodeLoop_eq {L x : ℕ} {b256 : List ℕ} (hbuf : Holds 256 L x b256) (psz : Bytes)
    (hfit : (x + 1) * 58 ^ psz.length ≤ 256 ^ L) :
    (digitsOf psz = none ∧ decodeLoop b256 psz = .ok none) ∨
      ∃ ds rest out, digitsOf psz = some (ds, rest) ∧ decodeLoop b256 psz = .ok (some (out, rest)) ∧
        Holds 256 L (x * 58 ^ ds.length + value 58 ds) out := by
  induction psz generalizing x b256 with
  | nil => exact Or.inr ⟨[], [], b256, rfl, rfl, by simpa using hbuf⟩
  | cons c psz ih =>
    rw [digitsOf, decodeLoop]
    by_cases hspace : isspace c = true
    · rw [if_pos hspace, if_pos hspace]
      exact Or.inr ⟨[], c :: psz, b256, rfl, rfl, by simpa using hbuf⟩
    rw [if_neg hspace, if_neg hspace]
    cases hd : pszBase58.idxOf? c with
    | none => exact Or.inl ⟨rfl, rfl⟩
    | some d =>
      have hlt : d < 58 := (getD_of_idxOf? (z := 0) hd).1
      have hnext : (58 * x + d + 1) * 58 ^ psz.length ≤ 256 ^ L := by
        refine le_trans ?_ hfit
        rw [List.length_cons, pow_succ, Nat.mul_comm (58 ^ _), ← Nat.mul_assoc]
        exact Nat.mul_le_mul_right _ (by omega)
      have hin : 58 * x + d < 256 ^ L := (Nat.le_mul_of_pos_right _ (by positivity)).trans hnext
      obtain ⟨hcarry, hstep⟩ := hbuf.mulAdd (by decide) hin
      simp only [hcarry, if_true, Option.bind_some]
      obtain ⟨hnone, hloop⟩ | ⟨ds, rest, out, hsome, hloop, hholds⟩ := ih hstep hnext
      · exact Or.inl ⟨by rw [hnone]; rfl, hloop⟩
      · refine Or.inr ⟨d :: ds, rest, out, by rw [hsome]; rfl, hloop, ?_⟩
        have hvalue : (58 * x + d) * 58 ^ ds.length + value 58 ds =
            x * 58 ^ (d :: ds).length + value 58 (d :: ds) := by
          rw [value_cons, List.length_cons]
          ring
        rwa [hvalue] at hholds

theorem encode_fits (n : ℕ) : 256 ^ n ≤ 58 ^ (n * 138 / 100 + 1) :=
  pow_le_pow_size (q := 8) (p := 11) (by decide) (by decide) (by decide) (by norm_num) (by decide) n

theorem decode_fits (n : ℕ) : 58 ^ n ≤ 256 ^ (n * 733 / 1000 + 1) :=
  pow_le_pow_size (q := 71) (p := 52) (by decide) (by decide) (by decide) (by norm_num) (by decide) n

/-! ### Texts and byte strings of a number -/

/-- The number of zero bytes in front. -/
def leadingZeroes (vch : Bytes) : ℕ := (vch.takeWhile (· == 0)).length

/-- The number that the bytes denote, the high byte first. -/
def bytesNumber (vch : Bytes) : ℕ := value 256 (vch.map UInt8.toNat)

/-- The byte string of a number, after some zero bytes. -/
def numberBytes (zeroes x : ℕ) : Bytes :=
  List.replicate zeroes 0 ++ (Nat.digits 256 x).reverse.map UInt8.ofNat

/-- The text of a number, after some letters for zero. -/
def numberText (zeroes x : ℕ) : Bytes :=
  List.replicate zeroes 0x31 ++ (Nat.digits 58 x).reverse.map base58Letter

theorem toNat_lt_of_mem_map {vch : Bytes} : ∀ d ∈ vch.map UInt8.toNat, d < 256 := by
  intro d hd
  obtain ⟨b, -, rfl⟩ := List.mem_map.mp hd
  exact b.toNat_lt

theorem map_toNat_dropWhile (vch : Bytes) :
    (vch.dropWhile (· == 0)).map UInt8.toNat = strip (vch.map UInt8.toNat) := by
  have hzero : (fun d : ℕ ↦ d == 0) ∘ UInt8.toNat = (· == 0) := by
    funext b
    rw [Function.comp_apply, Bool.eq_iff_iff, beq_iff_eq, beq_iff_eq]
    exact UInt8.toNat_inj (b := 0)
  rw [strip, List.dropWhile_map, hzero]

theorem bytesNumber_dropWhile (vch : Bytes) :
    value 256 ((vch.dropWhile (· == 0)).map UInt8.toNat) = bytesNumber vch := by
  rw [map_toNat_dropWhile, value_strip]
  rfl

/-- A byte string is determined by its leading zero bytes and its number. -/
theorem numberBytes_bytesNumber (vch : Bytes) :
    numberBytes (leadingZeroes vch) (bytesNumber vch) = vch := by
  have hzero : List.replicate (leadingZeroes vch) 0 = vch.takeWhile (· == 0) := by
    rw [eq_comm, List.eq_replicate_iff]
    exact ⟨rfl, fun b hb ↦ beq_iff_eq.mp (List.mem_takeWhile_imp (p := (· == 0)) hb)⟩
  have hrest : (Nat.digits 256 (bytesNumber vch)).reverse.map UInt8.ofNat =
      vch.dropWhile (· == 0) := by
    rw [bytesNumber, ← strip_eq_digits (by decide) toNat_lt_of_mem_map, ← map_toNat_dropWhile,
      List.map_map]
    exact List.map_id'' (fun b ↦ UInt8.ofNat_toNat) _
  rw [numberBytes, hzero, hrest, List.takeWhile_append_dropWhile]

theorem encodeBase58_eq (vch : Bytes) : encodeBase58 vch =
    if 2 ^ 31 ≤ leadingZeroes vch then .error .zeroes
    else .ok (numberText (leadingZeroes vch) (bytesNumber vch)) := by
  rw [encodeBase58]
  split
  case isTrue h => exact (if_pos h).symm
  case isFalse h =>
    obtain ⟨out, hout, hholds⟩ := foldlM_encodeStep
      (holds_zero (by decide) ((vch.dropWhile (· == 0)).length * 138 / 100 + 1))
      (vch.dropWhile (· == 0)) (by rw [Nat.zero_add, Nat.one_mul]; exact encode_fits _)
    rw [Nat.zero_mul, Nat.zero_add, bytesNumber_dropWhile] at hholds
    have hstrip := strip_eq_digits (by decide) hholds.lt
    rw [hholds.value_eq] at hstrip
    rw [hout]
    change Except.ok (List.replicate _ 0x31 ++ (strip out).map base58Letter) = _
    rw [hstrip]
    exact (if_neg h).symm

/-! ### Decoding -/

theorem digitsOf_append {ds : List ℕ} (hds : ∀ d ∈ ds, d < 58) {trail : Bytes}
    (htrail : ∀ c ∈ trail, isspace c = true) :
    digitsOf (ds.map base58Letter ++ trail) = some (ds, trail) := by
  induction ds with
  | nil =>
    cases trail with
    | nil => rfl
    | cons c trail => exact if_pos (htrail c List.mem_cons_self)
  | cons d ds ih =>
    have hd := hds d List.mem_cons_self
    rw [List.map_cons, List.cons_append, digitsOf, (base58Letter_spec d hd).1,
      if_neg Bool.false_ne_true, idxOf?_base58Letter hd, Option.bind_some,
      ih fun e he ↦ hds e (List.mem_cons_of_mem d he)]
    rfl

theorem digitsOf_eq_some {psz rest : Bytes} {ds : List ℕ} (h : digitsOf psz = some (ds, rest)) :
    psz = ds.map base58Letter ++ rest ∧ ∀ d ∈ ds, d < 58 := by
  induction psz generalizing ds with
  | nil =>
    obtain ⟨rfl, rfl⟩ := Prod.mk.inj (Option.some.inj h)
    exact ⟨rfl, fun d hd ↦ absurd hd List.not_mem_nil⟩
  | cons c psz ih =>
    rw [digitsOf] at h
    split at h
    case isTrue =>
      obtain ⟨rfl, rfl⟩ := Prod.mk.inj (Option.some.inj h)
      exact ⟨rfl, fun d hd ↦ absurd hd List.not_mem_nil⟩
    case isFalse =>
      obtain ⟨d, hd, hmap⟩ := Option.bind_eq_some_iff.mp h
      obtain ⟨⟨es, tail⟩, hes, heq⟩ := Option.map_eq_some_iff.mp hmap
      obtain ⟨rfl, rfl⟩ := Prod.mk.inj heq
      obtain ⟨hlt, hletter⟩ := getD_of_idxOf? (z := 0) hd
      obtain ⟨hpsz, hds⟩ := ih hes
      refine ⟨?_, fun e he ↦ ?_⟩
      · rw [hpsz, List.map_cons, List.cons_append, base58Letter, hletter]
      · obtain rfl | he := List.mem_cons.mp he
        · exact hlt
        · exact hds e he

/-- What a text decodes to, with no buffer. -/
theorem decodeBase58Text_eq (psz : Bytes) : decodeBase58Text psz =
    let ones := ((psz.dropWhile isspace).takeWhile (· == 0x31)).length
    if 2 ^ 31 ≤ ones then .error .zeroes
    else .ok ((digitsOf ((psz.dropWhile isspace).dropWhile (· == 0x31))).bind fun r ↦
      if r.2.dropWhile isspace ≠ [] then none else some (numberBytes ones (value 58 r.1))) := by
  rw [decodeBase58Text]
  split
  case isTrue h => exact (if_pos h).symm
  case isFalse h =>
    refine Eq.trans ?_ (if_neg h).symm
    generalize (psz.dropWhile isspace).dropWhile (· == 0x31) = rest
    obtain ⟨hnone, hloop⟩ | ⟨ds, tail, out, hsome, hloop, hholds⟩ := decodeLoop_eq
      (holds_zero (by decide) (rest.length * 733 / 1000 + 1)) rest
      (by rw [Nat.zero_add, Nat.one_mul]; exact decode_fits _)
    · rw [hnone, hloop]
      rfl
    · rw [Nat.zero_mul, Nat.zero_add] at hholds
      have hstrip := strip_eq_digits (by decide) hholds.lt
      rw [hholds.value_eq] at hstrip
      rw [hsome, hloop, Option.bind_some, numberBytes, ← hstrip]
      change (if tail.dropWhile isspace ≠ [] then Except.ok none else _) = _
      split
      · rfl
      · rfl

theorem digits_lt (x : ℕ) : ∀ d ∈ (Nat.digits 58 x).reverse, d < 58 := fun _ hd ↦
  Nat.digits_lt_base (by decide) (List.mem_reverse.mp hd)

/-- The letters for zero in front of a number are the first ones of its text. -/
theorem scan_numberText (zeroes x : ℕ) {trail : Bytes} (htrail : ∀ c ∈ trail, isspace c = true) :
    (numberText zeroes x ++ trail).takeWhile (· == 0x31) = List.replicate zeroes 0x31 ∧
      (numberText zeroes x ++ trail).dropWhile (· == 0x31) =
        (Nat.digits 58 x).reverse.map base58Letter ++ trail := by
  rw [numberText, List.append_assoc]
  refine scan_append (fun c hc ↦ beq_iff_eq.mpr (List.eq_of_mem_replicate hc)) fun c hc ↦ ?_
  have hlt := digits_lt x
  have hstrip := strip_digits (by decide : 1 < 58) x
  generalize (Nat.digits 58 x).reverse = ds at hc hlt hstrip
  rw [beq_eq_false_iff_ne]
  cases ds with
  | nil =>
    rintro rfl
    exact absurd (htrail _ (List.mem_of_mem_head? hc)) (by decide)
  | cons d ds =>
    obtain rfl : base58Letter d = c := Option.some.inj hc
    have hd : d ≠ 0 := by
      have hne := List.dropWhile_eq_self_iff.mp hstrip (Nat.zero_lt_succ _)
      simpa using hne
    exact mt (base58Letter_spec d (hlt d List.mem_cons_self)).2.2.mp hd

theorem numberText_spec (zeroes x : ℕ) : ∀ c ∈ numberText zeroes x, isspace c = false ∧ c ≠ 0 := by
  intro c hc
  obtain hc | hc := List.mem_append.mp hc
  · rw [List.eq_of_mem_replicate hc]
    decide
  · obtain ⟨d, hd, rfl⟩ := List.mem_map.mp hc
    have hspec := base58Letter_spec d (digits_lt x d hd)
    exact ⟨hspec.1, hspec.2.1⟩

/-- The text of a number is decoded, with any spaces around it. -/
theorem decodeBase58Text_numberText {zeroes : ℕ} (hzeroes : zeroes < 2 ^ 31) (x : ℕ)
    {lead trail : Bytes} (hlead : ∀ c ∈ lead, isspace c = true)
    (htrail : ∀ c ∈ trail, isspace c = true) :
    decodeBase58Text (lead ++ (numberText zeroes x ++ trail)) =
      .ok (some (numberBytes zeroes x)) := by
  obtain ⟨rest, hrest, hdrop⟩ :=
    exists_skip hlead (fun c hc ↦ (numberText_spec zeroes x c hc).1) htrail
  obtain ⟨htake, hafter⟩ := scan_numberText zeroes x hrest
  rw [decodeBase58Text_eq, hdrop, htake, hafter, digitsOf_append (digits_lt x) hrest]
  have hspaces : rest.dropWhile isspace = [] := List.dropWhile_eq_nil_iff.mpr hrest
  simp only [List.length_replicate, Option.bind_some, hspaces, ne_eq, not_true_eq_false, if_false,
    value_digits]
  exact if_neg hzeroes.not_ge

/-- A text that is decoded is the text of a number, with spaces around it. -/
theorem decodeBase58Text_eq_some {psz b : Bytes} (h : decodeBase58Text psz = .ok (some b)) :
    ∃ lead zeroes x trail, (∀ c ∈ lead, isspace c = true) ∧ (∀ c ∈ trail, isspace c = true) ∧
      zeroes < 2 ^ 31 ∧ psz = lead ++ (numberText zeroes x ++ trail) ∧ b = numberBytes zeroes x := by
  rw [decodeBase58Text_eq] at h
  let body := psz.dropWhile isspace
  let ones := body.takeWhile (· == 0x31)
  by_cases hones : 2 ^ 31 ≤ ones.length
  · exact absurd ((if_pos hones).symm.trans h) (by simp)
  obtain ⟨⟨ds, tail⟩, hdigits, hb⟩ :=
    Option.bind_eq_some_iff.mp (Except.ok.inj ((if_neg hones).symm.trans h))
  obtain ⟨hrest, hds⟩ := digitsOf_eq_some hdigits
  by_cases htail : tail.dropWhile isspace = []
  · refine ⟨psz.takeWhile isspace, ones.length, value 58 ds, tail,
      fun c hc ↦ List.mem_takeWhile_imp hc, List.dropWhile_eq_nil_iff.mp htail, by omega, ?_, ?_⟩
    · -- after the letters for zero the first digit is none
      have hreplicate : ones = List.replicate ones.length 0x31 := by
        rw [List.eq_replicate_iff]
        exact ⟨rfl, fun c hc ↦ beq_iff_eq.mp (List.mem_takeWhile_imp (p := (· == 0x31)) hc)⟩
      have hstrip : strip ds = ds := by
        have hidem := List.dropWhile_idempotent (p := (· == (0x31 : UInt8))) body
        rw [hrest] at hidem
        rw [strip, List.dropWhile_eq_self_iff]
        intro hlen
        cases ds with
        | nil => exact absurd hlen (Nat.lt_irrefl 0)
        | cons d ds =>
          have hne := List.dropWhile_eq_self_iff.mp hidem (Nat.zero_lt_succ _)
          have hletter := (base58Letter_spec d (hds d List.mem_cons_self)).2.2
          simpa [hletter] using hne
      rw [numberText, digits_value (by decide) hds hstrip, ← hreplicate, List.append_assoc, ← hrest,
        List.takeWhile_append_dropWhile, List.takeWhile_append_dropWhile]
    · rw [if_neg (not_not.mpr htail)] at hb
      exact (Option.some.inj hb).symm
  · rw [if_pos htail] at hb
    exact absurd hb (by simp)

/-! ### The conversions undo each other -/

theorem digits_lt_bytes (x : ℕ) : ∀ d ∈ (Nat.digits 256 x).reverse, d < 256 := fun _ hd ↦
  Nat.digits_lt_base (by decide) (List.mem_reverse.mp hd)

theorem leadingZeroes_numberBytes (zeroes x : ℕ) : leadingZeroes (numberBytes zeroes x) = zeroes := by
  have hscan : (numberBytes zeroes x).takeWhile (· == 0) = List.replicate zeroes 0 := by
    refine (scan_append (fun c hc ↦ beq_iff_eq.mpr (List.eq_of_mem_replicate hc)) fun c hc ↦ ?_).1
    have hlt := digits_lt_bytes x
    have hstrip := strip_digits (by decide : 1 < 256) x
    generalize (Nat.digits 256 x).reverse = ds at hc hlt hstrip
    cases ds with
    | nil => exact absurd hc nofun
    | cons d ds =>
      obtain rfl : UInt8.ofNat d = c := Option.some.inj hc
      have hd : d ≠ 0 := by
        have hne := List.dropWhile_eq_self_iff.mp hstrip (Nat.zero_lt_succ _)
        simpa using hne
      have htoNat := UInt8.toNat_ofNat_of_lt (hlt d List.mem_cons_self)
      rw [beq_eq_false_iff_ne]
      exact fun hzero ↦ hd (htoNat.symm.trans (congrArg UInt8.toNat hzero))
  rw [leadingZeroes, hscan, List.length_replicate]

theorem bytesNumber_numberBytes (zeroes x : ℕ) : bytesNumber (numberBytes zeroes x) = x := by
  have hdigits : ((Nat.digits 256 x).reverse.map UInt8.ofNat).map UInt8.toNat =
      (Nat.digits 256 x).reverse := by
    rw [List.map_map]
    refine (List.map_congr_left fun d hd ↦ ?_).trans (List.map_id _)
    exact UInt8.toNat_ofNat_of_lt (digits_lt_bytes x d hd)
  rw [bytesNumber, numberBytes, List.map_append, List.map_replicate, hdigits, value_append,
    value_digits]
  change value 256 (List.replicate zeroes 0) * _ + x = x
  rw [value_replicate_zero, Nat.zero_mul, Nat.zero_add]

/-- A byte string is decoded from its text, where the counter of zero bytes does not overflow. -/
theorem decode_encode_iff (vch : Bytes) :
    (encodeBase58 vch).bind decodeBase58 = .ok (some vch) ↔ leadingZeroes vch < 2 ^ 31 := by
  rw [encodeBase58_eq]
  split
  case isTrue h => exact iff_of_false nofun h.not_gt
  case isFalse h =>
    refine iff_of_true ?_ (not_le.mp h)
    have htext := @decodeBase58Text_numberText _ (not_le.mp h) (bytesNumber vch) [] []
      (fun c hc ↦ absurd hc List.not_mem_nil) (fun c hc ↦ absurd hc List.not_mem_nil)
    have hnul : cString (numberText (leadingZeroes vch) (bytesNumber vch)) = numberText _ _ :=
      cString_eq_self.mpr fun hmem ↦ (numberText_spec _ _ 0 hmem).2 rfl
    rw [numberBytes_bytesNumber, List.nil_append, List.append_nil] at htext
    change decodeBase58 (numberText (leadingZeroes vch) (bytesNumber vch)) = _
    rw [decodeBase58, hnul, htext]

/-- The text that a byte string was decoded from is its text, where the string has no zero byte. -/
theorem encode_decode_iff {str vch : Bytes} (h : decodeBase58 str = .ok (some vch)) :
    encodeBase58 vch = .ok (trim str) ↔ 0 ∉ str := by
  obtain ⟨lead, zeroes, x, trail, hlead, htrail, hzeroes, hstr, rfl⟩ := decodeBase58Text_eq_some h
  have htrim : trim (cString str) = numberText zeroes x := by
    rw [hstr]
    exact trim_append hlead (fun c hc ↦ (numberText_spec zeroes x c hc).1) htrail
  have hencode : encodeBase58 (numberBytes zeroes x) = .ok (trim (cString str)) := by
    rw [encodeBase58_eq, leadingZeroes_numberBytes, bytesNumber_numberBytes, htrim,
      if_neg hzeroes.not_ge]
  rw [hencode]
  constructor
  · intro heq hmem
    have hin := mem_trim isspace_zero hmem
    rw [← Except.ok.inj heq, htrim] at hin
    exact (numberText_spec zeroes x 0 hin).2 rfl
  · intro hnul
    rw [cString_eq_self.mpr hnul]

theorem encodeBase58_ne_carry (vch : Bytes) : encodeBase58 vch ≠ .error .carry := by
  rw [encodeBase58_eq]
  split
  · exact nofun
  · exact nofun

theorem decodeBase58_ne_carry (str : Bytes) : decodeBase58 str ≠ .error .carry := by
  rw [decodeBase58, decodeBase58Text_eq]
  dsimp only
  split
  · exact nofun
  · exact nofun

theorem length_base58Checksum (Hash : Bytes → Uint256) (vch : Bytes) :
    (base58Checksum Hash vch).length = 4 := by
  rw [base58Checksum, List.length_take, length_bytes256]
  rfl

theorem decodeBase58Check_of_decode (Hash : Bytes → Uint256) {str vch : Bytes}
    (h : decodeBase58 str = .ok (some (vch ++ base58Checksum Hash vch))) :
    decodeBase58Check Hash str = .ok (some vch) := by
  have hlen := length_base58Checksum Hash vch
  have hsub : (vch ++ base58Checksum Hash vch).length - 4 = vch.length := by
    rw [List.length_append, hlen, Nat.add_sub_cancel]
  have hge : ¬(vch ++ base58Checksum Hash vch).length < 4 := by
    rw [List.length_append, hlen]
    omega
  rw [decodeBase58Check, decodeBase58CheckText, ← decodeBase58, h]
  change (if (vch ++ base58Checksum Hash vch).length < 4 then _ else _) = _
  rw [if_neg hge, hsub, List.take_left, List.drop_left]
  exact if_neg (not_not.mpr rfl)

/-- The same with a checksum after the bytes. -/
theorem decode_encode_check_iff (Hash : Bytes → Uint256) (vch : Bytes) :
    (encodeBase58Check Hash vch).bind (decodeBase58Check Hash) = .ok (some vch) ↔
      leadingZeroes (vch ++ base58Checksum Hash vch) < 2 ^ 31 := by
  have hiff := decode_encode_iff (vch ++ base58Checksum Hash vch)
  rw [encodeBase58Check]
  cases htext : encodeBase58 (vch ++ base58Checksum Hash vch) with
  | error e =>
    rw [htext] at hiff
    exact iff_of_false nofun fun hlt ↦ absurd (hiff.mpr hlt) nofun
  | ok str =>
    have hlt : leadingZeroes (vch ++ base58Checksum Hash vch) < 2 ^ 31 := by
      by_contra hge
      rw [encodeBase58_eq, if_pos (not_lt.mp hge)] at htext
      exact absurd htext nofun
    rw [htext] at hiff
    exact iff_of_true (decodeBase58Check_of_decode Hash (hiff.mpr hlt)) hlt

/-- Byte strings come back from their texts where the counter of zero bytes does not overflow, an
accepted string is the text of what it decodes to where it has no zero byte, and no carry is left
over. -/
theorem base58_bijective_iff (Hash : Bytes → Uint256) :
    (∀ vch, (encodeBase58 vch).bind decodeBase58 = .ok (some vch) ↔ leadingZeroes vch < 2 ^ 31) ∧
      (∀ vch, (encodeBase58Check Hash vch).bind (decodeBase58Check Hash) = .ok (some vch) ↔
        leadingZeroes (vch ++ base58Checksum Hash vch) < 2 ^ 31) ∧
      (∀ str vch, decodeBase58 str = .ok (some vch) →
        (encodeBase58 vch = .ok (trim str) ↔ 0 ∉ str)) ∧
      (∀ vch, encodeBase58 vch ≠ .error .carry) ∧ ∀ str, decodeBase58 str ≠ .error .carry :=
  ⟨decode_encode_iff, decode_encode_check_iff Hash, fun _ _ h ↦ encode_decode_iff h,
    encodeBase58_ne_carry, decodeBase58_ne_carry⟩

/-- The text of two bytes, with a space in front. -/
theorem base58_bijective_iff_sample : decodeBase58 (ascii " 15Q") = .ok (some [0, 255]) ∧
    encodeBase58 [0, 255] = .ok (trim (ascii " 15Q")) :=
  have haccepted : decodeBase58 (ascii " 15Q") = .ok (some [0, 255]) := by decide
  ⟨haccepted, ((base58_bijective_iff fun _ ↦ 0).2.2.1 _ _ haccepted).mpr (by decide)⟩

/-- What follows a zero byte is not seen: two strings decode to one byte string. -/
theorem decodeBase58_ignores_tail : decodeBase58 (ascii "15Q") = .ok (some [0, 255]) ∧
    decodeBase58 (ascii "15Q" ++ 0 :: ascii "0OIl") = .ok (some [0, 255]) ∧
      encodeBase58 [0, 255] ≠ .ok (trim (ascii "15Q" ++ 0 :: ascii "0OIl")) := by
  decide

end Bitmark
