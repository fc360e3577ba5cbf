import Bitmark.Base.BaseUint
import Bitmark.Base.CString

/-!
# Hexadecimal text of `base_uint`

`GetHex` and `SetHex` of `src/uint256.h:308–351` go over the bytes of the limbs in memory, on a
little-endian machine, and every access is checked.
-/

namespace Bitmark

open Limbs Loops

namespace BaseUint

variable {WIDTH : ℕ}

/-- `((unsigned char*)pn)[p]`. -/
def loadByte (pn : BaseUint WIDTH) (p : ℕ) : Option UInt8 :=
  (load pn (p / 4)).map fun x ↦ UInt8.ofBitVec (x.extractLsb' (8 * (p % 4)) 8)

/-- A limb with byte `q` replaced. -/
def putByte (x : BitVec 32) (q : ℕ) (b : UInt8) : BitVec 32 :=
  x &&& ~~~((BitVec.allOnes 8).setWidth 32 <<< (8 * q)) ||| b.toBitVec.setWidth 32 <<< (8 * q)

/-- `((unsigned char*)pn)[p] = b`. -/
def storeByte (pn : BaseUint WIDTH) (p : ℕ) (b : UInt8) : Option (BaseUint WIDTH) :=
  (load pn (p / 4)).bind fun x ↦ store pn (p / 4) (putByte x (p % 4) b)

/-- A digit as `%x` writes it. -/
def hexDigit (n : ℕ) : UInt8 := if n < 10 then UInt8.ofNat (0x30 + n) else UInt8.ofNat (0x57 + n)

/-- `GetHex`, `src/uint256.h:308`: two digits a byte, from the high byte down. -/
def getHex (a : BaseUint WIDTH) : Option Bytes :=
  upto (fun i (psz : Bytes) ↦ (loadByte a (4 * WIDTH - i - 1)).map fun b ↦
    psz ++ [hexDigit (b.toNat / 16), hexDigit (b.toNat % 16)]) (4 * WIDTH) []

/-- The table `phexdigit`, `src/uint256.h:330`, zero where a character is no digit. -/
def phexdigit (c : UInt8) : UInt8 :=
  if 0x30 ≤ c ∧ c ≤ 0x39 then c - 0x30
  else if 0x41 ≤ c ∧ c ≤ 0x46 then c - 0x37
  else if 0x61 ≤ c ∧ c ≤ 0x66 then c - 0x57
  else 0

/-- The text after a leading `0x`, `src/uint256.h:326`. -/
def skipPrefix : Bytes → Bytes
  | 0x30 :: 0x78 :: psz => psz
  | 0x30 :: 0x58 :: psz => psz
  | psz => psz

/-- The loop of `SetHex`, `src/uint256.h:337`: the digits from the last one to `pbegin`, written
from byte `p1` on, two digits a byte. -/
def setHexLoop (pn : BaseUint WIDTH) (p1 : ℕ) : Bytes → Option (BaseUint WIDTH)
  | [] => some pn
  | [c] => if p1 < 4 * WIDTH then storeByte pn p1 (phexdigit c) else some pn
  | c :: d :: psz =>
    if p1 < 4 * WIDTH then do
      let pn ← storeByte pn p1 (phexdigit c)
      let b ← loadByte pn p1
      let pn ← storeByte pn p1 (b ||| phexdigit d <<< 4)
      setHexLoop pn (p1 + 1) psz
    else some pn

/-- `SetHex(const char*)`, `src/uint256.h:316`, for the text before the terminating zero. -/
def setHex (pn : BaseUint WIDTH) (psz : Bytes) : Option (BaseUint WIDTH) := do
  let pn ← upto (fun i pn ↦ store pn i 0) WIDTH pn
  let pbegin := skipPrefix (psz.dropWhile isspace)
  setHexLoop pn 0 (pbegin.takeWhile fun c ↦ phexdigit c ≠ 0 ∨ c = 0x30).reverse

/-- `SetHex(const std::string&)`, `src/uint256.h:348`. -/
def setHexString (pn : BaseUint WIDTH) (str : Bytes) : Option (BaseUint WIDTH) :=
  setHex pn (cString str)

/-! ### Bytes of the limbs -/

/-- Byte `p` of the limbs, and zero beyond them. -/
def byte (pn : BaseUint WIDTH) (p : ℕ) : UInt8 :=
  UInt8.ofBitVec ((limb pn (p / 4)).extractLsb' (8 * (p % 4)) 8)

theorem loadByte_of_lt (pn : BaseUint WIDTH) {p : ℕ} (h : p < 4 * WIDTH) :
    loadByte pn p = some (byte pn p) := by
  rw [loadByte, load_of_lt pn (by omega)]
  rfl

theorem extractLsb'_putByte_self (x : BitVec 32) {q : ℕ} (hq : q < 4) (b : UInt8) :
    (putByte x q b).extractLsb' (8 * q) 8 = b.toBitVec := by
  apply BitVec.eq_of_getLsbD_eq
  intro i hi
  simp only [putByte, BitVec.getLsbD_extractLsb', BitVec.getLsbD_or, BitVec.getLsbD_and,
    BitVec.getLsbD_not, BitVec.getLsbD_shiftLeft, BitVec.getLsbD_setWidth, BitVec.getLsbD_allOnes]
  have hin : 8 * q + i < 32 := by omega
  have hsub : 8 * q + i - 8 * q = i := by omega
  have hlt : i < 32 := by omega
  simp [hin, hsub, hi, hlt]

theorem extractLsb'_putByte_of_ne (x : BitVec 32) {q r : ℕ} (hr : r < 4) (hne : r ≠ q) (b : UInt8) :
    (putByte x q b).extractLsb' (8 * r) 8 = x.extractLsb' (8 * r) 8 := by
  apply BitVec.eq_of_getLsbD_eq
  intro i hi
  simp only [putByte, BitVec.getLsbD_extractLsb', BitVec.getLsbD_or, BitVec.getLsbD_and,
    BitVec.getLsbD_not, BitVec.getLsbD_shiftLeft, BitVec.getLsbD_setWidth, BitVec.getLsbD_allOnes]
  have hin : 8 * r + i < 32 := by omega
  obtain hbelow | habove : 8 * r + i < 8 * q ∨ 8 ≤ 8 * r + i - 8 * q := by omega
  · simp [hin, hbelow]
  · have hout : b.toBitVec.getLsbD (8 * r + i - 8 * q) = false := BitVec.getLsbD_of_ge _ _ habove
    have hnot : ¬8 * r + i - 8 * q < 8 := by omega
    simp [hin, hout, hnot]

/-- A write changes its byte and no other. -/
theorem exists_storeByte (pn : BaseUint WIDTH) {p : ℕ} (h : p < 4 * WIDTH) (b : UInt8) :
    ∃ t, storeByte pn p b = some t ∧ byte t p = b ∧ ∀ q, q ≠ p → byte t q = byte pn q := by
  obtain ⟨t, ht, hself, hother⟩ :=
    exists_store pn (i := p / 4) (by omega) (putByte (limb pn (p / 4)) (p % 4) b)
  refine ⟨t, by rw [storeByte, load_of_lt pn (by omega)]; exact ht, ?_, fun q hq ↦ ?_⟩
  · rw [byte, hself, extractLsb'_putByte_self _ (Nat.mod_lt p (by decide))]
  · by_cases hlimb : q / 4 = p / 4
    · rw [byte, byte, hlimb, hself, extractLsb'_putByte_of_ne _ (Nat.mod_lt q (by decide)) (by omega)]
    · rw [byte, byte, hother _ hlimb]

/-- Values with the same bytes are the same. -/
theorem ext_byte {a b : BaseUint WIDTH} (h : ∀ p, p < 4 * WIDTH → byte a p = byte b p) : a = b := by
  apply ext_limb
  intro i hi
  apply BitVec.eq_of_getLsbD_eq
  intro k hk
  have hbyte := congrArg UInt8.toBitVec (h (4 * i + k / 8) (by omega))
  have hdiv : (4 * i + k / 8) / 4 = i := by omega
  have hmod : (4 * i + k / 8) % 4 = k / 8 := by omega
  rw [byte, byte, hdiv, hmod] at hbyte
  have hbit := congrArg (BitVec.getLsbD · (k % 8)) hbyte
  simp only [BitVec.getLsbD_extractLsb', Nat.div_add_mod, Nat.mod_lt k (show 8 > 0 by decide),
    decide_true, Bool.true_and] at hbit
  exact hbit

/-! ### The digits -/

/-- A digit is read back, and neither ends the text nor begins a prefix. -/
theorem hexDigit_spec : ∀ n, n < 16 → phexdigit (hexDigit n) = UInt8.ofNat n ∧
    (phexdigit (hexDigit n) ≠ 0 ∨ hexDigit n = 0x30) ∧ isspace (hexDigit n) = false ∧
      hexDigit n ≠ 0x78 ∧ hexDigit n ≠ 0x58 ∧ hexDigit n ≠ 0 := by
  decide

theorem div_lt (b : UInt8) : b.toNat / 16 < 16 := by
  have hb := b.toNat_lt
  omega

theorem mod_lt (b : UInt8) : b.toNat % 16 < 16 := Nat.mod_lt _ (by decide)

/-- The two digits of a byte give it back. -/
theorem low_or_high (b : UInt8) :
    UInt8.ofNat (b.toNat % 16) ||| UInt8.ofNat (b.toNat / 16) <<< 4 = b := by
  have hlow : (UInt8.ofNat (b.toNat % 16)).toNat = b.toNat % 16 :=
    UInt8.toNat_ofNat_of_lt ((mod_lt b).trans (by decide))
  have hhigh : (UInt8.ofNat (b.toNat / 16)).toNat = b.toNat / 16 :=
    UInt8.toNat_ofNat_of_lt ((div_lt b).trans (by decide))
  have hfour : UInt8.toNat 4 % 8 = 4 := rfl
  have hfit : 2 ^ 4 * (b.toNat / 16) < 2 ^ 8 := by
    have hdiv := div_lt b
    omega
  rw [← UInt8.toNat_inj, UInt8.toNat_or, UInt8.toNat_shiftLeft, hlow, hhigh, hfour,
    Nat.shiftLeft_eq, Nat.mul_comm (b.toNat / 16), Nat.mod_eq_of_lt hfit, Nat.or_comm,
    ← Nat.two_pow_add_eq_or_of_lt (mod_lt b)]
  exact Nat.div_add_mod b.toNat 16

/-- The text of the lowest `p` bytes. -/
def hexText (a : BaseUint WIDTH) : ℕ → Bytes
  | 0 => []
  | p + 1 => hexDigit ((byte a p).toNat / 16) :: hexDigit ((byte a p).toNat % 16) :: hexText a p

/-- `GetHex` writes the digits of the bytes from the high one down. -/
theorem getHex_eq (a : BaseUint WIDTH) : getHex a = some (hexText a (4 * WIDTH)) := by
  have hloop : ∃ psz, getHex a = some psz ∧
      psz ++ hexText a (4 * WIDTH - 4 * WIDTH) = hexText a (4 * WIDTH) := by
    refine upto_spec (fun i psz ↦ psz ++ hexText a (4 * WIDTH - i) = hexText a (4 * WIDTH)) ?_ ?_
    · rfl
    · intro i psz hi hinv
      have hsucc : 4 * WIDTH - i = 4 * WIDTH - i - 1 + 1 := by omega
      rw [loadByte_of_lt a (by omega)]
      refine ⟨_, rfl, ?_⟩
      rw [hsucc, hexText] at hinv
      rw [← hinv, List.append_assoc, Nat.sub_add_eq]
      rfl
  obtain ⟨psz, hpsz, htext⟩ := hloop
  rw [Nat.sub_self, hexText, List.append_nil] at htext
  rw [hpsz, htext]

/-- The digits of `m` bytes from `p` on, in the order in which `SetHex` takes them. -/
def digitsFrom (a : BaseUint WIDTH) (p : ℕ) : ℕ → Bytes
  | 0 => []
  | m + 1 =>
    hexDigit ((byte a p).toNat % 16) :: hexDigit ((byte a p).toNat / 16) :: digitsFrom a (p + 1) m

theorem digitsFrom_concat (a : BaseUint WIDTH) (p m : ℕ) :
    digitsFrom a p (m + 1) = digitsFrom a p m ++
      [hexDigit ((byte a (p + m)).toNat % 16), hexDigit ((byte a (p + m)).toNat / 16)] := by
  induction m generalizing p with
  | zero => rfl
  | succ m ih => rw [digitsFrom, ih, Nat.succ_add_eq_add_succ]; rfl

theorem reverse_hexText (a : BaseUint WIDTH) (m : ℕ) : (hexText a m).reverse = digitsFrom a 0 m := by
  induction m with
  | zero => rfl
  | succ m ih =>
    rw [hexText, List.reverse_cons, List.reverse_cons, ih, digitsFrom_concat, Nat.zero_add,
      List.append_assoc]
    rfl

/-- The loop restores the bytes whose digits it is given. -/
theorem setHexLoop_digitsFrom (a pn : BaseUint WIDTH) {p m : ℕ} (hm : p + m ≤ 4 * WIDTH) :
    ∃ t, setHexLoop pn p (digitsFrom a p m) = some t ∧
      (∀ q, p ≤ q → q < p + m → byte t q = byte a q) ∧ ∀ q, q < p → byte t q = byte pn q := by
  induction m generalizing p pn with
  | zero => exact ⟨pn, rfl, fun q hlo hhi ↦ by omega, fun q _ ↦ rfl⟩
  | succ m ih =>
    have hp : p < 4 * WIDTH := by omega
    obtain ⟨u, hu, hself, hother⟩ := exists_storeByte pn hp (UInt8.ofNat ((byte a p).toNat % 16))
    obtain ⟨v, hv, hself', hother'⟩ := exists_storeByte u hp (byte a p)
    obtain ⟨t, ht, hrest, hbelow⟩ := ih v (p := p + 1) (by omega)
    refine ⟨t, ?_, fun q hlo hhi ↦ ?_, fun q hq ↦ ?_⟩
    · rw [digitsFrom, setHexLoop, if_pos hp, (hexDigit_spec _ (mod_lt _)).1,
        (hexDigit_spec _ (div_lt _)).1, hu]
      simp only [Option.bind_eq_bind, Option.bind_some]
      rw [loadByte_of_lt u hp, hself, Option.bind_some, low_or_high, hv]
      exact ht
    · obtain rfl | hlt := hlo.eq_or_lt
      · rw [hbelow p (Nat.lt_succ_self p), hself']
      · exact hrest q hlt (by omega)
    · rw [hbelow q (by omega), hother' q hq.ne, hother q hq.ne]

theorem hexText_spec (a : BaseUint WIDTH) (m : ℕ) : ∀ c ∈ hexText a m,
    (phexdigit c ≠ 0 ∨ c = 0x30) ∧ isspace c = false ∧ c ≠ 0x78 ∧ c ≠ 0x58 ∧ c ≠ 0 := by
  induction m with
  | zero => exact fun c hc ↦ absurd hc List.not_mem_nil
  | succ m ih =>
    intro c hc
    rw [hexText, List.mem_cons, List.mem_cons] at hc
    obtain rfl | rfl | hc := hc
    · exact (hexDigit_spec _ (div_lt _)).2
    · exact (hexDigit_spec _ (mod_lt _)).2
    · exact ih c hc

/-- Digits have no prefix to skip. -/
theorem skipPrefix_eq_self {psz : Bytes} (h : ∀ c ∈ psz, c ≠ 0x78 ∧ c ≠ 0x58) :
    skipPrefix psz = psz := by
  rw [skipPrefix.eq_def]
  split
  case h_1 => exact absurd rfl (h 0x78 (by simp)).1
  case h_2 => exact absurd rfl (h 0x58 (by simp)).2
  case h_3 => rfl

theorem cString_hexText (a : BaseUint WIDTH) (m : ℕ) : cString (hexText a m) = hexText a m :=
  cString_eq_self.mpr fun h ↦ (hexText_spec a m 0 h).2.2.2.2 rfl

theorem setHex_hexText (a pn : BaseUint WIDTH) : setHex pn (hexText a (4 * WIDTH)) = some a := by
  have hspec := hexText_spec a (4 * WIDTH)
  have hspace : (hexText a (4 * WIDTH)).dropWhile isspace = hexText a (4 * WIDTH) := by
    rw [List.dropWhile_eq_self_iff]
    intro hlen
    rw [(hspec _ (List.getElem_mem hlen)).2.1]
    exact Bool.false_ne_true
  have hprefix : skipPrefix (hexText a (4 * WIDTH)) = hexText a (4 * WIDTH) :=
    skipPrefix_eq_self fun c hc ↦ ⟨(hspec c hc).2.2.1, (hspec c hc).2.2.2.1⟩
  have hdigits : (hexText a (4 * WIDTH)).takeWhile (fun c ↦ phexdigit c ≠ 0 ∨ c = 0x30) =
      hexText a (4 * WIDTH) :=
    List.takeWhile_eq_self_iff.mpr fun c hc ↦ decide_eq_true (hspec c hc).1
  obtain ⟨z, hz, -⟩ := exists_zeroed pn
  obtain ⟨t, ht, hbytes, -⟩ := setHexLoop_digitsFrom a z (p := 0) (m := 4 * WIDTH) (by omega)
  rw [setHex, hz, hspace, hprefix]
  simp only [Option.bind_eq_bind, Option.bind_some, hdigits, reverse_hexText, ht]
  exact congrArg some (ext_byte fun p hp ↦ hbytes p (Nat.zero_le p) (by omega))

/-- `SetHex` restores the value whose text `GetHex` wrote. -/
theorem setHex_getHex (a pn : BaseUint WIDTH) : (getHex a).bind (setHex pn) = some a := by
  rw [getHex_eq, Option.bind_some, setHex_hexText]

theorem setHexString_getHex (a pn : BaseUint WIDTH) :
    (getHex a).bind (setHexString pn) = some a := by
  rw [getHex_eq, Option.bind_some, setHexString, cString_hexText, setHex_hexText]

end BaseUint

end Bitmark
