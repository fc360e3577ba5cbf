import Bitmark.Text.Base64

/-!
# Base32

`EncodeBase32` and `DecodeBase32` of `src/util.cpp:694–873`: five bits a letter. The alphabet is in
lower case, and the table of the decoder knows both cases.
-/

namespace Bitmark

open Regroup

/-- The alphabet of `src/util.cpp:696`. -/
def pbase32 : Bytes := ascii "abcdefghijklmnopqrstuvwxyz234567"

/-- `pbase32[d]`. -/
def base32Letter (d : ℕ) : UInt8 := pbase32.getD d 0

/-- A byte, `src/util.cpp:706–739`. -/
def encodeBase32Step (s : Encoder) (pch : UInt8) : Encoder :=
  let enc := pch.toNat
  match s.mode with
  | 0 => ⟨s.strRet ++ [base32Letter (enc >>> 3)], 1, (enc &&& 7) <<< 2⟩
  | 1 => ⟨s.strRet ++ [base32Letter (s.left ||| enc >>> 6), base32Letter (enc >>> 1 &&& 31)], 2,
      (enc &&& 1) <<< 4⟩
  | 2 => ⟨s.strRet ++ [base32Letter (s.left ||| enc >>> 4)], 3, (enc &&& 15) <<< 1⟩
  | 3 => ⟨s.strRet ++ [base32Letter (s.left ||| enc >>> 7), base32Letter (enc >>> 2 &&& 31)], 4,
      (enc &&& 3) <<< 3⟩
  | 4 => ⟨s.strRet ++ [base32Letter (s.left ||| enc >>> 5), base32Letter (enc &&& 31)], 0, s.left⟩
  | _ => s

/-- `nPadding[mode]`, `src/util.cpp:742`. -/
def nPadding (mode : ℕ) : ℕ := [0, 6, 4, 3, 1].getD mode 0

/-- `EncodeBase32`, `src/util.cpp:694`. -/
def encodeBase32 (pch : Bytes) : Bytes :=
  let s := pch.foldl encodeBase32Step ⟨[], 0, 0⟩
  if s.mode ≠ 0 then s.strRet ++ [base32Letter s.left] ++ List.replicate (nPadding s.mode) 0x3d
  else s.strRet

/-- The table `decode32_table`, `src/util.cpp:760`, where `none` stands for `-1`. -/
def decode32Table (c : UInt8) : Option ℕ :=
  if 0x32 ≤ c ∧ c ≤ 0x37 then some (26 + (c.toNat - 0x32))
  else if 0x41 ≤ c ∧ c ≤ 0x5a then some (c.toNat - 0x41)
  else if 0x61 ≤ c ∧ c ≤ 0x7a then some (c.toNat - 0x61)
  else none

/-- A letter, `src/util.cpp:791–836`. -/
def decodeBase32Step (s : Decoder) (dec : ℕ) : Decoder :=
  match s.mode with
  | 0 => ⟨s.vchRet, 1, dec⟩
  | 1 => ⟨s.vchRet ++ [UInt8.ofNat (s.left <<< 3 ||| dec >>> 2)], 2, dec &&& 3⟩
  | 2 => ⟨s.vchRet, 3, s.left <<< 5 ||| dec⟩
  | 3 => ⟨s.vchRet ++ [UInt8.ofNat (s.left <<< 1 ||| dec >>> 4)], 4, dec &&& 15⟩
  | 4 => ⟨s.vchRet ++ [UInt8.ofNat (s.left <<< 4 ||| dec >>> 1)], 5, dec &&& 1⟩
  | 5 => ⟨s.vchRet, 6, s.left <<< 5 ||| dec⟩
  | 6 => ⟨s.vchRet ++ [UInt8.ofNat (s.left <<< 2 ||| dec >>> 3)], 7, dec &&& 7⟩
  | 7 => ⟨s.vchRet ++ [UInt8.ofNat (s.left <<< 5 ||| dec)], 0, s.left⟩
  | _ => s

/-- `*pfInvalid` after the letters, `src/util.cpp:839–870`. -/
def base32Invalid (s : Decoder) (p : Bytes) : Bool :=
  match s.mode with
  | 0 => false
  | 1 | 3 | 6 => true
  | 2 => badPadding decode32Table s.left 6 p
  | 4 => badPadding decode32Table s.left 4 p
  | 5 => badPadding decode32Table s.left 3 p
  | 7 => badPadding decode32Table s.left 1 p
  | _ => false

/-- `DecodeBase32`, `src/util.cpp:758`, of the text before the terminating zero: the bytes and
`*pfInvalid`. -/
def decodeBase32 (p : Bytes) : Bytes × Bool :=
  let r := decodeLetters decode32Table decodeBase32Step ⟨[], 0, 0⟩ p
  (r.1.vchRet, base32Invalid r.1 r.2)

/-- Upper case to lower case. -/
def lower (c : UInt8) : UInt8 := if 0x41 ≤ c ∧ c ≤ 0x5a then c + 0x20 else c

/-! ### The modes -/

/-- The bits that are pending in a mode of the encoder. -/
def encodeBits32 : ℕ → Option ℕ
  | 0 => some 0
  | 1 => some 3
  | 2 => some 1
  | 3 => some 4
  | 4 => some 2
  | _ => none

/-- The bits that are pending in a mode of the decoder. -/
def decodeBits32 : ℕ → Option ℕ
  | 0 => some 0
  | 1 => some 5
  | 2 => some 2
  | 3 => some 7
  | 4 => some 4
  | 5 => some 1
  | 6 => some 6
  | 7 => some 3
  | _ => none

theorem encodes_base32Step {xs : List ℕ} {s : Encoder} (enc : UInt8)
    (h : EncodesBits 5 base32Letter encodeBits32 xs s) :
    EncodesBits 5 base32Letter encodeBits32 (xs ++ [enc.toNat]) (encodeBase32Step s enc) := by
  obtain ⟨strRet, mode, left⟩ := s
  obtain ⟨r, rest, ys, hbits, hcarries, rfl, hleft⟩ := h
  have hrest := hcarries.rest_lt
  have henc := enc.toNat_lt
  have hpush := hcarries.push henc
  match mode with
  | 0 =>
    obtain rfl : 0 = r := Option.some.inj hbits
    have hmask : enc.toNat &&& 7 = enc.toNat % 8 := Nat.and_two_pow_sub_one_eq_mod _ 3
    exact encodesBits_one hpush rfl (by omega) (by omega)
  | 1 =>
    obtain rfl : 3 = r := Option.some.inj hbits
    obtain rfl : left = rest * 2 ^ 2 := hleft (by decide)
    have hmask : enc.toNat &&& 1 = enc.toNat % 2 := Nat.and_two_pow_sub_one_eq_mod _ 1
    have hmid : enc.toNat >>> 1 &&& 31 = enc.toNat >>> 1 % 32 := Nat.and_two_pow_sub_one_eq_mod _ 5
    have hor : rest * 2 ^ 2 ||| enc.toNat >>> 6 = rest * 2 ^ 2 + enc.toNat >>> 6 :=
      or_low (by omega)
    exact encodesBits_two hpush rfl (hor.trans (by omega)) (by omega) (by omega)
  | 2 =>
    obtain rfl : 1 = r := Option.some.inj hbits
    obtain rfl : left = rest * 2 ^ 4 := hleft (by decide)
    have hmask : enc.toNat &&& 15 = enc.toNat % 16 := Nat.and_two_pow_sub_one_eq_mod _ 4
    have hor : rest * 2 ^ 4 ||| enc.toNat >>> 4 = rest * 2 ^ 4 + enc.toNat >>> 4 :=
      or_low (by omega)
    exact encodesBits_one hpush rfl (hor.trans (by omega)) (by omega)
  | 3 =>
    obtain rfl : 4 = r := Option.some.inj hbits
    obtain rfl : left = rest * 2 ^ 1 := hleft (by decide)
    have hmask : enc.toNat &&& 3 = enc.toNat % 4 := Nat.and_two_pow_sub_one_eq_mod _ 2
    have hmid : enc.toNat >>> 2 &&& 31 = enc.toNat >>> 2 % 32 := Nat.and_two_pow_sub_one_eq_mod _ 5
    have hor : rest * 2 ^ 1 ||| enc.toNat >>> 7 = rest * 2 ^ 1 + enc.toNat >>> 7 :=
      or_low (by omega)
    exact encodesBits_two hpush rfl (hor.trans (by omega)) (by omega) (by omega)
  | 4 =>
    obtain rfl : 2 = r := Option.some.inj hbits
    obtain rfl : left = rest * 2 ^ 3 := hleft (by decide)
    have hmask : enc.toNat &&& 31 = enc.toNat % 32 := Nat.and_two_pow_sub_one_eq_mod _ 5
    have hor : rest * 2 ^ 3 ||| enc.toNat >>> 5 = rest * 2 ^ 3 + enc.toNat >>> 5 :=
      or_low (by omega)
    exact encodesBits_two hpush rfl (hor.trans (by omega)) (by omega) (by omega)
  | _ + 5 => exact absurd hbits nofun

theorem decodes_base32Step {ds : List ℕ} {s : Decoder} {dec : ℕ} (hdec : dec < 2 ^ 5)
    (h : DecodesBits 5 decodeBits32 ds s) :
    DecodesBits 5 decodeBits32 (ds ++ [dec]) (decodeBase32Step s dec) := by
  obtain ⟨vchRet, mode, left⟩ := s
  obtain ⟨r, rest, hbits, hcarries, hleft⟩ := h
  have hrest := hcarries.rest_lt
  have hpush := hcarries.push hdec
  match mode with
  | 0 =>
    obtain rfl : 0 = r := Option.some.inj hbits
    exact decodesBits_none hpush rfl (by omega)
  | 1 =>
    obtain rfl : 5 = r := Option.some.inj hbits
    obtain rfl : left = rest := hleft (by decide)
    have hmask : dec &&& 3 = dec % 4 := Nat.and_two_pow_sub_one_eq_mod _ 2
    have hor : left <<< 3 ||| dec >>> 2 = left * 2 ^ 3 + dec >>> 2 := shiftLeft_or_low (by omega)
    exact decodesBits_one hpush rfl (hor.trans (by omega)) (by omega)
  | 2 =>
    obtain rfl : 2 = r := Option.some.inj hbits
    obtain rfl : left = rest := hleft (by decide)
    exact decodesBits_none hpush rfl fun _ ↦ shiftLeft_or_low hdec
  | 3 =>
    obtain rfl : 7 = r := Option.some.inj hbits
    obtain rfl : left = rest := hleft (by decide)
    have hmask : dec &&& 15 = dec % 16 := Nat.and_two_pow_sub_one_eq_mod _ 4
    have hor : left <<< 1 ||| dec >>> 4 = left * 2 ^ 1 + dec >>> 4 := shiftLeft_or_low (by omega)
    exact decodesBits_one hpush rfl (hor.trans (by omega)) (by omega)
  | 4 =>
    obtain rfl : 4 = r := Option.some.inj hbits
    obtain rfl : left = rest := hleft (by decide)
    have hmask : dec &&& 1 = dec % 2 := Nat.and_two_pow_sub_one_eq_mod _ 1
    have hor : left <<< 4 ||| dec >>> 1 = left * 2 ^ 4 + dec >>> 1 := shiftLeft_or_low (by omega)
    exact decodesBits_one hpush rfl (hor.trans (by omega)) (by omega)
  | 5 =>
    obtain rfl : 1 = r := Option.some.inj hbits
    obtain rfl : left = rest := hleft (by decide)
    exact decodesBits_none hpush rfl fun _ ↦ shiftLeft_or_low hdec
  | 6 =>
    obtain rfl : 6 = r := Option.some.inj hbits
    obtain rfl : left = rest := hleft (by decide)
    have hmask : dec &&& 7 = dec % 8 := Nat.and_two_pow_sub_one_eq_mod _ 3
    have hor : left <<< 2 ||| dec >>> 3 = left * 2 ^ 2 + dec >>> 3 := shiftLeft_or_low (by omega)
    exact decodesBits_one hpush rfl (hor.trans (by omega)) (by omega)
  | 7 =>
    obtain rfl : 3 = r := Option.some.inj hbits
    obtain rfl : left = rest := hleft (by decide)
    have hor : left <<< 5 ||| dec = left * 2 ^ 5 + dec := shiftLeft_or_low hdec
    exact decodesBits_one hpush rfl (hor.trans (by omega)) (by omega)
  | _ + 8 => exact absurd hbits nofun

/-! ### The coding -/

/-- The characters `=` for a number of fill bits. -/
def equals32 : ℕ → ℕ
  | 1 => 3
  | 2 => 6
  | 3 => 1
  | 4 => 4
  | _ => 0

theorem encodeBase32_eq (bs : Bytes) : ∃ pad ds, Packs 8 5 pad (bs.map UInt8.toNat) ds ∧
    encodeBase32 bs = ds.map base32Letter ++ List.replicate (equals32 pad) 0x3d := by
  have hbits := @encodesBits_foldl 5 base32Letter encodeBits32 _ rfl encodes_base32Step bs
  rw [encodeBase32]
  generalize bs.foldl encodeBase32Step ⟨[], 0, 0⟩ = s at hbits
  obtain ⟨strRet, mode, left⟩ := s
  match mode with
  | 0 =>
    obtain ⟨ds, hpacks, hret⟩ := hbits.packs_zero rfl (by decide)
    exact ⟨0, ds, hpacks, by simpa [equals32] using hret⟩
  | 1 =>
    obtain ⟨ds, hpacks, hret⟩ := hbits.packs (r := 3) rfl (by decide) (by decide)
    exact ⟨2, ds, hpacks, congrArg (· ++ List.replicate 6 0x3d) hret⟩
  | 2 =>
    obtain ⟨ds, hpacks, hret⟩ := hbits.packs (r := 1) rfl (by decide) (by decide)
    exact ⟨4, ds, hpacks, congrArg (· ++ List.replicate 4 0x3d) hret⟩
  | 3 =>
    obtain ⟨ds, hpacks, hret⟩ := hbits.packs (r := 4) rfl (by decide) (by decide)
    exact ⟨1, ds, hpacks, congrArg (· ++ List.replicate 3 0x3d) hret⟩
  | 4 =>
    obtain ⟨ds, hpacks, hret⟩ := hbits.packs (r := 2) rfl (by decide) (by decide)
    exact ⟨3, ds, hpacks, congrArg (· ++ List.replicate 1 0x3d) hret⟩
  | _ + 5 =>
    obtain ⟨r, _, _, hmode, _⟩ := hbits
    exact absurd hmode nofun

theorem base32Invalid_iff {s : Decoder} {p : Bytes} {r : ℕ} (hbits : decodeBits32 s.mode = some r)
    (hp : NoLetter decode32Table p) : base32Invalid s p = false ↔
      r < 5 ∧ (r ≠ 0 → s.left = 0) ∧
        ∃ rest, p = List.replicate (equals32 r) 0x3d ++ rest ∧ NoLetter decode32Table rest := by
  obtain ⟨vchRet, mode, left⟩ := s
  match mode with
  | 0 =>
    obtain rfl : 0 = r := Option.some.inj hbits
    exact iff_of_true rfl ⟨by decide, fun h ↦ absurd rfl h, p, rfl, hp⟩
  | 1 =>
    obtain rfl : 5 = r := Option.some.inj hbits
    exact iff_of_false nofun fun h ↦ absurd h.1 (by decide)
  | 3 =>
    obtain rfl : 7 = r := Option.some.inj hbits
    exact iff_of_false nofun fun h ↦ absurd h.1 (by decide)
  | 6 =>
    obtain rfl : 6 = r := Option.some.inj hbits
    exact iff_of_false nofun fun h ↦ absurd h.1 (by decide)
  | 2 =>
    obtain rfl : 2 = r := Option.some.inj hbits
    exact badPadding_iff (by decide) (by decide) (by decide)
  | 4 =>
    obtain rfl : 4 = r := Option.some.inj hbits
    exact badPadding_iff (by decide) (by decide) (by decide)
  | 5 =>
    obtain rfl : 1 = r := Option.some.inj hbits
    exact badPadding_iff (by decide) (by decide) (by decide)
  | 7 =>
    obtain rfl : 3 = r := Option.some.inj hbits
    exact badPadding_iff (by decide) (by decide) (by decide)
  | _ + 8 => exact absurd hbits nofun

def base32 : Coding 5 where
  letter := base32Letter
  table := decode32Table
  fold := lower
  bits := decodeBits32
  equals := equals32
  encode := encodeBase32
  step := decodeBase32Step
  invalid := base32Invalid
  width := by decide
  table_iff := table_iff_of_letters (by decide) (forall_byte (by decide +kernel))
  fold_letter := by decide
  fold_pad := forall_byte (by decide +kernel)
  table_pad := by decide
  bits_lt mode r h := by
    match mode with
    | 0 | 1 | 2 | 3 | 4 | 5 | 6 | 7 => exact Option.some.inj h ▸ by decide
    | _ + 8 => exact absurd h nofun
  start := rfl
  encode_eq := encodeBase32_eq
  step_decodes := decodes_base32Step
  invalid_iff := base32Invalid_iff

/-! ### Both codings -/

/-- Both decoders return what was encoded, in Base32 in either case, and a text that is not invalid
begins with the text of the bytes it decodes to, in Base32 in either case. -/
theorem base64_base32_roundTrip :
    (∀ b, decodeBase64 (encodeBase64 b) = (b, false)) ∧
      (∀ b, decodeBase32 (encodeBase32 b) = (b, false)) ∧
      (∀ p b, p.map lower = encodeBase32 b → decodeBase32 p = (b, false)) ∧
      (∀ p b, decodeBase64 p = (b, false) →
        ∃ rest, p = encodeBase64 b ++ rest ∧ NoLetter decode64Table rest) ∧
      ∀ p b, decodeBase32 p = (b, false) →
        ∃ text rest, p = text ++ rest ∧ text.map lower = encodeBase32 b ∧
          NoLetter decode32Table rest := by
  refine ⟨base64.decode_encode, base32.decode_encode, fun p b ↦ base32.decode_of_map_fold, ?_,
    fun p b ↦ base32.decode_iff.mp⟩
  intro p b h
  obtain ⟨text, rest, hp, htext, hrest⟩ := base64.decode_iff.mp h
  rw [show text = encodeBase64 b from (List.map_id text).symm.trans htext] at hp
  exact ⟨rest, hp, hrest⟩

theorem base64_base32_roundTrip_sample : decodeBase32 (ascii "MY======") = (ascii "f", false) ∧
    ∃ rest, ascii "Zg==" = encodeBase64 (ascii "f") ++ rest ∧ NoLetter decode64Table rest :=
  have h := base64_base32_roundTrip
  ⟨h.2.2.1 (ascii "MY======") (ascii "f") (by decide),
    h.2.2.2.1 (ascii "Zg==") (ascii "f") (by decide)⟩

/-- The texts are not the only ones: letters in upper case, and what follows the last letter. -/
theorem decodeBase_accepts_other_texts :
    decodeBase32 (ascii "MY======") = (ascii "f", false) ∧
      encodeBase32 (ascii "f") ≠ ascii "MY======" ∧
      decodeBase64 (ascii "Zm9v!") = (ascii "foo", false) ∧
      encodeBase64 (ascii "foo") ≠ ascii "Zm9v!" := by
  decide

end Bitmark
