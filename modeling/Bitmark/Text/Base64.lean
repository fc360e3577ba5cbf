import Bitmark.Text.Coding

/-!
# Base64

`EncodeBase64` and `DecodeBase64` of `src/util.cpp:554–686`: six bits a letter.
-/

namespace Bitmark

open Regroup

/-- The alphabet of `src/util.cpp:556`. -/
def pbase64 : Bytes := ascii "ABCDEFGHIJKLMNOPQRSTUVWXYZabcdefghijklmnopqrstuvwxyz0123456789+/"

/-- `pbase64[d]`. -/
def base64Letter (d : ℕ) : UInt8 := pbase64.getD d 0

/-- A byte, `src/util.cpp:566–586`. -/
def encodeBase64Step (s : Encoder) (pch : UInt8) : Encoder :=
  let enc := pch.toNat
  match s.mode with
  | 0 => ⟨s.strRet ++ [base64Letter (enc >>> 2)], 1, (enc &&& 3) <<< 4⟩
  | 1 => ⟨s.strRet ++ [base64Letter (s.left ||| enc >>> 4)], 2, (enc &&& 15) <<< 2⟩
  | 2 => ⟨s.strRet ++ [base64Letter (s.left ||| enc >>> 6), base64Letter (enc &&& 63)], 0, s.left⟩
  | _ => s

/-- `EncodeBase64`, `src/util.cpp:554`. -/
def encodeBase64 (pch : Bytes) : Bytes :=
  let s := pch.foldl encodeBase64Step ⟨[], 0, 0⟩
  if s.mode ≠ 0 then
    s.strRet ++ [base64Letter s.left] ++ [0x3d] ++ if s.mode = 1 then [0x3d] else []
  else s.strRet

/-- The table `decode64_table`, `src/util.cpp:607`, where `none` stands for `-1`. -/
def decode64Table (c : UInt8) : Option ℕ :=
  if c = 0x2b then some 62
  else if c = 0x2f then some 63
  else if 0x30 ≤ c ∧ c ≤ 0x39 then some (52 + (c.toNat - 0x30))
  else if 0x41 ≤ c ∧ c ≤ 0x5a then some (c.toNat - 0x41)
  else if 0x61 ≤ c ∧ c ≤ 0x7a then some (26 + (c.toNat - 0x61))
  else none

/-- A letter, `src/util.cpp:638–661`. -/
def decodeBase64Step (s : Decoder) (dec : ℕ) : Decoder :=
  match s.mode with
  | 0 => ⟨s.vchRet, 1, dec⟩
  | 1 => ⟨s.vchRet ++ [UInt8.ofNat (s.left <<< 2 ||| dec >>> 4)], 2, dec &&& 15⟩
  | 2 => ⟨s.vchRet ++ [UInt8.ofNat (s.left <<< 4 ||| dec >>> 2)], 3, dec &&& 3⟩
  | 3 => ⟨s.vchRet ++ [UInt8.ofNat (s.left <<< 6 ||| dec)], 0, s.left⟩
  | _ => s

/-- `*pfInvalid` after the letters, `src/util.cpp:664–683`. -/
def base64Invalid (s : Decoder) (p : Bytes) : Bool :=
  match s.mode with
  | 0 => false
  | 1 => true
  | 2 => badPadding decode64Table s.left 2 p
  | 3 => badPadding decode64Table s.left 1 p
  | _ => false

/-- `DecodeBase64`, `src/util.cpp:605`, of the text before the terminating zero: the bytes and
`*pfInvalid`. -/
def decodeBase64 (p : Bytes) : Bytes × Bool :=
  let r := decodeLetters decode64Table decodeBase64Step ⟨[], 0, 0⟩ p
  (r.1.vchRet, base64Invalid r.1 r.2)

/-! ### The modes -/

/-- The bits that are pending in a mode of the encoder. -/
def encodeBits64 : ℕ → Option ℕ
  | 0 => some 0
  | 1 => some 2
  | 2 => some 4
  | _ => none

/-- The bits that are pending in a mode of the decoder. -/
def decodeBits64 : ℕ → Option ℕ
  | 0 => some 0
  | 1 => some 6
  | 2 => some 4
  | 3 => some 2
  | _ => none

theorem encodes_base64Step {xs : List ℕ} {s : Encoder} (enc : UInt8)
    (h : EncodesBits 6 base64Letter encodeBits64 xs s) :
    EncodesBits 6 base64Letter encodeBits64 (xs ++ [enc.toNat]) (encodeBase64Step s enc) := by
  obtain ⟨strRet, mode, left⟩ := s
  obtain ⟨r, rest, ys, hbits, hcarries, rfl, hleft⟩ := h
  have hrest := hcarries.rest_lt
  have henc := enc.toNat_lt
  have hpush := hcarries.push henc
  match mode with
  | 0 =>
    obtain rfl : 0 = r := Option.some.inj hbits
    have hmask : enc.toNat &&& 3 = enc.toNat % 4 := Nat.and_two_pow_sub_one_eq_mod _ 2
    exact encodesBits_one hpush rfl (by omega) (by omega)
  | 1 =>
    obtain rfl : 2 = r := Option.some.inj hbits
    have hmask : enc.toNat &&& 15 = enc.toNat % 16 := Nat.and_two_pow_sub_one_eq_mod _ 4
    obtain rfl : left = rest * 2 ^ 4 := hleft (by decide)
    have hor : rest * 2 ^ 4 ||| enc.toNat >>> 4 = rest * 2 ^ 4 + enc.toNat >>> 4 :=
      or_low (by omega)
    exact encodesBits_one hpush rfl (hor.trans (by omega)) (by omega)
  | 2 =>
    obtain rfl : 4 = r := Option.some.inj hbits
    have hmask : enc.toNat &&& 63 = enc.toNat % 64 := Nat.and_two_pow_sub_one_eq_mod _ 6
    obtain rfl : left = rest * 2 ^ 2 := hleft (by decide)
    have hor : rest * 2 ^ 2 ||| enc.toNat >>> 6 = rest * 2 ^ 2 + enc.toNat >>> 6 :=
      or_low (by omega)
    exact encodesBits_two hpush rfl (hor.trans (by omega)) (by omega) (by omega)
  | _ + 3 => exact absurd hbits nofun

theorem decodes_base64Step {ds : List ℕ} {s : Decoder} {dec : ℕ} (hdec : dec < 2 ^ 6)
    (h : DecodesBits 6 decodeBits64 ds s) :
    DecodesBits 6 decodeBits64 (ds ++ [dec]) (decodeBase64Step s dec) := by
  obtain ⟨vchRet, mode, left⟩ := s
  obtain ⟨r, rest, hbits, hcarries, hleft⟩ := h
  have hrest := hcarries.rest_lt
  have hpush := hcarries.push hdec
  match mode with
  | 0 =>
    obtain rfl : 0 = r := Option.some.inj hbits
    exact decodesBits_none hpush rfl (by omega)
  | 1 =>
    obtain rfl : 6 = r := Option.some.inj hbits
    obtain rfl : left = rest := hleft (by decide)
    have hmask : dec &&& 15 = dec % 16 := Nat.and_two_pow_sub_one_eq_mod _ 4
    have hor : left <<< 2 ||| dec >>> 4 = left * 2 ^ 2 + dec >>> 4 := shiftLeft_or_low (by omega)
    exact decodesBits_one hpush rfl (hor.trans (by omega)) (by omega)
  | 2 =>
    obtain rfl : 4 = r := Option.some.inj hbits
    obtain rfl : left = rest := hleft (by decide)
    have hmask : dec &&& 3 = dec % 4 := Nat.and_two_pow_sub_one_eq_mod _ 2
    have hor : left <<< 4 ||| dec >>> 2 = left * 2 ^ 4 + dec >>> 2 := shiftLeft_or_low (by omega)
    exact decodesBits_one hpush rfl (hor.trans (by omega)) (by omega)
  | 3 =>
    obtain rfl : 2 = r := Option.some.inj hbits
    obtain rfl : left = rest := hleft (by decide)
    have hor : left <<< 6 ||| dec = left * 2 ^ 6 + dec := shiftLeft_or_low hdec
    exact decodesBits_one hpush rfl (hor.trans (by omega)) (by omega)
  | _ + 4 => exact absurd hbits nofun

/-! ### The coding -/

/-- The characters `=` for a number of fill bits. -/
def equals64 : ℕ → ℕ
  | 2 => 1
  | 4 => 2
  | _ => 0

theorem encodeBase64_eq (bs : Bytes) : ∃ pad ds, Packs 8 6 pad (bs.map UInt8.toNat) ds ∧
    encodeBase64 bs = ds.map base64Letter ++ List.replicate (equals64 pad) 0x3d := by
  have hbits := @encodesBits_foldl 6 base64Letter encodeBits64 _ rfl encodes_base64Step bs
  rw [encodeBase64]
  generalize bs.foldl encodeBase64Step ⟨[], 0, 0⟩ = s at hbits
  obtain ⟨strRet, mode, left⟩ := s
  match mode with
  | 0 =>
    obtain ⟨ds, hpacks, hret⟩ := hbits.packs_zero rfl (by decide)
    exact ⟨0, ds, hpacks, by simpa [equals64] using hret⟩
  | 1 =>
    obtain ⟨ds, hpacks, hret⟩ := hbits.packs (r := 2) rfl (by decide) (by decide)
    exact ⟨4, ds, hpacks, by simp [equals64, ← hret, List.replicate]⟩
  | 2 =>
    obtain ⟨ds, hpacks, hret⟩ := hbits.packs (r := 4) rfl (by decide) (by decide)
    exact ⟨2, ds, hpacks, by simp [equals64, ← hret]⟩
  | _ + 3 =>
    obtain ⟨r, _, _, hmode, _⟩ := hbits
    exact absurd hmode nofun

theorem base64Invalid_iff {s : Decoder} {p : Bytes} {r : ℕ} (hbits : decodeBits64 s.mode = some r)
    (hp : NoLetter decode64Table p) : base64Invalid s p = false ↔
      r < 6 ∧ (r ≠ 0 → s.left = 0) ∧
        ∃ rest, p = List.replicate (equals64 r) 0x3d ++ rest ∧ NoLetter decode64Table rest := by
  obtain ⟨vchRet, mode, left⟩ := s
  match mode with
  | 0 =>
    obtain rfl : 0 = r := Option.some.inj hbits
    exact iff_of_true rfl ⟨by decide, fun h ↦ absurd rfl h, p, rfl, hp⟩
  | 1 =>
    obtain rfl : 6 = r := Option.some.inj hbits
    exact iff_of_false nofun fun h ↦ absurd h.1 (by decide)
  | 2 =>
    obtain rfl : 4 = r := Option.some.inj hbits
    exact badPadding_iff (by decide) (by decide) (by decide)
  | 3 =>
    obtain rfl : 2 = r := Option.some.inj hbits
    exact badPadding_iff (by decide) (by decide) (by decide)
  | _ + 4 => exact absurd hbits nofun

def base64 : Coding 6 where
  letter := base64Letter
  table := decode64Table
  fold := id
  bits := decodeBits64
  equals := equals64
  encode := encodeBase64
  step := decodeBase64Step
  invalid := base64Invalid
  width := by decide
  table_iff := table_iff_of_letters (by decide +kernel) (forall_byte (by decide +kernel))
  fold_letter _ _ := rfl
  fold_pad _ := Iff.rfl
  table_pad := by decide
  bits_lt mode r h := by
    match mode with
    | 0 | 1 | 2 | 3 => exact Option.some.inj h ▸ by decide
    | _ + 4 => exact absurd h nofun
  start := rfl
  encode_eq := encodeBase64_eq
  step_decodes := decodes_base64Step
  invalid_iff := base64Invalid_iff

end Bitmark
