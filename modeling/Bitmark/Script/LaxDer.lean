import Bitmark.Script.DerSignature

/-!
# The lax parser

Signatures are verified as `ecdsa_signature_parse_der_lax` reads them (`src/key.cpp:418–568`): it
takes more than strict DER, and reads what `IsValidSignatureEncoding` accepts as it is meant.
-/

namespace Bitmark

/-- The order of the group, `src/secp256k1/src/scalar_4x64_impl.h:16`. -/
def groupOrder : ℕ := 0xfffffffffffffffffffffffffffffffebaaedce6af48a03bbfd25e8cd0364141

/-- `secp256k1_ecdsa_signature`: two scalars. -/
structure EcdsaSignature where
  r : ℕ
  s : ℕ
  r_lt : r < groupOrder
  s_lt : s < groupOrder
deriving DecidableEq

/-- The memory of a signature that is all zero: it is invalid for every message. -/
def EcdsaSignature.zero : EcdsaSignature := ⟨0, 0, by decide, by decide⟩

/-- The signature with these numbers, when they are scalars. -/
def EcdsaSignature.ofNumbers (r s : ℕ) : Option EcdsaSignature :=
  if h : r < groupOrder ∧ s < groupOrder then some ⟨r, s, h.1, h.2⟩ else none

/-- `secp256k1_ecdsa_signature_parse_compact`, `src/secp256k1/src/secp256k1.c:379`: what it returns
and the signature it leaves. -/
def parseCompact (input64 : Bytes) : Bool × EcdsaSignature :=
  match EcdsaSignature.ofNumbers (beNat (input64.take 32)) (beNat ((input64.drop 32).take 32)) with
  | some sig => (true, sig)
  | none => (false, .zero)

/-- The loops over zeros: the position and the length that are left. -/
def skipZeros (input : Bytes) : ℕ → ℕ → Access (ℕ × ℕ)
  | 0, pos => return (pos, 0)
  | len + 1, pos => do
    let b ← vectorAt input pos
    if b = 0 then skipZeros input len (pos + 1) else return (pos, len + 1)

/-- The loops over the bytes of a length, with the position behind them. -/
def readLength (input : Bytes) : ℕ → ℕ → ℕ → Access (ℕ × ℕ)
  | 0, pos, rlen => return (pos, rlen)
  | lenbyte + 1, pos, rlen => do
    let b ← vectorAt input pos
    readLength input lenbyte (pos + 1) (rlen * 256 + b.toNat)

/-- The tag and the length of an integer: the position of its content and the length of it, or
`none` where the parser returns zero. -/
def laxInteger (input : Bytes) (pos : ℕ) : Access (Option (ℕ × ℕ)) := do
  if pos = input.length then return none
  let tag ← vectorAt input pos
  if tag ≠ 0x02 then return none
  if pos + 1 = input.length then return none
  let lenbyte ← vectorAt input (pos + 1)
  if lenbyte &&& 0x80 ≠ 0 then
    if lenbyte.toNat - 0x80 > input.length - (pos + 2) then return none
    let (pos, lenbyte) ← skipZeros input (lenbyte.toNat - 0x80) (pos + 2)
    if 4 ≤ lenbyte then return none
    let (pos, rlen) ← readLength input lenbyte pos 0
    if rlen > input.length - pos then return none
    return some (pos, rlen)
  else
    if lenbyte.toNat > input.length - (pos + 2) then return none
    return some (pos + 2, lenbyte.toNat)

/-- `memcpy` into an array. -/
def writeAt (tmpsig : Bytes) (pos : ℕ) (bs : Bytes) : Bytes :=
  tmpsig.take pos ++ bs ++ tmpsig.drop (pos + bs.length)

/-- The bytes of an integer are copied to the end of its half of `tmpsig`, unless `overflow`. -/
def laxCopy (input : Bytes) (pos len halfEnd : ℕ) (tmpsig : Bytes) (overflow : Bool) :
    Access (Bytes × Bool) := do
  let (pos, len) ← skipZeros input len pos
  if 32 < len then return (tmpsig, true)
  else
    let bs ← bytesAt input pos len
    return (writeAt tmpsig (halfEnd - len) bs, overflow)

/-- `ecdsa_signature_parse_der_lax`: what it returns and the signature it leaves. -/
def ecdsaSignatureParseDerLax (input : Bytes) : Access (Bool × EcdsaSignature) := do
  let failed := (false, (parseCompact (List.replicate 64 0)).2)
  if input.length = 0 then return failed
  let compound ← vectorAt input 0
  if compound ≠ 0x30 then return failed
  if input.length = 1 then return failed
  let lenbyte ← vectorAt input 1
  let long := if lenbyte &&& 0x80 ≠ 0 then lenbyte.toNat - 0x80 else 0
  if long > input.length - 2 then return failed
  match ← laxInteger input (2 + long) with
  | none => return failed
  | some (rpos, rlen) =>
    match ← laxInteger input (rpos + rlen) with
    | none => return failed
    | some (spos, slen) =>
      let (tmpsig, overflow) ← laxCopy input rpos rlen 32 (List.replicate 64 0) false
      let (tmpsig, overflow) ← laxCopy input spos slen 64 tmpsig overflow
      let parsed := if overflow then (false, .zero) else parseCompact tmpsig
      if parsed.1 then return (true, parsed.2)
      else return (true, (parseCompact (List.replicate 64 0)).2)

/-! ### Numbers without their zeros -/

/-- The content of a number without the zeros in front. -/
def significant (bs : Bytes) : Bytes := bs.dropWhile (· == 0)

theorem beNat_significant (bs : Bytes) : beNat (significant bs) = beNat bs := by
  induction bs with
  | nil => rfl
  | cons b bs ih =>
    rw [significant, List.dropWhile_cons]
    split
    case isTrue hzero =>
      rw [beNat_cons, beq_iff_eq.mp hzero]
      change beNat (significant bs) = 0 * _ + beNat bs
      rw [ih, Nat.zero_mul, Nat.zero_add]
    case isFalse => rfl

theorem length_significant_le (bs : Bytes) : (significant bs).length ≤ bs.length :=
  (List.dropWhile_sublist _).length_le

/-- A number fits into so many bytes when these are enough for its significant ones. -/
theorem length_significant_le_iff (bs : Bytes) (k : ℕ) :
    (significant bs).length ≤ k ↔ beNat bs < 2 ^ (8 * k) := by
  rw [← beNat_significant]
  constructor
  · intro h
    exact (beNat_lt _).trans_le (Nat.pow_le_pow_right (by omega) (by omega))
  · intro h
    by_contra hlong
    cases hbs : significant bs with
    | nil =>
      rw [hbs] at hlong
      exact hlong (Nat.zero_le k)
    | cons b rest =>
      have hne : b ≠ 0 := by
        have hhead := List.head?_dropWhile_not (· == 0) bs
        rw [show bs.dropWhile (· == 0) = b :: rest from hbs] at hhead
        simpa using hhead
      have hb : 0 < b.toNat := Nat.pos_of_ne_zero fun h0 ↦ hne (UInt8.toNat_inj.mp h0)
      rw [hbs, List.length_cons] at hlong
      rw [hbs, beNat_cons] at h
      have hpow : 2 ^ (8 * k) ≤ 2 ^ (8 * rest.length) := Nat.pow_le_pow_right (by omega) (by omega)
      have hfirst : 2 ^ (8 * rest.length) ≤ b.toNat * 2 ^ (8 * rest.length) :=
        Nat.le_mul_of_pos_left _ hb
      omega

/-- The loop over zeros stops at the significant bytes. -/
theorem skipZeros_append (pre content post : Bytes) :
    skipZeros (pre ++ (content ++ post)) content.length pre.length =
      .ok (pre.length + (content.length - (significant content).length),
        (significant content).length) := by
  induction content generalizing pre with
  | nil => rfl
  | cons b content ih =>
    rw [List.length_cons, skipZeros, List.cons_append, vectorAt_append, Access.ok_bind]
    have hle := length_significant_le content
    split
    case isTrue hzero =>
      have hshape : pre ++ b :: (content ++ post) = (pre ++ [b]) ++ (content ++ post) := by
        rw [List.append_assoc]
        rfl
      have hskip : significant (b :: content) = significant content := by
        rw [hzero]
        rfl
      have hnext := ih (pre ++ [b])
      rw [List.length_append, List.length_singleton] at hnext
      rw [hshape, hnext, hskip]
      congr 2
      omega
    case isFalse hne =>
      have hstop : significant (b :: content) = b :: content :=
        List.dropWhile_cons_of_neg (by simpa using hne)
      rw [hstop, List.length_cons, Nat.sub_self]
      rfl

/-! ### Integers -/

/-- An integer with a short length is found behind other bytes. -/
theorem laxInteger_eq {input pre post content : Bytes} {pos : ℕ}
    (hinput : input = pre ++ derElement 0x02 content ++ post) (hpos : pre.length = pos)
    (hshort : content.length < 128) :
    laxInteger input pos = .ok (some (pos + 2, content.length)) := by
  subst hinput hpos
  have hlength : (pre ++ derElement 0x02 content ++ post).length =
      pre.length + content.length + post.length + 2 := by
    simp only [derElement, List.length_append, List.length_cons]
    omega
  have hbyte : (UInt8.ofNat content.length).toNat = content.length :=
    UInt8.toNat_ofNat_of_lt (show _ < 256 by omega)
  have htag : vectorAt (pre ++ derElement 0x02 content ++ post) pre.length = .ok 0x02 := by
    rw [derElement, List.append_assoc]
    exact vectorAt_append pre _ _
  have hlen : vectorAt (pre ++ derElement 0x02 content ++ post) (pre.length + 1) =
      .ok (UInt8.ofNat content.length) := by
    have hshape : pre ++ derElement 0x02 content ++ post =
        (pre ++ [0x02]) ++ UInt8.ofNat content.length :: (content ++ post) := by
      simp only [derElement, List.cons_append, List.append_assoc, List.nil_append]
    exact vectorAt_append_of_eq hshape (by rw [List.length_append]; rfl)
  have hform : ¬ (UInt8.ofNat content.length &&& 0x80 ≠ 0) := by
    rw [and_sign_ne_zero, hbyte]
    omega
  rw [laxInteger, if_neg (by omega), htag, Access.ok_bind, if_neg (not_not.mpr rfl),
    if_neg (by omega), hlen, Access.ok_bind, if_neg hform, hbyte, if_neg (by omega)]
  rfl

/-- The 32 bytes of a scalar. -/
theorem replicate_append_significant {content : Bytes} (h : beNat content < 2 ^ (8 * 32)) :
    List.replicate (32 - (significant content).length) 0 ++ significant content =
      beBytes 32 (beNat content) := by
  have hle := (length_significant_le_iff content 32).mpr h
  have hself := beBytes_beNat (significant content)
  have hlt := beNat_lt (significant content)
  rw [beNat_significant] at hself hlt
  have hadd := beBytes_add (32 - (significant content).length) hlt
  rw [hself, Nat.sub_add_cancel hle] at hadd
  exact hadd.symm

theorem bytesAt_significant (pre content post : Bytes) :
    bytesAt (pre ++ (content ++ post))
        (pre.length + (content.length - (significant content).length))
        (significant content).length = .ok (significant content) := by
  have hle := length_significant_le content
  have hdrop : content.drop (content.length - (significant content).length) =
      significant content := (List.suffix_iff_eq_drop.mp (List.dropWhile_suffix _)).symm
  rw [bytesAt_of_le, List.drop_length_add_append, List.drop_append_of_le_length (Nat.sub_le _ _), hdrop,
    List.take_left]
  rw [List.length_append, List.length_append]
  omega

/-- Bytes that fit are written to the end of a half, behind its zeros. -/
theorem writeAt_half (half rest : Bytes) {bs : Bytes} (h : bs.length ≤ 32) :
    writeAt (half ++ List.replicate 32 0 ++ rest) (half.length + 32 - bs.length) bs =
      half ++ (List.replicate (32 - bs.length) 0 ++ bs) ++ rest := by
  have hpos : half.length + 32 - bs.length = half.length + (32 - bs.length) := by omega
  have hend : half.length + (32 - bs.length) + bs.length =
      (half ++ List.replicate 32 0).length := by
    rw [List.length_append, List.length_replicate]
    omega
  have hzeros : (List.replicate 32 0 ++ rest).take (32 - bs.length) =
      List.replicate (32 - bs.length) (0 : UInt8) := by
    rw [List.take_append_of_le_length (by rw [List.length_replicate]; omega), List.take_replicate,
      Nat.min_eq_left (Nat.sub_le _ _)]
  rw [writeAt, hpos, hend, List.drop_left, List.append_assoc half _ rest,
    List.take_length_add_append, hzeros, List.append_assoc half]

/-- An integer is copied to its half of the array, or found not to fit. -/
theorem laxCopy_eq {input pre post content half : Bytes} {pos halfEnd : ℕ}
    (hinput : input = pre ++ (content ++ post)) (hpos : pre.length = pos)
    (hhalf : half.length + 32 = halfEnd) (rest : Bytes) (overflow : Bool) :
    laxCopy input pos content.length halfEnd (half ++ List.replicate 32 0 ++ rest) overflow =
      if beNat content < 2 ^ (8 * 32) then
        .ok (half ++ beBytes 32 (beNat content) ++ rest, overflow)
      else .ok (half ++ List.replicate 32 0 ++ rest, true) := by
  subst hinput hpos hhalf
  rw [laxCopy, skipZeros_append, Access.ok_bind]
  dsimp only
  by_cases hfits : beNat content < 2 ^ (8 * 32)
  · have hle := (length_significant_le_iff content 32).mpr hfits
    rw [if_neg (Nat.not_lt_of_le hle), bytesAt_significant, Access.ok_bind,
      writeAt_half half rest hle, replicate_append_significant hfits, if_pos hfits]
    rfl
  · have hlong : 32 < (significant content).length := by
      rw [← length_significant_le_iff] at hfits
      omega
    rw [if_pos hlong, if_neg hfits]
    rfl

/-! ### Strict DER -/

theorem parseCompact_beBytes {r s : ℕ} (hr : r < 2 ^ (8 * 32)) (hs : s < 2 ^ (8 * 32)) :
    parseCompact (beBytes 32 r ++ beBytes 32 s) =
      match EcdsaSignature.ofNumbers r s with
      | some sig => (true, sig)
      | none => (false, .zero) := by
  have hleft : (beBytes 32 r ++ beBytes 32 s).take 32 = beBytes 32 r :=
    List.take_left' (length_beBytes 32 r)
  have hright : ((beBytes 32 r ++ beBytes 32 s).drop 32).take 32 = beBytes 32 s := by
    rw [List.drop_left' (length_beBytes 32 r)]
    exact List.take_of_length_le (length_beBytes 32 s).le
  rw [parseCompact, hleft, hright, beNat_beBytes hr, beNat_beBytes hs]

/-- A signature with a number that is no scalar becomes the invalid one. -/
def parsedSignature (r s : ℕ) : EcdsaSignature := (EcdsaSignature.ofNumbers r s).getD .zero

theorem parsedSignature_of_not_lt {r s : ℕ} (h : ¬ (r < 2 ^ (8 * 32) ∧ s < 2 ^ (8 * 32))) :
    parsedSignature r s = .zero := by
  have horder : groupOrder < 2 ^ (8 * 32) := by decide
  have hnone : ¬ (r < groupOrder ∧ s < groupOrder) := fun hlt ↦
    h ⟨hlt.1.trans horder, hlt.2.trans horder⟩
  rw [parsedSignature, EcdsaSignature.ofNumbers, dif_neg hnone]
  rfl

theorem parseCompact_zeros : parseCompact (List.replicate 64 0) = (true, .zero) := by decide

section StrictDer

variable {r s : ℕ}

theorem laxInteger_first (hshort : (derSignature r s).length < 73) :
    laxInteger (derSignature r s) 2 = .ok (some (4, (derContent r).length)) := by
  rw [length_derSignature] at hshort
  have hinput : derSignature r s = (derSignature r s).take 2 ++ derElement 0x02 (derContent r) ++
      derElement 0x02 (derContent s) := rfl
  exact laxInteger_eq hinput rfl (by omega)

theorem laxInteger_second (hshort : (derSignature r s).length < 73) :
    laxInteger (derSignature r s) (4 + (derContent r).length) =
      .ok (some (4 + (derContent r).length + 2, (derContent s).length)) := by
  rw [length_derSignature] at hshort
  have hinput : derSignature r s = ((derSignature r s).take 2 ++ derElement 0x02 (derContent r)) ++
      derElement 0x02 (derContent s) ++ [] := by
    rw [List.append_nil, List.append_assoc]
    rfl
  apply laxInteger_eq hinput
  · rw [List.length_append, length_derElement, List.length_take, length_derSignature]
    omega
  · omega

/-- The first integer in the array. -/
theorem laxCopy_first (r s : ℕ) :
    laxCopy (derSignature r s) 4 (derContent r).length 32 (List.replicate 64 0) false =
      if r < 2 ^ (8 * 32) then .ok (beBytes 32 r ++ List.replicate 32 0, false)
      else .ok (List.replicate 32 0 ++ List.replicate 32 0, true) := by
  have hinput : derSignature r s = (derSignature r s).take 4 ++
      (derContent r ++ derElement 0x02 (derContent s)) := rfl
  have hzeros : List.replicate 64 (0 : UInt8) =
      [] ++ List.replicate 32 0 ++ List.replicate 32 0 := by
    rw [List.nil_append, List.replicate_append_replicate]
  have hpos : ((derSignature r s).take 4).length = 4 := rfl
  have hhalf : ([] : Bytes).length + 32 = 32 := rfl
  rw [hzeros, laxCopy_eq hinput hpos hhalf, beNat_derContent, List.nil_append, List.nil_append]

/-- The second integer behind it. -/
theorem laxCopy_second (r s : ℕ) {half : Bytes} (hhalf : half.length = 32) (overflow : Bool) :
    laxCopy (derSignature r s) (4 + (derContent r).length + 2) (derContent s).length 64
        (half ++ List.replicate 32 0) overflow =
      if s < 2 ^ (8 * 32) then .ok (half ++ beBytes 32 s, overflow)
      else .ok (half ++ List.replicate 32 0, true) := by
  have hinput : derSignature r s = ((derSignature r s).take 4 ++ derContent r ++
      [0x02, UInt8.ofNat (derContent s).length]) ++ (derContent s ++ []) := by
    rw [List.append_nil, List.append_assoc, List.append_assoc]
    rfl
  have hpos : ((derSignature r s).take 4 ++ derContent r ++
      [0x02, UInt8.ofNat (derContent s).length]).length = 4 + (derContent r).length + 2 := by
    rw [List.length_append, List.length_append, List.length_take, length_derSignature]
    change min 4 _ + _ + 2 = _
    omega
  have h := laxCopy_eq hinput hpos (show half.length + 32 = 64 by omega) [] overflow
  rw [beNat_derContent, List.append_nil, List.append_nil] at h
  exact h

/-- The lax parser reads no byte outside strict DER, succeeds, and finds its numbers. -/
theorem ecdsaSignatureParseDerLax_derSignature (hshort : (derSignature r s).length < 73) :
    ecdsaSignatureParseDerLax (derSignature r s) = .ok (true, parsedSignature r s) := by
  have hlength := length_derSignature r s
  have hsize : (UInt8.ofNat ((derContent r).length + (derContent s).length + 4)).toNat =
      (derContent r).length + (derContent s).length + 4 :=
    UInt8.toNat_ofNat_of_lt (show _ < 256 by omega)
  have hbody : (derElement 0x02 (derContent r) ++ derElement 0x02 (derContent s)).length =
      (derContent r).length + (derContent s).length + 4 := by
    rw [List.length_append, length_derElement, length_derElement]
    omega
  have hcompound : vectorAt (derSignature r s) 0 = .ok 0x30 := rfl
  have hlenbyte : vectorAt (derSignature r s) 1 =
      .ok (UInt8.ofNat ((derContent r).length + (derContent s).length + 4)) := by
    rw [← hbody]
    rfl
  have hform : ¬ (UInt8.ofNat ((derContent r).length + (derContent s).length + 4) &&& 0x80 ≠ 0) := by
    rw [and_sign_ne_zero, hsize]
    omega
  have hhalf : ∀ n, (beBytes 32 n).length = 32 := length_beBytes 32
  rw [ecdsaSignatureParseDerLax, if_neg (by omega), hcompound, Access.ok_bind,
    if_neg (not_not.mpr rfl), if_neg (by omega), hlenbyte, Access.ok_bind]
  dsimp only
  rw [if_neg hform, if_neg (Nat.not_lt_zero _), laxInteger_first hshort, Access.ok_bind]
  dsimp only
  rw [laxInteger_second hshort, Access.ok_bind]
  dsimp only
  rw [laxCopy_first, parseCompact_zeros]
  by_cases hr : r < 2 ^ (8 * 32)
  · rw [if_pos hr, Access.ok_bind]
    dsimp only
    rw [laxCopy_second r s (hhalf r)]
    by_cases hs : s < 2 ^ (8 * 32)
    · rw [if_pos hs, Access.ok_bind]
      dsimp only
      rw [if_neg Bool.false_ne_true, parseCompact_beBytes hr hs, parsedSignature]
      cases EcdsaSignature.ofNumbers r s with
      | none => rfl
      | some sig => rfl
    · rw [if_neg hs, parsedSignature_of_not_lt fun h ↦ hs h.2]
      rfl
  · rw [if_neg hr, Access.ok_bind]
    dsimp only
    rw [laxCopy_second r s List.length_replicate, parsedSignature_of_not_lt fun h ↦ hr h.1]
    split
    case isTrue => rfl
    case isFalse => rfl

end StrictDer

/-! ### The checks and the parser -/

theorem EncodesSignature.parse {sig : Bytes} {r s : ℕ} {nHashType : UInt8}
    (h : EncodesSignature sig r s nHashType) :
    ecdsaSignatureParseDerLax sig.dropLast = .ok (true, parsedSignature r s) := by
  obtain ⟨rfl, -, hshort⟩ := h
  rw [List.length_append, List.length_singleton] at hshort
  rw [List.dropLast_concat]
  exact ecdsaSignatureParseDerLax_derSignature (by omega)

/-- For every byte string the checks read no byte outside it, `IsValidSignatureEncoding` accepts two
numbers in strict DER with a hash type, and `IsCanonicalSignature` those of them that its flags ask
for. The lax parser reads no byte outside such a string without its hash type, succeeds, and yields
its numbers when both are below the order of the group, and the invalid signature when not. -/
theorem signatureEncodings (sig : Bytes) :
    ((∃ b, isValidSignatureEncoding sig = .ok b) ∧
      (isValidSignatureEncoding sig = .ok true ↔
        ∃ r s nHashType, EncodesSignature sig r s nHashType)) ∧
    (∀ flags, (∃ b, isCanonicalSignature sig flags = .ok b) ∧
      (isCanonicalSignature sig flags = .ok true ↔
        flags &&& scriptVerifyStrictenc = 0 ∨
          ∃ r s nHashType, EncodesSignature sig r s nHashType ∧ nHashType ∈ hashTypeBytes ∧
            (flags &&& scriptVerifyEvenS ≠ 0 → s % 2 = 0))) ∧
    ∀ r s nHashType, EncodesSignature sig r s nHashType →
      ecdsaSignatureParseDerLax sig.dropLast =
        .ok (true, (EcdsaSignature.ofNumbers r s).getD .zero) := by
  refine ⟨isValidSignatureEncoding_iff sig, isCanonicalSignature_iff sig, ?_⟩
  intro r s nHashType h
  exact h.parse

/-- The least encoding: both numbers are zero. -/
def zeroSignature : Bytes := [0x30, 6, 0x02, 1, 0, 0x02, 1, 0, 1]

/-- Zero is accepted, which is not positive; without its flag `IsCanonicalSignature` accepts
everything; and a number of 32 bytes that is not below the order becomes the invalid signature. -/
theorem signatureEncodings_zero :
    (isValidSignatureEncoding zeroSignature = .ok true ∧
      ∀ r s nHashType, EncodesSignature zeroSignature r s nHashType → r = 0 ∧ s = 0) ∧
    isCanonicalSignature [] 0 = .ok true ∧
    ∃ sig, EncodesSignature sig groupOrder 1 1 ∧ groupOrder < 2 ^ 256 ∧
      ecdsaSignatureParseDerLax sig.dropLast = .ok (true, .zero) := by
  have horder : groupOrder < 2 ^ 256 := by decide
  have hzero : EncodesSignature zeroSignature 0 0 1 := ⟨by decide, by decide, by decide⟩
  refine ⟨⟨(isValidSignatureEncoding_iff _).2.mpr ⟨0, 0, 1, hzero⟩, ?_⟩, by decide, ?_⟩
  · intro r s nHashType h
    have hunique := h.unique hzero
    exact ⟨hunique.1, hunique.2.1⟩
  · have hencodes := encodesSignature_of_lt horder (Nat.one_lt_two_pow (by decide)) 1
    refine ⟨_, hencodes, horder, hencodes.parse.trans ?_⟩
    rw [parsedSignature, EcdsaSignature.ofNumbers, dif_neg fun h ↦ lt_irrefl _ h.1]
    rfl

end Bitmark
