import Mathlib.Data.Nat.Size
import Bitmark.Base.BigEndian
import Bitmark.Script.Encoding

/-!
# Strict DER

What `IsValidSignatureEncoding` and `IsCanonicalSignature` (`src/script.cpp:243–445`) accept: two
numbers in strict DER with a hash type behind them.
-/

namespace Bitmark

/-! ### The grammar -/

/-- The content of an integer that is not negative: as few bytes as leave the high bit clear. -/
def derContent (n : ℕ) : Bytes := beBytes (n.size / 8 + 1) n

/-- A tag, a length below 128, which has one byte, and the content. -/
def derElement (tag : UInt8) (content : Bytes) : Bytes :=
  tag :: UInt8.ofNat content.length :: content

def derSignature (r s : ℕ) : Bytes :=
  derElement 0x30 (derElement 0x02 (derContent r) ++ derElement 0x02 (derContent s))

/-- Two numbers in strict DER and the hash type, within the bounds of the size. -/
def EncodesSignature (sig : Bytes) (r s : ℕ) (nHashType : UInt8) : Prop :=
  sig = derSignature r s ++ [nHashType] ∧ 9 ≤ sig.length ∧ sig.length ≤ 73

/-- The hash types that are defined, without and with `SIGHASH_ANYONECANPAY`. -/
def hashTypeBytes : List UInt8 := [1, 2, 3, 0x81, 0x82, 0x83]

/-! ### `IsCanonicalSignature` -/

/-- The checks between the hash type and the last flag: the layout and the integers. They go on with
the lengths of the integers. -/
def checkLayout (vchSig : Bytes) (next : ℕ → ℕ → Access Bool) : Access Bool := do
  let compound ← vectorAt vchSig 0
  if compound ≠ 0x30 then return false
  let size ← vectorAt vchSig 1
  if size.toNat ≠ vchSig.length - 3 then return false
  let nLenR ← vectorAt vchSig 3
  if vchSig.length ≤ 5 + nLenR.toNat then return false
  let nLenS ← vectorAt vchSig (5 + nLenR.toNat)
  if nLenR.toNat + nLenS.toNat + 7 ≠ vchSig.length then return false
  let okR ← isValidInteger vchSig 4 nLenR.toNat
  if !okR then return false
  let okS ← isValidInteger vchSig (nLenR.toNat + 6) nLenS.toNat
  if !okS then return false
  next nLenR.toNat nLenS.toNat

/-- The last test, of the low byte of the second integer. -/
def checkEvenS (vchSig : Bytes) (flags : BitVec 32) (nLenR nLenS : ℕ) : Access Bool :=
  if flags &&& scriptVerifyEvenS ≠ 0 then do
    let low ← vectorAt vchSig (6 + nLenR + nLenS - 1)
    return low &&& 1 = 0
  else return true

/-- `IsCanonicalSignature`, `src/script.cpp:392`. -/
def isCanonicalSignature (vchSig : Bytes) (flags : BitVec 32) : Access Bool := do
  if flags &&& scriptVerifyStrictenc = 0 then return true
  if vchSig.length < 9 then return false
  if 73 < vchSig.length then return false
  let last ← vectorAt vchSig (vchSig.length - 1)
  let nHashType := last &&& ~~~sighashAnyonecanpay
  if nHashType < sighashAll || sighashSingle < nHashType then return false
  checkLayout vchSig (checkEvenS vchSig flags)

/-- `IsValidSignatureEncoding` makes the same checks. -/
theorem isValidSignatureEncoding_eq (sig : Bytes) :
    isValidSignatureEncoding sig =
      if sig.length < 9 then .ok false
      else if 73 < sig.length then .ok false
      else checkLayout sig fun _ _ ↦ .ok true := by
  have hlast : ∀ x : Access Bool, (x >>= fun b ↦ if !b then .ok false else .ok true) = x := by
    intro x
    cases x with
    | error e => rfl
    | ok b => cases b <;> rfl
  unfold isValidSignatureEncoding checkLayout
  split
  · rfl
  · split
    · rfl
    · simp only [hlast, pure, Except.pure]

/-! ### Integers -/

/-- As few bytes as leave the high bit clear. -/
def minimalContent : Bytes → Bool
  | [] => false
  | [b] => b < 0x80
  | b :: c :: _ => b < 0x80 && !(b == 0 && c < 0x80)

theorem length_derContent (n : ℕ) : (derContent n).length = n.size / 8 + 1 := length_beBytes _ _

theorem beNat_derContent (n : ℕ) : beNat (derContent n) = n := by
  apply beNat_beBytes
  exact (Nat.lt_size_self n).trans_le (Nat.pow_le_pow_right (by omega) (by omega))

/-- A string is the content of a number when it is as long as the number asks for. -/
theorem eq_derContent_iff (bs : Bytes) :
    bs = derContent (beNat bs) ↔ bs.length = (beNat bs).size / 8 + 1 := by
  constructor
  · intro h
    rw [← length_derContent, ← h]
  · intro h
    rw [derContent, ← h, beBytes_beNat]

/-- A number asks for so many bytes when its high bit is in the first of them, or in the second where
the first would have it as its sign. -/
theorem succ_eq_size_iff (n k : ℕ) :
    k + 1 = n.size / 8 + 1 ↔ n < 2 ^ (8 * k + 7) ∧ (k = 0 ∨ 2 ^ (8 * k - 1) ≤ n) := by
  rw [← Nat.size_le, ← Nat.lt_size]
  omega

theorem minimalContent_iff (bs : Bytes) : minimalContent bs = true ↔ bs = derContent (beNat bs) := by
  rw [eq_derContent_iff]
  match bs with
  | [] => exact iff_of_false Bool.false_ne_true (Nat.succ_ne_zero _).symm
  | [b] =>
    have hvalue : beNat [b] = b.toNat := by
      change 0 * 2 ^ 8 + b.toNat = b.toNat
      omega
    rw [hvalue, List.length_singleton, succ_eq_size_iff _ 0, minimalContent, decide_eq_true_eq,
      UInt8.lt_iff_toNat_lt, and_iff_left (.inl rfl)]
    rfl
  | b :: c :: bs =>
    have hrest := beNat_lt bs
    have hpos := Nat.two_pow_pos (8 * bs.length)
    have hhigh : beNat (b :: c :: bs) / 2 ^ (8 * bs.length) = b.toNat * 256 + c.toNat := by
      have hpow : 2 ^ (8 * (bs.length + 1)) = 2 ^ (8 * bs.length) * 256 := Nat.pow_add 2 _ 8
      have hvalue : beNat (b :: c :: bs) =
          2 ^ (8 * bs.length) * (b.toNat * 256 + c.toNat) + beNat bs := by
        rw [beNat_cons, beNat_cons, List.length_cons, hpow]
        ring
      rw [hvalue, Nat.mul_add_div hpos, Nat.div_eq_of_lt hrest, Nat.add_zero]
    have hbelow : 2 ^ (8 * (bs.length + 1) + 7) = 32768 * 2 ^ (8 * bs.length) := by
      rw [Nat.mul_succ, Nat.add_assoc, Nat.pow_add, Nat.mul_comm]
    have habove : 2 ^ (8 * (bs.length + 1) - 1) = 128 * 2 ^ (8 * bs.length) := by
      rw [Nat.mul_succ, Nat.add_sub_assoc (by omega), Nat.pow_add, Nat.mul_comm]
    have hc := c.toNat_lt
    rw [List.length_cons, List.length_cons, succ_eq_size_iff, hbelow, habove,
      ← Nat.div_lt_iff_lt_mul hpos, ← Nat.le_div_iff_mul_le hpos, hhigh, minimalContent]
    simp only [Bool.and_eq_true, Bool.not_eq_true', Bool.and_eq_false_iff, decide_eq_true_eq,
      decide_eq_false_iff_not, beq_eq_false_iff_ne, UInt8.lt_iff_toNat_lt, ne_eq,
      ← UInt8.toNat_inj]
    change b.toNat < 128 ∧ (¬ b.toNat = 0 ∨ ¬ c.toNat < 128) ↔ _
    omega

/-! ### The layout -/

theorem vectorAt_append (pre : Bytes) (x : UInt8) (post : Bytes) :
    vectorAt (pre ++ x :: post) pre.length = .ok x := by
  rw [vectorAt, List.getElem?_append_right le_rfl, Nat.sub_self, List.getElem?_cons_zero]

theorem vectorAt_append_of_eq {pre : Bytes} {x : UInt8} {post bs : Bytes} {n : ℕ}
    (h : bs = pre ++ x :: post) (hn : pre.length = n) : vectorAt bs n = .ok x := by
  rw [h, ← hn, vectorAt_append]

theorem and_sign_ne_zero_iff (b : UInt8) : b &&& 0x80 ≠ 0 ↔ ¬ b < 0x80 := by
  rw [and_sign_ne_zero, UInt8.lt_iff_toNat_lt, Nat.not_lt]
  rfl

/-- The checks of an integer that stands behind other bytes. -/
theorem isValidInteger_append (pre : Bytes) (tag len : UInt8) (content post : Bytes) :
    isValidInteger (pre ++ tag :: len :: (content ++ post)) (pre.length + 2) content.length =
      .ok (tag == 0x02 && minimalContent content) := by
  have htag := vectorAt_append pre tag (len :: (content ++ post))
  rw [isValidInteger, Nat.add_sub_cancel, htag, Access.ok_bind]
  split
  case isTrue hne => rw [beq_eq_false_iff_ne.mpr hne]; rfl
  case isFalse heq =>
    rw [not_not.mp heq]
    match content with
    | [] => rfl
    | b :: content =>
      have hfirst : vectorAt (pre ++ 0x02 :: len :: (b :: content ++ post)) (pre.length + 2) =
          .ok b := by
        have hshape : pre ++ 0x02 :: len :: (b :: content ++ post) =
            (pre ++ [0x02, len]) ++ b :: (content ++ post) := by
          rw [List.append_assoc]
          rfl
        exact vectorAt_append_of_eq hshape (by rw [List.length_append]; rfl)
      have hne : ¬ (b :: content).length = 0 := Nat.succ_ne_zero _
      rw [if_neg hne, hfirst, Access.ok_bind]
      simp only [and_sign_ne_zero_iff]
      match content with
      | [] =>
        rw [if_neg fun h : 1 < [b].length ∧ b = 0 ↦ absurd h.1 (lt_irrefl 1), minimalContent]
        by_cases hsign : b < 0x80
        · rw [if_neg (not_not.mpr hsign), decide_eq_true hsign]
          rfl
        · rw [if_pos hsign, decide_eq_false hsign]
          rfl
      | c :: content =>
        have hsecond : vectorAt (pre ++ 0x02 :: len :: (b :: c :: content ++ post))
            (pre.length + 2 + 1) = .ok c := by
          have hshape : pre ++ 0x02 :: len :: (b :: c :: content ++ post) =
              (pre ++ [0x02, len, b]) ++ c :: (content ++ post) := by
            rw [List.append_assoc]
            rfl
          exact vectorAt_append_of_eq hshape (by rw [List.length_append]; rfl)
        have htwo : 1 < (b :: c :: content).length := Nat.succ_lt_succ (Nat.succ_pos _)
        rw [hsecond, Access.ok_bind, minimalContent]
        by_cases hsign : b < 0x80
        · rw [if_neg (not_not.mpr hsign), decide_eq_true hsign]
          by_cases hzero : b = 0
          · rw [if_pos ⟨htwo, hzero⟩, hzero, decide_not]
            rfl
          · rw [if_neg fun h ↦ hzero h.2, beq_eq_false_iff_ne.mpr hzero]
            rfl
        · rw [if_pos hsign, decide_eq_false hsign]
          rfl

/-- The bytes at their places: what is a tag, a length or a content only the checks tell. -/
def layout (compound size tagR : UInt8) (R : Bytes) (tagS : UInt8) (S : Bytes)
    (nHashType : UInt8) : Bytes :=
  compound :: size :: tagR :: UInt8.ofNat R.length ::
    (R ++ tagS :: UInt8.ofNat S.length :: (S ++ [nHashType]))

section Layout

variable {compound size tagR tagS nHashType : UInt8} {R S sig : Bytes} {next : ℕ → ℕ → Access Bool}

theorem length_layout :
    (layout compound size tagR R tagS S nHashType).length = R.length + S.length + 7 := by
  simp only [layout, List.length_cons, List.length_append, List.length_nil]
  omega

/-- What is checked of bytes at their places. -/
theorem checkLayout_layout (hR : R.length < 256) (hS : S.length < 256) :
    checkLayout (layout compound size tagR R tagS S nHashType) next =
      if compound = 0x30 ∧ size.toNat = R.length + S.length + 4 ∧
          (tagR == 0x02 && minimalContent R) = true ∧
          (tagS == 0x02 && minimalContent S) = true then
        next R.length S.length
      else .ok false := by
  have hlenR : (UInt8.ofNat R.length).toNat = R.length := UInt8.toNat_ofNat_of_lt hR
  have hlenS : (UInt8.ofNat S.length).toNat = S.length := UInt8.toNat_ofNat_of_lt hS
  generalize hsig : layout compound size tagR R tagS S nHashType = sig
  have hlength : sig.length = R.length + S.length + 7 := by rw [← hsig, length_layout]
  have hcompound : vectorAt sig 0 = .ok compound := by rw [← hsig]; rfl
  have hsize : vectorAt sig 1 = .ok size := by rw [← hsig]; rfl
  have hthird : vectorAt sig 3 = .ok (UInt8.ofNat R.length) := by rw [← hsig]; rfl
  have hfifth : vectorAt sig (5 + R.length) = .ok (UInt8.ofNat S.length) := by
    have hshape : sig = (compound :: size :: tagR :: UInt8.ofNat R.length :: (R ++ [tagS])) ++
        UInt8.ofNat S.length :: (S ++ [nHashType]) := by
      rw [← hsig, layout]
      simp only [List.cons_append, List.append_assoc, List.nil_append]
    apply vectorAt_append_of_eq hshape
    simp only [List.length_cons, List.length_append, List.length_nil]
    omega
  have hintR : isValidInteger sig 4 R.length = .ok (tagR == 0x02 && minimalContent R) := by
    rw [← hsig]
    exact isValidInteger_append [compound, size] tagR _ R _
  have hintS : isValidInteger sig (R.length + 6) S.length =
      .ok (tagS == 0x02 && minimalContent S) := by
    rw [← hsig]
    exact isValidInteger_append (compound :: size :: tagR :: UInt8.ofNat R.length :: R) tagS _ S
      [nHashType]
  rw [checkLayout, hcompound, hsize, hthird]
  simp only [Access.ok_bind]
  rw [hlenR, hfifth, hintR]
  simp only [Access.ok_bind]
  rw [hlenS, hintS]
  generalize (tagR == 0x02 && minimalContent R) = okR
  generalize (tagS == 0x02 && minimalContent S) = okS
  by_cases hfirst : compound = 0x30 ∧ size.toNat = R.length + S.length + 4
  · rw [if_neg (not_not.mpr hfirst.1), if_neg (by omega), if_neg (by omega), if_neg (by omega)]
    cases okR with
    | false => exact (if_neg fun h ↦ Bool.false_ne_true h.2.2.1).symm
    | true =>
      cases okS with
      | false => exact (if_neg fun h ↦ Bool.false_ne_true h.2.2.2).symm
      | true => exact (if_pos ⟨hfirst.1, hfirst.2, rfl, rfl⟩).symm
  · have hbad : (if compound = 0x30 ∧ size.toNat = R.length + S.length + 4 ∧ okR = true ∧
        okS = true then next R.length S.length else .ok false) = .ok false :=
      if_neg fun h ↦ hfirst ⟨h.1, h.2.1⟩
    rw [hbad]
    by_cases hcompound : compound = 0x30
    · have hsize : ¬ size.toNat = R.length + S.length + 4 := fun h ↦ hfirst ⟨hcompound, h⟩
      rw [if_neg (not_not.mpr hcompound), if_pos (by omega)]
      rfl
    · rw [if_pos hcompound]
      rfl

/-- Bytes with the lengths that are written in them have their places. -/
theorem exists_layout {compound size tagR lenR lenS : UInt8} {rest : Bytes}
    (hlenS : rest[lenR.toNat + 1]? = some lenS)
    (hlength : lenR.toNat + lenS.toNat + 3 = rest.length) :
    ∃ R tagS S nHashType, R.length < 256 ∧ S.length < 256 ∧
      compound :: size :: tagR :: lenR :: rest = layout compound size tagR R tagS S nHashType := by
  have hR := lenR.toNat_lt
  have hS := lenS.toNat_lt
  have hlenR : (rest.take lenR.toNat).length = lenR.toNat := by
    rw [List.length_take]
    omega
  have htagS : lenR.toNat < rest.length := by omega
  have hpos : lenR.toNat + 1 < rest.length := by omega
  rw [List.getElem?_eq_getElem hpos, Option.some.injEq] at hlenS
  have hrest : rest.drop lenR.toNat = rest[lenR.toNat] :: lenS :: rest.drop (lenR.toNat + 2) := by
    rw [List.drop_eq_getElem_cons htagS, List.drop_eq_getElem_cons hpos, hlenS]
  have hend : (rest.drop (lenR.toNat + 2)).length = lenS.toNat + 1 := by
    rw [List.length_drop]
    omega
  obtain hnil | ⟨S, nHashType, hconcat⟩ := List.eq_nil_or_concat (rest.drop (lenR.toNat + 2))
  · rw [hnil] at hend
    cases hend
  · rw [hconcat, List.concat_eq_append, List.length_append, List.length_singleton] at hend
    have hlen : S.length = lenS.toNat := Nat.succ.inj hend
    refine ⟨rest.take lenR.toNat, rest[lenR.toNat], S, nHashType, by omega, by omega, ?_⟩
    rw [layout, hlenR, hlen, UInt8.ofNat_toNat, UInt8.ofNat_toNat, ← List.concat_eq_append,
      ← hconcat, ← hrest, List.take_append_drop]

/-- Where the lengths do not fit together the checks fail. -/
theorem checkLayout_eq_false_or (hlong : 9 ≤ sig.length) (next : ℕ → ℕ → Access Bool) :
    checkLayout sig next = .ok false ∨
      ∃ compound size tagR R tagS S nHashType, R.length < 256 ∧ S.length < 256 ∧
        sig = layout compound size tagR R tagS S nHashType := by
  match sig with
  | compound :: size :: tagR :: lenR :: rest =>
    have hcompound : vectorAt (compound :: size :: tagR :: lenR :: rest) 0 = .ok compound := rfl
    have hsize : vectorAt (compound :: size :: tagR :: lenR :: rest) 1 = .ok size := rfl
    have hlenR : vectorAt (compound :: size :: tagR :: lenR :: rest) 3 = .ok lenR := rfl
    have hlength : (compound :: size :: tagR :: lenR :: rest).length = rest.length + 4 := rfl
    rw [checkLayout, hcompound, hsize, hlenR]
    simp only [Access.ok_bind]
    split
    case isTrue => exact .inl rfl
    case isFalse =>
      split
      case isTrue => exact .inl rfl
      case isFalse =>
        split
        case isTrue => exact .inl rfl
        case isFalse hroom =>
          have hpos : lenR.toNat + 1 < rest.length := by omega
          have hlenS : vectorAt (compound :: size :: tagR :: lenR :: rest) (5 + lenR.toNat) =
              .ok rest[lenR.toNat + 1] := by
            rw [vectorAt, show 5 + lenR.toNat = lenR.toNat + 1 + 1 + 1 + 1 + 1 by omega,
              List.getElem?_cons_succ, List.getElem?_cons_succ, List.getElem?_cons_succ,
              List.getElem?_cons_succ, List.getElem?_eq_getElem hpos]
          rw [hlenS, Access.ok_bind]
          split
          case isTrue => exact .inl rfl
          case isFalse hsum =>
            right
            obtain ⟨R, tagS, S, nHashType, hR, hS, hsig⟩ := @exists_layout compound size tagR lenR _
              rest (List.getElem?_eq_getElem hpos) (by omega)
            exact ⟨compound, size, tagR, R, tagS, S, nHashType, hR, hS, hsig⟩

/-- The checks fail, or the bytes are two integers in strict DER with one byte more. -/
theorem checkLayout_cases (hlong : 9 ≤ sig.length) (next : ℕ → ℕ → Access Bool) :
    checkLayout sig next = .ok false ∨ ∃ r s nHashType, sig = derSignature r s ++ [nHashType] := by
  obtain hfalse | ⟨compound, size, tagR, R, tagS, S, nHashType, hR, hS, rfl⟩ :=
    checkLayout_eq_false_or hlong next
  · exact .inl hfalse
  · rw [checkLayout_layout hR hS]
    split
    case isFalse => exact .inl rfl
    case isTrue h =>
      right
      obtain ⟨rfl, hsize, hR, hS⟩ := h
      rw [Bool.and_eq_true, beq_iff_eq, minimalContent_iff] at hR hS
      refine ⟨beNat R, beNat S, nHashType, ?_⟩
      have hlength : (derElement 0x02 R ++ derElement 0x02 S).length = size.toNat := by
        rw [hsize]
        simp only [derElement, List.length_append, List.length_cons]
        omega
      rw [derSignature, ← hR.2, ← hS.2, derElement, hlength, UInt8.ofNat_toNat, layout, hR.1, hS.1]
      simp only [derElement, List.cons_append, List.append_assoc]

theorem derSignature_eq_layout (r s : ℕ) (nHashType : UInt8) :
    derSignature r s ++ [nHashType] =
      layout 0x30 (UInt8.ofNat ((derContent r).length + (derContent s).length + 4)) 0x02
        (derContent r) 0x02 (derContent s) nHashType := by
  have hlength : (derElement 0x02 (derContent r) ++ derElement 0x02 (derContent s)).length =
      (derContent r).length + (derContent s).length + 4 := by
    simp only [derElement, List.length_append, List.length_cons]
    omega
  rw [derSignature, derElement, hlength, layout]
  simp only [derElement, List.cons_append, List.append_assoc]

/-- On two integers in strict DER the checks go on. -/
theorem checkLayout_derSignature {r s : ℕ}
    (hshort : (derSignature r s ++ [nHashType]).length ≤ 73) (next : ℕ → ℕ → Access Bool) :
    checkLayout (derSignature r s ++ [nHashType]) next =
      next (derContent r).length (derContent s).length := by
  have hminimal : ∀ n, minimalContent (derContent n) = true := by
    intro n
    rw [minimalContent_iff, beNat_derContent]
  rw [derSignature_eq_layout, length_layout] at hshort
  have hsize : (UInt8.ofNat ((derContent r).length + (derContent s).length + 4)).toNat =
      (derContent r).length + (derContent s).length + 4 := UInt8.toNat_ofNat_of_lt (show _ < 256 by omega)
  rw [derSignature_eq_layout, checkLayout_layout (by omega) (by omega), hminimal, hminimal]
  exact if_pos ⟨rfl, hsize, rfl, rfl⟩

/-- The checks accept the integers in strict DER that what follows them accepts. -/
theorem checkLayout_iff (hlong : 9 ≤ sig.length) (hshort : sig.length ≤ 73)
    {accepts : ℕ → ℕ → Prop}
    (hnext : ∀ r s nHashType, sig = derSignature r s ++ [nHashType] →
      ∃ b, next (derContent r).length (derContent s).length = .ok b ∧ (b = true ↔ accepts r s)) :
    (∃ b, checkLayout sig next = .ok b) ∧
      (checkLayout sig next = .ok true ↔
        ∃ r s nHashType, EncodesSignature sig r s nHashType ∧ accepts r s) := by
  have hrun : ∀ r s nHashType, sig = derSignature r s ++ [nHashType] →
      ∃ b, checkLayout sig next = .ok b ∧ (b = true ↔ accepts r s) := by
    intro r s nHashType hsig
    obtain ⟨b, hb, haccepts⟩ := hnext r s nHashType hsig
    refine ⟨b, ?_, haccepts⟩
    rw [hsig] at hshort ⊢
    rw [checkLayout_derSignature hshort, hb]
  have hback : (∃ r s nHashType, EncodesSignature sig r s nHashType ∧ accepts r s) →
      checkLayout sig next = .ok true := by
    rintro ⟨r, s, nHashType, hsig, haccepts⟩
    obtain ⟨b, hb, hiff⟩ := hrun r s nHashType hsig.1
    rw [hb, hiff.mpr haccepts]
  obtain hfalse | ⟨r, s, nHashType, hsig⟩ := checkLayout_cases hlong next
  · refine ⟨⟨false, hfalse⟩, fun h ↦ ?_, hback⟩
    rw [hfalse] at h
    cases h
  · obtain ⟨b, hb, hiff⟩ := hrun r s nHashType hsig
    refine ⟨⟨b, hb⟩, fun h ↦ ?_, hback⟩
    rw [hb, Except.ok.injEq] at h
    exact ⟨r, s, nHashType, ⟨hsig, hlong, hshort⟩, hiff.mp h⟩

end Layout

/-! ### What is accepted -/

/-- The bounds of the size are part of the encoding. -/
theorem checkBounds_iff {sig : Bytes} {run : Access Bool} {accepts : ℕ → ℕ → UInt8 → Prop}
    (hrun : 9 ≤ sig.length → sig.length ≤ 73 → (∃ b, run = .ok b) ∧
      (run = .ok true ↔
        ∃ r s nHashType, EncodesSignature sig r s nHashType ∧ accepts r s nHashType)) :
    (∃ b, (if sig.length < 9 then .ok false else if 73 < sig.length then .ok false else run :
        Access Bool) = .ok b) ∧
      ((if sig.length < 9 then .ok false else if 73 < sig.length then .ok false else run :
        Access Bool) = .ok true ↔
        ∃ r s nHashType, EncodesSignature sig r s nHashType ∧ accepts r s nHashType) := by
  by_cases hlow : sig.length < 9
  · rw [if_pos hlow]
    refine ⟨⟨false, rfl⟩, iff_of_false (fun h ↦ by cases h) ?_⟩
    rintro ⟨r, s, nHashType, ⟨-, hlong, -⟩, -⟩
    omega
  · rw [if_neg hlow]
    by_cases hhigh : 73 < sig.length
    · rw [if_pos hhigh]
      refine ⟨⟨false, rfl⟩, iff_of_false (fun h ↦ by cases h) ?_⟩
      rintro ⟨r, s, nHashType, ⟨-, -, hshort⟩, -⟩
      omega
    · rw [if_neg hhigh]
      exact hrun (Nat.le_of_not_lt hlow) (Nat.le_of_not_lt hhigh)

/-- `IsValidSignatureEncoding` reads no byte outside the string, and accepts two integers in strict
DER with a hash type. -/
theorem isValidSignatureEncoding_iff (sig : Bytes) :
    (∃ b, isValidSignatureEncoding sig = .ok b) ∧
      (isValidSignatureEncoding sig = .ok true ↔
        ∃ r s nHashType, EncodesSignature sig r s nHashType) := by
  have h := @checkBounds_iff sig _ (fun _ _ _ ↦ True) fun hlong hshort ↦
    @checkLayout_iff sig (fun _ _ ↦ .ok true) hlong hshort (fun _ _ ↦ True)
      fun r s nHashType _ ↦ ⟨true, rfl, iff_of_true rfl trivial⟩
  rw [isValidSignatureEncoding_eq]
  simpa only [and_true] using h

/-- The low byte of a content tells whether the number is even. -/
theorem derContent_eq_concat (n : ℕ) :
    derContent n = beBytes (n.size / 8) (n / 256) ++ [UInt8.ofNat (n % 256)] := by
  rw [derContent, beBytes, Pieces.pieces, List.map_append]
  rfl

theorem low_bit_iff (n : ℕ) : UInt8.ofNat (n % 256) &&& 1 = 0 ↔ n % 2 = 0 := by
  have hlow : (UInt8.ofNat (n % 256)).toNat = n % 256 :=
    UInt8.toNat_ofNat_of_lt (Nat.mod_lt n (by decide))
  rw [← UInt8.toNat_inj, UInt8.toNat_and, hlow]
  change n % 256 &&& 1 = 0 ↔ _
  rw [Nat.and_one_is_mod]
  omega

/-- The last test of `IsCanonicalSignature` reads the low byte of the second integer. -/
theorem vectorAt_low (r s : ℕ) (nHashType : UInt8) :
    vectorAt (derSignature r s ++ [nHashType])
      (6 + (derContent r).length + (derContent s).length - 1) = .ok (UInt8.ofNat (s % 256)) := by
  have hlength : (derContent s).length = (beBytes (s.size / 8) (s / 256)).length + 1 := by
    rw [length_derContent, length_beBytes]
  rw [derSignature_eq_layout, layout, hlength, derContent_eq_concat s]
  generalize UInt8.ofNat (_ + _ + 4) = size
  generalize UInt8.ofNat (List.length _ + 1) = lenS
  generalize beBytes (s.size / 8) (s / 256) = high
  have hshape : 0x30 :: size :: 0x02 :: UInt8.ofNat (derContent r).length ::
      (derContent r ++ 0x02 :: lenS :: (high ++ [UInt8.ofNat (s % 256)] ++ [nHashType])) =
      (0x30 :: size :: 0x02 :: UInt8.ofNat (derContent r).length ::
        (derContent r ++ 0x02 :: lenS :: high)) ++ UInt8.ofNat (s % 256) :: [nHashType] := by
    simp only [List.cons_append, List.append_assoc, List.nil_append]
  apply vectorAt_append_of_eq hshape
  simp only [List.length_cons, List.length_append]
  omega

theorem mem_hashTypeBytes_iff (b : UInt8) :
    b ∈ hashTypeBytes ↔ ¬ (b &&& ~~~sighashAnyonecanpay < sighashAll ∨
      sighashSingle < b &&& ~~~sighashAnyonecanpay) := by
  have hall : ∀ n < 256, UInt8.ofNat n ∈ hashTypeBytes ↔
      ¬ (UInt8.ofNat n &&& ~~~sighashAnyonecanpay < sighashAll ∨
        sighashSingle < UInt8.ofNat n &&& ~~~sighashAnyonecanpay) := by
    decide +kernel
  have h := hall b.toNat b.toNat_lt
  rwa [UInt8.ofNat_toNat] at h

theorem checkEvenS_derSignature (flags : BitVec 32) (r s : ℕ) (nHashType : UInt8) :
    ∃ b, checkEvenS (derSignature r s ++ [nHashType]) flags (derContent r).length
        (derContent s).length = .ok b ∧
      (b = true ↔ (flags &&& scriptVerifyEvenS ≠ 0 → s % 2 = 0)) := by
  rw [checkEvenS, vectorAt_low, Access.ok_bind]
  split
  case isTrue heven =>
    refine ⟨_, rfl, ?_⟩
    rw [decide_eq_true_eq, low_bit_iff]
    exact ⟨fun h _ ↦ h, fun h ↦ h heven⟩
  case isFalse hany => exact ⟨true, rfl, iff_of_true rfl fun heven ↦ absurd heven hany⟩

/-- `IsCanonicalSignature` reads no byte outside the string. Under the flag for strict encodings it
accepts two integers in strict DER with a hash type that is defined, and with a second integer that
is even where the flag for this is set. -/
theorem isCanonicalSignature_iff (sig : Bytes) (flags : BitVec 32) :
    (∃ b, isCanonicalSignature sig flags = .ok b) ∧
      (isCanonicalSignature sig flags = .ok true ↔
        flags &&& scriptVerifyStrictenc = 0 ∨
          ∃ r s nHashType, EncodesSignature sig r s nHashType ∧ nHashType ∈ hashTypeBytes ∧
            (flags &&& scriptVerifyEvenS ≠ 0 → s % 2 = 0)) := by
  rw [isCanonicalSignature]
  by_cases hstrict : flags &&& scriptVerifyStrictenc = 0
  · rw [if_pos hstrict]
    exact ⟨⟨true, rfl⟩, iff_of_true rfl (.inl hstrict)⟩
  · rw [if_neg hstrict, or_iff_right hstrict]
    apply checkBounds_iff
    intro hlong hshort
    obtain rfl | ⟨sig', last, rfl⟩ := List.eq_nil_or_concat sig
    · cases hlong
    rw [List.concat_eq_append] at hlong hshort ⊢
    have hlast : vectorAt (sig' ++ [last]) ((sig' ++ [last]).length - 1) = .ok last :=
      vectorAt_append_of_eq rfl (by rw [List.length_append]; rfl)
    have htype : ∀ r s nHashType, EncodesSignature (sig' ++ [last]) r s nHashType →
        nHashType = last := by
      intro r s nHashType h
      exact (List.singleton_injective (List.append_inj_right' h.1 rfl)).symm
    have hdefined := mem_hashTypeBytes_iff last
    rw [hlast, Access.ok_bind]
    dsimp only
    split
    case isTrue hbad =>
      rw [Bool.or_eq_true, decide_eq_true_eq, decide_eq_true_eq] at hbad
      refine ⟨⟨false, rfl⟩, iff_of_false (fun h ↦ by cases h) ?_⟩
      rintro ⟨r, s, nHashType, henc, hmem, -⟩
      rw [htype r s nHashType henc] at hmem
      exact hdefined.mp hmem hbad
    case isFalse hgood =>
      rw [Bool.or_eq_true, decide_eq_true_eq, decide_eq_true_eq] at hgood
      have hlayout := @checkLayout_iff (sig' ++ [last]) (checkEvenS (sig' ++ [last]) flags) hlong
        hshort (fun _ s ↦ flags &&& scriptVerifyEvenS ≠ 0 → s % 2 = 0) fun r s nHashType hsig ↦
          hsig ▸ checkEvenS_derSignature flags r s nHashType
      refine ⟨hlayout.1, hlayout.2.trans ?_⟩
      constructor
      · rintro ⟨r, s, nHashType, henc, heven⟩
        refine ⟨r, s, nHashType, henc, ?_, heven⟩
        rw [htype r s nHashType henc]
        exact hdefined.mpr hgood
      · rintro ⟨r, s, nHashType, henc, -, heven⟩
        exact ⟨r, s, nHashType, henc, heven⟩

/-! ### The encoding -/

theorem length_derSignature (r s : ℕ) :
    (derSignature r s).length = (derContent r).length + (derContent s).length + 6 := by
  simp only [derSignature, derElement, List.length_cons, List.length_append]
  omega

theorem length_derElement (tag : UInt8) (content : Bytes) :
    (derElement tag content).length = content.length + 2 := rfl

theorem derContent_injective : Function.Injective derContent := by
  intro n m h
  rw [← beNat_derContent n, h, beNat_derContent]

theorem derElement_append_inj {tag : UInt8} {content content' rest rest' : Bytes}
    (hlen : content.length < 256) (hlen' : content'.length < 256)
    (h : derElement tag content ++ rest = derElement tag content' ++ rest') :
    content = content' ∧ rest = rest' := by
  simp only [derElement, List.cons_append, List.cons.injEq, true_and] at h
  have hbyte : (UInt8.ofNat content.length).toNat = content.length := UInt8.toNat_ofNat_of_lt hlen
  have hbyte' : (UInt8.ofNat content'.length).toNat = content'.length :=
    UInt8.toNat_ofNat_of_lt hlen'
  have hlength : content.length = content'.length := by rw [← hbyte, h.1, hbyte']
  exact List.append_inj h.2 hlength

/-- A string encodes one pair of numbers at most. -/
theorem EncodesSignature.unique {sig : Bytes} {r s r' s' : ℕ} {nHashType nHashType' : UInt8}
    (h : EncodesSignature sig r s nHashType) (h' : EncodesSignature sig r' s' nHashType') :
    r = r' ∧ s = s' ∧ nHashType = nHashType' := by
  obtain ⟨hsig, -, hshort⟩ := h
  obtain ⟨hsig', -, -⟩ := h'
  have hlengthSig' := hsig' ▸ hshort
  rw [hsig, List.length_append, length_derSignature, List.length_singleton] at hshort
  rw [List.length_append, length_derSignature, List.length_singleton] at hlengthSig'
  obtain ⟨hder, htype⟩ := List.append_inj' (hsig.symm.trans hsig') rfl
  have hbody := (List.cons.inj (List.cons.inj hder).2).2
  obtain ⟨hR, hrest⟩ := derElement_append_inj (by omega) (by omega) hbody
  rw [← List.append_nil (derElement _ _), ← List.append_nil (derElement _ (derContent s'))] at hrest
  obtain ⟨hS, -⟩ := derElement_append_inj (by omega) (by omega) hrest
  exact ⟨derContent_injective hR, derContent_injective hS, List.singleton_injective htype⟩

/-- Numbers of 32 bytes have an encoding. -/
theorem encodesSignature_of_lt {r s : ℕ} (hr : r < 2 ^ 256) (hs : s < 2 ^ 256) (nHashType : UInt8) :
    EncodesSignature (derSignature r s ++ [nHashType]) r s nHashType := by
  have hlength : ∀ n < 2 ^ 256, (derContent n).length ≤ 33 := by
    intro n hn
    rw [length_derContent]
    have hsize := Nat.size_le.mpr hn
    omega
  have hlenR := hlength r hr
  have hlenS := hlength s hs
  have hpos : ∀ n, 0 < (derContent n).length := by
    intro n
    rw [length_derContent]
    exact Nat.succ_pos _
  have hposR := hpos r
  have hposS := hpos s
  refine ⟨rfl, ?_, ?_⟩
  · rw [List.length_append, length_derSignature, List.length_singleton]
    omega
  · rw [List.length_append, length_derSignature, List.length_singleton]
    omega

end Bitmark
