import Mathlib.Data.List.GetD
import Bitmark.Base.Codec
import Bitmark.Base.VarInt
import Bitmark.Primitives.Transaction
import Bitmark.Script.Script

/-!
# Compressed outputs

`CTxOutCompressor` (`src/core.h:634`, `src/core.cpp:187–245`) writes an amount without its
trailing zeros and `CScriptCompressor` (`src/script.h:747`, `src/script.cpp:2188–2307`) writes
six kinds of scripts by the hash or key they pay to.
-/

namespace Bitmark

open Codec

/-! ### Amounts -/

/-- The loop of `CompressAmount` that drops trailing zeros, at most `k` more of nine: what is left
of the number and how many were dropped. -/
def stripZeros (n : Nat) : Nat → Nat × Nat
  | 0 => (n, 9)
  | k + 1 => if n % 10 = 0 then stripZeros (n / 10) k else (n, 9 - (k + 1))

/-- `CTxOutCompressor::CompressAmount`, `src/core.cpp:198`. -/
def compressAmount (n : Nat) : Nat :=
  if n = 0 then 0
  else
    let (n, e) := stripZeros n 9
    if e < 9 then (1 + (n / 10 * 9 + n % 10 - 1) * 10 + e) % 2 ^ 64
    else (1 + (n - 1) * 10 + 9) % 2 ^ 64

/-- `CTxOutCompressor::DecompressAmount`, `src/core.cpp:218`. -/
def decompressAmount (x : Nat) : Nat :=
  if x = 0 then 0
  else
    let x := x - 1
    let e := x % 10
    let x := x / 10
    let n := if e < 9 then x / 9 * 10 + (x % 9 + 1) else x + 1
    n * 10 ^ e % 2 ^ 64

private theorem stripZeros_spec {n m e k : Nat} (hk : k ≤ 9) (h : stripZeros n k = (m, e)) :
    n = m * 10 ^ (e + k - 9) ∧ e ≤ 9 ∧ 9 ≤ e + k ∧ (e < 9 → m % 10 ≠ 0) := by
  induction k generalizing n with
  | zero =>
    obtain ⟨rfl, rfl⟩ := Prod.mk.inj h
    simp
  | succ k ih =>
    rw [stripZeros] at h
    split at h
    · next hzero =>
      obtain ⟨hn, he, hek, hm⟩ := ih (by omega) h
      refine ⟨?_, he, by omega, hm⟩
      rw [show e + (k + 1) - 9 = e + k - 9 + 1 by omega, pow_succ, ← mul_assoc, ← hn]
      omega
    · next hdigit =>
      obtain ⟨rfl, rfl⟩ := Prod.mk.inj h
      refine ⟨?_, by omega, by omega, fun _ ↦ hdigit⟩
      rw [show 9 - (k + 1) + (k + 1) - 9 = 0 by omega, pow_zero, mul_one]

/-- What `CompressAmount` computes where no word is exceeded. No step of it comes to more than the
result. -/
def compressedAmount (n : Nat) : Nat :=
  if n = 0 then 0
  else
    let (n, e) := stripZeros n 9
    if e < 9 then 1 + (n / 10 * 9 + n % 10 - 1) * 10 + e else 1 + (n - 1) * 10 + 9

/-- What `DecompressAmount` computes where no word is exceeded. Every step of its loop makes the
number larger, so none of them exceeds the word if the last does not. -/
def decompressedAmount (x : Nat) : Nat :=
  if x = 0 then 0
  else (if (x - 1) % 10 < 9 then (x - 1) / 10 / 9 * 10 + ((x - 1) / 10 % 9 + 1)
    else (x - 1) / 10 + 1) * 10 ^ ((x - 1) % 10)

theorem compressAmount_eq (n : Nat) : compressAmount n = compressedAmount n % 2 ^ 64 := by
  unfold compressAmount compressedAmount
  split
  · rfl
  · dsimp only
    split <;> rfl

theorem decompressAmount_eq (x : Nat) : decompressAmount x = decompressedAmount x % 2 ^ 64 := by
  unfold decompressAmount decompressedAmount
  split
  · rfl
  · rfl

private theorem stripZeros_mul_pow {m e k : Nat} (he : e ≤ k) (hk : k ≤ 9)
    (hm : e < k → m % 10 ≠ 0) : stripZeros (m * 10 ^ e) k = (m, 9 - k + e) := by
  induction k generalizing e with
  | zero =>
    obtain rfl : e = 0 := by omega
    simp [stripZeros]
  | succ k ih =>
    cases e with
    | zero =>
      rw [pow_zero, mul_one, stripZeros, if_neg (hm (by omega))]
      rfl
    | succ e =>
      have hzero : m * 10 ^ (e + 1) % 10 = 0 := by
        rw [pow_succ, ← mul_assoc, Nat.mul_mod_left]
      have htail : m * 10 ^ (e + 1) / 10 = m * 10 ^ e := by
        rw [pow_succ, ← mul_assoc, Nat.mul_div_cancel _ (by decide)]
      rw [stripZeros, if_pos hzero, htail, ih (by omega) (by omega) fun h ↦ hm (by omega)]
      congr 1
      omega

/-- The mixed-radix number stands for one digit, mantissa and exponent only. -/
theorem compressedAmount_decompressedAmount (x : Nat) :
    compressedAmount (decompressedAmount x) = x := by
  unfold decompressedAmount
  split
  · next hzero => rw [hzero, compressedAmount, if_pos rfl]
  next hpos =>
  have hexp : (x - 1) % 10 < 10 := Nat.mod_lt _ (by decide)
  generalize hm : (if (x - 1) % 10 < 9 then (x - 1) / 10 / 9 * 10 + ((x - 1) / 10 % 9 + 1)
    else (x - 1) / 10 + 1) = m
  have hmpos : 0 < m := by
    split at hm <;> omega
  have hdigit : (x - 1) % 10 < 9 → m % 10 ≠ 0 := by
    intro h
    rw [if_pos h] at hm
    omega
  have hstrip := stripZeros_mul_pow (Nat.lt_succ_iff.mp hexp) le_rfl hdigit
  have hne : m * 10 ^ ((x - 1) % 10) ≠ 0 := (Nat.mul_pos hmpos (by positivity)).ne'
  rw [compressedAmount, if_neg hne, hstrip]
  dsimp only
  split
  · next h =>
    rw [if_pos (by omega)] at hm
    omega
  · next h =>
    rw [if_neg (by omega)] at hm
    omega

/-- The digit, the mantissa and the exponent are read back from the mixed-radix number. -/
theorem decompressedAmount_compressedAmount (n : Nat) :
    decompressedAmount (compressedAmount n) = n := by
  unfold compressedAmount
  split
  · next hzero => rw [hzero, decompressedAmount, if_pos rfl]
  next hpos =>
  cases hstrip : stripZeros n 9 with
  | mk m e =>
  obtain ⟨hn, he, -, hm⟩ := stripZeros_spec le_rfl hstrip
  rw [Nat.add_sub_cancel] at hn
  have hmpos : 0 < m := by
    rcases Nat.eq_zero_or_pos m with rfl | hm
    · omega
    · exact hm
  simp only [decompressedAmount]
  split
  · next hlt =>
    have hdigit := hm hlt
    have he' : (1 + (m / 10 * 9 + m % 10 - 1) * 10 + e - 1) % 10 = e := by omega
    have hx : (1 + (m / 10 * 9 + m % 10 - 1) * 10 + e - 1) / 10 = m / 10 * 9 + m % 10 - 1 := by omega
    have hm' : (m / 10 * 9 + m % 10 - 1) / 9 * 10 + ((m / 10 * 9 + m % 10 - 1) % 9 + 1) = m := by
      omega
    rw [if_neg (by omega), he', hx, if_pos hlt, hm', ← hn]
  · next hge =>
    obtain rfl : e = 9 := by omega
    have he' : (1 + (m - 1) * 10 + 9 - 1) % 10 = 9 := by omega
    have hx : (1 + (m - 1) * 10 + 9 - 1) / 10 = m - 1 := by omega
    rw [if_neg (by omega), he', hx, if_neg (by omega), show m - 1 + 1 = m by omega, ← hn]

/-- A compressed amount is at most ten times the amount. -/
theorem compressedAmount_le (n : Nat) : compressedAmount n ≤ n * 10 := by
  unfold compressedAmount
  split
  · exact Nat.zero_le _
  next hpos =>
  cases hstrip : stripZeros n 9 with
  | mk m e =>
  obtain ⟨hn, he, -, hm⟩ := stripZeros_spec le_rfl hstrip
  rw [Nat.add_sub_cancel] at hn
  have hmn : m ≤ n := by
    rw [hn]
    exact Nat.le_mul_of_pos_right m (by positivity)
  dsimp only
  split
  · next hlt =>
    have hdigit := hm hlt
    omega
  · next hge =>
    rcases Nat.eq_zero_or_pos m with rfl | hmpos
    · rw [Nat.zero_mul] at hn
      omega
    · omega

theorem compressAmount_eq_of_lt {n : Nat} (h : n * 10 < 2 ^ 64) :
    compressAmount n = compressedAmount n := by
  have hle := compressedAmount_le n
  rw [compressAmount_eq, Nat.mod_eq_of_lt (by omega)]

/-- A compressed amount that did not wrap around stands for the amount. -/
theorem decompressAmount_compressAmount {n : Nat} (h : n * 10 < 2 ^ 64) :
    decompressAmount (compressAmount n) = n := by
  rw [compressAmount_eq_of_lt h, decompressAmount_eq, decompressedAmount_compressedAmount,
    Nat.mod_eq_of_lt (by omega)]

/-- The other way round, the compressed amount comes back exactly if the amount did not wrap
around. -/
theorem compressAmount_decompressAmount_iff {x : Nat} (h : decompressAmount x * 10 < 2 ^ 64) :
    compressAmount (decompressAmount x) = x ↔ decompressedAmount x < 2 ^ 64 := by
  have hback := decompressedAmount_compressedAmount (decompressAmount x)
  rw [compressAmount_eq_of_lt h]
  constructor
  · intro hx
    rw [hx] at hback
    omega
  · intro hx
    rw [decompressAmount_eq, Nat.mod_eq_of_lt hx, compressedAmount_decompressedAmount]

/-- The computed decompression of `x` can lie in the range although its steps wrapped around. -/
theorem amountCompression_not_injective :
    ¬ ∀ x < 2 ^ 64, (decompressAmount x : Int) ≤ maxMoney → compressAmount (decompressAmount x) = x := by
  intro h
  exact absurd (h (10 * 2 ^ 55) (by decide) (by decide)) (by decide)

/-- Compression and decompression are inverse to each other, and neither wraps around, between the
amounts up to `MAX_MONEY` and the words that stand for such an amount. A word whose decompression
wraps around into the range does not come back. -/
theorem amountCompression_bijective :
    (∀ n : Nat, n ≤ maxMoney →
      compressAmount n = compressedAmount n ∧ decompressedAmount (compressAmount n) = n ∧
        decompressAmount (compressAmount n) = n) ∧
    (∀ x < 2 ^ 64, decompressedAmount x ≤ maxMoney →
      decompressAmount x = decompressedAmount x ∧
        compressedAmount (decompressAmount x) = x ∧ compressAmount (decompressAmount x) = x) ∧
    (∀ x < 2 ^ 64, decompressAmount x ≤ maxMoney →
      (compressAmount (decompressAmount x) = x ↔ decompressedAmount x ≤ maxMoney)) := by
  have hmax : maxMoney = 2800000000000000 := rfl
  refine ⟨fun n hn ↦ ?_, fun x _ hx ↦ ?_, fun x _ hx ↦ ?_⟩
  · have hword : n * 10 < 2 ^ 64 := by omega
    have hexact := compressAmount_eq_of_lt hword
    refine ⟨hexact, ?_, decompressAmount_compressAmount hword⟩
    rw [hexact, decompressedAmount_compressedAmount]
  · have hexact : decompressAmount x = decompressedAmount x := by
      rw [decompressAmount_eq, Nat.mod_eq_of_lt (by omega)]
    have hback : compressedAmount (decompressAmount x) = x := by
      rw [hexact, compressedAmount_decompressedAmount]
    refine ⟨hexact, hback, ?_⟩
    rw [compressAmount_eq_of_lt (by omega), hback]
  · rw [compressAmount_decompressAmount_iff (by omega)]
    constructor
    · intro hlt
      rwa [decompressAmount_eq, Nat.mod_eq_of_lt hlt] at hx
    · intro hle
      omega

theorem amountCompression_bijective_sample :
    compressAmount 5000000000 = compressedAmount 5000000000 ∧
      decompressAmount (compressAmount 5000000000) = 5000000000 ∧
      compressAmount (decompressAmount 50) = 50 ∧
      (compressAmount (decompressAmount 50) = 50 ↔ decompressedAmount 50 ≤ maxMoney) := by
  obtain ⟨hamounts, hwords, hiff⟩ := amountCompression_bijective
  obtain ⟨hexact, -, hback⟩ := hamounts 5000000000 (by decide)
  exact ⟨hexact, hback, (hwords 50 (by decide) (by decide)).2.2, hiff 50 (by decide) (by decide)⟩

/-- A compressed amount is a word. -/
theorem compressAmount_lt (n : Nat) : compressAmount n < 2 ^ 64 := by
  unfold compressAmount
  split
  · exact Nat.two_pow_pos 64
  · dsimp only
    split <;> exact Nat.mod_lt _ (Nat.two_pow_pos 64)

/-! ### Scripts -/

/-- The curve functions of the library the node links against. -/
structure PubKeyOps where
  /-- `CPubKey::IsFullyValid`, `src/key.cpp:721`. -/
  isFullyValid : Bytes → Bool
  /-- `CPubKey::Decompress`, `src/key.cpp:730`; `none` is a refusal. -/
  decompress : Bytes → Option Bytes

/-- A point on the curve is determined by its first coordinate and the parity of the second:
decompressing these two gives an uncompressed key back. -/
def PubKeyOps.Lawful (ec : PubKeyOps) : Prop :=
  ∀ x y : Bytes, x.length = 32 → y.length = 32 → ec.isFullyValid (0x04 :: (x ++ y)) = true →
    ec.decompress ((if y.getD 31 0 &&& 1 = 1 then 0x03 else 0x02) :: x) = some (0x04 :: (x ++ y))

/-- `CScriptCompressor::nSpecialScripts`, `src/script.h:754`. -/
def nSpecialScripts : Nat := 6

/-- `CScriptCompressor::IsToKeyID`, `src/script.cpp:2188`. -/
def isToKeyID (script : Bytes) : Option Bytes :=
  if script.length = 25 ∧ script[0]? = some opDup ∧ script[1]? = some opHash160 ∧
      script[2]? = some 20 ∧ script[23]? = some opEqualverify ∧ script[24]? = some opChecksig then
    some ((script.drop 3).take 20)
  else none

/-- `CScriptCompressor::IsToScriptID`, `src/script.cpp:2199`. -/
def isToScriptID (script : Bytes) : Option Bytes :=
  if script.length = 23 ∧ script[0]? = some opHash160 ∧ script[1]? = some 20 ∧
      script[22]? = some opEqual then
    some ((script.drop 2).take 20)
  else none

/-- `CScriptCompressor::IsToPubKey`, `src/script.cpp:2209`. -/
def isToPubKey (ec : PubKeyOps) (script : Bytes) : Option Bytes :=
  if script.length = 35 ∧ script[0]? = some 33 ∧ script[34]? = some opChecksig ∧
      (script[1]? = some 0x02 ∨ script[1]? = some 0x03) then
    some ((script.drop 1).take 33)
  else if script.length = 67 ∧ script[0]? = some 65 ∧ script[66]? = some opChecksig ∧
      script[1]? = some 0x04 then
    let pubkey := (script.drop 1).take 65
    if ec.isFullyValid pubkey then some pubkey else none
  else none

/-- `CScriptCompressor::Compress`, `src/script.cpp:2224`. -/
def compressScript (ec : PubKeyOps) (script : Bytes) : Option Bytes :=
  match isToKeyID script with
  | some keyID => some (0x00 :: keyID)
  | none =>
    match isToScriptID script with
    | some scriptID => some (0x01 :: scriptID)
    | none =>
      match isToPubKey ec script with
      | some pubkey =>
        let header := pubkey.getD 0 0
        if header = 0x02 ∨ header = 0x03 then some (header :: (pubkey.drop 1).take 32)
        else if header = 0x04 then
          some ((0x04 ||| (pubkey.getD 64 0 &&& 0x01)) :: (pubkey.drop 1).take 32)
        else none
      | none => none

/-- `CScriptCompressor::GetSpecialSize`, `src/script.cpp:2255`. -/
def getSpecialSize (nSize : Nat) : Nat :=
  if nSize = 0 ∨ nSize = 1 then 20
  else if nSize = 2 ∨ nSize = 3 ∨ nSize = 4 ∨ nSize = 5 then 32
  else 0

/-- `CScriptCompressor::Decompress`, `src/script.cpp:2264`; `none` leaves the script alone. -/
def decompressScript (ec : PubKeyOps) (nSize : Nat) (vch : Bytes) : Option Bytes :=
  match nSize with
  | 0 => some (opDup :: opHash160 :: 20 :: (vch ++ [opEqualverify, opChecksig]))
  | 1 => some (opHash160 :: 20 :: (vch ++ [opEqual]))
  | 2 | 3 => some (33 :: UInt8.ofNat nSize :: (vch ++ [opChecksig]))
  | 4 | 5 => do
    let pubkey ← ec.decompress (UInt8.ofNat (nSize - 2) :: vch)
    some (65 :: (pubkey ++ [opChecksig]))
  | _ => none

/-- `CScriptCompressor::Serialize`, `src/script.h:784`. -/
def serializeScript (ec : PubKeyOps) (script : Bytes) : Bytes :=
  match compressScript ec script with
  | some compr => compr
  | none => writeVarInt (toUint32 (script.length + nSpecialScripts)) ++ script

/-- `CScriptCompressor::GetSerializeSize`, `src/script.h:775`. -/
def scriptSerializeSize (ec : PubKeyOps) (script : Bytes) : Nat :=
  match compressScript ec script with
  | some compr => compr.length
  | none => script.length + getSizeOfVarInt (toUint32 (script.length + nSpecialScripts))

/-- `CScriptCompressor::Unserialize` into an empty script, `src/script.h:796`. -/
def unserializeScript (ec : PubKeyOps) : Stream Bytes := do
  let nSize ← readVarUint 32
  if nSize < nSpecialScripts then
    let vch ← readBytes (getSpecialSize nSize)
    pure ((decompressScript ec nSize vch).getD [])
  else readBytes (nSize - nSpecialScripts)

/-! ### Special scripts -/

/-- A list that ends in one given element. -/
private theorem eq_take_append_one {xs : Bytes} {n : Nat} {a : UInt8} (hlen : xs.length = n + 1)
    (ha : xs[n]? = some a) : xs = xs.take n ++ [a] := by
  conv_lhs => rw [← List.take_append_drop n xs]
  have hdrop : xs.drop n = [a] := by
    obtain ⟨hn, rfl⟩ := List.getElem?_eq_some_iff.mp ha
    rw [List.drop_eq_getElem_cons hn, List.drop_eq_nil_of_le (by omega)]
  rw [hdrop]

/-- A list that ends in two given elements. -/
private theorem eq_take_append_two {xs : Bytes} {n : Nat} {a b : UInt8} (hlen : xs.length = n + 2)
    (ha : xs[n]? = some a) (hb : xs[n + 1]? = some b) : xs = xs.take n ++ [a, b] := by
  have hinit : (xs.take (n + 1)) = xs.take n ++ [a] := by
    have hlen' : (xs.take (n + 1)).length = n + 1 := by
      rw [List.length_take]
      omega
    have ha' : (xs.take (n + 1))[n]? = some a := by
      rw [List.getElem?_take]
      simpa using ha
    have hone := eq_take_append_one hlen' ha'
    rwa [List.take_take, Nat.min_eq_left (Nat.le_succ n)] at hone
  conv_lhs => rw [eq_take_append_one hlen hb, hinit]
  rw [List.append_assoc]
  rfl

theorem isToKeyID_eq_some {script keyID : Bytes} (h : isToKeyID script = some keyID) :
    keyID.length = 20 ∧
      script = opDup :: opHash160 :: 20 :: (keyID ++ [opEqualverify, opChecksig]) := by
  unfold isToKeyID at h
  split at h
  · next hform =>
    obtain rfl := Option.some.inj h
    match script, hform with
    | a :: b :: c :: rest, hform =>
      simp only [List.length_cons, List.getElem?_cons_zero, List.getElem?_cons_succ,
        Option.some.injEq] at hform
      obtain ⟨hlen, rfl, rfl, rfl, hverify, hchecksig⟩ := hform
      refine ⟨by simp; omega, ?_⟩
      have hrest := eq_take_append_two (n := 20) (by omega) hverify hchecksig
      exact congrArg (fun r ↦ opDup :: opHash160 :: 20 :: r) hrest
  · cases h

theorem isToScriptID_eq_some {script scriptID : Bytes} (h : isToScriptID script = some scriptID) :
    scriptID.length = 20 ∧ script = opHash160 :: 20 :: (scriptID ++ [opEqual]) := by
  unfold isToScriptID at h
  split at h
  · next hform =>
    obtain rfl := Option.some.inj h
    match script, hform with
    | a :: b :: rest, hform =>
      simp only [List.length_cons, List.getElem?_cons_zero, List.getElem?_cons_succ,
        Option.some.injEq] at hform
      obtain ⟨hlen, rfl, rfl, hequal⟩ := hform
      refine ⟨by simp; omega, ?_⟩
      have hrest := eq_take_append_one (n := 20) (by omega) hequal
      exact congrArg (fun r ↦ opHash160 :: 20 :: r) hrest
  · cases h

/-- A key that a script pays to: a compressed one, or a valid uncompressed one. -/
theorem isToPubKey_eq_some {ec : PubKeyOps} {script pubkey : Bytes}
    (h : isToPubKey ec script = some pubkey) :
    (∃ header x, (header = 0x02 ∨ header = 0x03) ∧ x.length = 32 ∧ pubkey = header :: x ∧
        script = 33 :: header :: (x ++ [opChecksig])) ∨
      ∃ x y, x.length = 32 ∧ y.length = 32 ∧ pubkey = 0x04 :: (x ++ y) ∧
        ec.isFullyValid pubkey = true ∧ script = 65 :: (pubkey ++ [opChecksig]) := by
  unfold isToPubKey at h
  split at h
  · next hform =>
    obtain rfl := Option.some.inj h
    match script, hform with
    | a :: header :: rest, hform =>
      simp only [List.length_cons, List.getElem?_cons_zero, List.getElem?_cons_succ,
        Option.some.injEq] at hform
      obtain ⟨hlen, rfl, hchecksig, hheader⟩ := hform
      refine .inl ⟨header, rest.take 32, hheader, by simp; omega, rfl, ?_⟩
      have hrest := eq_take_append_one (n := 32) (by omega) hchecksig
      exact congrArg (fun r ↦ 33 :: header :: r) hrest
  · split at h
    · next hform =>
      simp only [Option.ite_none_right_eq_some, Option.some.injEq] at h
      obtain ⟨hvalid, rfl⟩ := h
      match script, hform with
      | a :: header :: rest, hform =>
        simp only [List.length_cons, List.getElem?_cons_zero, List.getElem?_cons_succ,
          Option.some.injEq] at hform
        obtain ⟨hlen, rfl, hchecksig, rfl⟩ := hform
        have hrest := eq_take_append_one (n := 64) (by omega) hchecksig
        have hsplit : rest.take 64 = rest.take 32 ++ (rest.take 64).drop 32 := by
          conv_lhs => rw [← List.take_append_drop 32 (rest.take 64), List.take_take]
          rfl
        refine .inr ⟨rest.take 32, (rest.take 64).drop 32, by simp; omega, by simp; omega, ?_,
          hvalid, ?_⟩
        · exact congrArg (fun r ↦ 0x04 :: r) hsplit
        · exact congrArg (fun r ↦ 65 :: 0x04 :: r) hrest
    · cases h

/-- The header of a compressed key form, from the parity of the second coordinate. -/
private theorem header_of_parity (b : UInt8) : 0x04 ||| (b &&& 0x01) =
    if b &&& 1 = 1 then 0x05 else 0x04 := by
  have hall : ∀ n : Fin 256, 0x04 ||| (UInt8.ofNat n &&& 0x01) =
      if UInt8.ofNat n &&& 1 = 1 then 0x05 else 0x04 := by decide +kernel
  simpa using hall ⟨b.toNat, b.toNat_lt⟩

/-- A compressed script is the number of its kind and what the kind leaves open, from which the
script comes back. -/
theorem compressScript_eq_some {ec : PubKeyOps} (hec : ec.Lawful) {script compr : Bytes}
    (h : compressScript ec script = some compr) :
    ∃ nSize vch, nSize < nSpecialScripts ∧ compr = UInt8.ofNat nSize :: vch ∧
      vch.length = getSpecialSize nSize ∧ decompressScript ec nSize vch = some script := by
  unfold compressScript at h
  split at h
  · next keyID hkey =>
    obtain ⟨hlen, rfl⟩ := isToKeyID_eq_some hkey
    exact ⟨0, keyID, by decide, (Option.some.inj h).symm, hlen, rfl⟩
  split at h
  · next scriptID hscript =>
    obtain ⟨hlen, rfl⟩ := isToScriptID_eq_some hscript
    exact ⟨1, scriptID, by decide, (Option.some.inj h).symm, hlen, rfl⟩
  split at h
  · next pubkey hpubkey =>
    rcases isToPubKey_eq_some hpubkey with ⟨header, x, hheader, hx, rfl, rfl⟩ |
      ⟨x, y, hx, hy, rfl, hvalid, rfl⟩
    · have htake : x.take 32 = x := List.take_of_length_le hx.le
      simp only [List.getD_cons_zero, hheader, if_true, List.drop_succ_cons, List.drop_zero,
        htake, Option.some.injEq] at h
      rcases hheader with rfl | rfl
      · exact ⟨2, x, by decide, h.symm, hx, rfl⟩
      · exact ⟨3, x, by decide, h.symm, hx, rfl⟩
    · have htake : (x ++ y).take 32 = x := by rw [← hx, List.take_left']; rfl
      have hlast : (0x04 :: (x ++ y)).getD 64 0 = y.getD 31 0 := by
        rw [List.getD_cons_succ, List.getD_append_right _ _ _ _ (by omega), hx]
      have hpoint := hec x y hx hy hvalid
      simp only [List.getD_cons_zero, List.drop_succ_cons, List.drop_zero, htake, hlast,
        header_of_parity] at h
      rw [if_neg (by decide), if_pos trivial, Option.some.injEq] at h
      split at h
      · next hodd =>
        rw [if_pos hodd] at hpoint
        refine ⟨5, x, by decide, h.symm, hx, ?_⟩
        change (ec.decompress (0x03 :: x)).bind _ = _
        rw [hpoint]
        rfl
      · next heven =>
        rw [if_neg heven] at hpoint
        refine ⟨4, x, by decide, h.symm, hx, ?_⟩
        change (ec.decompress (0x02 :: x)).bind _ = _
        rw [hpoint]
        rfl
  · cases h

/-- `CScriptCompressor::GetSerializeSize` is the number of bytes written. -/
theorem length_serializeScript (ec : PubKeyOps) (script : Bytes) :
    (serializeScript ec script).length = scriptSerializeSize ec script := by
  unfold serializeScript scriptSerializeSize
  split
  · rfl
  · rw [List.length_append, length_writeVarInt, Nat.add_comm]

/-- A kind is one byte. -/
private theorem writeVarInt_small {n : Nat} (h : n < 128) :
    writeVarInt n = [UInt8.ofNat n] := by
  rw [writeVarInt, writeVarIntLoop, if_pos (by omega)]
  congr
  omega

/-- A script is read back as it was written, compressed or not. -/
theorem reads_script {ec : PubKeyOps} (hec : ec.Lawful) {script : Bytes}
    (hlen : script.length + nSpecialScripts < 2 ^ 32) :
    Reads (unserializeScript ec) script (serializeScript ec script) := by
  have hspecial : nSpecialScripts = 6 := rfl
  unfold serializeScript
  split
  · next compr hcompr =>
    obtain ⟨nSize, vch, hsize, rfl, hvch, hscript⟩ := compressScript_eq_some hec hcompr
    have hkind : Reads (readVarUint 32) nSize [UInt8.ofNat nSize] := by
      rw [← writeVarInt_small (by omega)]
      exact reads_varUint (by omega)
    refine hkind.bind (d := vch) ?_
    rw [if_pos hsize, ← hvch]
    refine (reads_bytes vch).bind_pure ?_
    rw [hscript]
    exact Reads.pure script
  · have hword : toUint32 (script.length + nSpecialScripts) = script.length + nSpecialScripts :=
      Nat.mod_eq_of_lt hlen
    rw [hword]
    refine (reads_varUint hlen).bind ?_
    rw [if_neg (by omega), Nat.add_sub_cancel]
    exact reads_bytes script

/-- A script whose size wraps around is read back as one that pays to a key. -/
theorem unserializeScript_of_wrap (ec : PubKeyOps) {script : Bytes}
    (hlen : script.length + nSpecialScripts = 2 ^ 32) :
    unserializeScript ec (serializeScript ec script) = some
      (opDup :: opHash160 :: 20 :: (script.take 20 ++ [opEqualverify, opChecksig]),
        script.drop 20) := by
  have hspecial : nSpecialScripts = 6 := rfl
  have hplain : compressScript ec script = none := by
    have hkey : isToKeyID script = none := if_neg fun h ↦ by omega
    have hscript : isToScriptID script = none := if_neg fun h ↦ by omega
    have hpubkey : isToPubKey ec script = none :=
      (if_neg fun h ↦ by omega).trans (if_neg fun h ↦ by omega)
    simp only [compressScript, hkey, hscript, hpubkey]
  have hbytes : readBytes 20 script = some (script.take 20, script.drop 20) :=
    if_pos (by omega)
  have hkind : readVarUint 32 (writeVarInt (0 : Nat) ++ script) = some (0, script) :=
    reads_varUint (by decide) script
  simp only [serializeScript, hplain]
  rw [hlen]
  change ((readVarUint 32 (writeVarInt (0 : Nat) ++ script)).bind _) = _
  rw [hkind]
  change ((readBytes 20 script).bind _) = _
  rw [hbytes]
  rfl

/-! ### Outputs -/

/-- `CTxOutCompressor` writing, `src/core.h:645`. -/
def CTxOut.serializeCompressed (ec : PubKeyOps) (txout : CTxOut) : Bytes :=
  writeVarInt (compressAmount (toUint64 txout.nValue)) ++ serializeScript ec txout.scriptPubKey

/-- `CTxOutCompressor::GetSerializeSize`. -/
def CTxOut.compressedSize (ec : PubKeyOps) (txout : CTxOut) : Nat :=
  getSizeOfVarInt (compressAmount (toUint64 txout.nValue)) +
    scriptSerializeSize ec txout.scriptPubKey

/-- `CTxOutCompressor` reading into a null output. -/
def CTxOut.unserializeCompressed (ec : PubKeyOps) : Stream CTxOut := do
  let nVal ← readVarUint 64
  let scriptPubKey ← unserializeScript ec
  pure ⟨toInt64 (decompressAmount nVal), scriptPubKey⟩

theorem CTxOut.length_serializeCompressed (ec : PubKeyOps) (txout : CTxOut) :
    (txout.serializeCompressed ec).length = txout.compressedSize ec := by
  rw [serializeCompressed, List.length_append, length_writeVarInt, length_serializeScript,
    compressedSize]

/-- An output within the money range is read back as it was written. -/
theorem CTxOut.reads_compressed {ec : PubKeyOps} (hec : ec.Lawful) {txout : CTxOut}
    (hrange : moneyRange txout.nValue = true)
    (hlen : txout.scriptPubKey.length + nSpecialScripts < 2 ^ 32) :
    Reads (unserializeCompressed ec) txout (txout.serializeCompressed ec) := by
  have hmax : maxMoney = 2800000000000000 := rfl
  obtain ⟨hlo, hhi⟩ := moneyRange_iff.mp hrange
  have hword : (toUint64 txout.nValue : Int) = txout.nValue := toUint64_of_nonneg hlo (by omega)
  have hamount : toInt64 (decompressAmount (compressAmount (toUint64 txout.nValue))) =
      txout.nValue := by
    rw [decompressAmount_compressAmount (by omega), hword]
    exact toInt64_of_range (by omega) (by omega)
  refine (reads_varUint (compressAmount_lt _)).bind ?_
  refine (reads_script hec hlen).bind_pure ?_
  rw [hamount]
  exact Reads.pure txout

end Bitmark
