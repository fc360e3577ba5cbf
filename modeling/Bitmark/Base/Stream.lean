import Bitmark.Base.Word

/-!
# Serialization streams

Writers append to a byte list; readers consume one and fail where the C++ stream throws.
Compact sizes follow `src/serialize.h:164–245`, including the refusal of encodings that are
longer than necessary or larger than `MAX_SIZE`.
-/

namespace Bitmark

/-- A reader over the remaining bytes of a `CDataStream`; `none` is a thrown stream error. -/
abbrev Stream (α : Type) := StateT Bytes Option α

/-- `MAX_SIZE`, `src/serialize.h:31`. -/
def maxSize : Nat := 0x02000000

/-- `WriteCompactSize`, `src/serialize.h:174`. -/
def writeCompactSize (n : Nat) : Bytes :=
  if n < 253 then leBytes 1 n
  else if n ≤ 0xffff then 253 :: leBytes 2 n
  else if n ≤ 0xffffffff then 254 :: leBytes 4 n
  else 255 :: leBytes 8 n

/-- `GetSizeOfCompactSize`, `src/serialize.h:164`. -/
def getSizeOfCompactSize (n : Nat) : Nat :=
  if n < 253 then 1 else if n ≤ 0xffff then 3 else if n ≤ 0xffffffff then 5 else 9

/-- Serialized `std::vector<unsigned char>`: a compact size and the bytes. -/
def writeBytes (bs : Bytes) : Bytes := writeCompactSize bs.length ++ bs

/-- Serialized vector of serializable elements. -/
def writeVector {α : Type} (write : α → Bytes) (xs : List α) : Bytes :=
  writeCompactSize xs.length ++ xs.flatMap write

/-- `GetSerializeSize` of a vector, `src/serialize.h:524`. -/
def vectorSize {α : Type} (size : α → Nat) (xs : List α) : Nat :=
  toUint32 (getSizeOfCompactSize xs.length + (xs.map size).sum)

/-- Read exactly `n` bytes. -/
def readBytes (n : Nat) : Stream Bytes := fun s ↦
  if n ≤ s.length then some (s.take n, s.drop n) else none

/-- Read an unsigned little-endian number of `n` bytes. -/
def readLe (n : Nat) : Stream Nat := leNat <$> readBytes n

/-- Read a 32-bit word. -/
def readWord32 : Stream (BitVec 32) := BitVec.ofNat 32 <$> readLe 4

/-- Read a `uint256`. -/
def readUint256 : Stream Uint256 := word256 <$> readBytes 32

/-- Fail where the C++ code throws `std::ios_base::failure`. -/
def require (ok : Bool) : Stream Unit := fun s ↦ if ok then some ((), s) else none

/-- The size that follows a tag byte of `ReadCompactSize`, refused when a shorter encoding
exists. -/
def readTaggedSize (chSize : Nat) : Stream Nat :=
  if chSize < 253 then pure chSize
  else if chSize = 253 then do
    let xSize ← readLe 2
    require (253 ≤ xSize)
    pure xSize
  else if chSize = 254 then do
    let xSize ← readLe 4
    require (0x10000 ≤ xSize)
    pure xSize
  else do
    let xSize ← readLe 8
    require (0x100000000 ≤ xSize)
    pure xSize

/-- `ReadCompactSize`, `src/serialize.h:206`. -/
def readCompactSize : Stream Nat := do
  let chSize ← readLe 1
  let nSizeRet ← readTaggedSize chSize
  require (nSizeRet ≤ maxSize)
  pure nSizeRet

/-- Read a serialized `std::vector<unsigned char>`. -/
def readByteVector : Stream Bytes := do
  let nSize ← readCompactSize
  readBytes nSize

/-- Read a fixed number of elements in order. -/
def readMany {α : Type} (read : Stream α) : Nat → Stream (List α)
  | 0 => pure []
  | n + 1 => do
    let x ← read
    let xs ← readMany read n
    pure (x :: xs)

/-- Read a serialized vector. -/
def readVector {α : Type} (read : Stream α) : Stream (List α) := do
  let nSize ← readCompactSize
  readMany read nSize

/-! ### Reading in sequence -/

/-- A sequence of reads succeeds when each of them does on what the previous one left. -/
theorem bind_eq_some {α β : Type} {m : Stream α} {f : α → Stream β} {s r : Bytes} {b : β} :
    (m >>= f) s = some (b, r) ↔ ∃ a t, m s = some (a, t) ∧ f a t = some (b, r) := by
  change ((m s).bind fun p ↦ f p.1 p.2) = _ ↔ _
  simp [Option.bind_eq_some_iff, Prod.exists]

/-- Returning a value consumes nothing. -/
theorem pure_eq_some {α : Type} {a b : α} {s r : Bytes} :
    (pure a : Stream α) s = some (b, r) ↔ a = b ∧ s = r := by
  change some (a, s) = _ ↔ _
  simp

/-- A successful read of a byte vector has no more than `maxSize` bytes. -/
theorem readByteVector_length {s r bs : Bytes} (h : readByteVector s = some (bs, r)) :
    bs.length ≤ maxSize := by
  obtain ⟨n, t, hn, hbs⟩ := bind_eq_some.mp h
  have hlen : bs.length = n := by
    simp only [readBytes, Option.ite_none_right_eq_some, Option.some.injEq, Prod.mk.injEq] at hbs
    obtain ⟨hle, rfl, -⟩ := hbs
    simpa using hle
  rw [readCompactSize] at hn
  obtain ⟨chSize, u, -, hn⟩ := bind_eq_some.mp hn
  obtain ⟨m, v, -, hn⟩ := bind_eq_some.mp hn
  obtain ⟨_, w, hreq, hn⟩ := bind_eq_some.mp hn
  obtain ⟨rfl, -⟩ := pure_eq_some.mp hn
  simp only [require, Option.ite_none_right_eq_some, decide_eq_true_eq] at hreq
  omega

/-! ### Compact sizes -/

/-- `GetSizeOfCompactSize` is the number of bytes written. -/
theorem length_writeCompactSize (n : Nat) :
    (writeCompactSize n).length = getSizeOfCompactSize n := by
  unfold writeCompactSize getSizeOfCompactSize
  split
  · simp
  · split
    · simp
    · split <;> simp

private def compactTag (n : Nat) : Nat :=
  if n < 253 then n else if n ≤ 0xffff then 253 else if n ≤ 0xffffffff then 254 else 255

private def compactWidth (n : Nat) : Nat :=
  if n < 253 then 0 else if n ≤ 0xffff then 2 else if n ≤ 0xffffffff then 4 else 8

private theorem writeCompactSize_eq (n : Nat) :
    writeCompactSize n = UInt8.ofNat (compactTag n) :: leBytes (compactWidth n) n := by
  unfold writeCompactSize compactTag compactWidth
  split
  · next h => simp [leBytes, Nat.mod_eq_of_lt (show n < 256 by omega)]
  · split
    · rfl
    · split <;> rfl

private theorem compactTag_lt (n : Nat) : compactTag n < 256 := by
  unfold compactTag
  split
  · omega
  · split
    · omega
    · split <;> omega

-- The first byte decides the width, and for one-byte sizes the number itself.
private theorem compactTag_inj {m n : Nat} (h : compactTag m = compactTag n) :
    compactWidth m = compactWidth n ∧ (compactWidth m = 0 → m = n) := by
  unfold compactTag at h
  unfold compactWidth
  split at h <;> split at h <;> grind

private theorem lt_compactWidth {n : Nat} (h : n < 2 ^ 64) :
    compactWidth n = 0 ∨ n < 256 ^ compactWidth n := by
  unfold compactWidth
  split
  · exact .inl rfl
  · split
    · exact .inr (by omega)
    · split <;> exact .inr (by omega)

/-- A compact size is a prefix code below `2 ^ 64`: neither the number nor what follows
can be read differently. -/
theorem writeCompactSize_append_inj {m n : Nat} {r s : Bytes} (hm : m < 2 ^ 64) (hn : n < 2 ^ 64)
    (h : writeCompactSize m ++ r = writeCompactSize n ++ s) : m = n ∧ r = s := by
  rw [writeCompactSize_eq, writeCompactSize_eq, List.cons_append, List.cons_append] at h
  obtain ⟨htag, htail⟩ := List.cons.inj h
  have ht : compactTag m = compactTag n := by
    have hv := congrArg UInt8.toNat htag
    rwa [UInt8.toNat_ofNat', UInt8.toNat_ofNat', Nat.mod_eq_of_lt (compactTag_lt m),
      Nat.mod_eq_of_lt (compactTag_lt n)] at hv
  obtain ⟨hw, hz⟩ := compactTag_inj ht
  obtain ⟨hpay, hrest⟩ := List.append_inj htail (by simp [hw])
  refine ⟨?_, hrest⟩
  rcases lt_compactWidth hm with hm0 | hmw
  · exact hz hm0
  · rcases lt_compactWidth hn with hn0 | hnw
    · exact hz (hw.trans hn0)
    · rw [← hw] at hpay hnw
      exact leBytes_inj hmw hnw hpay

/-- A serialized byte vector is a prefix code. -/
theorem writeBytes_append_inj {a b r s : Bytes} (ha : a.length < 2 ^ 64) (hb : b.length < 2 ^ 64)
    (h : writeBytes a ++ r = writeBytes b ++ s) : a = b ∧ r = s := by
  rw [writeBytes, writeBytes, List.append_assoc, List.append_assoc] at h
  obtain ⟨hl, hr⟩ := writeCompactSize_append_inj ha hb h
  exact List.append_inj hr hl

end Bitmark
