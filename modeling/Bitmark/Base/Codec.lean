import Bitmark.Base.Stream
import Bitmark.Lib.Codec

/-!
# Reading back the basic types

The readers of `Base.Stream` return what their writers wrote and accept nothing else, up to the
size limit of the stream.
-/

namespace Bitmark

open Codec

/-! ### Fixed widths -/

theorem reads_bytes (bs : Bytes) : Reads (readBytes bs.length) bs bs := by
  intro rest
  simp [readBytes]

theorem canonical_bytes (n : Nat) :
    Canonical (readBytes n) (fun bs ↦ bs) fun bs ↦ bs.length = n := by
  intro s r bs h
  simp only [readBytes, Option.ite_none_right_eq_some, Option.some.injEq, Prod.mk.injEq] at h
  obtain ⟨hle, rfl, rfl⟩ := h
  simp [hle]

theorem reads_le {n x : Nat} (hx : x < 256 ^ n) : Reads (readLe n) x (leBytes n x) := by
  have hbytes := (reads_bytes (leBytes n x)).map leNat
  rwa [length_leBytes, leNat_leBytes, Nat.mod_eq_of_lt hx] at hbytes

theorem canonical_le (n : Nat) : Canonical (readLe n) (leBytes n) fun x ↦ x < 256 ^ n := by
  refine (canonical_bytes n).map ?_
  rintro bs rfl
  exact ⟨leBytes_leNat bs, leNat_lt bs⟩

theorem reads_word32 (w : BitVec 32) : Reads readWord32 w (bytes32 w) := by
  have hword := (reads_le (n := 4) (show w.toNat < 256 ^ 4 from w.isLt)).map (BitVec.ofNat 32)
  rwa [BitVec.ofNat_toNat, BitVec.setWidth_eq] at hword

theorem canonical_word32 : Canonical readWord32 bytes32 fun _ ↦ True := by
  refine (canonical_le 4).map ?_
  intro x hx
  refine ⟨?_, trivial⟩
  rw [bytes32, BitVec.toNat_ofNat, Nat.mod_eq_of_lt (show x < 2 ^ 32 from hx)]

theorem reads_uint256 (w : Uint256) : Reads readUint256 w (bytes256 w) := by
  have hword := (reads_bytes (bytes256 w)).map word256
  rwa [length_bytes256, word256_bytes256] at hword

theorem canonical_uint256 : Canonical readUint256 bytes256 fun _ ↦ True := by
  refine (canonical_bytes 32).map ?_
  intro bs hbs
  refine ⟨?_, trivial⟩
  have hlt : leNat bs < 2 ^ 256 := by
    have := leNat_lt bs
    rwa [hbs] at this
  rw [bytes256, word256, BitVec.toNat_ofNat, Nat.mod_eq_of_lt hlt, ← hbs, leBytes_leNat]

/-! ### Compact sizes -/

theorem reads_require {ok : Bool} (h : ok = true) : Reads (require ok) () [] := by
  intro rest
  rw [require, if_pos h]
  rfl

theorem require_eq_some {ok : Bool} {s r : Bytes} {u : Unit} :
    require ok s = some (u, r) ↔ ok = true ∧ s = r := by
  simp [require]

/-- The longer forms of a compact size, below a tag byte of their own. -/
private theorem reads_tagged {tag n width lower : Nat} (hlt : n < 256 ^ width) (hlower : lower ≤ n)
    (hread : readTaggedSize tag = do
      let xSize ← readLe width
      require (lower ≤ xSize)
      pure xSize) : Reads (readTaggedSize tag) n (leBytes width n) := by
  rw [hread]
  refine (reads_le hlt).bind_pure ?_
  exact (reads_require (by simpa using hlower)).bind_pure (Reads.pure n)

theorem reads_compactSize {n : Nat} (hn : n ≤ maxSize) :
    Reads readCompactSize n (writeCompactSize n) := by
  have hmax : maxSize = 0x02000000 := rfl
  have hok : Reads (do
      require (n ≤ maxSize)
      pure n) n [] := (reads_require (by simpa using hn)).bind_pure (Reads.pure n)
  unfold readCompactSize writeCompactSize
  split
  · next h =>
    refine (reads_le (n := 1) (by omega)).bind_pure ?_
    rw [readTaggedSize, if_pos h]
    exact (Reads.pure n).bind_pure hok
  · split
    · next h h' =>
      have htag : Reads (readTaggedSize 253) n (leBytes 2 n) :=
        reads_tagged (by omega) (show 253 ≤ n by omega) rfl
      exact (reads_le (n := 1) (x := 253) (by decide)).bind (htag.bind_pure hok)
    · split
      · next h =>
        have htag : Reads (readTaggedSize 254) n (leBytes 4 n) :=
          reads_tagged (by omega) (show 0x10000 ≤ n by omega) rfl
        exact (reads_le (n := 1) (x := 254) (by decide)).bind (htag.bind_pure hok)
      · omega

/-- What a tag byte and its payload stand for. -/
private theorem canonical_tagged {tag : Nat} (htag : tag < 256) :
    Canonical (readTaggedSize tag) (fun n ↦ (writeCompactSize n).drop 1)
      fun n ↦ leBytes 1 tag = (writeCompactSize n).take 1 := by
  intro s r n h
  change s = (writeCompactSize n).drop 1 ++ r ∧ leBytes 1 tag = (writeCompactSize n).take 1
  unfold readTaggedSize at h
  have hlong : ∀ {width lower : Nat}, (do
        let xSize ← readLe width
        require (lower ≤ xSize)
        pure xSize : Stream Nat) s = some (n, r) →
      s = leBytes width n ++ r ∧ n < 256 ^ width ∧ lower ≤ n := by
    intro width lower h
    obtain ⟨x, t, hx, h⟩ := bind_eq_some.mp h
    obtain ⟨u, t', hreq, h⟩ := bind_eq_some.mp h
    obtain ⟨rfl, rfl⟩ := pure_eq_some.mp h
    obtain ⟨hle, rfl⟩ := require_eq_some.mp hreq
    exact ⟨(canonical_le width hx).1, (canonical_le width hx).2, by simpa using hle⟩
  split at h
  · next hsmall =>
    obtain ⟨rfl, rfl⟩ := pure_eq_some.mp h
    rw [writeCompactSize, if_pos hsmall]
    exact ⟨rfl, rfl⟩
  · split at h
    · next htag =>
      obtain ⟨hs, hlt, hle⟩ := hlong h
      rw [writeCompactSize, if_neg (by omega), if_pos (by omega), htag]
      exact ⟨hs, rfl⟩
    · split at h
      · next htag =>
        obtain ⟨hs, hlt, hle⟩ := hlong h
        rw [writeCompactSize, if_neg (by omega), if_neg (by omega), if_pos (by omega), htag]
        exact ⟨hs, rfl⟩
      · obtain ⟨hs, hlt, hle⟩ := hlong h
        have htag : tag = 255 := by omega
        rw [writeCompactSize, if_neg (by omega), if_neg (by omega), if_neg (by omega), htag]
        exact ⟨hs, rfl⟩

theorem canonical_compactSize : Canonical readCompactSize writeCompactSize fun n ↦ n ≤ maxSize := by
  intro s r n h
  unfold readCompactSize at h
  obtain ⟨tag, t, htag, h⟩ := bind_eq_some.mp h
  obtain ⟨m, t', hm, h⟩ := bind_eq_some.mp h
  obtain ⟨u, t'', hreq, h⟩ := bind_eq_some.mp h
  obtain ⟨rfl, rfl⟩ := pure_eq_some.mp h
  obtain ⟨hle, rfl⟩ := require_eq_some.mp hreq
  obtain ⟨rfl, hlt⟩ := canonical_le 1 htag
  obtain ⟨rfl, hhead⟩ := canonical_tagged hlt hm
  refine ⟨?_, by simpa using hle⟩
  rw [hhead, ← List.append_assoc, List.take_append_drop]

/-- A size above the limit is refused. -/
theorem readCompactSize_eq_none {n : Nat} (hlo : maxSize < n) (hhi : n < 2 ^ 64) (rest : Bytes) :
    readCompactSize (writeCompactSize n ++ rest) = none := by
  cases h : readCompactSize (writeCompactSize n ++ rest) with
  | none => rfl
  | some p =>
    have hmax : maxSize = 0x02000000 := rfl
    obtain ⟨hs, hle⟩ := canonical_compactSize h
    have hn := (writeCompactSize_append_inj hhi (by omega) hs).1
    omega

/-! ### Vectors -/

theorem reads_byteVector {bs : Bytes} (h : bs.length ≤ maxSize) :
    Reads readByteVector bs (writeBytes bs) :=
  (reads_compactSize h).bind (reads_bytes bs)

theorem canonical_byteVector :
    Canonical readByteVector writeBytes fun bs ↦ bs.length ≤ maxSize := by
  intro s r bs h
  obtain ⟨n, rfl, hn, rfl⟩ := canonical_compactSize.bind (fun n _ ↦ canonical_bytes n) h
  rw [writeBytes, List.append_assoc]
  exact ⟨rfl, hn⟩

section Vectors

variable {α : Type} {read : Stream α} {write : α → Bytes} {P : α → Prop}

theorem reads_many {xs : List α} (h : ∀ x ∈ xs, Reads read x (write x)) :
    Reads (readMany read xs.length) xs (xs.flatMap write) := by
  induction xs with
  | nil => exact Reads.pure []
  | cons x xs ih =>
    obtain ⟨hx, hxs⟩ := List.forall_mem_cons.mp h
    rw [List.length_cons, readMany, List.flatMap_cons]
    exact hx.bind ((ih hxs).bind_pure (Reads.pure _))

theorem canonical_many (h : Canonical read write P) (n : Nat) :
    Canonical (readMany read n) (List.flatMap write) fun xs ↦ xs.length = n ∧ ∀ x ∈ xs, P x := by
  intro s r xs hread
  induction n generalizing s xs with
  | zero =>
    obtain ⟨rfl, rfl⟩ := pure_eq_some.mp hread
    simp
  | succ n ih =>
    obtain ⟨x, t, hx, hread⟩ := bind_eq_some.mp hread
    obtain ⟨ys, t', hys, hread⟩ := bind_eq_some.mp hread
    obtain ⟨rfl, rfl⟩ := pure_eq_some.mp hread
    obtain ⟨rfl, hPx⟩ := h hx
    obtain ⟨rfl, hlen, hP⟩ := ih hys
    rw [List.flatMap_cons, List.append_assoc]
    exact ⟨rfl, by rw [List.length_cons, hlen], List.forall_mem_cons.mpr ⟨hPx, hP⟩⟩

theorem reads_vector {xs : List α} (hlen : xs.length ≤ maxSize)
    (h : ∀ x ∈ xs, Reads read x (write x)) : Reads (readVector read) xs (writeVector write xs) :=
  (reads_compactSize hlen).bind (reads_many h)

/-- A vector with more elements than the limit is not read back. -/
theorem readVector_eq_none {xs : List α} (hlo : maxSize < xs.length) (hhi : xs.length < 2 ^ 64) :
    readVector read (writeVector write xs) = none := by
  change (readCompactSize (writeCompactSize xs.length ++ _)).bind _ = none
  rw [readCompactSize_eq_none hlo hhi]
  rfl

theorem canonical_vector (h : Canonical read write P) :
    Canonical (readVector read) (writeVector write) fun xs ↦ xs.length ≤ maxSize ∧ ∀ x ∈ xs, P x := by
  intro s r xs hread
  obtain ⟨n, rfl, hn, rfl, hP⟩ := canonical_compactSize.bind (fun n _ ↦ canonical_many h n) hread
  rw [writeVector, List.append_assoc]
  exact ⟨rfl, hn, hP⟩

/-- A vector has the size of what is written when its elements have theirs. -/
theorem vectorSize_eq {size : α → Nat} (h : ∀ x, size x = toUint32 (write x).length) (xs : List α) :
    vectorSize size xs = toUint32 (writeVector write xs).length := by
  have hsum : ∀ xs : List α, toUint32 (xs.map size).sum = toUint32 (xs.flatMap write).length := by
    intro xs
    induction xs with
    | nil => rfl
    | cons x xs ih =>
      rw [List.map_cons, List.sum_cons, List.flatMap_cons, List.length_append, h,
        toUint32_add_left, ← toUint32_add_right, ih, toUint32_add_right]
  rw [vectorSize, writeVector, List.length_append, length_writeCompactSize, ← toUint32_add_right,
    hsum, toUint32_add_right]

end Vectors

end Bitmark
