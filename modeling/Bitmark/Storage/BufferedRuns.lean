import Bitmark.Lib.Trace
import Bitmark.Storage.BufferedDelivery

/-!
# Runs of the buffered file

A session carries, beside the fields of the class, the position of the last seek and the furthest
position reached since. A run delivers the file as long as `SetPos` neither leads before the last seek
nor is asked for a position of the rewind distance that the source position has outrun.
-/

namespace Bitmark

open Trace CBufferedFile

/-- A buffered file with what its caller knows of the calls so far. -/
structure BufferSession where
  file : CBufferedFile
  lastSeek : ℕ
  furthest : ℕ
  deriving DecidableEq

/-- `read` takes the next bytes of the file, and less where the file ends; it throws, and takes
nothing, at the limit or where the buffer is too small. -/
def ReadDelivers (content : FileContent) (f : CBufferedFile) (nSize : ℕ) (c : BufferCall) : Prop :=
  if f.nReadPos + nSize ≤ f.nReadLimit ∧ nSize + f.nRewind ≤ f.vchBuf.length then
    c.pch = content.slice f.nReadPos nSize ∧ c.file.nReadPos = f.nReadPos + c.pch.length ∧
      c.file.nReadPos ≤ f.nReadLimit ∧
      c.outcome = if c.pch.length = nSize then .returns true else .throws .endOfFile
  else c.file = f ∧ c.pch = [] ∧ (c.outcome = .throws .pastLimit ∨ c.outcome = .throws .largerThanBuffer)

namespace BufferSession

/-- The session of a new buffered file. -/
def start (nBufSize nRewind : ℕ) : BufferSession := ⟨construct nBufSize nRewind, 0, 0⟩

/-- The session after a call. -/
def step (content : FileContent) (s : BufferSession) (op : BufferOp) : BufferSession :=
  let c := s.file.call content op
  match op with
  | .seek nPos =>
    if c.outcome = .returns true then ⟨c.file, nPos.toNat, nPos.toNat⟩ else { s with file := c.file }
  | _ => ⟨c.file, s.lastSeek, max s.furthest c.file.nReadPos⟩

/-- A position that can be rewound to: an earlier one, not before the last seek, and within `nRewind`
of the furthest one reached. -/
def Promised (s : BufferSession) (nPos : ℕ) : Prop :=
  s.lastSeek ≤ nPos ∧ nPos ≤ s.furthest ∧ s.furthest ≤ nPos + s.file.nRewind

/-- What a call delivers. -/
def Delivers (content : FileContent) (s : BufferSession) (op : BufferOp) : Prop :=
  let f := s.file
  let c := f.call content op
  match op with
  | .read nSize => ReadDelivers content f nSize.toNat c
  | .findByte ch => c.pch = [] ∧ c.file.nReadPos = f.nReadPos + content.distance f.nReadPos ch ∧
      c.outcome = if ch ∈ content.bytes.drop f.nReadPos then .returns true else .throws .endOfFile
  | .setLimit nPos => c.pch = [] ∧ c.file.nReadPos = f.nReadPos ∧
      c.outcome = .returns (decide (f.nReadPos ≤ nPos.toNat)) ∧
      c.file.nReadLimit = if f.nReadPos ≤ nPos.toNat then nPos.toNat else f.nReadLimit
  | .setPos nPos => c.pch = [] ∧
      c.outcome = .returns (decide (c.file.nReadPos = nPos.toNat)) ∧
      (s.Promised nPos.toNat → c.outcome = .returns true ∧
        ∀ nSize, nPos.toNat + nSize ≤ s.furthest → nPos.toNat + nSize ≤ f.nReadLimit →
          nSize + f.nRewind ≤ f.vchBuf.length →
          (c.file.read content nSize).pch = content.slice nPos.toNat nSize ∧
            (c.file.read content nSize).outcome = .returns true)
  | .seek nPos => c.pch = [] ∧ c.outcome = .returns (decide (nPos.toNat < 2 ^ 63)) ∧
      c.file.nReadPos = if nPos.toNat < 2 ^ 63 then nPos.toNat else f.nReadPos

/-- A call that keeps the buffer a window on the file. A jump back to `nRewind` before the source
position stays behind the last seek and is not the answer to a promised position; another `SetPos` is
not before the last seek; and the size of a read is that of an array. -/
def InWindow (s : BufferSession) : BufferOp → Prop
  | .read nSize => nSize.toNat + s.file.nRewind < 2 ^ 64
  | .setPos nPos =>
    if toUint64 (nPos.toNat + s.file.nRewind) < s.file.nSrcPos then
      s.lastSeek + s.file.nRewind ≤ s.file.nSrcPos ∧ ¬s.Promised nPos.toNat
    else s.lastSeek ≤ nPos.toNat
  | _ => True

instance decidablePromised (s : BufferSession) (nPos : ℕ) : Decidable (s.Promised nPos) :=
  inferInstanceAs (Decidable (_ ∧ _))

instance decidableInWindow (s : BufferSession) : (op : BufferOp) → Decidable (s.InWindow op)
  | .read _ => inferInstanceAs (Decidable (_ < _))
  | .setPos _ => inferInstanceAs (Decidable (ite _ _ _))
  | .findByte _ | .setLimit _ | .seek _ => .isTrue trivial

/-- The buffer of a session is a window on the file, and the furthest position is in front of it. -/
structure Sound (content : FileContent) (s : BufferSession) : Prop where
  holds : Holds content s.lastSeek s.file
  read_le : s.file.nReadPos ≤ s.furthest
  furthest_le : s.furthest ≤ s.file.nSrcPos

variable {content : FileContent} {s : BufferSession}

theorem sound_start (content : FileContent) {nBufSize nRewind : ℕ} (hrewind : nRewind < nBufSize)
    (hsize : nBufSize < 2 ^ 32) : Sound content (start nBufSize nRewind) where
  holds := {
    offset_eq := rfl
    base_le := le_rfl
    read_le := le_rfl
    window := Nat.zero_le _
    src_le := Nat.zero_le _
    base_lt := Nat.two_pow_pos 63
    rewind_lt := by simpa [start, construct] using hrewind
    size_lt := by simpa [start, construct] using hsize
    shows := fun _ _ hq ↦ absurd hq (Nat.not_lt_zero _) }
  read_le := le_rfl
  furthest_le := le_rfl

/-- A call other than `Seek` that stays in the window. -/
theorem Sound.of_holds (h : s.Sound content) {f : CBufferedFile} (hholds : Holds content s.lastSeek f)
    (hsrc : s.file.nSrcPos ≤ f.nSrcPos) : Sound content ⟨f, s.lastSeek, max s.furthest f.nReadPos⟩ where
  holds := hholds
  read_le := le_max_right _ _
  furthest_le := max_le (h.furthest_le.trans hsrc) hholds.read_le

/-- `read` delivers the file. -/
theorem Sound.read (h : s.Sound content) {nSize : ℕ} (hwrap : nSize + s.file.nRewind < 2 ^ 64) :
    ReadDelivers content s.file nSize (s.file.read content nSize) ∧
      Holds content s.lastSeek (s.file.read content nSize).file ∧
        s.file.Keeps (s.file.read content nSize).file := by
  obtain ⟨hrefused, hread⟩ | ⟨hlimit, hfits, hpch, houtcome, hadvances⟩ := h.holds.read hwrap
  · rw [ReadDelivers, if_neg (by omega)]
    obtain hread | hread := hread
    · rw [hread]
      exact ⟨⟨rfl, rfl, .inl rfl⟩, h.holds, Keeps.refl s.file⟩
    · rw [hread]
      exact ⟨⟨rfl, rfl, .inr rfl⟩, h.holds, Keeps.refl s.file⟩
  · have hlength := content.length_slice s.file.nReadPos nSize
    have hpos := hadvances.pos_eq
    rw [ReadDelivers, if_pos ⟨hlimit, hfits⟩, hpch]
    exact ⟨⟨rfl, hpos, by omega, houtcome⟩, hadvances.holds, hadvances.keeps⟩

/-- The source position has not outrun a promised position: `SetPos` goes there. -/
theorem Sound.setPos_eq (h : s.Sound content) {nPos : ℕ} (hpromised : s.Promised nPos)
    (hahead : s.file.nSrcPos ≤ nPos + s.file.nRewind) :
    s.file.setPos nPos = ⟨{ s.file with nReadPos := nPos }, [], .returns true⟩ := by
  have hfurthest := h.furthest_le
  have hsrc := h.holds.src_lt
  have hrewind := h.holds.rewind_lt
  have hsize := h.holds.size_lt
  have hle : nPos ≤ s.furthest := hpromised.2.1
  have hsum : toUint64 (nPos + s.file.nRewind) = nPos + s.file.nRewind :=
    toUint64_add (by omega)
  rw [CBufferedFile.setPos, hsum, if_neg (by omega), if_neg (by omega)]

/-- `SetPos` keeps the promise exactly where the source position has not outrun the position. -/
theorem Sound.setPos_promised_iff (h : s.Sound content) {nPos : ℕ} (hpromised : s.Promised nPos) :
    (s.file.setPos nPos).outcome = .returns true ↔ s.file.nSrcPos ≤ nPos + s.file.nRewind := by
  have hfurthest := h.furthest_le
  have hsrc := h.holds.src_lt
  have hrewind := h.holds.rewind_lt
  have hsize := h.holds.size_lt
  have hle : nPos ≤ s.furthest := hpromised.2.1
  by_cases hahead : s.file.nSrcPos ≤ nPos + s.file.nRewind
  · rw [h.setPos_eq hpromised hahead]
    exact iff_of_true rfl hahead
  · have hsum : toUint64 (nPos + s.file.nRewind) = nPos + s.file.nRewind :=
      toUint64_add (by omega)
    rw [CBufferedFile.setPos, hsum, if_pos (by omega)]
    exact iff_of_false (fun h ↦ by cases h) hahead

/-- What was reached before is read again. -/
theorem Sound.read_again (h : s.Sound content) {nPos nSize : ℕ} (hpromised : s.Promised nPos)
    (hahead : s.file.nSrcPos ≤ nPos + s.file.nRewind) (hreached : nPos + nSize ≤ s.furthest)
    (hlimit : nPos + nSize ≤ s.file.nReadLimit) (hfits : nSize + s.file.nRewind ≤ s.file.vchBuf.length) :
    ((s.file.setPos nPos).file.read content nSize).pch = content.slice nPos nSize ∧
      ((s.file.setPos nPos).file.read content nSize).outcome = .returns true := by
  have hfurthest := h.furthest_le
  have hbase : s.lastSeek ≤ nPos := hpromised.1
  have hrewind := h.holds.rewind_lt
  have hsize := h.holds.size_lt
  have hmove := h.holds.moveTo hbase (by omega) (by omega)
  have hthere := h.holds.moveTo (q := nPos + nSize) (by omega) (by omega) (by omega)
  rw [h.setPos_eq hpromised hahead]
  have hwrap : nSize + s.file.nRewind < 2 ^ 64 := by omega
  obtain ⟨hrefused, -⟩ | ⟨-, -, hpch, houtcome, -⟩ := hmove.read hwrap
  · dsimp only at hrefused
    omega
  · refine ⟨hpch, houtcome.trans (if_pos ?_)⟩
    have hslice := content.length_slice nPos nSize
    change (content.slice nPos nSize).length = nSize
    obtain rfl | hpos := Nat.eq_zero_or_pos nSize
    · rfl
    · have hlength : nPos + nSize ≤ content.bytes.length :=
        hthere.pos_le_length (Nat.lt_of_le_of_lt hbase (Nat.lt_add_of_pos_right hpos))
      omega

theorem InWindow.setPos {nPos : UInt64} (h : s.InWindow (.setPos nPos)) :
    if toUint64 (nPos.toNat + s.file.nRewind) < s.file.nSrcPos then
      s.lastSeek + s.file.nRewind ≤ s.file.nSrcPos
    else s.lastSeek ≤ nPos.toNat := by
  rw [InWindow] at h
  split at h
  · next hback =>
    rw [if_pos hback]
    exact h.1
  · next hback =>
    rw [if_neg hback]
    exact h

/-- The source position has not outrun a promised position that `SetPos` is asked for. -/
theorem Sound.ahead (h : s.Sound content) {nPos : UInt64} (hkept : s.InWindow (.setPos nPos))
    (hpromised : s.Promised nPos.toNat) : s.file.nSrcPos ≤ nPos.toNat + s.file.nRewind := by
  have hfurthest := h.furthest_le
  have hsrc := h.holds.src_lt
  have hrewind := h.holds.rewind_lt
  have hsize := h.holds.size_lt
  have hle : nPos.toNat ≤ s.furthest := hpromised.2.1
  have hsum : toUint64 (nPos.toNat + s.file.nRewind) = nPos.toNat + s.file.nRewind :=
    toUint64_add (by omega)
  rw [InWindow, hsum] at hkept
  split at hkept
  · exact absurd hpromised hkept.2
  · next hahead => exact not_lt.mp hahead

theorem Sound.setPos (h : s.Sound content) {nPos : UInt64} (hkept : s.InWindow (.setPos nPos)) :
    s.Delivers content (.setPos nPos) ∧ (s.step content (.setPos nPos)).Sound content := by
  obtain ⟨hholds, hkeeps⟩ := h.holds.setPos hkept.setPos
  have hpch : (s.file.setPos nPos.toNat).pch = [] := by
    rw [CBufferedFile.setPos]
    split
    · rfl
    · split <;> rfl
  refine ⟨⟨hpch, h.holds.setPos_outcome hkept.setPos, ?_⟩, h.of_holds hholds hkeeps.src_le⟩
  intro hpromised
  have hahead := h.ahead hkept hpromised
  refine ⟨(h.setPos_promised_iff hpromised).mpr hahead, ?_⟩
  intro nSize hreached hlimit hfits
  exact h.read_again hpromised hahead hreached hlimit hfits

theorem Sound.setLimit (h : s.Sound content) (nPos : UInt64) :
    s.Delivers content (.setLimit nPos) ∧ (s.step content (.setLimit nPos)).Sound content := by
  by_cases hlt : nPos.toNat < s.file.nReadPos
  · have hcall : s.file.setLimit nPos.toNat = ⟨s.file, [], .returns false⟩ := if_pos hlt
    have hge : ¬s.file.nReadPos ≤ nPos.toNat := not_le.mpr hlt
    rw [Delivers, step, call, hcall, decide_eq_false hge, if_neg hge]
    · exact ⟨⟨rfl, rfl, rfl, rfl⟩, h.of_holds h.holds le_rfl⟩
    · intro nSeek hop
      cases hop
  · have hcall : s.file.setLimit nPos.toNat =
        ⟨{ s.file with nReadLimit := nPos.toNat }, [], .returns true⟩ := if_neg hlt
    have hge := not_lt.mp hlt
    rw [Delivers, step, call, hcall, decide_eq_true hge, if_pos hge]
    · exact ⟨⟨rfl, rfl, rfl, rfl⟩, h.of_holds { h.holds with } le_rfl⟩
    · intro nSeek hop
      cases hop

theorem Sound.seek (h : s.Sound content) (nPos : UInt64) :
    s.Delivers content (.seek nPos) ∧ (s.step content (.seek nPos)).Sound content := by
  have hcall := seek_eq nPos.toNat_lt s.file
  by_cases hlt : nPos.toNat < 2 ^ 63
  · rw [if_pos hlt] at hcall
    rw [Delivers, step, call, hcall, decide_eq_true hlt, if_pos hlt]
    exact ⟨⟨rfl, rfl, rfl⟩, h.holds.seek hlt, le_rfl, le_rfl⟩
  · rw [if_neg hlt] at hcall
    rw [Delivers, step, call, hcall, decide_eq_false hlt, if_neg hlt]
    exact ⟨⟨rfl, rfl, rfl⟩, h⟩

/-- One call. -/
theorem Sound.step (h : s.Sound content) (op : BufferOp) (hkept : s.InWindow op) :
    s.Delivers content op ∧ (s.step content op).Sound content := by
  match op with
  | .read nSize =>
    obtain ⟨hdelivers, hholds, hkeeps⟩ := h.read hkept
    exact ⟨hdelivers, h.of_holds hholds hkeeps.src_le⟩
  | .findByte ch =>
    have hfuel : content.bytes.length - s.file.nReadPos <
        content.bytes.length + s.file.vchBuf.length + 1 := by omega
    obtain ⟨hpch, houtcome, hadvances⟩ := h.holds.findLoop ch hfuel
    exact ⟨⟨hpch, hadvances.pos_eq, houtcome⟩, h.of_holds hadvances.holds hadvances.keeps.src_le⟩
  | .setLimit nPos => exact h.setLimit nPos
  | .setPos nPos => exact h.setPos hkept
  | .seek nPos => exact h.seek nPos

end BufferSession

/-! ### The runs -/

/-- A run delivers the file throughout, where the buffer is shorter than `2 ^ 32` bytes and every call
keeps it a window on the file. -/
theorem bufferedFile_delivers_throughout (content : FileContent) {nBufSize nRewind : ℕ}
    (hrewind : nRewind < nBufSize) (hsize : nBufSize < 2 ^ 32) {ops : List BufferOp}
    (h : Throughout (BufferSession.step content) BufferSession.InWindow
      (.start nBufSize nRewind) ops) :
    Throughout (BufferSession.step content) (BufferSession.Delivers content)
      (.start nBufSize nRewind) ops :=
  have hstart := BufferSession.sound_start content hrewind hsize
  h.of_invariant (fun _ op hs hkept ↦ hs.step op hkept) hstart

/-- A file of thirty bytes, each its own position. -/
def thirtyBytes : FileContent := ⟨(List.range 30).map UInt8.ofNat, by decide⟩

/-- A run of all five calls: the buffer is refilled, wraps around and is rewound. -/
theorem bufferedFile_delivers_throughout_sample :
    Throughout (BufferSession.step thirtyBytes) (BufferSession.Delivers thirtyBytes) (.start 20 5)
      [.read 15, .setPos 12, .read 3, .setLimit 26, .findByte 22, .read 5, .setLimit 28, .read 4,
        .setPos 25, .read 3, .seek 10, .findByte 200] :=
  bufferedFile_delivers_throughout thirtyBytes (by decide) (by decide) (by decide)

/-- One byte was read, and the position before it is five bytes at most from the furthest one:
`SetPos` answers false and jumps ahead. After a seek it answers true before the sought position,
and a zero byte of the new buffer is delivered for the byte there. -/
theorem bufferedFile_breaks_promise :
    let s := (BufferSession.start 20 5).step thirtyBytes (.read 1)
    let t := ((BufferSession.start 20 5).step thirtyBytes (.seek 20)).step thirtyBytes (.setPos 17)
    s.Promised 0 ∧ (s.file.call thirtyBytes (.setPos 0)).outcome = .returns false ∧
      (s.file.call thirtyBytes (.setPos 0)).file.nReadPos = 10 ∧
      t.file.nReadPos = 17 ∧ (t.file.call thirtyBytes (.read 1)).pch = [0] ∧
      thirtyBytes.slice 17 1 = [17] := by
  decide

end Bitmark
