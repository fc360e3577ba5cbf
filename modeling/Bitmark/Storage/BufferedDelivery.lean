import Bitmark.Storage.BufferedFile

/-!
# What the buffered file delivers

Between two seeks the buffer is a window on the file. A refill moves the window on, and each call
leaves the position in it, so that what is copied out of the buffer is what the file has there.
-/

namespace Bitmark

open Ring

theorem toUint64_eq {x : Int} {n : ℕ} (hx : x = n) (hn : n < 2 ^ 64) : toUint64 x = n := by
  subst hx
  exact Int.ofNat.inj (toUint64_of_nonneg (Int.natCast_nonneg n) (by exact_mod_cast hn))

theorem toUint64_add {n m : ℕ} (h : n + m < 2 ^ 64) : toUint64 (n + m) = n + m :=
  toUint64_eq (Int.natCast_add n m).symm h

theorem toUint32_of_lt {n : ℕ} (hn : n < 2 ^ 32) : toUint32 n = n := Nat.mod_eq_of_lt hn

namespace FileContent

theorem length_slice (content : FileContent) (pos n : ℕ) :
    (content.slice pos n).length = min n (content.bytes.length - pos) := by
  rw [slice, List.length_take, List.length_drop]

theorem slice_end {content : FileContent} {pos : ℕ} (h : content.bytes.length ≤ pos) (n : ℕ) :
    content.slice pos n = [] := by
  rw [slice, List.drop_of_length_le h, List.take_nil]

theorem slice_split {content : FileContent} {k n : ℕ} (h : k ≤ n) (pos : ℕ) :
    content.slice pos n = content.slice pos k ++ content.slice (pos + k) (n - k) := by
  rw [slice, slice, slice, ← List.drop_drop, ← List.take_add, Nat.add_sub_cancel' h]

theorem distance_end {content : FileContent} {pos : ℕ} (h : content.bytes.length ≤ pos)
    (ch : UInt8) : content.distance pos ch = 0 := by
  rw [distance, List.drop_of_length_le h]
  rfl

theorem distance_self {content : FileContent} {pos : ℕ} {ch : UInt8}
    (h : content.bytes.drop pos = ch :: content.bytes.drop (pos + 1)) : content.distance pos ch = 0 := by
  rw [distance, h, List.takeWhile_cons_of_neg (by simp)]
  rfl

theorem distance_of_ne {content : FileContent} {pos : ℕ} {c ch : UInt8} (hne : c ≠ ch)
    (h : content.bytes.drop pos = c :: content.bytes.drop (pos + 1)) :
    content.distance pos ch = 1 + content.distance (pos + 1) ch := by
  rw [distance, h, List.takeWhile_cons_of_pos (by simpa using hne), List.length_cons, Nat.add_comm]
  rfl

end FileContent

namespace CBufferedFile

/-- Since the last seek, to `base`, the buffer holds what was read from the file, and the position is
in the window. -/
structure Holds (content : FileContent) (base : ℕ) (f : CBufferedFile) : Prop where
  offset_eq : f.src.offset = f.nSrcPos
  base_le : base ≤ f.nReadPos
  read_le : f.nReadPos ≤ f.nSrcPos
  window : f.nSrcPos ≤ f.nReadPos + f.vchBuf.length
  src_le : f.nSrcPos ≤ max base content.bytes.length
  base_lt : base < 2 ^ 63
  rewind_lt : f.nRewind < f.vchBuf.length
  size_lt : f.vchBuf.length < 2 ^ 32
  shows : Shows content.bytes f.vchBuf (max base (f.nSrcPos - f.vchBuf.length)) f.nSrcPos

/-- The limit, the rewind distance and the size of the buffer are kept, and the source position does
not go back. -/
structure Keeps (f f' : CBufferedFile) : Prop where
  limit_eq : f'.nReadLimit = f.nReadLimit
  rewind_eq : f'.nRewind = f.nRewind
  length_eq : f'.vchBuf.length = f.vchBuf.length
  src_le : f.nSrcPos ≤ f'.nSrcPos

variable {content : FileContent} {base : ℕ} {f f' : CBufferedFile}

theorem Keeps.refl (f : CBufferedFile) : f.Keeps f := ⟨rfl, rfl, rfl, le_rfl⟩

theorem Keeps.trans {f'' : CBufferedFile} (h : f.Keeps f') (h' : f'.Keeps f'') : f.Keeps f'' :=
  ⟨h'.limit_eq.trans h.limit_eq, h'.rewind_eq.trans h.rewind_eq, h'.length_eq.trans h.length_eq,
    h.src_le.trans h'.src_le⟩

theorem Holds.src_lt (h : Holds content base f) : f.nSrcPos < 2 ^ 63 :=
  h.src_le.trans_lt (max_lt h.base_lt content.length_lt)

/-- A position in the window. -/
theorem Holds.moveTo (h : Holds content base f) {q : ℕ} (hbase : base ≤ q) (hq : q ≤ f.nSrcPos)
    (hwindow : f.nSrcPos ≤ q + f.vchBuf.length) : Holds content base { f with nReadPos := q } :=
  { h with base_le := hbase, read_le := hq, window := hwindow }

theorem Holds.pos_eq (h : Holds content base f) (q : ℕ) :
    toUint32 (q % f.vchBuf.length) = q % f.vchBuf.length :=
  toUint32_of_lt ((Nat.mod_lt q (Nat.zero_lt_of_lt h.rewind_lt)).trans h.size_lt)

/-- An empty window asks for what reaches neither the end of the buffer nor what may be rewound. -/
theorem Holds.readNow_eq (h : Holds content base f) (hempty : f.nReadPos = f.nSrcPos) :
    f.readNow = min (f.vchBuf.length - f.nSrcPos % f.vchBuf.length) (f.vchBuf.length - f.nRewind) := by
  have hrewind := h.rewind_lt
  have hsize := h.size_lt
  have hnAvail : toUint64 (f.vchBuf.length - (f.nSrcPos - f.nReadPos) - f.nRewind) =
      f.vchBuf.length - f.nRewind := toUint64_eq (by omega) (by omega)
  rw [readNow, h.pos_eq, hnAvail, toUint32_of_lt (by omega), toUint32_of_lt (by omega),
    min_comm]
  exact (min_def_lt _ _).symm

/-- At the end of the file there is nothing to read. -/
theorem Holds.fill_end (h : Holds content base f) (hempty : f.nReadPos = f.nSrcPos)
    (hend : content.bytes.length ≤ f.nSrcPos) : f.fill content =
      ({ f with src := ⟨f.nSrcPos, true⟩, state := true }, .error .endOfFile) := by
  have hmod := Nat.mod_lt f.nSrcPos (Nat.zero_lt_of_lt h.rewind_lt)
  have hrewind := h.rewind_lt
  have hnow : f.readNow ≠ 0 := by
    rw [h.readNow_eq hempty]
    omega
  have hread : fread content f.readNow f.src = ([], ⟨f.nSrcPos, true⟩) := by
    rw [fread, h.offset_eq, content.slice_end hend]
    simp [Nat.pos_of_ne_zero hnow]
  rw [fill, if_neg hnow, hread]
  rfl

/-- Before the end of the file the next bytes come into the window. -/
theorem Holds.fill_next (h : Holds content base f) (hempty : f.nReadPos = f.nSrcPos)
    (hlt : f.nSrcPos < content.bytes.length) : ∃ f', f.fill content = (f', .ok true) ∧
      Holds content base f' ∧ f.Keeps f' ∧ f'.nReadPos = f.nReadPos ∧ f'.nReadPos < f'.nSrcPos := by
  have hmod := Nat.mod_lt f.nSrcPos (Nat.zero_lt_of_lt h.rewind_lt)
  have hrewind := h.rewind_lt
  have hnow := h.readNow_eq hempty
  have hbytes := content.length_lt
  generalize hread : content.slice f.nSrcPos f.readNow = read
  have hlen : read.length = min f.readNow (content.bytes.length - f.nSrcPos) :=
    hread ▸ content.length_slice _ _
  have hfit : f.nSrcPos % f.vchBuf.length + read.length ≤ f.vchBuf.length := by omega
  have hover := length_overwrite hfit
  have hsrc : toUint64 (f.nSrcPos + read.length) = f.nSrcPos + read.length :=
    toUint64_add (by omega)
  have hfill : f.fill content = ({ f with
      src := ⟨f.nSrcPos + read.length, f.src.feof || read.length < f.readNow⟩
      vchBuf := overwrite f.vchBuf (f.nSrcPos % f.vchBuf.length) read
      nSrcPos := f.nSrcPos + read.length }, .ok true) := by
    rw [fill, if_neg (by omega), fread, h.offset_eq, hread]
    dsimp only
    rw [if_neg (by omega), h.pos_eq, hsrc]
  refine ⟨_, hfill, ?_, ⟨rfl, rfl, hover, Nat.le_add_right _ _⟩, rfl, ?_⟩
  · have hshows := h.shows.overwrite (max base (f.nSrcPos + read.length - f.vchBuf.length))
      (by omega) hread.symm hfit (by omega)
    exact {
      offset_eq := rfl
      base_le := h.base_le
      read_le := h.read_le.trans (Nat.le_add_right _ _)
      window := by
        change f.nSrcPos + read.length ≤ f.nReadPos + (overwrite _ _ _).length
        omega
      src_le := by
        change f.nSrcPos + read.length ≤ _
        omega
      base_lt := h.base_lt
      rewind_lt := h.rewind_lt.trans_eq hover.symm
      size_lt := hover.trans_lt h.size_lt
      shows := by
        rw [hover]
        exact hshows }
  · change f.nReadPos < f.nSrcPos + read.length
    omega

/-- A pass of a loop begins with a byte in the window, or the file ends at the position. -/
theorem Holds.refill_cases (h : Holds content base f) : ∃ f', Holds content base f' ∧ f.Keeps f' ∧
    f'.nReadPos = f.nReadPos ∧
      (content.bytes.length ≤ f.nReadPos ∧ f.refill content = (f', .error .endOfFile) ∨
        f.nReadPos < content.bytes.length ∧ f.refill content = (f', .ok true) ∧
          f'.nReadPos < f'.nSrcPos) := by
  by_cases hempty : f.nReadPos = f.nSrcPos
  · rw [refill, if_pos hempty, hempty]
    by_cases hend : content.bytes.length ≤ f.nSrcPos
    · have hfill := h.fill_end hempty hend
      have hholds : Holds content base { f with src := ⟨f.nSrcPos, true⟩, state := true } :=
        { h with offset_eq := rfl }
      exact ⟨_, hholds, ⟨rfl, rfl, rfl, le_rfl⟩, hempty, .inl ⟨hend, hfill⟩⟩
    · obtain ⟨f', hfill, hholds, hkeeps, hpos, hlt⟩ := h.fill_next hempty (not_le.mp hend)
      exact ⟨f', hholds, hkeeps, hpos.trans hempty, .inr ⟨not_le.mp hend, hfill, hlt⟩⟩
  · have hbase := h.base_le
    have hread := h.read_le
    have hsrc := h.src_le
    rw [refill, if_neg hempty]
    exact ⟨f, h, Keeps.refl f, rfl, .inr ⟨by omega, rfl, by omega⟩⟩

/-! ### Reading -/

/-- A call has moved the position by `n`, and the buffer holds what was read as before. -/
structure Advances (content : FileContent) (base : ℕ) (f : CBufferedFile) (n : ℕ) (c : BufferCall) :
    Prop where
  holds : Holds content base c.file
  keeps : f.Keeps c.file
  pos_eq : c.file.nReadPos = f.nReadPos + n

/-- The pass before the call. -/
theorem Advances.trans {n m : ℕ} {c : BufferCall} (hkeeps : f.Keeps f')
    (hpos : f'.nReadPos = f.nReadPos + n) (h : Advances content base f' m c) :
    Advances content base f (n + m) c :=
  ⟨h.holds, hkeeps.trans h.keeps, by rw [h.pos_eq, hpos, Nat.add_assoc]⟩

/-- A pass copies what is asked for, as far as the end of the buffer and the window allow. -/
theorem Holds.nNow_eq (h : Holds content base f) {nSize : ℕ} (hsize : nSize ≤ f.vchBuf.length) :
    f.nNow nSize = min nSize
      (min (f.vchBuf.length - f.nReadPos % f.vchBuf.length) (f.nSrcPos - f.nReadPos)) := by
  have hmod := Nat.mod_lt f.nReadPos (Nat.zero_lt_of_lt h.rewind_lt)
  have hread := h.read_le
  have hsrc := h.src_lt
  have hlength := h.size_lt
  have hrest : toUint64 (f.nSrcPos - f.nReadPos) = f.nSrcPos - f.nReadPos :=
    toUint64_eq (by omega) (by omega)
  have hpos : toUint64 (nSize + (f.nReadPos % f.vchBuf.length : ℕ)) =
      nSize + f.nReadPos % f.vchBuf.length := toUint64_add (by omega)
  rw [nNow, h.pos_eq, hrest, hpos, toUint64_add (by split <;> omega)]
  split <;> split <;> omega

/-- A pass of `read`, at a position with a byte in the window. -/
theorem Holds.readLoop_succ (h : Holds content base f) (hlt : f.nReadPos < f.nSrcPos)
    {fuel nSize : ℕ} (hpos : 0 < nSize) (hsize : nSize ≤ f.vchBuf.length)
    (hrefill : f'.refill content = (f, .ok true)) (pch : Bytes) : ∃ n, 0 < n ∧ n ≤ nSize ∧
      Holds content base { f with nReadPos := f.nReadPos + n } ∧
        f'.readLoop content (fuel + 1) nSize pch =
          { f with nReadPos := f.nReadPos + n }.readLoop content fuel (nSize - n)
            (pch ++ content.slice f.nReadPos n) := by
  have hmod := Nat.mod_lt f.nReadPos (Nat.zero_lt_of_lt h.rewind_lt)
  have hnow := h.nNow_eq hsize
  have hwindow := h.window
  have hbase := h.base_le
  have hsrc := h.src_lt
  have hslice := h.shows.slice (q := f.nReadPos) (n := f.nNow nSize) (by omega) (by omega) (by omega)
  have hmove := h.moveTo (q := f.nReadPos + f.nNow nSize) (by omega) (by omega) (by omega)
  have hadd : toUint64 (f.nReadPos + f.nNow nSize) = f.nReadPos + f.nNow nSize :=
    toUint64_add (by omega)
  refine ⟨f.nNow nSize, by omega, by omega, hmove, ?_⟩
  rw [readLoop, if_neg hpos.ne', hrefill]
  dsimp only
  rw [h.pos_eq, if_neg (by omega), hslice, hadd, FileContent.slice]

theorem Holds.pos_le_length (h : Holds content base f) (hbase : base < f.nReadPos) :
    f.nReadPos ≤ content.bytes.length := by
  have hread := h.read_le
  have hsrc := h.src_le
  omega

/-- The loop of `read` takes the next bytes of the file, and throws where these are too few. -/
theorem Holds.readLoop (h : Holds content base f) {fuel nSize : ℕ} (hfuel : nSize ≤ fuel)
    (hsize : nSize ≤ f.vchBuf.length) (pch : Bytes) :
    (f.readLoop content fuel nSize pch).pch = pch ++ content.slice f.nReadPos nSize ∧
      (f.readLoop content fuel nSize pch).outcome =
        (if (content.slice f.nReadPos nSize).length = nSize then .returns true
          else .throws .endOfFile) ∧
      Advances content base f (content.slice f.nReadPos nSize).length
        (f.readLoop content fuel nSize pch) := by
  induction fuel generalizing nSize pch f with
  | zero =>
    obtain rfl : nSize = 0 := Nat.le_zero.mp hfuel
    exact ⟨(List.append_nil pch).symm, rfl, h, Keeps.refl f, rfl⟩
  | succ fuel ih =>
    obtain rfl | hpos := Nat.eq_zero_or_pos nSize
    · exact ⟨(List.append_nil pch).symm, rfl, h, Keeps.refl f, rfl⟩
    obtain ⟨f', hholds, hkeeps, heq, ⟨hend, hrefill⟩ | ⟨-, hrefill, hlt⟩⟩ := h.refill_cases
    · rw [content.slice_end hend, CBufferedFile.readLoop, if_neg hpos.ne', hrefill]
      exact ⟨(List.append_nil pch).symm, (if_neg hpos.ne).symm, hholds, hkeeps, heq⟩
    · obtain ⟨n, hn, hnle, hmove, hpass⟩ :=
        hholds.readLoop_succ hlt hpos (hkeeps.length_eq ▸ hsize) hrefill pch
      rw [heq] at hmove hpass
      have hkeeps' : f.Keeps { f' with nReadPos := f.nReadPos + n } :=
        ⟨hkeeps.limit_eq, hkeeps.rewind_eq, hkeeps.length_eq, hkeeps.src_le⟩
      have hfuel' : nSize - n ≤ fuel := by omega
      obtain ⟨hpch, houtcome, hadvances⟩ := ih hmove hfuel'
        (hkeeps'.length_eq ▸ (Nat.sub_le nSize n).trans hsize) (pch ++ content.slice f.nReadPos n)
      have hlen : f.nReadPos + n ≤ content.bytes.length :=
        hmove.pos_le_length (Nat.lt_of_le_of_lt h.base_le (Nat.lt_add_of_pos_right hn))
      have hslice := content.length_slice f.nReadPos n
      have hlength : (content.slice f.nReadPos n).length = n := by omega
      have hcount : ∀ m, m = nSize - n ↔ n + m = nSize := fun m ↦ by omega
      rw [hpass, content.slice_split hnle, List.length_append, hlength]
      exact ⟨hpch.trans (List.append_assoc _ _ _), houtcome.trans (if_congr (hcount _) rfl rfl),
        hadvances.trans hkeeps' rfl⟩

/-- The byte at the position of the ring. -/
theorem Holds.getD_eq (h : Holds content base f) (hlt : f.nReadPos < f.nSrcPos) :
    ∃ c, f.vchBuf.getD (f.nReadPos % f.vchBuf.length) 0 = c ∧
      content.bytes.drop f.nReadPos = c :: content.bytes.drop (f.nReadPos + 1) := by
  have hbase := h.base_le
  have hsrc := h.src_le
  have hwindow := h.window
  have hlen : f.nReadPos < content.bytes.length := by omega
  have hshows := h.shows f.nReadPos (by omega) hlt
  refine ⟨content.bytes[f.nReadPos], ?_, List.drop_eq_getElem_cons hlen⟩
  rw [List.getD_eq_getElem?_getD, hshows, List.getElem?_eq_getElem hlen]
  rfl

/-- The loop of `FindByte` passes the bytes that are others, and throws where the file has none. -/
theorem Holds.findLoop (h : Holds content base f) (ch : UInt8) {fuel : ℕ}
    (hfuel : content.bytes.length - f.nReadPos < fuel) :
    (f.findLoop content ch fuel).pch = [] ∧
      (f.findLoop content ch fuel).outcome =
        (if ch ∈ content.bytes.drop f.nReadPos then .returns true else .throws .endOfFile) ∧
      Advances content base f (content.distance f.nReadPos ch) (f.findLoop content ch fuel) := by
  induction fuel generalizing f with
  | zero => exact absurd hfuel (Nat.not_lt_zero _)
  | succ fuel ih =>
    obtain ⟨f', hholds, hkeeps, heq, ⟨hend, hrefill⟩ | ⟨hnext, hrefill, hlt⟩⟩ := h.refill_cases
    · rw [content.distance_end hend, List.drop_of_length_le hend, CBufferedFile.findLoop, hrefill]
      exact ⟨rfl, (if_neg List.not_mem_nil).symm, hholds, hkeeps, heq⟩
    · obtain ⟨c, hc, hdrop⟩ := hholds.getD_eq hlt
      rw [heq] at hdrop
      rw [CBufferedFile.findLoop, hrefill]
      dsimp only
      rw [hc]
      by_cases hch : c = ch
      · subst hch
        rw [if_pos rfl, content.distance_self hdrop, hdrop, if_pos List.mem_cons_self]
        exact ⟨rfl, rfl, hholds, hkeeps, heq⟩
      · have hbase := hholds.base_le
        have hwindow := hholds.window
        have hsrc := hholds.src_lt
        have hmove := hholds.moveTo (q := f.nReadPos + 1) (by omega) (by omega) (by omega)
        have hadd : toUint64 (f'.nReadPos + 1) = f.nReadPos + 1 := toUint64_eq (by omega) (by omega)
        have hkeeps' : f.Keeps { f' with nReadPos := f.nReadPos + 1 } :=
          ⟨hkeeps.limit_eq, hkeeps.rewind_eq, hkeeps.length_eq, hkeeps.src_le⟩
        have hmem : ch ∈ content.bytes.drop f.nReadPos ↔ ch ∈ content.bytes.drop (f.nReadPos + 1) := by
          rw [hdrop, List.mem_cons, or_iff_right (Ne.symm hch)]
        obtain ⟨hpch, houtcome, hadvances⟩ := ih hmove (by dsimp only; omega)
        rw [if_neg hch, hadd, content.distance_of_ne hch hdrop]
        exact ⟨hpch, houtcome.trans (if_congr hmem.symm rfl rfl), hadvances.trans hkeeps' rfl⟩

/-- `read` throws at the limit and where the buffer is too small, and takes the next bytes of the file
elsewhere. -/
theorem Holds.read (h : Holds content base f) {nSize : ℕ} (hwrap : nSize + f.nRewind < 2 ^ 64) :
    (f.nReadLimit < f.nReadPos + nSize ∨ f.vchBuf.length < nSize + f.nRewind) ∧
        (f.read content nSize = ⟨f, [], .throws .pastLimit⟩ ∨
          f.read content nSize = ⟨f, [], .throws .largerThanBuffer⟩) ∨
      f.nReadPos + nSize ≤ f.nReadLimit ∧ nSize + f.nRewind ≤ f.vchBuf.length ∧
        (f.read content nSize).pch = content.slice f.nReadPos nSize ∧
        (f.read content nSize).outcome = (if (content.slice f.nReadPos nSize).length = nSize then
          .returns true else .throws .endOfFile) ∧
        Advances content base f (content.slice f.nReadPos nSize).length (f.read content nSize) := by
  have hrewind := h.rewind_lt
  have hlength := h.size_lt
  have hread := h.read_le
  have hsrc := h.src_lt
  have hsize : toUint64 (nSize + f.nRewind) = nSize + f.nRewind := toUint64_add hwrap
  rw [CBufferedFile.read, hsize]
  by_cases hlarge : f.vchBuf.length < nSize + f.nRewind
  · refine .inl ⟨.inr hlarge, ?_⟩
    rw [if_pos hlarge]
    split
    · exact .inl rfl
    · exact .inr rfl
  · have hlimit : toUint64 (nSize + f.nReadPos) = nSize + f.nReadPos :=
      toUint64_add (by omega)
    rw [hlimit]
    by_cases hpast : f.nReadLimit < nSize + f.nReadPos
    · rw [if_pos hpast]
      exact .inl ⟨.inl (by omega), .inl rfl⟩
    · rw [if_neg hpast, if_neg hlarge]
      exact .inr ⟨by omega, by omega, h.readLoop le_rfl (by omega) []⟩

/-! ### Moving -/

/-- `SetPos` stays in the window where it does not lead before the last seek. -/
theorem Holds.setPos (h : Holds content base f) {nPos : ℕ}
    (hkept : if toUint64 (nPos + f.nRewind) < f.nSrcPos then base + f.nRewind ≤ f.nSrcPos
      else base ≤ nPos) :
    Holds content base (f.setPos nPos).file ∧ f.Keeps (f.setPos nPos).file := by
  have hrewind := h.rewind_lt
  have hbase := h.base_le
  have hread := h.read_le
  have hsrc := h.src_lt
  have hlength := h.size_lt
  rw [CBufferedFile.setPos]
  split at hkept
  · next hback =>
    have hsub : toUint64 (f.nSrcPos - f.nRewind) = f.nSrcPos - f.nRewind :=
      toUint64_eq (by omega) (by omega)
    rw [if_pos hback, hsub]
    exact ⟨h.moveTo (by omega) (by omega) (by omega), rfl, rfl, rfl, le_rfl⟩
  · next hback =>
    rw [if_neg hback]
    split
    · exact ⟨h.moveTo (by omega) le_rfl (by omega), rfl, rfl, rfl, le_rfl⟩
    · next hin =>
      have hwrap : toUint64 (nPos + f.nRewind) = nPos + f.nRewind :=
        toUint64_add (by omega)
      exact ⟨h.moveTo hkept (by omega) (by omega), rfl, rfl, rfl, le_rfl⟩

/-- `SetPos` tells whether it stands where it was asked to. -/
theorem Holds.setPos_outcome (h : Holds content base f) {nPos : ℕ}
    (hkept : if toUint64 (nPos + f.nRewind) < f.nSrcPos then base + f.nRewind ≤ f.nSrcPos
      else base ≤ nPos) :
    (f.setPos nPos).outcome = .returns (decide ((f.setPos nPos).file.nReadPos = nPos)) := by
  have hsrc := h.src_lt
  rw [CBufferedFile.setPos]
  split at hkept
  · next hback =>
    have hsub : toUint64 (f.nSrcPos - f.nRewind) = f.nSrcPos - f.nRewind :=
      toUint64_eq (by omega) (by omega)
    have hne : f.nSrcPos - f.nRewind ≠ nPos := by
      rintro rfl
      have hsum : toUint64 ((f.nSrcPos - f.nRewind : ℕ) + f.nRewind) = f.nSrcPos :=
        toUint64_eq (by omega) (by omega)
      omega
    rw [if_pos hback, hsub]
    exact congrArg _ (decide_eq_false hne).symm
  · next hback =>
    rw [if_neg hback]
    split
    · next hpast => exact congrArg _ (decide_eq_false hpast.ne).symm
    · exact congrArg _ (decide_eq_true rfl).symm

/-- `Seek` fails for what a `long` holds as a negative number. -/
theorem seek_eq {nPos : ℕ} (hnPos : nPos < 2 ^ 64) (f : CBufferedFile) :
    f.seek nPos = if nPos < 2 ^ 63 then
      ⟨{ f with src := ⟨nPos, false⟩, nSrcPos := nPos, nReadPos := nPos, state := false }, [],
        .returns true⟩
    else ⟨f, [], .returns false⟩ := by
  rw [seek, toUint64_toInt64 hnPos, if_neg (not_not.mpr rfl)]
  by_cases hlt : nPos < 2 ^ 63
  · rw [if_pos hlt, toInt64_of_range (by omega) (by omega), fseek, if_neg (by omega)]
    rfl
  · obtain ⟨k, hk⟩ := toInt64_eq_sub nPos
    have hrange := toInt64_range nPos
    rw [if_neg hlt, fseek, if_pos (by omega)]

/-- After a seek the window is empty. -/
theorem Holds.seek (h : Holds content base f) {nPos : ℕ} (hlt : nPos < 2 ^ 63) :
    Holds content nPos
      { f with src := ⟨nPos, false⟩, nSrcPos := nPos, nReadPos := nPos, state := false } where
  offset_eq := rfl
  base_le := le_rfl
  read_le := le_rfl
  window := Nat.le_add_right _ _
  src_le := le_max_left _ _
  base_lt := hlt
  rewind_lt := h.rewind_lt
  size_lt := h.size_lt
  shows _ hq hqlt := absurd ((le_max_left _ _).trans hq) (not_le.mpr hqlt)

/-! ### Large buffers -/

/-- The cursors of a refill have 32 bits, and a size that is a multiple of `2 ^ 32` counts as zero. -/
theorem fill_of_dvd (hsize : 2 ^ 32 ∣ f.vchBuf.length) (hsrc : f.nSrcPos = 0) :
    f.fill content = (f, .ok false) := by
  have hlength : toUint32 f.vchBuf.length = 0 := Nat.mod_eq_zero_of_dvd hsize
  have hzero : toUint32 0 = 0 := rfl
  have hnow : f.readNow = 0 := by
    rw [readNow, hsrc, Nat.zero_mod, hzero, Nat.sub_zero, hlength]
    exact if_neg (Nat.not_lt_zero _)
  rw [fill, if_pos hnow]

/-- A read from such a buffer does not end. -/
theorem readLoop_stuck (hsize : 2 ^ 32 ∣ f.vchBuf.length) (hsrc : f.nSrcPos = 0)
    (hread : f.nReadPos = 0) {nSize : ℕ} (hpos : 0 < nSize) (hwrap : nSize < 2 ^ 64)
    (hfits : nSize ≤ f.vchBuf.length) (fuel : ℕ) (pch : Bytes) :
    (f.readLoop content fuel nSize pch).outcome = .stuck := by
  have hzero : toUint32 (f.nReadPos % f.vchBuf.length) = 0 := by
    rw [hread, Nat.zero_mod]
    rfl
  have hsum : toUint64 (nSize + (0 : ℕ)) = nSize := toUint64_eq (add_zero _) hwrap
  have hnow : f.nNow nSize = 0 := by
    rw [nNow, hzero, hread, hsrc, hsum, if_neg (not_lt.mpr hfits), hsum, if_pos hpos]
    rfl
  have hsame : { f with nReadPos := toUint64 (f.nReadPos + (0 : ℕ)) } = f := by
    have hstay : toUint64 (f.nReadPos + (0 : ℕ)) = f.nReadPos := by
      rw [hread]
      rfl
    rw [hstay]
  have hrefill : f.refill content = (f, .ok false) := by
    rw [refill, if_pos (hread.trans hsrc.symm), fill_of_dvd hsize hsrc]
  induction fuel generalizing pch with
  | zero => exact if_neg hpos.ne'
  | succ fuel ih =>
    rw [readLoop, if_neg hpos.ne', hrefill]
    dsimp only
    rw [hnow, hzero, if_neg (Nat.not_lt_zero _), hsame]
    exact ih _

theorem construct_read_stuck {nBufSize nRewind nSize : ℕ} (hsize : 2 ^ 32 ∣ nBufSize)
    (hpos : 0 < nSize) (hfits : nSize + nRewind ≤ nBufSize) (hwrap : nSize + nRewind < 2 ^ 64) :
    ((construct nBufSize nRewind).read content nSize).outcome = .stuck := by
  have hlength : (construct nBufSize nRewind).vchBuf.length = nBufSize := List.length_replicate
  have hlimit : toUint64 (nSize + (construct nBufSize nRewind).nReadPos) = nSize :=
    toUint64_add (m := 0) (by omega)
  have hlarge : toUint64 (nSize + (construct nBufSize nRewind).nRewind) = nSize + nRewind :=
    toUint64_add hwrap
  have hunlimited : ¬(construct nBufSize nRewind).nReadLimit < nSize :=
    not_lt.mpr (show nSize ≤ 2 ^ 64 - 1 by omega)
  rw [CBufferedFile.read, hlimit, if_neg hunlimited, hlength, hlarge, if_neg (not_lt.mpr hfits)]
  exact readLoop_stuck (hlength.symm ▸ hsize) rfl rfl hpos (by omega) (by omega) nSize []

end CBufferedFile

end Bitmark
