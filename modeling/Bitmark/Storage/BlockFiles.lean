import Mathlib.Data.Finmap
import Mathlib.Order.Lattice.Nat
import Mathlib.Tactic.Common

/-!
# Room in the block files

`FindBlockPos` and `FindUndoPos` of `src/main.cpp:2710–2803` over the counters of
`CBlockFileInfo` (`src/main.h:499`). A record placed in a file takes the bytes from its start to
its end; the counters are meant to stay at or behind the end of the furthest one.
-/

namespace Bitmark

/-- `CDiskBlockPos`. -/
structure CDiskBlockPos where
  nFile : Nat
  nPos : BitVec 32
deriving DecidableEq

/-- `CBlockFileInfo`, `src/main.h:499`. -/
structure CBlockFileInfo where
  nBlocks : BitVec 32 := 0
  nSize : BitVec 32 := 0
  nUndoSize : BitVec 32 := 0
  nHeightFirst : BitVec 32 := 0
  nHeightLast : BitVec 32 := 0
  nTimeFirst : BitVec 64 := 0
  nTimeLast : BitVec 64 := 0
deriving DecidableEq

/-- `AddBlock`: the statistics, without `nSize`. -/
def CBlockFileInfo.addBlock (info : CBlockFileInfo) (nHeightIn : BitVec 32)
    (nTimeIn : BitVec 64) : CBlockFileInfo where
  nBlocks := info.nBlocks + 1
  nSize := info.nSize
  nUndoSize := info.nUndoSize
  nHeightFirst :=
    if info.nBlocks = 0 ∨ nHeightIn < info.nHeightFirst then nHeightIn else info.nHeightFirst
  nHeightLast := if info.nHeightLast < nHeightIn then nHeightIn else info.nHeightLast
  nTimeFirst := if info.nBlocks = 0 ∨ nTimeIn < info.nTimeFirst then nTimeIn else info.nTimeFirst
  nTimeLast := if info.nTimeLast < nTimeIn then nTimeIn else info.nTimeLast

/-- `MAX_BLOCKFILE_SIZE`, 128 MiB. -/
def maxBlockfileSize : BitVec 32 := 0x8000000

/-- `BLOCKFILE_CHUNK_SIZE`, 16 MiB. -/
def blockfileChunkSize : BitVec 32 := 0x1000000

/-- `UNDOFILE_CHUNK_SIZE`, 1 MiB. -/
def undofileChunkSize : BitVec 32 := 0x100000

/-- The bytes before a block in its file: the message start and the size. -/
def blockHeaderSize : Nat := 8

/-- `nLastBlockFile`, `infoLastBlockFile` and the file records of `pblocktree`. What
`WriteLastBlockFile` stores is read at a start only. -/
structure BlockFiles where
  nLastBlockFile : Nat := 0
  infoLastBlockFile : CBlockFileInfo := {}
  fileInfo : Finmap fun _ : Nat ↦ CBlockFileInfo := ∅

namespace BlockFiles

/-- `ReadBlockFileInfo` into a record that was set to null. -/
def readBlockFileInfo (s : BlockFiles) (nFile : Nat) : CBlockFileInfo :=
  (s.fileInfo.lookup nFile).getD {}

/-- `WriteBlockFileInfo`. A failure stops the node. -/
def writeBlockFileInfo (s : BlockFiles) (nFile : Nat) (info : CBlockFileInfo) : BlockFiles :=
  { s with fileInfo := s.fileInfo.insert nFile info }

/-- Make a file the last one, with the counters stored for it. -/
def openFile (s : BlockFiles) (nFile : Nat) : BlockFiles :=
  { s with nLastBlockFile := nFile, infoLastBlockFile := s.readBlockFileInfo nFile }

/-- The test of the loop of `FindBlockPos`, in `unsigned int`. -/
def isFull (info : CBlockFileInfo) (nAddSize : BitVec 32) : Prop :=
  maxBlockfileSize ≤ info.nSize + nAddSize

instance (info : CBlockFileInfo) (nAddSize : BitVec 32) : Decidable (isFull info nAddSize) :=
  inferInstanceAs (Decidable (_ ≤ _))

/-- The loop of `FindBlockPos` that leaves full files. -/
def leaveFull (nAddSize : BitVec 32) : Nat → BlockFiles → Option BlockFiles
  | 0, _ => none
  | fuel + 1, s =>
    if isFull s.infoLastBlockFile nAddSize then
      leaveFull nAddSize fuel (s.openFile (s.nLastBlockFile + 1))
    else some s

/-- Enough fuel to pass every file that has a record: behind them all files are empty. -/
def fuel (s : BlockFiles) : Nat := s.fileInfo.keys.sup id + 2

/-- `infoLastBlockFile.nSize += nAddSize; infoLastBlockFile.AddBlock(nHeight, nTime)`. -/
def addBlock (s : BlockFiles) (nAddSize nHeight : BitVec 32) (nTime : BitVec 64) : BlockFiles :=
  { s with
    infoLastBlockFile :=
      { s.infoLastBlockFile with nSize := s.infoLastBlockFile.nSize + nAddSize }.addBlock nHeight
        nTime }

/-- Whether a record from `nPos` to `nSize` needs another chunk of its file. -/
def needsChunk (chunkSize nPos nSize : BitVec 32) : Bool :=
  decide ((nPos + chunkSize - 1) / chunkSize < (nSize + chunkSize - 1) / chunkSize)

/-- `FindBlockPos` for a block that is already in a file. -/
def findKnownBlockPos (s : BlockFiles) (pos : CDiskBlockPos) (nAddSize nHeight : BitVec 32)
    (nTime : BitVec 64) : BlockFiles :=
  let s := if s.nLastBlockFile ≠ pos.nFile then s.openFile pos.nFile else s
  let s := s.addBlock nAddSize nHeight nTime
  s.writeBlockFileInfo s.nLastBlockFile s.infoLastBlockFile

/-- `FindBlockPos` for a new block: nothing when its loop does not end, and no position when
`CheckDiskSpace` says there is no room for another chunk. -/
def findBlockPos (s : BlockFiles) (nAddSize nHeight : BitVec 32) (nTime : BitVec 64)
    (checkDiskSpace : Bool) : Option (BlockFiles × Option CDiskBlockPos) := do
  let s ← leaveFull nAddSize s.fuel s
  let pos : CDiskBlockPos := ⟨s.nLastBlockFile, s.infoLastBlockFile.nSize⟩
  let s := s.addBlock nAddSize nHeight nTime
  if needsChunk blockfileChunkSize pos.nPos s.infoLastBlockFile.nSize && !checkDiskSpace then
    some (s, none)
  else some (s.writeBlockFileInfo s.nLastBlockFile s.infoLastBlockFile, some pos)

/-- The counters `FindUndoPos` works on: those in memory for the last file, stored ones for the
others, if there are any. -/
def undoInfo (s : BlockFiles) (nFile : Nat) : Option CBlockFileInfo :=
  if nFile = s.nLastBlockFile then some s.infoLastBlockFile else s.fileInfo.lookup nFile

/-- `FindUndoPos`. -/
def findUndoPos (s : BlockFiles) (nFile : Nat) (nAddSize : BitVec 32) (checkDiskSpace : Bool) :
    BlockFiles × Option CDiskBlockPos :=
  match s.undoInfo nFile with
  | none => (s, none)
  | some info =>
    let pos : CDiskBlockPos := ⟨nFile, info.nUndoSize⟩
    let info := { info with nUndoSize := info.nUndoSize + nAddSize }
    let s := if nFile = s.nLastBlockFile then { s with infoLastBlockFile := info } else s
    let s := s.writeBlockFileInfo nFile info
    if needsChunk undofileChunkSize pos.nPos info.nUndoSize && !checkDiskSpace then (s, none)
    else (s, some pos)

end BlockFiles

/-- A record in a block file or an undo file, with the bytes it takes. -/
structure DiskRecord where
  undo : Bool
  known : Bool
  nFile : Nat
  start : Nat
  stop : Nat
deriving DecidableEq

/-- The calls. The position of a known block is that of the block, behind its header. -/
inductive FileOp
  | newBlock (nAddSize nHeight : BitVec 32) (nTime : BitVec 64) (checkDiskSpace : Bool)
  | knownBlock (pos : CDiskBlockPos) (nAddSize nHeight : BitVec 32) (nTime : BitVec 64)
  | undo (nFile : Nat) (nAddSize : BitVec 32) (checkDiskSpace : Bool)

/-- The counters, with the records placed so far, the latest first. -/
structure Disk where
  files : BlockFiles
  placed : List DiskRecord := []

namespace Disk

/-- Place a record of `nAddSize` bytes where a call said. -/
def place (undo : Bool) (nAddSize : BitVec 32) (files : BlockFiles) (placed : List DiskRecord) :
    Option CDiskBlockPos → Disk
  | none => ⟨files, placed⟩
  | some pos =>
    ⟨files, ⟨undo, false, pos.nFile, pos.nPos.toNat, pos.nPos.toNat + nAddSize.toNat⟩ :: placed⟩

/-- One call, and the record it is for. -/
def step (d : Disk) : FileOp → Option Disk
  | .newBlock nAddSize nHeight nTime checkDiskSpace => do
    let (files, pos) ← d.files.findBlockPos nAddSize nHeight nTime checkDiskSpace
    some (place false nAddSize files d.placed pos)
  | .knownBlock pos nAddSize nHeight nTime =>
    some ⟨d.files.findKnownBlockPos pos nAddSize nHeight nTime,
      ⟨false, true, pos.nFile, pos.nPos.toNat - blockHeaderSize,
        pos.nPos.toNat - blockHeaderSize + nAddSize.toNat⟩ :: d.placed⟩
  | .undo nFile nAddSize checkDiskSpace =>
    let (files, pos) := d.files.findUndoPos nFile nAddSize checkDiskSpace
    some (place true nAddSize files d.placed pos)

/-- A sequence of calls. -/
def run : Disk → List FileOp → Option Disk
  | d, [] => some d
  | d, op :: ops => do
    let d ← d.step op
    d.run ops

end Disk

namespace BlockFiles

/-! ### The counters of a file -/

/-- The counters of a file, as a call would find them. -/
def counters (s : BlockFiles) (nFile : Nat) : CBlockFileInfo :=
  if nFile = s.nLastBlockFile then s.infoLastBlockFile else s.readBlockFileInfo nFile

@[simp] theorem counters_last (s : BlockFiles) :
    s.counters s.nLastBlockFile = s.infoLastBlockFile := if_pos rfl

theorem counters_of_ne {s : BlockFiles} {nFile : Nat} (h : nFile ≠ s.nLastBlockFile) :
    s.counters nFile = s.readBlockFileInfo nFile := if_neg h

theorem counters_openFile {s : BlockFiles} {nFile nFile' : Nat}
    (h : nFile' ≠ s.nLastBlockFile) : (s.openFile nFile).counters nFile' = s.counters nFile' := by
  rw [counters_of_ne h]
  by_cases heq : nFile' = nFile
  · rw [heq]
    exact counters_last _
  · exact counters_of_ne heq

/-- The loop stops at the first file with room, from the last one on. -/
theorem leaveFull_eq_some {nAddSize : BitVec 32} {fuel : Nat} {s s' : BlockFiles}
    (h : leaveFull nAddSize fuel s = some s') :
    s'.fileInfo = s.fileInfo ∧ s.nLastBlockFile ≤ s'.nLastBlockFile ∧
      s'.infoLastBlockFile = s.counters s'.nLastBlockFile ∧
      ¬ isFull s'.infoLastBlockFile nAddSize ∧
      ∀ nFile, s.nLastBlockFile ≤ nFile → nFile < s'.nLastBlockFile →
        isFull (s.counters nFile) nAddSize := by
  induction fuel generalizing s with
  | zero => cases h
  | succ fuel ih =>
    unfold leaveFull at h
    split at h
    · next hfull =>
      obtain ⟨hfiles, hle, hinfo, hroom, hbefore⟩ := ih h
      have hlt : s.nLastBlockFile < s'.nLastBlockFile := hle
      refine ⟨hfiles, hlt.le, ?_, hroom, fun nFile hfrom hto ↦ ?_⟩
      · rw [hinfo, counters_openFile hlt.ne']
      · rcases hfrom.eq_or_lt with rfl | hgt
        · rwa [counters_last]
        · rw [← @counters_openFile s (s.nLastBlockFile + 1) _ hgt.ne']
          exact hbefore nFile hgt hto
    · next hroom =>
      obtain rfl := Option.some.inj h
      refine ⟨rfl, le_rfl, (counters_last s).symm, hroom, fun nFile hfrom hto ↦ ?_⟩
      exact absurd hfrom hto.not_ge

/-- Behind the files that have a record all are empty. -/
theorem readBlockFileInfo_of_lt {s : BlockFiles} {nFile : Nat}
    (h : s.fileInfo.keys.sup id < nFile) : s.readBlockFileInfo nFile = {} := by
  rw [readBlockFileInfo, Finmap.lookup_eq_none.mpr, Option.getD_none]
  intro hmem
  have hle : nFile ≤ s.fileInfo.keys.sup id := Finset.le_sup (f := id) (Finmap.mem_keys.mpr hmem)
  exact absurd h hle.not_gt

private theorem exists_leaveFull_from {nAddSize : BitVec 32} (h : nAddSize < maxBlockfileSize)
    {fuel : Nat} {s : BlockFiles} (hfuel : s.fileInfo.keys.sup id + 1 < s.nLastBlockFile + fuel)
    (hread : s.infoLastBlockFile = s.readBlockFileInfo s.nLastBlockFile) (hpos : 0 < fuel) :
    ∃ s', leaveFull nAddSize fuel s = some s' := by
  induction fuel generalizing s with
  | zero => exact absurd hpos (Nat.lt_irrefl 0)
  | succ fuel ih =>
    unfold leaveFull
    split
    · next hfull =>
      have hin : s.nLastBlockFile ≤ s.fileInfo.keys.sup id := by
        by_contra hout
        rw [hread, readBlockFileInfo_of_lt (not_le.mp hout), isFull] at hfull
        exact absurd h (BitVec.not_lt.mpr (by simpa using hfull))
      refine ih ?_ rfl (by omega)
      show s.fileInfo.keys.sup id + 1 < s.nLastBlockFile + 1 + fuel
      omega
    · exact ⟨s, rfl⟩

/-- The loop ends when the new record alone fits into a file. -/
theorem exists_leaveFull (s : BlockFiles) {nAddSize : BitVec 32}
    (h : nAddSize < maxBlockfileSize) : ∃ s', leaveFull nAddSize s.fuel s = some s' := by
  unfold fuel leaveFull
  split
  · refine exists_leaveFull_from h ?_ rfl (Nat.succ_pos _)
    show s.fileInfo.keys.sup id + 1 < s.nLastBlockFile + 1 + (s.fileInfo.keys.sup id + 1)
    omega
  · exact ⟨s, rfl⟩

/-! ### What the counters cover -/

/-- The counter for one kind of records. -/
def used (info : CBlockFileInfo) (undo : Bool) : Nat :=
  if undo then info.nUndoSize.toNat else info.nSize.toNat

/-- The stored counters of every file, and those in memory for the last one, are at least the
end of each record placed in it. -/
structure Covers (s : BlockFiles) (placed : List DiskRecord) : Prop where
  stored : ∀ r ∈ placed, r.stop ≤ used (s.readBlockFileInfo r.nFile) r.undo
  last : ∀ r ∈ placed, r.nFile = s.nLastBlockFile → r.stop ≤ used s.infoLastBlockFile r.undo

theorem covers_nil (s : BlockFiles) : s.Covers [] := ⟨nofun, nofun⟩

theorem Covers.counters {s : BlockFiles} {placed : List DiskRecord} (h : s.Covers placed)
    {r : DiskRecord} (hr : r ∈ placed) : r.stop ≤ used (s.counters r.nFile) r.undo := by
  by_cases hlast : r.nFile = s.nLastBlockFile
  · rw [hlast, counters_last]
    exact h.last r hr hlast
  · rw [counters_of_ne hlast]
    exact h.stored r hr

/-- Taking another file for the last one, with the counters it has. -/
theorem Covers.reopen {s s' : BlockFiles} {placed : List DiskRecord} (h : s.Covers placed)
    (hfiles : s'.fileInfo = s.fileInfo)
    (hinfo : s'.infoLastBlockFile = s.counters s'.nLastBlockFile) : s'.Covers placed := by
  constructor
  · intro r hr
    rw [readBlockFileInfo, hfiles]
    exact h.stored r hr
  · intro r hr hlast
    rw [hinfo, ← hlast]
    exact h.counters hr

/-- The counters of the last file grow in memory. -/
theorem Covers.grow {s : BlockFiles} {placed : List DiskRecord} (h : s.Covers placed)
    {info : CBlockFileInfo} (hgrow : ∀ undo, used s.infoLastBlockFile undo ≤ used info undo) :
    Covers { s with infoLastBlockFile := info } placed :=
  ⟨h.stored, fun r hr hlast ↦ (h.last r hr hlast).trans (hgrow r.undo)⟩

/-- Store the counters of a file, and keep them in memory if it is the last one. -/
def setCounters (s : BlockFiles) (nFile : Nat) (info : CBlockFileInfo) : BlockFiles :=
  writeBlockFileInfo (if nFile = s.nLastBlockFile then { s with infoLastBlockFile := info } else s)
    nFile info

@[simp] theorem nLastBlockFile_setCounters (s : BlockFiles) (nFile : Nat)
    (info : CBlockFileInfo) : (s.setCounters nFile info).nLastBlockFile = s.nLastBlockFile := by
  unfold setCounters writeBlockFileInfo
  split <;> rfl

theorem infoLastBlockFile_setCounters (s : BlockFiles) (nFile : Nat) (info : CBlockFileInfo) :
    (s.setCounters nFile info).infoLastBlockFile =
      if nFile = s.nLastBlockFile then info else s.infoLastBlockFile := by
  unfold setCounters writeBlockFileInfo
  split <;> rfl

theorem readBlockFileInfo_setCounters (s : BlockFiles) (nFile nFile' : Nat)
    (info : CBlockFileInfo) : (s.setCounters nFile info).readBlockFileInfo nFile' =
      if nFile' = nFile then info else s.readBlockFileInfo nFile' := by
  have hfiles : (s.setCounters nFile info).fileInfo = s.fileInfo.insert nFile info := by
    unfold setCounters writeBlockFileInfo
    split <;> rfl
  unfold readBlockFileInfo
  rw [hfiles]
  by_cases heq : nFile' = nFile
  · rw [heq, Finmap.lookup_insert, if_pos rfl, Option.getD_some]
  · rw [Finmap.lookup_insert_of_ne _ heq, if_neg heq]

/-- The counters of a file grow and are stored. -/
theorem Covers.setCounters {s : BlockFiles} {placed : List DiskRecord} (h : s.Covers placed)
    {nFile : Nat} {info : CBlockFileInfo}
    (hgrow : ∀ undo, used (s.counters nFile) undo ≤ used info undo) :
    (s.setCounters nFile info).Covers placed := by
  constructor
  · intro r hr
    rw [readBlockFileInfo_setCounters]
    split
    · next heq =>
      rw [← heq] at hgrow
      exact (h.counters hr).trans (hgrow r.undo)
    · exact h.stored r hr
  · intro r hr hlast
    rw [nLastBlockFile_setCounters] at hlast
    rw [infoLastBlockFile_setCounters]
    split
    · next heq =>
      rw [heq, ← hlast] at hgrow
      exact (h.counters hr).trans (hgrow r.undo)
    · exact h.last r hr hlast

/-- A record is covered once the counters of its file have grown to its end. -/
theorem Covers.place {s : BlockFiles} {placed : List DiskRecord} (h : s.Covers placed)
    {r : DiskRecord} {info : CBlockFileInfo}
    (hgrow : ∀ undo, used (s.counters r.nFile) undo ≤ used info undo)
    (hstop : r.stop ≤ used info r.undo) :
    (s.setCounters r.nFile info).Covers (r :: placed) := by
  have hplaced := h.setCounters hgrow
  constructor
  · refine List.forall_mem_cons.mpr ⟨?_, hplaced.stored⟩
    rwa [readBlockFileInfo_setCounters, if_pos rfl]
  · refine List.forall_mem_cons.mpr ⟨fun hlast ↦ ?_, hplaced.last⟩
    rw [nLastBlockFile_setCounters] at hlast
    rwa [infoLastBlockFile_setCounters, if_pos hlast]

/-! ### The calls -/

/-- The counters of a file after a block of `nAddSize` bytes. -/
def withBlock (info : CBlockFileInfo) (nAddSize nHeight : BitVec 32) (nTime : BitVec 64) :
    CBlockFileInfo :=
  { info with nSize := info.nSize + nAddSize }.addBlock nHeight nTime

/-- The counters of a file after an undo record of `nAddSize` bytes. -/
def withUndo (info : CBlockFileInfo) (nAddSize : BitVec 32) : CBlockFileInfo :=
  { info with nUndoSize := info.nUndoSize + nAddSize }

theorem used_withBlock {info : CBlockFileInfo} {nAddSize : BitVec 32} (nHeight : BitVec 32)
    (nTime : BitVec 64) (h : info.nSize.toNat + nAddSize.toNat < 2 ^ 32) (undo : Bool) :
    used (withBlock info nAddSize nHeight nTime) undo =
      used info undo + if undo then 0 else nAddSize.toNat := by
  cases undo with
  | true => rfl
  | false =>
    show (info.nSize + nAddSize).toNat = info.nSize.toNat + nAddSize.toNat
    rw [BitVec.toNat_add, Nat.mod_eq_of_lt h]

theorem used_withUndo {info : CBlockFileInfo} {nAddSize : BitVec 32}
    (h : info.nUndoSize.toNat + nAddSize.toNat < 2 ^ 32) (undo : Bool) :
    used (withUndo info nAddSize) undo =
      used info undo + if undo then nAddSize.toNat else 0 := by
  cases undo with
  | true =>
    show (info.nUndoSize + nAddSize).toNat = info.nUndoSize.toNat + nAddSize.toNat
    rw [BitVec.toNat_add, Nat.mod_eq_of_lt h]
  | false => rfl

theorem writeBlockFileInfo_addBlock (s : BlockFiles) (nAddSize nHeight : BitVec 32)
    (nTime : BitVec 64) :
    (s.addBlock nAddSize nHeight nTime).writeBlockFileInfo s.nLastBlockFile
      (s.addBlock nAddSize nHeight nTime).infoLastBlockFile =
    s.setCounters s.nLastBlockFile (withBlock s.infoLastBlockFile nAddSize nHeight nTime) := by
  rw [setCounters, if_pos rfl]
  rfl

/-- What `FindBlockPos` does for a known block: it adds the size to the counters of its file. -/
theorem findKnownBlockPos_eq (s : BlockFiles) (pos : CDiskBlockPos) (nAddSize nHeight : BitVec 32)
    (nTime : BitVec 64) :
    s.findKnownBlockPos pos nAddSize nHeight nTime =
      (if s.nLastBlockFile ≠ pos.nFile then s.openFile pos.nFile else s).setCounters pos.nFile
        (withBlock (s.counters pos.nFile) nAddSize nHeight nTime) := by
  unfold findKnownBlockPos
  by_cases hlast : s.nLastBlockFile = pos.nFile
  · rw [if_neg (not_not.mpr hlast), ← hlast, counters_last]
    exact writeBlockFileInfo_addBlock s nAddSize nHeight nTime
  · rw [if_pos hlast, counters_of_ne (Ne.symm hlast)]
    exact writeBlockFileInfo_addBlock (s.openFile pos.nFile) nAddSize nHeight nTime

/-- What `FindBlockPos` does for a new block: behind the loop, the block goes to the end of the
last file by its counter. -/
theorem findBlockPos_eq_some {s s' : BlockFiles} {nAddSize nHeight : BitVec 32}
    {nTime : BitVec 64} {checkDiskSpace : Bool} {pos : Option CDiskBlockPos}
    (h : s.findBlockPos nAddSize nHeight nTime checkDiskSpace = some (s', pos)) :
    ∃ s₁, leaveFull nAddSize s.fuel s = some s₁ ∧
      (pos = none ∧
          s' = { s₁ with infoLastBlockFile := withBlock s₁.infoLastBlockFile nAddSize nHeight nTime } ∨
        pos = some ⟨s₁.nLastBlockFile, s₁.infoLastBlockFile.nSize⟩ ∧
          s' = s₁.setCounters s₁.nLastBlockFile
            (withBlock s₁.infoLastBlockFile nAddSize nHeight nTime)) := by
  obtain ⟨s₁, hloop, h⟩ := Option.bind_eq_some_iff.mp h
  refine ⟨s₁, hloop, ?_⟩
  dsimp only at h
  split at h
  · obtain ⟨rfl, rfl⟩ := Prod.mk.inj (Option.some.inj h)
    exact .inl ⟨rfl, rfl⟩
  · obtain ⟨rfl, rfl⟩ := Prod.mk.inj (Option.some.inj h)
    exact .inr ⟨rfl, writeBlockFileInfo_addBlock s₁ nAddSize nHeight nTime⟩

theorem undoInfo_eq_some {s : BlockFiles} {nFile : Nat} {info : CBlockFileInfo}
    (h : s.undoInfo nFile = some info) : info = s.counters nFile := by
  unfold undoInfo at h
  unfold counters readBlockFileInfo
  split at h
  · next hlast => rw [if_pos hlast, Option.some.inj h]
  · next hlast => rw [if_neg hlast, h, Option.getD_some]

/-- What `FindUndoPos` does: the record goes to the end of the file by its counter. -/
theorem findUndoPos_cases (s : BlockFiles) (nFile : Nat) (nAddSize : BitVec 32)
    (checkDiskSpace : Bool) :
    s.findUndoPos nFile nAddSize checkDiskSpace = (s, none) ∨
      ∃ pos, s.findUndoPos nFile nAddSize checkDiskSpace =
          (s.setCounters nFile (withUndo (s.counters nFile) nAddSize), pos) ∧
        (pos = none ∨ pos = some ⟨nFile, (s.counters nFile).nUndoSize⟩) := by
  unfold findUndoPos
  cases hinfo : s.undoInfo nFile with
  | none => exact .inl rfl
  | some info =>
    right
    obtain rfl := undoInfo_eq_some hinfo
    dsimp only
    split
    · exact ⟨none, rfl, .inl rfl⟩
    · exact ⟨_, rfl, .inr rfl⟩

end BlockFiles

namespace Disk

open BlockFiles

/-- A record that was handed a position starts behind the earlier ones of its kind and file. -/
def Behind (later earlier : DiskRecord) : Prop :=
  later.known = false → later.undo = earlier.undo → later.nFile = earlier.nFile →
    earlier.stop ≤ later.start

instance (later earlier : DiskRecord) : Decidable (Behind later earlier) :=
  inferInstanceAs (Decidable (_ → _ → _ → _))

/-- No record handed a position overlaps an earlier one, and all counters are large enough. -/
structure Sound (d : Disk) : Prop where
  covers : d.files.Covers d.placed
  behind : d.placed.Pairwise Behind

/-- What a call needs: that a known block starts within the part of its file that is counted
as used, and that no `unsigned int` counter passes its range. For a new block the file with
room is the first one, from the last file on, that is not full. -/
def Allowed (d : Disk) : FileOp → Prop
  | .newBlock nAddSize _ _ _ =>
    ∀ nFile, d.files.nLastBlockFile ≤ nFile → ¬ isFull (d.files.counters nFile) nAddSize →
      (∀ before, d.files.nLastBlockFile ≤ before → before < nFile →
        isFull (d.files.counters before) nAddSize) →
      (d.files.counters nFile).nSize.toNat + nAddSize.toNat < 2 ^ 32
  | .knownBlock pos nAddSize _ _ =>
    pos.nPos.toNat - blockHeaderSize ≤ (d.files.counters pos.nFile).nSize.toNat ∧
      (d.files.counters pos.nFile).nSize.toNat + nAddSize.toNat < 2 ^ 32
  | .undo nFile nAddSize _ =>
    (d.files.counters nFile).nUndoSize.toNat + nAddSize.toNat < 2 ^ 32

/-- While the last file has room it is the one that matters. -/
theorem allowed_newBlock {d : Disk} {nAddSize : BitVec 32}
    (hroom : ¬ isFull d.files.infoLastBlockFile nAddSize)
    (hfits : d.files.infoLastBlockFile.nSize.toNat + nAddSize.toNat < 2 ^ 32)
    (nHeight : BitVec 32) (nTime : BitVec 64) (checkDiskSpace : Bool) :
    d.Allowed (.newBlock nAddSize nHeight nTime checkDiskSpace) := by
  intro nFile hfrom _ hbefore
  rcases hfrom.eq_or_lt with rfl | hlt
  · rwa [counters_last]
  · have hfull := hbefore _ le_rfl hlt
    rw [counters_last] at hfull
    exact absurd hfull hroom

/-- Every call of a run satisfies a condition on the state before it. -/
def Throughout (P : Disk → FileOp → Prop) : Disk → List FileOp → Prop
  | _, [] => True
  | d, op :: ops => P d op ∧ ∀ d', d.step op = some d' → d'.Throughout P ops

/-- A new record at the counter of its file keeps all in order. -/
theorem Sound.place {d : Disk} (h : d.Sound) {r : DiskRecord} {info : CBlockFileInfo}
    (hgrow : ∀ undo, used (d.files.counters r.nFile) undo ≤ used info undo)
    (hstop : r.stop ≤ used info r.undo)
    (hstart : r.known = false → r.start = used (d.files.counters r.nFile) r.undo) :
    Sound ⟨d.files.setCounters r.nFile info, r :: d.placed⟩ := by
  refine ⟨h.covers.place hgrow hstop, List.pairwise_cons.mpr ⟨?_, h.behind⟩⟩
  intro earlier hmem hknown hkind hfile
  rw [hstart hknown, hkind, hfile]
  exact h.covers.counters hmem

theorem Sound.reopen {d : Disk} (h : d.Sound) {files : BlockFiles}
    (hfiles : files.fileInfo = d.files.fileInfo)
    (hinfo : files.infoLastBlockFile = d.files.counters files.nLastBlockFile) :
    Sound ⟨files, d.placed⟩ :=
  ⟨h.covers.reopen hfiles hinfo, h.behind⟩

theorem Sound.newBlock {d d' : Disk} (h : d.Sound) {nAddSize nHeight : BitVec 32}
    {nTime : BitVec 64} {checkDiskSpace : Bool}
    (hallowed : d.Allowed (.newBlock nAddSize nHeight nTime checkDiskSpace))
    (hstep : d.step (.newBlock nAddSize nHeight nTime checkDiskSpace) = some d') : d'.Sound := by
  obtain ⟨⟨files, pos⟩, hfind, hplace⟩ := Option.bind_eq_some_iff.mp hstep
  obtain rfl := Option.some.inj hplace
  obtain ⟨s₁, hloop, hresult⟩ := findBlockPos_eq_some hfind
  obtain ⟨hfiles, hle, hinfo, hroom, hbefore⟩ := leaveFull_eq_some hloop
  have hopened : Sound ⟨s₁, d.placed⟩ := h.reopen hfiles hinfo
  have hfits : s₁.infoLastBlockFile.nSize.toNat + nAddSize.toNat < 2 ^ 32 := by
    rw [hinfo] at hroom ⊢
    exact hallowed _ hle hroom hbefore
  have hgrow : ∀ undo, used s₁.infoLastBlockFile undo ≤
      used (withBlock s₁.infoLastBlockFile nAddSize nHeight nTime) undo := by
    intro undo
    rw [used_withBlock nHeight nTime hfits]
    exact Nat.le_add_right _ _
  rcases hresult with ⟨rfl, rfl⟩ | ⟨rfl, rfl⟩
  · exact ⟨hopened.covers.grow hgrow, h.behind⟩
  · refine hopened.place (r := ⟨false, false, s₁.nLastBlockFile, _, _⟩) ?_ ?_ ?_
    · intro undo
      rw [counters_last]
      exact hgrow undo
    · exact (used_withBlock nHeight nTime hfits false).ge
    · intro _
      rw [counters_last]
      rfl

theorem Sound.knownBlock {d : Disk} (h : d.Sound) {pos : CDiskBlockPos}
    {nAddSize nHeight : BitVec 32} {nTime : BitVec 64}
    (hallowed : d.Allowed (.knownBlock pos nAddSize nHeight nTime)) :
    Sound ⟨d.files.findKnownBlockPos pos nAddSize nHeight nTime,
      ⟨false, true, pos.nFile, pos.nPos.toNat - blockHeaderSize,
        pos.nPos.toNat - blockHeaderSize + nAddSize.toNat⟩ :: d.placed⟩ := by
  obtain ⟨hstart, hfits⟩ := hallowed
  rw [findKnownBlockPos_eq]
  have hopened : Sound ⟨if d.files.nLastBlockFile ≠ pos.nFile then d.files.openFile pos.nFile
      else d.files, d.placed⟩ := by
    split
    · next hne => exact h.reopen rfl (counters_of_ne (Ne.symm hne)).symm
    · exact h
  have hcounters : (if d.files.nLastBlockFile ≠ pos.nFile then d.files.openFile pos.nFile
      else d.files).counters pos.nFile = d.files.counters pos.nFile := by
    split
    · next hne =>
      rw [counters_of_ne (Ne.symm hne)]
      exact counters_last _
    · rfl
  have hused := used_withBlock nHeight nTime hfits
  refine hopened.place (r := ⟨false, true, pos.nFile, _, _⟩) ?_ ?_ nofun
  · intro undo
    rw [hcounters, hused]
    exact Nat.le_add_right _ _
  · rw [hused]
    exact Nat.add_le_add_right hstart _

theorem Sound.undo {d : Disk} (h : d.Sound) {nFile : Nat} {nAddSize : BitVec 32}
    (checkDiskSpace : Bool) (hfits : d.Allowed (.undo nFile nAddSize checkDiskSpace)) :
    Sound (Disk.place true nAddSize (d.files.findUndoPos nFile nAddSize checkDiskSpace).1 d.placed
      (d.files.findUndoPos nFile nAddSize checkDiskSpace).2) := by
  have hused := used_withUndo hfits
  have hgrow : ∀ undo, used (d.files.counters nFile) undo ≤
      used (withUndo (d.files.counters nFile) nAddSize) undo := by
    intro undo
    rw [hused]
    exact Nat.le_add_right _ _
  rcases d.files.findUndoPos_cases nFile nAddSize checkDiskSpace with heq | ⟨pos, heq, hpos⟩
  · rw [heq]
    exact h
  · rw [heq]
    rcases hpos with rfl | rfl
    · exact ⟨h.covers.setCounters hgrow, h.behind⟩
    · exact h.place (r := ⟨true, false, nFile, _, _⟩) hgrow (hused true).ge fun _ ↦ rfl

theorem Sound.step {d d' : Disk} {op : FileOp} (h : d.Sound) (hallowed : d.Allowed op)
    (hstep : d.step op = some d') : d'.Sound := by
  cases op with
  | newBlock nAddSize nHeight nTime checkDiskSpace => exact h.newBlock hallowed hstep
  | knownBlock pos nAddSize nHeight nTime =>
    obtain rfl := Option.some.inj hstep
    exact h.knownBlock hallowed
  | undo nFile nAddSize checkDiskSpace =>
    obtain rfl := Option.some.inj hstep
    exact h.undo checkDiskSpace hallowed

/-- From any counters and no records on, the records stay apart and covered. -/
theorem sound_run (files : BlockFiles) (d : Disk) (ops : List FileOp)
    (hallowed : Throughout Allowed ⟨files, []⟩ ops) (hrun : run ⟨files, []⟩ ops = some d) :
    d.Sound := by
  have hsteps : ∀ (ops : List FileOp) (d d' : Disk), d.Sound → d.Throughout Allowed ops →
      d.run ops = some d' → d'.Sound := by
    intro ops
    induction ops with
    | nil =>
      intro d d' hd _ hrun
      rwa [← Option.some.inj hrun]
    | cons op ops ih =>
      intro d d' hd hallowed hrun
      obtain ⟨d₁, hstep, hrun⟩ := Option.bind_eq_some_iff.mp hrun
      exact ih d₁ d' (hd.step hallowed.1 hstep) (hallowed.2 d₁ hstep) hrun
  exact hsteps ops _ d ⟨covers_nil files, .nil⟩ hallowed hrun

/-- A new block, an undo record and a block found right behind the first one. -/
def inOrder : List FileOp :=
  [.newBlock 300 1 1 true, .undo 0 41 true, .knownBlock ⟨0, 308⟩ 300 2 2, .newBlock 300 3 3 true]

theorem sound_inOrder : ∃ d, run ⟨{}, []⟩ inOrder = some d ∧ d.Sound := by
  refine ⟨_, rfl, sound_run {} _ inOrder ?_ rfl⟩
  refine ⟨allowed_newBlock (by decide) (by decide) _ _ _, fun _ h ↦ ?_⟩
  obtain rfl := Option.some.inj h
  refine ⟨(by decide : (0 : BitVec 32).toNat + (41 : BitVec 32).toNat < 2 ^ 32), fun _ h ↦ ?_⟩
  obtain rfl := Option.some.inj h
  refine ⟨(by decide : 308 - 8 ≤ (300 : BitVec 32).toNat ∧ 300 + 300 < 2 ^ 32), fun _ h ↦ ?_⟩
  obtain rfl := Option.some.inj h
  exact ⟨allowed_newBlock (by decide) (by decide) _ _ _, fun _ _ ↦ trivial⟩

/-- Two blocks found in a file with a gap between them, where a block was skipped, and a new
block. -/
def withGap : List FileOp :=
  [.knownBlock ⟨0, 8⟩ 300 1 1, .knownBlock ⟨0, 608⟩ 300 2 2, .newBlock 300 3 3 true]

theorem not_sound_run : ¬ ∀ (files : BlockFiles) (d : Disk) (ops : List FileOp),
    run ⟨files, []⟩ ops = some d → d.Sound := by
  intro h
  have hsound := h {} _ withGap rfl
  have hbehind := (List.pairwise_cons.mp hsound.behind).1 ⟨false, true, 0, 600, 900⟩ (.head _)
  exact absurd (hbehind rfl rfl rfl) (by decide)

end Disk

end Bitmark
