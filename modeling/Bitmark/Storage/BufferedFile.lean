import Bitmark.Base.Word
import Bitmark.Lib.Ring

/-!
# The buffered file

`CBufferedFile` of `src/serialize.h:1255–1397`: a ring buffer in front of a file, with a position, a
limit and a distance that can be rewound. The source position is where the file is read next, and the
fields count in 64 bits, the cursors of a refill in 32.
-/

namespace Bitmark

open Ring

/-- The content of a regular file. -/
structure FileContent where
  bytes : Bytes
  length_lt : bytes.length < 2 ^ 63

/-- The bytes from a position on, up to `n` of them. -/
def FileContent.slice (content : FileContent) (pos n : ℕ) : Bytes := (content.bytes.drop pos).take n

/-- How far it is from a position to the next `ch`, or to the end. -/
def FileContent.distance (content : FileContent) (pos : ℕ) (ch : UInt8) : ℕ :=
  ((content.bytes.drop pos).takeWhile (· ≠ ch)).length

/-- A `FILE*`: where it is read next, and its end-of-file indicator. -/
structure FileHandle where
  offset : ℕ
  feof : Bool
  deriving DecidableEq

/-- `fread` of up to `n` single bytes. -/
def fread (content : FileContent) (n : ℕ) (src : FileHandle) : Bytes × FileHandle :=
  let bytes := content.slice src.offset n
  (bytes, ⟨src.offset + bytes.length, src.feof || bytes.length < n⟩)

/-- `fseek` from the start of the file; `none` where it fails. -/
def fseek (nLongPos : Int) : Option FileHandle :=
  if nLongPos < 0 then none else some ⟨nLongPos.toNat, false⟩

/-- The `std::ios_base::failure`s of the class. -/
inductive BufferFailure
  | pastLimit
  | largerThanBuffer
  | endOfFile
  | freadFailed
  deriving DecidableEq

/-- The text of a failure. -/
def BufferFailure.what : BufferFailure → String
  | .pastLimit => "Read attempted past buffer limit"
  | .largerThanBuffer => "Read larger than buffer size"
  | .endOfFile => "CBufferedFile::Fill : end of file"
  | .freadFailed => "CBufferedFile::Fill : fread failed"

/-- How a call ends; one without a result returns true. `stuck` is a loop that makes no progress, or a
copy from outside of the buffer. -/
inductive BufferOutcome
  | returns (ok : Bool)
  | throws (e : BufferFailure)
  | stuck
  deriving DecidableEq

/-- The fields of the class. `state` tells whether the fail bit is set. -/
structure CBufferedFile where
  src : FileHandle
  nSrcPos : ℕ
  nReadPos : ℕ
  nReadLimit : ℕ
  nRewind : ℕ
  vchBuf : Bytes
  state : Bool
  deriving DecidableEq

/-- What a call leaves behind, and the bytes it has copied to `pch`. -/
structure BufferCall where
  file : CBufferedFile
  pch : Bytes
  outcome : BufferOutcome
  deriving DecidableEq

namespace CBufferedFile

variable (content : FileContent)

/-- The constructor, `src/serialize.h:1301`, for a file that is open at its start. -/
def construct (nBufSize nRewind : ℕ) : CBufferedFile where
  src := ⟨0, false⟩
  nSrcPos := 0
  nReadPos := 0
  nReadLimit := 2 ^ 64 - 1
  nRewind := nRewind
  vchBuf := List.replicate nBufSize 0
  state := false

/-- The bytes that `Fill` asks for, `src/serialize.h:1280–1284`. -/
def readNow (f : CBufferedFile) : ℕ :=
  let pos := toUint32 (f.nSrcPos % f.vchBuf.length)
  let readNow := toUint32 (f.vchBuf.length - pos)
  let nAvail := toUint32 (toUint64 (f.vchBuf.length - (f.nSrcPos - f.nReadPos) - f.nRewind))
  if nAvail < readNow then nAvail else readNow

/-- `Fill`, `src/serialize.h:1279`; an error where `setstate` throws. -/
def fill (f : CBufferedFile) : CBufferedFile × Except BufferFailure Bool :=
  if f.readNow = 0 then (f, .ok false)
  else
    let (read, src) := fread content f.readNow f.src
    if read.length = 0 then
      ({ f with src := src, state := true }, .error (if src.feof then .endOfFile else .freadFailed))
    else
      ({ f with
        src := src
        vchBuf := overwrite f.vchBuf (toUint32 (f.nSrcPos % f.vchBuf.length)) read
        nSrcPos := toUint64 (f.nSrcPos + read.length) }, .ok true)

/-- `if (nReadPos == nSrcPos) Fill();`, with which a pass of both loops begins. -/
def refill (f : CBufferedFile) : CBufferedFile × Except BufferFailure Bool :=
  if f.nReadPos = f.nSrcPos then fill content f else (f, .ok true)

/-- The bytes that a pass of `read` copies, `src/serialize.h:1325–1330`. -/
def nNow (nSize : ℕ) (f : CBufferedFile) : ℕ :=
  let pos := toUint32 (f.nReadPos % f.vchBuf.length)
  let nNow := if f.vchBuf.length < toUint64 (nSize + pos) then f.vchBuf.length - pos else nSize
  if f.nSrcPos < toUint64 (nNow + f.nReadPos) then toUint64 (f.nSrcPos - f.nReadPos) else nNow

/-- The loop of `read`, `src/serialize.h:1322–1335`. A pass that copies nothing finds the next one as
it was itself. -/
def readLoop : ℕ → ℕ → Bytes → CBufferedFile → BufferCall
  | 0, nSize, pch, f => ⟨f, pch, if nSize = 0 then .returns true else .stuck⟩
  | fuel + 1, nSize, pch, f =>
    if nSize = 0 then ⟨f, pch, .returns true⟩
    else match refill content f with
      | (f, .error e) => ⟨f, pch, .throws e⟩
      | (f, .ok _) =>
        let pos := toUint32 (f.nReadPos % f.vchBuf.length)
        let nNow := f.nNow nSize
        if f.vchBuf.length < pos + nNow then ⟨f, pch, .stuck⟩
        else readLoop fuel (nSize - nNow) (pch ++ (f.vchBuf.drop pos).take nNow)
          { f with nReadPos := toUint64 (f.nReadPos + nNow) }

/-- `read`, `src/serialize.h:1317`. -/
def read (nSize : ℕ) (f : CBufferedFile) : BufferCall :=
  if f.nReadLimit < toUint64 (nSize + f.nReadPos) then ⟨f, [], .throws .pastLimit⟩
  else if f.vchBuf.length < toUint64 (nSize + f.nRewind) then ⟨f, [], .throws .largerThanBuffer⟩
  else readLoop content nSize nSize [] f

/-- `SetPos`, `src/serialize.h:1345`. -/
def setPos (nPos : ℕ) (f : CBufferedFile) : BufferCall :=
  if toUint64 (nPos + f.nRewind) < f.nSrcPos then
    ⟨{ f with nReadPos := toUint64 (f.nSrcPos - f.nRewind) }, [], .returns false⟩
  else if f.nSrcPos < nPos then ⟨{ f with nReadPos := f.nSrcPos }, [], .returns false⟩
  else ⟨{ f with nReadPos := nPos }, [], .returns true⟩

/-- `Seek`, `src/serialize.h:1358`. -/
def seek (nPos : ℕ) (f : CBufferedFile) : BufferCall :=
  let nLongPos := toInt64 nPos
  if nPos ≠ toUint64 nLongPos then ⟨f, [], .returns false⟩
  else match fseek nLongPos with
    | none => ⟨f, [], .returns false⟩
    | some src =>
      ⟨{ f with src := src, nSrcPos := src.offset, nReadPos := src.offset, state := false }, [],
        .returns true⟩

/-- `SetLimit`, `src/serialize.h:1373`. -/
def setLimit (nPos : ℕ) (f : CBufferedFile) : BufferCall :=
  if nPos < f.nReadPos then ⟨f, [], .returns false⟩
  else ⟨{ f with nReadLimit := nPos }, [], .returns true⟩

/-- The loop of `FindByte`, `src/serialize.h:1389–1395`. -/
def findLoop (ch : UInt8) : ℕ → CBufferedFile → BufferCall
  | 0, f => ⟨f, [], .stuck⟩
  | fuel + 1, f =>
    match refill content f with
    | (f, .error e) => ⟨f, [], .throws e⟩
    | (f, .ok _) =>
      if f.vchBuf.getD (f.nReadPos % f.vchBuf.length) 0 = ch then ⟨f, [], .returns true⟩
      else findLoop ch fuel { f with nReadPos := toUint64 (f.nReadPos + 1) }

/-- `FindByte`, `src/serialize.h:1388`. What is not found on the way to the end of the file and then
once around the buffer is never found. -/
def findByte (ch : UInt8) (f : CBufferedFile) : BufferCall :=
  findLoop content ch (content.bytes.length + f.vchBuf.length + 1) f

end CBufferedFile

/-- The calls, with arguments of the source's types. -/
inductive BufferOp
  | read (nSize : UInt64)
  | findByte (ch : UInt8)
  | setLimit (nPos : UInt64)
  | setPos (nPos : UInt64)
  | seek (nPos : UInt64)

/-- A call. -/
def CBufferedFile.call (content : FileContent) (f : CBufferedFile) : BufferOp → BufferCall
  | .read nSize => f.read content nSize.toNat
  | .findByte ch => f.findByte content ch
  | .setLimit nPos => f.setLimit nPos.toNat
  | .setPos nPos => f.setPos nPos.toNat
  | .seek nPos => f.seek nPos.toNat

end Bitmark
