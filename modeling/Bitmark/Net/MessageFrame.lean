import Bitmark.Base.Codec

/-!
# Message headers and messages being received

`CMessageHeader` of `src/protocol.h:28` and `CNetMessage` of `src/net.h:156`, which collects a
message from the pieces in which the socket delivers it: first the 24 bytes of the header, then as
many bytes as the header announces.
-/

namespace Bitmark

/-- `Params().MessageStart()`. -/
structure MessageStart where
  pchMessageStart : Bytes
  length_eq : pchMessageStart.length = 4

structure CMessageHeader where
  pchMessageStart : Bytes
  pchCommand : Bytes
  nMessageSize : BitVec 32
  nChecksum : BitVec 32
  deriving DecidableEq

/-- `memcpy(&buf[pos], src, n)` on a buffer. -/
def memcpy (buf : Bytes) (pos : Nat) (src : Bytes) : Bytes :=
  buf.take pos ++ src ++ buf.drop (pos + src.length)

namespace CMessageHeader

def commandSize : Nat := 12

def messageSizeOffset : Nat := 16

def checksumOffset : Nat := 20

def headerSize : Nat := 24

/-- `strncpy(pchCommand, pszCommand, COMMAND_SIZE)`. -/
def strncpy (pszCommand : Bytes) : Bytes :=
  pszCommand.take commandSize ++ List.replicate (commandSize - pszCommand.length) 0

def new (start : MessageStart) (pszCommand : Bytes) (nMessageSizeIn : BitVec 32) :
    CMessageHeader :=
  ⟨start.pchMessageStart, strncpy pszCommand, nMessageSizeIn, 0⟩

def getCommand (hdr : CMessageHeader) : Bytes :=
  if hdr.pchCommand.getLast? = some 0 then hdr.pchCommand.takeWhile (· ≠ 0) else hdr.pchCommand

def serialize (hdr : CMessageHeader) : Bytes :=
  hdr.pchMessageStart ++ hdr.pchCommand ++ bytes32 hdr.nMessageSize ++ bytes32 hdr.nChecksum

def read : Stream CMessageHeader := do
  let pchMessageStart ← readBytes 4
  let pchCommand ← readBytes commandSize
  let nMessageSize ← readWord32
  let nChecksum ← readWord32
  pure ⟨pchMessageStart, pchCommand, nMessageSize, nChecksum⟩

/-- The loop of `IsValid` over the command: printable characters, and zeros after the first zero. -/
def commandValid : Bytes → Bool
  | [] => true
  | b :: bs => if b = 0 then bs.all (· = 0) else 0x20 ≤ b && b ≤ 0x7e && commandValid bs

def isValid (start : MessageStart) (hdr : CMessageHeader) : Bool :=
  hdr.pchMessageStart = start.pchMessageStart && commandValid hdr.pchCommand &&
    hdr.nMessageSize.toNat ≤ maxSize

end CMessageHeader

/-- A message being received. -/
structure CNetMessage where
  in_data : Bool
  hdrbuf : Bytes
  hdr : CMessageHeader
  nHdrPos : Nat
  vRecv : Bytes
  nDataPos : Nat
  deriving DecidableEq

namespace CNetMessage

/-- A new message. The default header has a command and a size that no message has. -/
def new (start : MessageStart) : CNetMessage where
  in_data := false
  hdrbuf := List.replicate 24 0
  hdr := ⟨start.pchMessageStart, [0, 1] ++ List.replicate 10 0, -1, 0⟩
  nHdrPos := 0
  vRecv := []
  nDataPos := 0

def complete (msg : CNetMessage) : Bool :=
  msg.in_data && msg.hdr.nMessageSize.toNat == msg.nDataPos

/-- `readHeader` returns the number of bytes it has taken, or fails. -/
def readHeader (msg : CNetMessage) (pch : Bytes) : Option (CNetMessage × Nat) :=
  let nRemaining := 24 - msg.nHdrPos
  let nCopy := min nRemaining pch.length
  let hdrbuf := memcpy msg.hdrbuf msg.nHdrPos (pch.take nCopy)
  let nHdrPos := msg.nHdrPos + nCopy
  if nHdrPos < 24 then some ({ msg with hdrbuf := hdrbuf, nHdrPos := nHdrPos }, nCopy)
  else
    match CMessageHeader.read hdrbuf with
    | none => none
    | some (hdr, hdrbuf) =>
      if hdr.nMessageSize.toNat > maxSize then none
      else
        some ({ msg with in_data := true, hdrbuf := hdrbuf, hdr := hdr, nHdrPos := nHdrPos,
                         vRecv := List.replicate hdr.nMessageSize.toNat 0 }, nCopy)

def readData (msg : CNetMessage) (pch : Bytes) : CNetMessage × Nat :=
  let nRemaining := msg.hdr.nMessageSize.toNat - msg.nDataPos
  let nCopy := min nRemaining pch.length
  ({ msg with vRecv := memcpy msg.vRecv msg.nDataPos (pch.take nCopy),
              nDataPos := msg.nDataPos + nCopy }, nCopy)

/-- The part of the loop of `ReceiveMsgBytes` that absorbs network data. -/
def absorb (msg : CNetMessage) (pch : Bytes) : Option (CNetMessage × Nat) :=
  if msg.in_data then some (msg.readData pch) else msg.readHeader pch

end CNetMessage

end Bitmark
