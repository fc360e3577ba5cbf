import Bitmark.Net.MessageFrame

/-!
# Sending and receiving messages

The send side of a node (`BeginMessage` and `EndMessage` of `src/net.h:466`, `SocketSendData` of
`src/net.cpp:696`), its receive side (`ReceiveMsgBytes` of `src/net.cpp:616`, `ProcessMessages` of
`src/main.cpp:4554`), and two nodes with the bytes in flight between them. A failed `assert` is
`none`. Without the options for testing no message is dropped or fuzzed.
-/

namespace Bitmark

/-- The buffers of `CNode`. -/
structure CNode where
  ssSend : Bytes := []
  vSendMsg : List Bytes := []
  nSendSize : Nat := 0
  nSendOffset : Nat := 0
  vRecvMsg : List CNetMessage := []
  fDisconnect : Bool := false

/-- What the socket makes of a call of `send`: it accepts some of the bytes, none for now, or it is
broken. -/
inductive SendResult where
  | sent (nBytes : Nat)
  | wouldBlock
  | error

/-- What `SocketSendData` leaves: the counters, the messages from the iterator on, the bytes the
socket has accepted, and whether the socket is broken. -/
structure Sending where
  nSendSize : Nat
  nSendOffset : Nat
  vSendMsg : List Bytes
  accepted : Bytes
  failed : Bool

/-- `Hash` of the payload as its first four bytes; `hash` is `Hash` of `src/hash.h`. -/
def checksum (hash : Bytes → Uint256) (payload : Bytes) : BitVec 32 :=
  word32 ((bytes256 (hash payload)).take 4)

namespace CNode

/-- `CloseSocketDisconnect`, which empties the receive buffer. -/
def closeSocketDisconnect (node : CNode) : CNode :=
  { node with vRecvMsg := [], fDisconnect := true }

/-! ### Sending -/

/-- The loop of `SocketSendData` over `vSendMsg`, with what `send` returns in each round. -/
def sendLoop (nSendSize nSendOffset : Nat) : List Bytes → List SendResult → Option Sending
  | [], _ => some ⟨nSendSize, nSendOffset, [], [], false⟩
  | data :: vSendMsg, results =>
    if data.length > nSendOffset then
      match results with
      | .sent n :: results =>
        let nBytes := min n (data.length - nSendOffset)
        if nBytes > 0 then
          let bytes := (data.drop nSendOffset).take nBytes
          if nSendOffset + nBytes = data.length then
            (sendLoop (nSendSize - data.length) 0 vSendMsg results).map fun s ↦
              { s with accepted := bytes ++ s.accepted }
          else some ⟨nSendSize, nSendOffset + nBytes, data :: vSendMsg, bytes, false⟩
        else some ⟨nSendSize, nSendOffset, data :: vSendMsg, [], false⟩
      | .error :: _ => some ⟨nSendSize, nSendOffset, data :: vSendMsg, [], true⟩
      | .wouldBlock :: _ | [] => some ⟨nSendSize, nSendOffset, data :: vSendMsg, [], false⟩
    else none

/-- The node with what `SocketSendData` leaves, and the bytes the socket has accepted. A closed
socket accepts none. -/
def socketSendData (node : CNode) (results : List SendResult) : Option (CNode × Bytes) :=
  let results := if node.fDisconnect then [.error] else results
  match sendLoop node.nSendSize node.nSendOffset node.vSendMsg results with
  | none => none
  | some s =>
    if s.vSendMsg = [] ∧ (s.nSendOffset ≠ 0 ∨ s.nSendSize ≠ 0) then none
    else
      let node := { node with vSendMsg := s.vSendMsg, nSendSize := s.nSendSize,
                              nSendOffset := s.nSendOffset }
      some (if s.failed then node.closeSocketDisconnect else node, s.accepted)

def beginMessage (start : MessageStart) (pszCommand : Bytes) (node : CNode) : Option CNode :=
  if node.ssSend.length = 0 then
    some { node with ssSend := (CMessageHeader.new start pszCommand 0).serialize }
  else none

def endMessage (hash : Bytes → Uint256) (results : List SendResult) (node : CNode) :
    Option (CNode × Bytes) :=
  if node.ssSend.length = 0 then some (node, [])
  else
    let nSize := BitVec.ofNat 32 (node.ssSend.length - CMessageHeader.headerSize)
    let ssSend := memcpy node.ssSend CMessageHeader.messageSizeOffset (bytes32 nSize)
    let nChecksum := checksum hash (ssSend.drop CMessageHeader.headerSize)
    if ssSend.length < CMessageHeader.checksumOffset + 4 then none
    else
      let ssSend := memcpy ssSend CMessageHeader.checksumOffset (bytes32 nChecksum)
      let node' := { node with ssSend := [], vSendMsg := node.vSendMsg ++ [ssSend],
                               nSendSize := node.nSendSize + ssSend.length }
      if node.vSendMsg = [] then node'.socketSendData results else some (node', [])

/-- `PushMessage`, with the arguments serialized in `payload`. -/
def pushMessage (hash : Bytes → Uint256) (start : MessageStart) (pszCommand payload : Bytes)
    (results : List SendResult) (node : CNode) : Option (CNode × Bytes) := do
  let node ← node.beginMessage start pszCommand
  endMessage hash results { node with ssSend := node.ssSend ++ payload }

/-! ### Receiving -/

/-- The messages before the incomplete one at the back, and that one or a new one. -/
def current (start : MessageStart) (vRecvMsg : List CNetMessage) :
    List CNetMessage × CNetMessage :=
  match vRecvMsg.getLast? with
  | some msg => if msg.complete then (vRecvMsg, .new start) else (vRecvMsg.dropLast, msg)
  | none => (vRecvMsg, .new start)

/-- The loop of `ReceiveMsgBytes`; each round is to take a byte at least. -/
def receiveLoop (start : MessageStart) : Nat → List CNetMessage → Bytes → Option (List CNetMessage)
  | _, vRecvMsg, [] => some vRecvMsg
  | 0, _, _ => none
  | nBytes + 1, vRecvMsg, pch =>
    let (before, msg) := current start vRecvMsg
    match msg.absorb pch with
    | none => none
    | some (msg, handled) => receiveLoop start nBytes (before ++ [msg]) (pch.drop handled)

/-- The messages with the bytes of `pch`, or `none` when the peer is to be disconnected. -/
def receiveMsgBytes (start : MessageStart) (vRecvMsg : List CNetMessage) (pch : Bytes) :
    Option (List CNetMessage) :=
  receiveLoop start pch.length vRecvMsg pch

/-- What `ProcessMessages` does to the messages up to the one it processes. -/
structure Processing where
  fOk : Bool
  /-- The messages from the iterator on. -/
  vRecvMsg : List CNetMessage
  /-- The arguments of `ProcessMessage`. -/
  processed : Option (Bytes × Bytes)

/-- The loop of `ProcessMessages`; `sendFull` says that the send buffer is too full to respond. -/
def processLoop (hash : Bytes → Uint256) (start : MessageStart) (sendFull : Bool) :
    List CNetMessage → Processing
  | [] => ⟨true, [], none⟩
  | msg :: vRecvMsg =>
    if sendFull || !msg.complete then ⟨true, msg :: vRecvMsg, none⟩
    else if msg.hdr.pchMessageStart ≠ start.pchMessageStart then ⟨false, vRecvMsg, none⟩
    else if !msg.hdr.isValid start then processLoop hash start sendFull vRecvMsg
    else if checksum hash (msg.vRecv.take msg.hdr.nMessageSize.toNat) ≠ msg.hdr.nChecksum then
      processLoop hash start sendFull vRecvMsg
    else ⟨true, vRecvMsg, some (msg.hdr.getCommand, msg.vRecv)⟩

/-- What happens around a call of `ProcessMessages`: requests for data are still to be answered, the
send buffer is full, or the processing of the message disconnects the peer. -/
structure Circumstances where
  getData : Bool
  sendFull : Bool
  disconnects : Bool

/-- The node after `ProcessMessages`, and the command and the payload it has processed. The handler
closes the connection when the result is false. -/
def processMessages (hash : Bytes → Uint256) (start : MessageStart) (c : Circumstances)
    (node : CNode) : CNode × Option (Bytes × Bytes) :=
  if c.getData || node.fDisconnect then (node, none)
  else
    let p := processLoop hash start c.sendFull node.vRecvMsg
    let node :=
      if p.processed.isSome && c.disconnects then { node with fDisconnect := true }
      else { node with vRecvMsg := p.vRecvMsg }
    (if p.fOk then node else node.closeSocketDisconnect, p.processed)

end CNode

/-! ### A connection -/

/-- Two nodes, the bytes that the one has sent and the other has not received, and what the other
has processed. -/
structure Connection where
  sender : CNode := {}
  inFlight : Bytes := []
  receiver : CNode := {}
  delivered : List (Bytes × Bytes) := []

namespace Connection

/-- What can happen next. -/
inductive Action where
  | push (pszCommand payload : Bytes) (results : List SendResult)
  | send (results : List SendResult)
  /-- `recv` returns the first bytes in flight. -/
  | receive (n : Nat)
  | process (c : CNode.Circumstances)
  /-- The receiver hangs up, and its receive buffer is cleared. -/
  | hangUp

variable (hash : Bytes → Uint256) (start : MessageStart)

/-- One action; `none` when an assertion fails. -/
def step (c : Connection) : Action → Option Connection
  | .push pszCommand payload results =>
    (c.sender.pushMessage hash start pszCommand payload results).map fun (sender, bytes) ↦
      { c with sender := sender, inFlight := c.inFlight ++ bytes }
  | .send results =>
    (c.sender.socketSendData results).map fun (sender, bytes) ↦
      { c with sender := sender, inFlight := c.inFlight ++ bytes }
  | .receive n =>
    if c.receiver.fDisconnect then some c
    else
      match CNode.receiveMsgBytes start c.receiver.vRecvMsg (c.inFlight.take n) with
      | some vRecvMsg =>
        some { c with inFlight := c.inFlight.drop n,
                      receiver := { c.receiver with vRecvMsg := vRecvMsg } }
      | none =>
        some { c with inFlight := c.inFlight.drop n,
                      receiver := c.receiver.closeSocketDisconnect }
  | .process circumstances =>
    let (receiver, processed) := c.receiver.processMessages hash start circumstances
    some { c with receiver := receiver, delivered := c.delivered ++ processed.toList }
  | .hangUp => some { c with receiver := c.receiver.closeSocketDisconnect }

/-- A run. -/
def run : Connection → List Action → Option Connection
  | c, [] => some c
  | c, a :: actions => (c.step hash start a).bind fun c ↦ run c actions

/-- The messages that a run pushes. -/
def pushed : List Action → List (Bytes × Bytes)
  | [] => []
  | .push pszCommand payload _ :: actions => (pszCommand, payload) :: pushed actions
  | _ :: actions => pushed actions

end Connection

end Bitmark
