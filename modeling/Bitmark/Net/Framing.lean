import Bitmark.Lib.Framing
import Bitmark.Net.MessageQueue

/-!
# Messages arrive as they were sent

The sender's `nSendOffset` and the receiver's incomplete message are cursors into the same sequence
of frames, the one behind the other by the bytes in flight. However the socket cuts the stream, the
receiver gets the frames one after the other.
-/

namespace Bitmark

open Framing

/-- What `BeginMessage` is given: a command that fits its field, and a payload that the receiver
accepts. -/
structure Sendable (m : Bytes × Bytes) : Prop where
  command_length : m.1.length ≤ CMessageHeader.commandSize
  command_chars : ∀ b ∈ m.1, 0x20 ≤ b ∧ b ≤ 0x7e
  payload_length : m.2.length ≤ maxSize

/-! ### Frames -/

theorem length_memcpy {buf src : Bytes} {pos : Nat} (h : pos + src.length ≤ buf.length) :
    (memcpy buf pos src).length = buf.length := by
  simp only [memcpy, List.length_append, List.length_take, List.length_drop]
  omega

theorem memcpy_append {a b c src : Bytes} {pos : Nat} (ha : a.length = pos)
    (hsrc : src.length = b.length) : memcpy (a ++ b ++ c) pos src = a ++ src ++ c := by
  subst ha
  rw [memcpy, hsrc, ← List.length_append, List.drop_left, List.append_assoc a b c, List.take_left]

namespace CMessageHeader

theorem length_strncpy (pszCommand : Bytes) : (strncpy pszCommand).length = commandSize := by
  simp only [strncpy, List.length_append, List.length_take, List.length_replicate]
  omega

theorem length_serialize {hdr : CMessageHeader} (hstart : hdr.pchMessageStart.length = 4)
    (hcommand : hdr.pchCommand.length = commandSize) : hdr.serialize.length = headerSize := by
  simp only [serialize, List.length_append, length_bytes32, hstart, hcommand]
  rfl

theorem reads_serialize {hdr : CMessageHeader} (hstart : hdr.pchMessageStart.length = 4)
    (hcommand : hdr.pchCommand.length = commandSize) : Codec.Reads read hdr hdr.serialize := by
  have hread₁ := hstart ▸ reads_bytes hdr.pchMessageStart
  have hread₂ := hcommand ▸ reads_bytes hdr.pchCommand
  rw [serialize, List.append_assoc, List.append_assoc]
  exact hread₁.bind (hread₂.bind ((reads_word32 _).bind ((reads_word32 _).bind_pure
    (Codec.Reads.pure hdr))))

theorem commandValid_strncpy {pszCommand : Bytes} (h : ∀ b ∈ pszCommand, 0x20 ≤ b ∧ b ≤ 0x7e)
    (n : Nat) : commandValid (pszCommand ++ List.replicate n 0) = true := by
  induction pszCommand with
  | nil =>
    cases n with
    | zero => rfl
    | succ n => simp [commandValid, List.replicate_succ]
  | cons b bs ih =>
    obtain ⟨hlo, hhi⟩ := h b List.mem_cons_self
    have hne : b ≠ 0 := by
      rintro rfl
      exact absurd hlo (by decide)
    rw [List.cons_append, commandValid, if_neg hne, ih fun c hc ↦ h c (List.mem_cons_of_mem b hc)]
    simp [hlo, hhi]

/-- The command comes out of its field as it was put in. -/
theorem getCommand_strncpy {hdr : CMessageHeader} {pszCommand : Bytes}
    (hhdr : hdr.pchCommand = strncpy pszCommand) (hlength : pszCommand.length ≤ commandSize)
    (hchars : ∀ b ∈ pszCommand, 0x20 ≤ b ∧ b ≤ 0x7e) : hdr.getCommand = pszCommand := by
  have hne : ∀ b ∈ pszCommand, b ≠ 0 := by
    rintro b hb rfl
    exact absurd (hchars 0 hb).1 (by decide)
  rw [getCommand, hhdr, strncpy, List.take_of_length_le hlength]
  by_cases hfull : pszCommand.length = commandSize
  · rw [hfull, Nat.sub_self, List.replicate_zero, List.append_nil, if_neg]
    intro hlast
    exact hne 0 (List.mem_of_getLast? hlast) rfl
  · have hpos : 0 < commandSize - pszCommand.length := by omega
    rw [if_pos]
    · rw [List.takeWhile_append_of_pos (by simpa using hne)]
      obtain ⟨k, hk⟩ := Nat.exists_eq_add_of_lt hpos
      rw [hk, zero_add, List.replicate_succ, List.takeWhile_cons_of_neg (by simp), List.append_nil]
    · rw [List.getLast?_append, List.getLast?_replicate, if_neg (by omega)]
      rfl

end CMessageHeader

variable (hash : Bytes → Uint256) (start : MessageStart)

/-- The header that `EndMessage` completes. -/
def header (m : Bytes × Bytes) : CMessageHeader :=
  ⟨start.pchMessageStart, CMessageHeader.strncpy m.1, BitVec.ofNat 32 m.2.length,
    checksum hash m.2⟩

/-- A message as it goes over the wire. -/
def frame (m : Bytes × Bytes) : Bytes := (header hash start m).serialize ++ m.2

variable {hash start} {m : Bytes × Bytes}

theorem length_header : (header hash start m).serialize.length = CMessageHeader.headerSize :=
  CMessageHeader.length_serialize start.length_eq (CMessageHeader.length_strncpy m.1)

theorem length_frame : (frame hash start m).length = CMessageHeader.headerSize + m.2.length := by
  rw [frame, List.length_append, length_header]

theorem frame_ne_nil : frame hash start m ≠ [] := by
  refine List.ne_nil_of_length_pos ?_
  rw [length_frame]
  exact Nat.add_pos_left (by decide) _

theorem Sendable.toNat_nMessageSize (h : Sendable m) :
    (header hash start m).nMessageSize.toNat = m.2.length := by
  have hlength := h.payload_length
  rw [header, BitVec.toNat_ofNat, Nat.mod_eq_of_lt]
  exact Nat.lt_of_le_of_lt hlength (by decide)

theorem Sendable.isValid (h : Sendable m) : (header hash start m).isValid start = true := by
  have hcommand : CMessageHeader.commandValid (header hash start m).pchCommand = true := by
    show CMessageHeader.commandValid (CMessageHeader.strncpy m.1) = true
    rw [CMessageHeader.strncpy, List.take_of_length_le h.command_length]
    exact CMessageHeader.commandValid_strncpy h.command_chars _
  rw [CMessageHeader.isValid, hcommand, h.toNat_nMessageSize]
  simpa [header] using h.payload_length

/-! ### The sender -/

namespace CNode

/-- What holds of the send side: whole frames are queued, of which the first may have been sent in
part. -/
structure Queued (nSendSize nSendOffset : Nat) (vSendMsg : List Bytes) : Prop where
  size : nSendSize = (vSendMsg.map List.length).sum
  cursor : Cursor nSendOffset vSendMsg

/-- The loop of `SocketSendData` sends the next of the queued bytes and leaves the others. -/
theorem sendLoop_eq_some {nSendSize nSendOffset : Nat} {vSendMsg : List Bytes}
    (h : Queued nSendSize nSendOffset vSendMsg) (hne : ∀ data ∈ vSendMsg, data ≠ [])
    (results : List SendResult) :
    ∃ s, sendLoop nSendSize nSendOffset vSendMsg results = some s ∧
      Queued s.nSendSize s.nSendOffset s.vSendMsg ∧ s.vSendMsg <:+ vSendMsg ∧
      s.accepted ++ remaining s.nSendOffset s.vSendMsg = remaining nSendOffset vSendMsg := by
  induction vSendMsg generalizing nSendSize nSendOffset results with
  | nil => exact ⟨_, rfl, h, List.suffix_refl _, rfl⟩
  | cons data vSendMsg ih =>
    have hcursor : nSendOffset < data.length := h.cursor
    have hsize : nSendSize = data.length + (vSendMsg.map List.length).sum := h.size
    -- what holds when the socket accepts nothing more
    have hstop : ∀ failed, ∃ s : Sending,
        some ⟨nSendSize, nSendOffset, data :: vSendMsg, [], failed⟩ = some s ∧
          Queued s.nSendSize s.nSendOffset s.vSendMsg ∧ s.vSendMsg <:+ data :: vSendMsg ∧
          s.accepted ++ remaining s.nSendOffset s.vSendMsg =
            remaining nSendOffset (data :: vSendMsg) := fun failed ↦
      ⟨_, rfl, h, List.suffix_refl _, rfl⟩
    rw [sendLoop.eq_def]
    dsimp only
    rw [if_pos hcursor]
    match results with
    | [] => exact hstop false
    | .wouldBlock :: _ => exact hstop false
    | .error :: _ => exact hstop true
    | .sent n :: results =>
      dsimp only
      split
      · next hpos =>
        split
        · next hfull =>
          have hbytes : (data.drop nSendOffset).take (min n (data.length - nSendOffset)) =
              data.drop nSendOffset := by
            refine List.take_of_length_le ?_
            rw [List.length_drop]
            omega
          have hnext : Queued (nSendSize - data.length) 0 vSendMsg := by
            refine ⟨by omega, cursor_zero fun g hg ↦ hne g (List.mem_cons_of_mem _ hg)⟩
          obtain ⟨s, hs, hqueued, hsuffix, hrest⟩ :=
            ih hnext (fun data hdata ↦ hne data (List.mem_cons_of_mem _ hdata)) results
          refine ⟨{ s with accepted := _ ++ s.accepted }, by rw [hs]; rfl, hqueued, ?_, ?_⟩
          · exact hsuffix.trans (List.suffix_cons data vSendMsg)
          · rw [hbytes, List.append_assoc, hrest, remaining_cons hcursor.le, remaining_zero]
        · next hpart =>
          refine ⟨_, rfl, ⟨h.size, ?_⟩, List.suffix_refl _, ?_⟩
          · show nSendOffset + min n (data.length - nSendOffset) < data.length
            omega
          · have hle : min n (data.length - nSendOffset) ≤ (data.drop nSendOffset).length := by
              rw [List.length_drop]
              omega
            rw [remaining_add, remaining_cons hcursor.le, ← List.take_append_of_le_length hle]
            exact List.take_append_drop _ _
      · exact hstop false

/-- A socket that accepts everything leaves nothing in the queue. -/
theorem sendLoop_all {nSendSize nSendOffset : Nat} {vSendMsg : List Bytes}
    (h : Queued nSendSize nSendOffset vSendMsg) (hne : ∀ data ∈ vSendMsg, data ≠ []) :
    ∃ s, sendLoop nSendSize nSendOffset vSendMsg (vSendMsg.map fun d ↦ .sent d.length) = some s ∧
      s.vSendMsg = [] ∧ s.failed = false := by
  induction vSendMsg generalizing nSendSize nSendOffset with
  | nil => exact ⟨_, rfl, rfl, rfl⟩
  | cons data vSendMsg ih =>
    have hcursor : nSendOffset < data.length := h.cursor
    have hsize : nSendSize = data.length + (vSendMsg.map List.length).sum := h.size
    have hnext : Queued (nSendSize - data.length) 0 vSendMsg :=
      ⟨by omega, cursor_zero fun g hg ↦ hne g (List.mem_cons_of_mem _ hg)⟩
    obtain ⟨s, hs, hnil, hfailed⟩ := ih hnext fun g hg ↦ hne g (List.mem_cons_of_mem _ hg)
    rw [List.map_cons, sendLoop.eq_def]
    dsimp only
    rw [if_pos hcursor, if_pos (by omega), if_pos (by omega), hs]
    exact ⟨_, rfl, hnil, hfailed⟩

/-- The send side between two calls. -/
structure SendInv (hash : Bytes → Uint256) (start : MessageStart) (node : CNode)
    (msgs : List (Bytes × Bytes)) : Prop where
  ssSend : node.ssSend = []
  queued : Queued node.nSendSize node.nSendOffset node.vSendMsg
  frames : node.vSendMsg <:+ msgs.map (frame hash start)

/-- The bytes that are still to be sent. -/
def pending (node : CNode) : Bytes := remaining node.nSendOffset node.vSendMsg

variable {node : CNode} {msgs : List (Bytes × Bytes)}

theorem SendInv.ne_nil (h : SendInv hash start node msgs) : ∀ data ∈ node.vSendMsg, data ≠ [] := by
  intro data hdata
  obtain ⟨m, -, rfl⟩ := List.mem_map.mp (h.frames.subset hdata)
  exact frame_ne_nil

/-- `SocketSendData` sends the next of the bytes, and its assertions hold. -/
theorem SendInv.socketSendData (h : SendInv hash start node msgs) (results : List SendResult) :
    ∃ node' bytes, node.socketSendData results = some (node', bytes) ∧
      SendInv hash start node' msgs ∧ bytes ++ node'.pending = node.pending := by
  obtain ⟨s, hs, hqueued, hsuffix, hrest⟩ := sendLoop_eq_some h.queued h.ne_nil
    (if node.fDisconnect then [.error] else results)
  have hassert : ¬ (s.vSendMsg = [] ∧ (s.nSendOffset ≠ 0 ∨ s.nSendSize ≠ 0)) := by
    rintro ⟨hnil, hne⟩
    obtain ⟨hsize, hcursor⟩ := hqueued
    rw [hnil] at hsize hcursor
    rcases hne with hne | hne
    · exact hne hcursor
    · exact hne hsize
  rw [CNode.socketSendData, hs]
  dsimp only
  rw [if_neg hassert]
  refine ⟨_, _, rfl, ?_, ?_⟩
  · cases s.failed <;> exact ⟨h.ssSend, hqueued, hsuffix.trans h.frames⟩
  · cases s.failed <;> exact hrest

theorem SendInv.socketSendData_all (h : SendInv hash start node msgs)
    (hconnected : node.fDisconnect = false) :
    ∃ node' bytes, node.socketSendData (node.vSendMsg.map fun d ↦ .sent d.length) =
      some (node', bytes) ∧ node'.vSendMsg = [] ∧ node'.fDisconnect = false := by
  obtain ⟨node', bytes, hsend, -, -⟩ :=
    h.socketSendData (node.vSendMsg.map fun d ↦ .sent d.length)
  obtain ⟨s, hs, hnil, hfailed⟩ := sendLoop_all h.queued h.ne_nil
  refine ⟨node', bytes, hsend, ?_⟩
  rw [CNode.socketSendData, hconnected, if_neg Bool.false_ne_true, hs] at hsend
  dsimp only at hsend
  rw [hnil, hfailed, if_neg Bool.false_ne_true] at hsend
  split at hsend
  · cases hsend
  · obtain ⟨rfl, -⟩ := Prod.mk.inj (Option.some.inj hsend)
    exact ⟨rfl, rfl⟩

/-- `EndMessage` fills in the size and the checksum. -/
theorem endMessage_eq (hssSend : node.ssSend =
      (CMessageHeader.new start m.1 0).serialize ++ m.2) (results : List SendResult) :
    node.endMessage hash results =
      let node' := { node with ssSend := [], vSendMsg := node.vSendMsg ++ [frame hash start m],
                               nSendSize := node.nSendSize + (frame hash start m).length }
      if node.vSendMsg = [] then node'.socketSendData results else some (node', []) := by
  set front := start.pchMessageStart ++ CMessageHeader.strncpy m.1 with hfront
  have hlength : front.length = CMessageHeader.messageSizeOffset := by
    rw [hfront, List.length_append, start.length_eq, CMessageHeader.length_strncpy]
    rfl
  have hbuf : node.ssSend = front ++ bytes32 0 ++ (bytes32 0 ++ m.2) := by
    rw [hssSend, CMessageHeader.serialize, CMessageHeader.new, hfront]
    simp only [List.append_assoc]
  have hbuflength : node.ssSend.length = CMessageHeader.headerSize + m.2.length := by
    simp only [hbuf, List.length_append, hlength, length_bytes32]
    rw [← Nat.add_assoc]
    rfl
  have hsize : node.ssSend.length - CMessageHeader.headerSize = m.2.length := by omega
  -- the two fields that are written over
  have hfirst : memcpy node.ssSend CMessageHeader.messageSizeOffset
      (bytes32 (BitVec.ofNat 32 m.2.length)) =
        front ++ bytes32 (BitVec.ofNat 32 m.2.length) ++ (bytes32 0 ++ m.2) := by
    rw [hbuf]
    exact memcpy_append hlength (by rw [length_bytes32, length_bytes32])
  have hoffset : (front ++ bytes32 (BitVec.ofNat 32 m.2.length)).length =
      CMessageHeader.checksumOffset := by
    rw [List.length_append, hlength, length_bytes32]
    rfl
  have hpayload : (front ++ bytes32 (BitVec.ofNat 32 m.2.length) ++ (bytes32 0 ++ m.2)).drop
      CMessageHeader.headerSize = m.2 := by
    rw [← List.append_assoc]
    refine List.drop_left' ?_
    rw [List.length_append, hoffset, length_bytes32]
    rfl
  have hsecond : memcpy (front ++ bytes32 (BitVec.ofNat 32 m.2.length) ++ (bytes32 0 ++ m.2))
      CMessageHeader.checksumOffset (bytes32 (checksum hash m.2)) = frame hash start m := by
    rw [← List.append_assoc, memcpy_append hoffset (by rw [length_bytes32, length_bytes32])]
    rfl
  have hlarge : ¬ (front ++ bytes32 (BitVec.ofNat 32 m.2.length) ++ (bytes32 0 ++ m.2)).length <
      CMessageHeader.checksumOffset + 4 := by
    rw [← hfirst, length_memcpy, hbuflength]
    · exact Nat.not_lt.mpr (Nat.le_add_right _ _)
    · rw [hbuflength, length_bytes32]
      exact Nat.le_trans (by decide) (Nat.le_add_right _ _)
  have hnonempty : node.ssSend.length ≠ 0 := by
    rw [hbuflength]
    exact Nat.ne_of_gt (Nat.add_pos_left (by decide) _)
  rw [CNode.endMessage, if_neg hnonempty]
  simp only [hsize, hfirst, hpayload, if_neg hlarge, hsecond]

/-- `PushMessage` queues the frame of the message, sends the next of the bytes when nothing was
queued before, and its assertions hold. -/
theorem SendInv.pushMessage (h : SendInv hash start node msgs) (m : Bytes × Bytes)
    (results : List SendResult) :
    ∃ node' bytes, node.pushMessage hash start m.1 m.2 results = some (node', bytes) ∧
      SendInv hash start node' (msgs ++ [m]) ∧
      bytes ++ node'.pending = node.pending ++ frame hash start m := by
  have hbegin : node.beginMessage start m.1 =
      some { node with ssSend := (CMessageHeader.new start m.1 0).serialize } := by
    rw [CNode.beginMessage, h.ssSend]
    rfl
  let node' := { node with ssSend := [], vSendMsg := node.vSendMsg ++ [frame hash start m],
                           nSendSize := node.nSendSize + (frame hash start m).length }
  have hinv : SendInv hash start node' (msgs ++ [m]) := by
    refine ⟨rfl, ⟨?_, h.queued.cursor.append frame_ne_nil⟩, ?_⟩
    · show node.nSendSize + _ = ((node.vSendMsg ++ [frame hash start m]).map List.length).sum
      rw [h.queued.size]
      simp
    · rw [List.map_append]
      exact (List.suffix_append_inj_of_length_eq rfl).mpr ⟨h.frames, rfl⟩
  have hpending : node'.pending = node.pending ++ frame hash start m :=
    h.queued.cursor.remaining_append
  have hpush : node.pushMessage hash start m.1 m.2 results =
      if node.vSendMsg = [] then node'.socketSendData results else some (node', []) := by
    rw [CNode.pushMessage, hbegin]
    exact endMessage_eq rfl results
  rw [hpush, ← hpending]
  split
  · exact hinv.socketSendData results
  · exact ⟨node', [], rfl, hinv, rfl⟩

end CNode

end Bitmark
